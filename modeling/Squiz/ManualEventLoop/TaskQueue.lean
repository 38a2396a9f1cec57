import Squiz.Lib.LinkPath
import Squiz.Lib.System

/-! The queue of `manual_event_loop` through the pointers of its tasks, with the mutex held by every
operation. -/
namespace Squiz.ManualEventLoop
open Squiz.Lib
open scoped List

structure TaskQueue (α : Type*) where
  /-- `head`, and the member `next` of every task -/
  link : Link α → Option α := fun _ => none
  prevNext : α → Option (Link α) := fun _ => none
  lastNext : Link α := .head

namespace TaskQueue
variable {α : Type*} [DecidableEq α] (q : TaskQueue α)

/-- `*link = item` -/
def setLink (link : Link α) (item : Option α) : TaskQueue α :=
  { q with link := Function.update q.link link item }

/-- `item->prev_next = link` -/
def setPrevNext (item : α) (link : Option (Link α)) : TaskQueue α :=
  { q with prevNext := Function.update q.prevNext item link }

def setLastNext (link : Link α) : TaskQueue α := { q with lastNext := link }

def tryDequeue : Option (α × TaskQueue α) :=
  (q.link .head).map fun item =>
    let q := q.setLink .head (q.link (.next item))
    let q :=
      match q.link .head with
      | some head => q.setPrevNext head (some .head)
      | none => q.setLastNext .head
    (item, q.setPrevNext item none)

def enqueue (item : α) : TaskQueue α :=
  ((q.setPrevNext item (some q.lastNext)).setLink q.lastNext (some item)).setLastNext (.next item)

def tryRemove (item : α) : Bool × TaskQueue α :=
  match q.prevNext item with
  | none => (false, q)
  | some prevNext =>
    let q := q.setLink prevNext (q.link (.next item))
    let q :=
      match q.link (.next item) with
      | none => q.setLastNext prevNext
      | some next => q.setPrevNext next (some prevNext)
    (true, q.setPrevNext item none)

end TaskQueue

inductive TaskAction (α : Type*) where
  /-- of a task that was not enqueued before -/
  | enqueue (item : α)
  /-- a thread in `run_impl` takes a task, if there is one, and unlocks the mutex -/
  | tryDequeue
  /-- the thread executes the task that it has taken -/
  | execute (item : α)
  | tryRemove (item : α)

/-- A run over the queue, with what became of the tasks. -/
structure TaskRun (α : Type*) where
  queue : TaskQueue α := {}
  enqueued : List α := []
  dequeued : List α := []
  /-- the tasks that threads have taken and not executed yet -/
  running : List α := []
  executed : List α := []
  /-- the tasks for which `try_remove` returned `true` -/
  removed : List α := []

namespace TaskRun
variable {α : Type*} [DecidableEq α]

def step (s : TaskRun α) : TaskAction α → Option (TaskRun α)
  | .enqueue item =>
    if item ∈ s.enqueued then none
    else some { s with queue := s.queue.enqueue item, enqueued := s.enqueued ++ [item] }
  | .tryDequeue =>
    match s.queue.tryDequeue with
    | none => some s
    | some (item, queue) =>
      some { s with
        queue := queue.setPrevNext item none
        dequeued := s.dequeued ++ [item]
        running := item :: s.running }
  | .execute item =>
    if item ∈ s.running then
      some { s with running := s.running.erase item, executed := s.executed ++ [item] }
    else none
  | .tryRemove item =>
    let (result, queue) := s.queue.tryRemove item
    some { s with queue := queue, removed := if result then s.removed ++ [item] else s.removed }

/-- The tasks that were enqueued and neither dequeued nor removed, in order. -/
def queued (s : TaskRun α) : List α :=
  s.enqueued.filter fun item => item ∉ s.dequeued ∧ item ∉ s.removed

end TaskRun

/-- A `manual_event_loop` from its construction on, with tasks that are constructed with null
pointers. -/
def taskQueue (α : Type*) [DecidableEq α] : System (TaskRun α) (TaskAction α) where
  init := {}
  step := TaskRun.step

/-- The pointers are those of a queue of the tasks. -/
structure TaskQueue.Holds {α : Type*} (q : TaskQueue α) (items : List α) : Prop where
  /-- from `head` through `next` there are these tasks, each with its `prev_next` the link that
  points to it, and then the link `last_next` -/
  path : LinkPath q.link q.prevNext .head items q.lastNext
  last_null : q.link q.lastNext = none
  prevNext_eq_none : ∀ item, q.prevNext item = none ↔ item ∉ items

/-- What a run promises of the tasks. -/
structure TaskRun.Exclusive {α : Type*} [DecidableEq α] (s : TaskRun α) : Prop where
  holds : s.queue.Holds s.queued
  nodup : s.enqueued.Nodup
  /-- every task is queued, taken by a thread, executed or removed -/
  outcome : s.enqueued.Perm (s.queued ++ (s.running ++ s.executed ++ s.removed))
  /-- the threads execute what they took -/
  executes : (s.running ++ s.executed).Perm s.dequeued
  /-- tasks are taken in the order in which they were enqueued, and before those still queued -/
  fifo : (s.dequeued ++ s.queued).Sublist s.enqueued
  takes_first : s.queue.tryDequeue.map Prod.fst = s.queued.head?
  removes_queued : ∀ item, (s.queue.tryRemove item).1 = true ↔ item ∈ s.queued

namespace TaskQueue
variable {α : Type*} [DecidableEq α] {q : TaskQueue α} {items front back : List α} {item : α}

theorem setPrevNext_self (h : q.prevNext item = none) : q.setPrevNext item none = q := by
  have hupdate : Function.update q.prevNext item none = q.prevNext := by
    rw [← h, Function.update_eq_self]
  simp only [setPrevNext, hupdate]

namespace Holds

omit [DecidableEq α] in
theorem init : ({} : TaskQueue α).Holds [] where
  path := rfl
  last_null := rfl
  prevNext_eq_none _ := iff_of_true rfl (List.not_mem_nil)

theorem enqueue (h : q.Holds items) (hitem : item ∉ items) (hnext : q.link (.next item) = none) :
    (q.enqueue item).Holds (items ++ [item]) where
  path := h.path.push h.last_null hitem
  last_null := by
    show Function.update q.link q.lastNext (some item) (.next item) = none
    rw [Function.update_of_ne (h.path.next_ne_last hitem), hnext]
  prevNext_eq_none other := by
    show Function.update q.prevNext item (some q.lastNext) other = none ↔ _
    by_cases hother : other = item
    · subst hother
      simp
    · rw [Function.update_of_ne hother, h.prevNext_eq_none]
      simp [hother]

omit [DecidableEq α] in
theorem notMem_append (hnodup : (front ++ item :: back).Nodup) : item ∉ front ++ back :=
  (List.nodup_cons.mp (List.perm_middle.nodup_iff.mp hnodup)).1

/-- With null pointers back for the tasks not queued, what an operation gives the tasks it keeps and
takes away from the task it removes. -/
theorem prevNext_erase {prevNext : α → Option (Link α)}
    (hnodup : (front ++ item :: back).Nodup)
    (h : ∀ other, prevNext other = none ↔ other ∉ front ++ item :: back) (other : α) :
    Function.update prevNext item none other = none ↔ other ∉ front ++ back := by
  have hnotMem : item ∉ front ++ back := notMem_append hnodup
  by_cases hother : other = item
  · subst hother
    simpa using hnotMem
  · rw [Function.update_of_ne hother, h]
    simp [hother]

theorem prevNext_update {prevNext : α → Option (Link α)} {next : α} {link : Link α}
    (h : ∀ other, prevNext other = none ↔ other ∉ items) (hnext : next ∈ items) (other : α) :
    Function.update prevNext next (some link) other = none ↔ other ∉ items := by
  by_cases hother : other = next
  · subst hother
    simpa using hnext
  · rw [Function.update_of_ne hother, h]

/-- A task is taken out of the queue. -/
theorem tryRemove (h : q.Holds (front ++ item :: back)) (hnodup : (front ++ item :: back).Nodup) :
    (q.tryRemove item).1 = true ∧ (q.tryRemove item).2.Holds (front ++ back) := by
  obtain ⟨link, hfront, hitem, hlink, hrest⟩ := h.path.of_append
  have hnotMem : item ∉ front ++ back := notMem_append hnodup
  have hne : q.lastNext ≠ link := by
    rintro rfl
    rw [h.last_null] at hitem
    cases hitem
  cases back with
  | nil =>
    obtain ⟨hlast, hpath⟩ := h.path.unlinkLast hlink hnodup
    have hnull : q.link (.next item) = none := by rw [← hlast, h.last_null]
    have hself : Link.next item ≠ link := by rwa [← hlast]
    have hremove : q.tryRemove item
        = (true, ((q.setLink link none).setLastNext link).setPrevNext item none) := by
      simp only [TaskQueue.tryRemove, hlink, hnull, setLink, Function.update_of_ne hself]
    rw [hremove]
    refine ⟨rfl, ?_, ?_, prevNext_erase hnodup h.prevNext_eq_none⟩
    · rw [List.append_nil]
      exact hpath.updateBack (by simpa using hnotMem) none
    · exact Function.update_self ..
  | cons next rest =>
    have hnext : q.link (.next item) = some next := hrest.1
    have hself : Link.next item ≠ link := by
      rintro rfl
      rw [hnext] at hitem
      cases hitem
      simp at hnotMem
    have hremove : q.tryRemove item
        = (true, ((q.setLink link (some next)).setPrevNext next (some link)).setPrevNext item
          none) := by
      simp only [TaskQueue.tryRemove, hlink, hnext, setLink, Function.update_of_ne hself]
    have hmem : next ∈ front ++ item :: next :: rest := by simp
    rw [hremove]
    refine ⟨rfl, ?_, ?_, prevNext_erase hnodup (prevNext_update h.prevNext_eq_none hmem)⟩
    · exact (h.path.unlink hlink hnodup).updateBack hnotMem none
    · show Function.update q.link link (some next) q.lastNext = none
      rw [Function.update_of_ne hne, h.last_null]

theorem tryRemove_notMem (h : q.Holds items) (hitem : item ∉ items) :
    q.tryRemove item = (false, q) := by
  simp only [TaskQueue.tryRemove, (h.prevNext_eq_none item).mpr hitem]

theorem tryRemove_iff (h : q.Holds items) (hnodup : items.Nodup) :
    (q.tryRemove item).1 = true ↔ item ∈ items := by
  constructor
  · intro htrue
    by_contra hitem
    rw [h.tryRemove_notMem hitem] at htrue
    cases htrue
  · intro hitem
    obtain ⟨front, back, rfl⟩ := List.append_of_mem hitem
    exact (h.tryRemove hnodup).1

/-- The members `next` of the tasks outside the queue are not written. -/
theorem tryRemove_next (h : q.Holds items) {other : α} (hother : other ∉ items) :
    (q.tryRemove item).2.link (.next other) = q.link (.next other) := by
  by_cases hitem : item ∈ items
  · obtain ⟨front, back, rfl⟩ := List.append_of_mem hitem
    obtain ⟨link, hfront, -, hlink, -⟩ := h.path.of_append
    have hne : Link.next other ≠ link :=
      hfront.next_ne_last fun hmem => hother (List.mem_append_left _ hmem)
    simp only [TaskQueue.tryRemove, hlink]
    split <;> exact Function.update_of_ne hne ..
  · rw [h.tryRemove_notMem hitem]

theorem tryDequeue_nil (h : q.Holds []) : q.tryDequeue = none := by
  have hnull : q.link .head = none := by
    have hlast : Link.head = q.lastNext := h.path
    rw [hlast, h.last_null]
  simp only [TaskQueue.tryDequeue, hnull, Option.map_none]

/-- Taking the first task is removing it. -/
theorem tryDequeue_cons (h : q.Holds (item :: back)) :
    q.tryDequeue = some (item, (q.tryRemove item).2) := by
  obtain ⟨hlink, hprev, -⟩ := h.path
  have hne : Link.next item ≠ .head := nofun
  simp only [TaskQueue.tryDequeue, TaskQueue.tryRemove, hlink, hprev, Option.map_some, setLink,
    Function.update_self, Function.update_of_ne hne]
  cases q.link (.next item) <;> rfl

end Holds
end TaskQueue

namespace TaskRun
variable {α : Type*} [DecidableEq α] {s t : TaskRun α} {item : α} {back : List α}

/-- What every reachable state keeps. -/
structure Inv (s : TaskRun α) : Prop where
  holds : s.queue.Holds s.queued
  nodup : s.enqueued.Nodup
  /-- the member `next` of a task is null until it is enqueued -/
  fresh : ∀ item, item ∉ s.enqueued → s.queue.link (.next item) = none
  outcome : s.enqueued.Perm (s.queued ++ (s.running ++ s.executed ++ s.removed))
  executes : (s.running ++ s.executed).Perm s.dequeued
  fifo : (s.dequeued ++ s.queued).Sublist s.enqueued

theorem mem_queued :
    item ∈ s.queued ↔ item ∈ s.enqueued ∧ item ∉ s.dequeued ∧ item ∉ s.removed := by
  simp [queued]

theorem queued_nodup (h : s.enqueued.Nodup) : s.queued.Nodup := h.filter _

/-- A task that was just taken or removed is queued no longer. -/
theorem queued_eq_erase (h : s.enqueued.Nodup) (henqueued : t.enqueued = s.enqueued)
    (hleft : ∀ other, other ∈ t.dequeued ∨ other ∈ t.removed ↔
      other = item ∨ other ∈ s.dequeued ∨ other ∈ s.removed) :
    t.queued = s.queued.erase item := by
  rw [(queued_nodup h).erase_eq_filter, queued, queued, henqueued, List.filter_filter]
  apply List.filter_congr
  intro other _
  have hother := hleft other
  grind

namespace Inv

theorem init : ({} : TaskRun α).Inv where
  holds := .init
  nodup := List.nodup_nil
  fresh _ _ := rfl
  outcome := .refl _
  executes := .refl _
  fifo := List.Sublist.refl _

theorem of_dequeued (h : s.Inv) (hitem : item ∈ s.dequeued) : item ∈ s.enqueued :=
  h.fifo.subset (List.mem_append_left _ hitem)

theorem of_removed (h : s.Inv) (hitem : item ∈ s.removed) : item ∈ s.enqueued :=
  h.outcome.mem_iff.mpr (List.mem_append_right _ (List.mem_append_right _ hitem))

theorem enqueue (h : s.Inv) (hitem : item ∉ s.enqueued) :
    Inv { s with queue := s.queue.enqueue item, enqueued := s.enqueued ++ [item] } := by
  have hqueued : queued { s with queue := s.queue.enqueue item, enqueued := s.enqueued ++ [item] }
      = s.queued ++ [item] := by
    have hdequeued : item ∉ s.dequeued := fun hmem => hitem (h.of_dequeued hmem)
    have hremoved : item ∉ s.removed := fun hmem => hitem (h.of_removed hmem)
    simp [queued, List.filter_append, hdequeued, hremoved]
  have hnot : item ∉ s.queued := fun hmem => hitem (mem_queued.mp hmem).1
  refine ⟨?_, ?_, ?_, ?_, h.executes, ?_⟩
  · rw [hqueued]
    exact h.holds.enqueue hnot (h.fresh item hitem)
  · exact List.nodup_append.mpr ⟨h.nodup, List.pairwise_singleton _ item, by grind⟩
  · intro other hother
    have hold : other ∉ s.enqueued := fun hmem => hother (List.mem_append_left _ hmem)
    have hne : Link.next other ≠ s.queue.lastNext :=
      h.holds.path.next_ne_last fun hmem => hold (mem_queued.mp hmem).1
    show Function.update s.queue.link s.queue.lastNext (some item) (.next other) = none
    rw [Function.update_of_ne hne, h.fresh other hold]
  · rw [hqueued, List.append_assoc]
    exact (h.outcome.append_right [item]).trans <| by
      rw [List.append_assoc]
      exact List.perm_append_comm.append_left _
  · rw [hqueued, ← List.append_assoc]
    exact h.fifo.append (List.Sublist.refl _)

/-- A task that was queued is taken out of the queue, by a thread or by `try_remove`. -/
theorem leave (h : s.Inv) (hitem : item ∈ s.queued) (henqueued : t.enqueued = s.enqueued)
    (hqueue : t.queue = (s.queue.tryRemove item).2)
    (hleft : ∀ other, other ∈ t.dequeued ∨ other ∈ t.removed ↔
      other = item ∨ other ∈ s.dequeued ∨ other ∈ s.removed)
    (houtcome : (t.running ++ t.executed ++ t.removed).Perm
      (item :: (s.running ++ s.executed ++ s.removed)))
    (hexecutes : (t.running ++ t.executed).Perm t.dequeued)
    (hfifo : (t.dequeued ++ s.queued.erase item).Sublist (s.dequeued ++ s.queued)) : t.Inv := by
  have hqueued : t.queued = s.queued.erase item := queued_eq_erase h.nodup henqueued hleft
  refine ⟨?_, ?_, ?_, ?_, hexecutes, ?_⟩
  · obtain ⟨front, back, hsplit⟩ := List.append_of_mem hitem
    have hnodup : (front ++ item :: back).Nodup := by
      rw [← hsplit]
      exact queued_nodup h.nodup
    have hfront : item ∉ front := fun hmem =>
      TaskQueue.Holds.notMem_append hnodup (List.mem_append_left _ hmem)
    rw [hqueued, hqueue, hsplit, List.erase_append_right _ hfront, List.erase_cons_head]
    exact ((hsplit ▸ h.holds).tryRemove hnodup).2
  · rw [henqueued]
    exact h.nodup
  · intro other hother
    rw [henqueued] at hother
    rw [hqueue, h.holds.tryRemove_next fun hmem => hother (mem_queued.mp hmem).1]
    exact h.fresh other hother
  · rw [henqueued, hqueued]
    calc s.enqueued
      _ ~ s.queued ++ (s.running ++ s.executed ++ s.removed) := h.outcome
      _ ~ (item :: s.queued.erase item) ++ (s.running ++ s.executed ++ s.removed) :=
        (List.perm_cons_erase hitem).append_right _
      _ ~ s.queued.erase item ++ (item :: (s.running ++ s.executed ++ s.removed)) :=
        List.perm_middle.symm
      _ ~ s.queued.erase item ++ (t.running ++ t.executed ++ t.removed) :=
        houtcome.symm.append_left _
  · rw [henqueued, hqueued]
    exact hfifo.trans h.fifo

theorem tryDequeue (h : s.Inv) (hqueued : s.queued = item :: back) :
    s.queue.tryDequeue = some (item, (s.queue.tryRemove item).2) ∧
    Inv { s with
      queue := (s.queue.tryRemove item).2.setPrevNext item none
      dequeued := s.dequeued ++ [item]
      running := item :: s.running } := by
  have hholds : s.queue.Holds (item :: back) := hqueued ▸ h.holds
  have hnodup : (item :: back).Nodup := hqueued ▸ queued_nodup h.nodup
  have hitem : item ∈ s.queued := by
    rw [hqueued]
    exact List.mem_cons_self
  have hrest : (s.queue.tryRemove item).2.Holds back :=
    ((show s.queue.Holds ([] ++ item :: back) from hholds).tryRemove hnodup).2
  have hnull : (s.queue.tryRemove item).2.prevNext item = none :=
    (hrest.prevNext_eq_none item).mpr (List.nodup_cons.mp hnodup).1
  refine ⟨hholds.tryDequeue_cons, ?_⟩
  rw [TaskQueue.setPrevNext_self hnull]
  have hleft : ∀ other, other ∈ s.dequeued ++ [item] ∨ other ∈ s.removed ↔
      other = item ∨ other ∈ s.dequeued ∨ other ∈ s.removed := by
    intro other
    rw [List.mem_append, List.mem_singleton, or_assoc, or_left_comm]
  refine h.leave hitem rfl rfl hleft (.refl _) ?_ ?_
  · exact (h.executes.cons item).trans (List.perm_append_singleton item _).symm
  · rw [hqueued, List.erase_cons_head, List.append_assoc]
    exact List.Sublist.refl _

theorem tryRemove (h : s.Inv) (hitem : item ∈ s.queued) :
    Inv { s with queue := (s.queue.tryRemove item).2, removed := s.removed ++ [item] } := by
  have hleft : ∀ other, other ∈ s.dequeued ∨ other ∈ s.removed ++ [item] ↔
      other = item ∨ other ∈ s.dequeued ∨ other ∈ s.removed := by
    intro other
    rw [List.mem_append, List.mem_singleton, ← or_assoc, or_comm]
  refine h.leave hitem rfl rfl hleft ?_ h.executes ?_
  · rw [← List.append_assoc]
    exact List.perm_append_singleton item _
  · exact List.erase_sublist.append_left _

theorem execute (h : s.Inv) (hitem : item ∈ s.running) :
    Inv { s with running := s.running.erase item, executed := s.executed ++ [item] } := by
  have hmove : s.running.erase item ++ (s.executed ++ [item]) ~ s.running ++ s.executed := by
    rw [← List.append_assoc]
    calc s.running.erase item ++ s.executed ++ [item]
      _ ~ item :: (s.running.erase item ++ s.executed) := List.perm_append_singleton item _
      _ ~ s.running ++ s.executed := (List.perm_cons_erase hitem).symm.append_right _
  refine ⟨h.holds, h.nodup, h.fresh, ?_, hmove.trans h.executes, h.fifo⟩
  exact h.outcome.trans ((hmove.symm.append_right _).append_left _)

theorem step (h : s.Inv) {a : TaskAction α} (ht : s.step a = some t) : t.Inv := by
  cases a with
  | enqueue item =>
    simp only [TaskRun.step] at ht
    split_ifs at ht with hitem
    cases ht
    exact h.enqueue hitem
  | tryDequeue =>
    simp only [TaskRun.step] at ht
    cases hqueued : s.queued with
    | nil =>
      rw [(hqueued ▸ h.holds : s.queue.Holds []).tryDequeue_nil] at ht
      cases ht
      exact h
    | cons item back =>
      obtain ⟨hdequeue, hinv⟩ := h.tryDequeue hqueued
      rw [hdequeue] at ht
      cases ht
      exact hinv
  | execute item =>
    simp only [TaskRun.step] at ht
    split_ifs at ht with hitem
    cases ht
    exact h.execute hitem
  | tryRemove item =>
    simp only [TaskRun.step] at ht
    by_cases hitem : item ∈ s.queued
    · rw [(h.holds.tryRemove_iff (queued_nodup h.nodup)).mpr hitem] at ht
      cases ht
      exact h.tryRemove hitem
    · rw [h.holds.tryRemove_notMem hitem] at ht
      cases ht
      exact h

theorem exclusive (h : s.Inv) : s.Exclusive where
  holds := h.holds
  nodup := h.nodup
  outcome := h.outcome
  executes := h.executes
  fifo := h.fifo
  takes_first := by
    cases hqueued : s.queued with
    | nil =>
      rw [(hqueued ▸ h.holds : s.queue.Holds []).tryDequeue_nil]
      rfl
    | cons item back =>
      rw [(h.tryDequeue hqueued).1]
      rfl
  removes_queued _ := h.holds.tryRemove_iff (queued_nodup h.nodup)

end Inv

/-- Every task that is enqueued is executed once by a thread that took it in its turn, or removed
once, or still in the queue of pointers. -/
theorem queue_exclusive (h : (taskQueue α).Reachable s) : s.Exclusive :=
  (h.invariant (P := Inv) Inv.init fun _ _ _ hs _ ht => hs.step ht).exclusive

theorem queue_exclusive_run :
    ∃ s : TaskRun ℕ, s.Exclusive ∧ (s.queued, s.executed, s.removed) = ([4], [1, 3], [2]) := by
  obtain ⟨s, hs, houtcome⟩ := System.exists_reachable (S := taskQueue ℕ)
    [.enqueue 1, .enqueue 2, .tryDequeue, .enqueue 3, .tryRemove 2, .tryRemove 1, .execute 1,
      .enqueue 4, .tryDequeue, .execute 3]
    (fun s => (s.queued, s.executed, s.removed) = ([4], [1, 3], [2])) (by decide)
  exact ⟨s, queue_exclusive hs, of_decide_eq_true houtcome⟩

end TaskRun
end Squiz.ManualEventLoop
