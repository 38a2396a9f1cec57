import Squiz.Lib.History
import Squiz.Lib.SourceOrder
import Squiz.LinuxOS.RunLoop.WakeUp

/-! Every item that is queued for the I/O thread is executed once, in the order of the thread that
has queued it, unless a stop request removes it. -/
namespace Squiz.LinuxOS.RunLoop
open Squiz.Lib

/-- About to block, or blocked, in `submit_and_wait_until`. -/
def Pc.waits {O : Type} : Pc O → Bool
  | .submitAndWaitUntil | .blocked => true
  | _ => false

namespace Loop
variable {T O : Type} [DecidableEq T] [DecidableEq O] {cfg : Config} {s t : Loop T O}
  {history : List (SourceEvent (Option T) (Item O))}

/-- What is queued for the I/O thread, in the order in which it will be executed. -/
def pending (s : Loop T O) : List (Item O) := s.readyToRun ++ s.remote.items

/-- What a stop request that is carried out takes out of the queues. -/
def removal (s : Loop T O) (item : Item O) : List (SourceEvent (Option T) (Item O)) :=
  if (s.remote.items ++ s.readyToRun).contains item then
    match item with
    | .io x => if s.Submitted x then [] else [.removed item]
    | .scheduled _ => [.removed item]
  else []

/-- What a step does to the queue of the I/O thread, where `none` is that thread itself. -/
def queueEvents (s : Loop T O) : Act T O → List (SourceEvent (Option T) (Item O))
  | .start (.scheduled x) => [.queued none (.scheduled x)]
  | .startRemote t item => [.queued (some t) item]
  | .requestStop item => s.removal item
  | .io =>
    match s.pc with
    | .ready i =>
      match s.readyToRun with
      | item :: _ => if i < 100 then [.taken item] else []
      | [] => []
    | .stopItems (item :: _) => s.removal item
    | _ => []
  | _ => []

structure Ordered (history : List (SourceEvent (Option T) (Item O))) (s : Loop T O) : Prop where
  order : KeepsOrder history s.pending
  started : ∀ item ∈ queuedItems history, s.started item = true
  remote : ∀ item ∈ s.remote.items, item ∉ itemsQueuedBy history none
  waits : s.pc.waits = true → s.readyToRun = []

theorem Ordered.init : Ordered [] (system T O cfg).init where
  order := .nil
  started := fun _ h => by cases h
  remote := fun _ h => by cases h
  waits := fun h => by cases h

/-- A step that has nothing to do with the queue. -/
theorem Ordered.frame (h : Ordered history s) (hready : t.readyToRun = s.readyToRun)
    (hremote : t.remote.items = s.remote.items)
    (hstarted : ∀ item, s.started item = true → t.started item = true)
    (hpc : t.pc.waits = true → s.pc.waits = true ∨ s.readyToRun = []) :
    Ordered (history ++ []) t := by
  rw [List.append_nil]
  constructor
  · rw [pending, hready, hremote]
    exact h.order
  · exact fun item hitem => hstarted item (h.started item hitem)
  · rw [hremote]
    exact h.remote
  · intro hwaits
    rw [hready]
    rcases hpc hwaits with hold | hnil
    · exact h.waits hold
    · exact hnil

omit [DecidableEq T] [DecidableEq O] in
/-- The items that other threads have queued come to the end of the ready queue. -/
theorem acquireRemoteItems_eq (s : Loop T O) :
    s.acquireRemoteItems.readyToRun = s.pending ∧ s.acquireRemoteItems.remote.items = [] ∧
      s.acquireRemoteItems.started = s.started ∧ s.acquireRemoteItems.pc = s.pc := by
  unfold acquireRemoteItems
  split_ifs with hactive
  · exact ⟨rfl, rfl, rfl, rfl⟩
  · have hnil := s.remote.empty (Bool.of_not_eq_true hactive)
    refine ⟨?_, hnil, rfl, rfl⟩
    rw [pending, hnil, List.append_nil]

theorem Ordered.acquire (h : Ordered history s) (hpc : s.pc.waits = false) :
    Ordered history s.acquireRemoteItems := by
  obtain ⟨hready, hremote, hstarted, hpc'⟩ := s.acquireRemoteItems_eq
  constructor
  · rw [pending, hready, hremote, List.append_nil]
    exact h.order
  · rw [hstarted]
    exact h.started
  · rw [hremote]
    intro item hitem
    cases hitem
  · intro hwaits
    rw [hpc', hpc] at hwaits
    cases hwaits

theorem Ordered.removeQueued (h : Ordered history s) (hpc : s.pc.waits = false) (item : Item O) :
    Ordered (history ++ if item ∈ s.remote.items ++ s.readyToRun then [.removed item] else [])
      (s.removeQueued item) := by
  unfold Loop.removeQueued
  split_ifs with hmem
  · have hacquired := h.acquire hpc
    obtain ⟨hready, hremote, hstarted, hpc'⟩ := s.acquireRemoteItems_eq
    have hpending : item ∈ s.pending := by
      rw [pending, List.mem_append]
      exact (List.mem_append.mp hmem).symm
    constructor
    · have herase : ({ s.acquireRemoteItems with
          readyToRun := s.acquireRemoteItems.readyToRun.erase item } : Loop T O).pending =
          s.pending.erase item := by
        simp only [pending, hready, hremote, List.append_nil]
      rw [herase]
      exact h.order.remove hpending
    · intro other hother
      rw [queuedItems_removed] at hother
      exact hacquired.started other hother
    · intro other hother
      rw [itemsQueuedBy_removed]
      exact hacquired.remote other hother
    · intro hwaits
      rw [show _ = s.pc from hpc', hpc] at hwaits
      cases hwaits
  · have hframe : ∀ u : Loop T O, u.readyToRun = s.readyToRun → u.remote = s.remote →
        u.started = s.started → u.pc = s.pc → Ordered (history ++ []) u := by
      intro u hready hremote hstarted hpc'
      apply h.frame hready (by rw [hremote]) (fun item hitem => by rw [hstarted, hitem])
      intro hwaits
      rw [hpc', hpc] at hwaits
      cases hwaits
    cases item with
    | io x => exact hframe _ rfl rfl rfl rfl
    | scheduled x => exact hframe _ rfl rfl rfl rfl

theorem Ordered.busy (h : Ordered history s) (busy : Bool) :
    Ordered history { s with busy := busy } :=
  ⟨h.order, h.started, h.remote, h.waits⟩

theorem Ordered.requestStop (h : Ordered history s) (hpc : s.pc.waits = false)
    {item : Item O} :
    Ordered (history ++ s.removal item) (requestStopFromIoThread cfg s item) := by
  have hremoved := (h.removeQueued hpc item).busy true
  cases item with
  | io x =>
    simp only [requestStopFromIoThread, removal, List.contains_iff_mem]
    by_cases hsubmitted : s.Submitted x
    · rw [if_pos hsubmitted, if_pos hsubmitted, ite_self]
      unfold submitCancelFor
      split_ifs
      · exact h.frame rfl rfl (fun _ => id) .inl
      · exact h.frame rfl rfl (fun _ => id) .inl
    · rw [if_neg hsubmitted, if_neg hsubmitted]
      exact hremoved
  | scheduled x =>
    simp only [removal, List.contains_iff_mem]
    exact hremoved

omit [DecidableEq T] [DecidableEq O] in
theorem trySubmitSqe_frame (cfg : Config) (s : Loop T O) (x : O) :
    (trySubmitSqe cfg s x).readyToRun = s.readyToRun ∧
      (trySubmitSqe cfg s x).remote = s.remote ∧
      (trySubmitSqe cfg s x).started = s.started ∧ (trySubmitSqe cfg s x).pc = s.pc := by
  unfold trySubmitSqe
  split_ifs <;> exact ⟨rfl, rfl, rfl, rfl⟩

theorem Ordered.execute {item : Item O} {items : List (Item O)} {pc : Pc O}
    (h : Ordered history s) (hready : s.readyToRun = item :: items) (hpc : pc.waits = false) :
    Ordered (history ++ [.taken item])
      (execute cfg { s with pc := pc, readyToRun := items } item) := by
  have htaken : Ordered (history ++ [.taken item]) { s with pc := pc, readyToRun := items } := by
    constructor
    · apply KeepsOrder.take
      have horder := h.order
      rwa [pending, hready] at horder
    · rw [queuedItems_taken]
      exact h.started
    · intro other hother
      rw [itemsQueuedBy_taken]
      exact h.remote other hother
    · intro hwaits
      rw [show _ = pc from rfl, hpc] at hwaits
      cases hwaits
  cases item with
  | io x =>
    simp only [Loop.execute]
    split_ifs
    · exact htaken
    · obtain ⟨hready', hremote, hstarted, hpc'⟩ :=
        trySubmitSqe_frame cfg { s with pc := pc, readyToRun := items } x
      have hframe := htaken.frame hready' (by rw [hremote]) (fun item hitem => by
        rw [hstarted, hitem]) (fun hwaits => .inl (hpc' ▸ hwaits))
      rwa [List.append_nil] at hframe
  | scheduled x => exact htaken.busy true

theorem Ordered.ioStep (h : Ordered history s) (ht : s.ioStep cfg = some t) :
    Ordered (history ++ s.queueEvents .io) t := by
  unfold Loop.ioStep at ht
  simp only [queueEvents]
  cases hpc : s.pc with
  | exited | blocked | getEvents | submit =>
    rw [hpc] at ht
    cases ht
  | loopTop | markRemote | markRemoteStop =>
    simp only [hpc] at ht
    cases ht
    refine h.frame rfl rfl (fun _ => id) ?_
    intro hwaits
    dsimp only at hwaits
    split_ifs at hwaits <;> cases hwaits
  | gotEvents | noEvents =>
    simp only [hpc] at ht
    cases ht
    refine h.frame rfl rfl (fun _ => id) ?_
    intro hwaits
    dsimp only at hwaits
    split_ifs at hwaits <;> cases hwaits
  | ready i =>
    simp only [hpc] at ht
    have htimers : Ordered (history ++ []) { s with pc := .timers } :=
      h.frame rfl rfl (fun _ => id) (fun hwaits => by cases hwaits)
    split at ht
    · next hready =>
      cases ht
      simpa only [hready] using htimers
    · next item items hready =>
      split_ifs at ht with hlimit
      · cases ht
        have htaken : Ordered (history ++ [.taken item])
            (Loop.execute cfg { s with pc := .ready (i + 1), readyToRun := items } item) :=
          h.execute hready rfl
        simpa only [hready, if_pos hlimit] using htaken
      · cases ht
        simpa only [hready, if_neg hlimit] using htimers
  | timers =>
    simp only [hpc] at ht
    cases ht
    exact h.frame rfl rfl (fun _ => id) (fun hwaits => by cases hwaits)
  | cqes n =>
    cases n with
    | zero =>
      simp only [hpc] at ht
      cases ht
      refine h.frame rfl rfl (fun _ => id) ?_
      intro hwaits
      dsimp only at hwaits
      split_ifs at hwaits <;> cases hwaits
    | succ n =>
      simp only [hpc] at ht
      split at ht
      · cases ht
      · next cqe cq hcq =>
        cases ht
        cases cqe <;> exact h.frame rfl rfl (fun _ => id) (fun hwaits => by cases hwaits)
  | acquireRemoteItems =>
    simp only [hpc] at ht
    cases ht
    have hacquired := h.acquire (by rw [hpc]; rfl)
    exact hacquired.frame rfl rfl (fun _ => id) (fun hwaits => by cases hwaits)
  | executeRemoteStopItems =>
    simp only [hpc] at ht
    split_ifs at ht <;> cases ht
    · exact h.frame rfl rfl (fun _ => id) (fun hwaits => by cases hwaits)
    · exact h.frame rfl rfl (fun _ => id) (fun hwaits => by cases hwaits)
  | stopItems items =>
    cases items with
    | nil =>
      simp only [hpc] at ht
      cases ht
      exact h.frame rfl rfl (fun _ => id) (fun hwaits => by cases hwaits)
    | cons item items =>
      simp only [hpc] at ht ⊢
      cases ht
      have hmoved : Ordered history { s with pc := .stopItems items } :=
        ⟨h.order, h.started, h.remote, fun hwaits => by cases hwaits⟩
      exact hmoved.requestStop rfl
  | select =>
    simp only [hpc] at ht
    cases ht
    refine h.frame rfl rfl (fun _ => id) ?_
    intro hwaits
    right
    by_contra hne
    dsimp only at hwaits
    rw [if_neg hne] at hwaits
    cases hwaits
  | submitAndWaitUntil =>
    simp only [hpc] at ht
    cases ht
    exact h.frame rfl rfl (fun _ => id) (fun _ => .inl (by rw [hpc]; rfl))
  | submitWaitForWakeUp =>
    simp only [hpc] at ht
    split_ifs at ht <;> cases ht
    · exact h.frame rfl rfl (fun _ => id) (fun hwaits => by cases hwaits)
    · exact h.frame rfl rfl (fun _ => id) (fun hwaits => by cases hwaits)

/-- An item that was not started before was not queued either. -/
theorem Ordered.fresh (h : Ordered history s) {item : Item O} (hitem : s.started item = false) :
    item ∉ queuedItems history := by
  intro hmem
  rw [h.started item hmem] at hitem
  cases hitem

/-- `start()` of an item that is queued, behind the items `l` and before the items `r`. -/
theorem Ordered.queue (h : Ordered history s) {item : Item O} {src : Option T}
    {l r : List (Item O)} (hitem : s.started item = false) (hpending : s.pending = l ++ r)
    (hr : ∀ b ∈ r, b ∉ itemsQueuedBy history src)
    (htpending : t.pending = l ++ item :: r)
    (hstarted : t.started = Function.update s.started item true)
    (hremote : ∀ b ∈ t.remote.items, b ∈ s.remote.items ∧ b ≠ item ∨ src ≠ none)
    (hnone : src ≠ none → ∀ b ∈ t.remote.items, b = item ∨ b ∈ s.remote.items)
    (hwaits : t.pc.waits = true → t.readyToRun = []) :
    Ordered (history ++ [.queued src item]) t := by
  have hfresh := h.fresh hitem
  constructor
  · rw [htpending]
    exact KeepsOrder.queue (hpending ▸ h.order) hfresh hr
  · intro b hb
    rw [queuedItems_queued] at hb
    rw [hstarted]
    by_cases hbi : b = item
    · subst hbi
      exact Function.update_self ..
    · rw [Function.update_of_ne hbi]
      apply h.started
      simpa [hbi] using hb
  · intro b hb
    rw [itemsQueuedBy_queued]
    by_cases hsrc : src = none
    · obtain ⟨hold, hbi⟩ := (hremote b hb).resolve_right fun hne => hne hsrc
      rw [if_pos hsrc, List.mem_append, List.mem_singleton, not_or]
      exact ⟨h.remote b hold, hbi⟩
    · rw [if_neg hsrc, List.append_nil]
      rcases hnone hsrc b hb with rfl | hold
      · exact fun hmem => hfresh (mem_queuedItems_of_queuedBy hmem)
      · exact h.remote b hold
  · exact hwaits

theorem Ordered.start (h : Ordered history s) {x : O} (hitem : s.started (.scheduled x) = false)
    (hwaits : s.pc.waits = false) :
    Ordered (history ++ [.queued none (.scheduled x)])
      { s with
        started := Function.update s.started (.scheduled x) true
        readyToRun := s.readyToRun ++ [.scheduled x] } := by
  have hfresh := h.fresh hitem
  apply h.queue hitem rfl h.remote
  · simp [pending]
  · rfl
  · intro b hb
    left
    refine ⟨hb, ?_⟩
    rintro rfl
    exact hfresh (h.order.mem_queued (.inr (.inr (List.mem_append_right _ hb))))
  · exact fun hne => absurd rfl hne
  · intro hpc
    rw [hwaits] at hpc
    cases hpc

theorem Ordered.startRemote (h : Ordered history s) {item : Item O} {i : T}
    (hitem : s.started item = false) {threads : T → Thread O} :
    Ordered (history ++ [.queued (some i) item])
      { s with
        started := Function.update s.started item true
        remote := s.remote.enqueue item
        threads := threads } := by
  apply h.queue (l := s.pending) (r := []) hitem (List.append_nil _).symm
  · intro b hb
    cases hb
  · simp [pending]
  · rfl
  · exact fun b _ => .inr (Option.some_ne_none i)
  · intro _ b hb
    simpa [or_comm] using hb
  · exact h.waits

/-- The I/O thread is not in a callback while it waits. -/
def NotBusy (s : Loop T O) : Prop := s.pc.waits = true → s.busy = false

omit [DecidableEq T] [DecidableEq O] in
theorem NotBusy.of_pc {pc : Pc O} (hpc : t.pc = pc) (hwaits : pc.waits = false) : t.NotBusy := by
  intro hwaits'
  rw [hpc, hwaits] at hwaits'
  cases hwaits'

omit [DecidableEq T] in
theorem NotBusy.ioStep (hbusy : s.busy = false) (ht : s.ioStep cfg = some t) : t.NotBusy := by
  unfold Loop.ioStep at ht
  cases hpc : s.pc with
  | exited | blocked | getEvents | submit =>
    rw [hpc] at ht
    cases ht
  | select | submitAndWaitUntil | loopTop | gotEvents | noEvents | timers | markRemote
  | markRemoteStop =>
    simp only [hpc] at ht
    cases ht
    exact fun _ => hbusy
  | ready i =>
    simp only [hpc] at ht
    split at ht
    · cases ht
      exact fun _ => hbusy
    · split_ifs at ht <;> cases ht
      · exact .of_pc (quiet_execute _).pc rfl
      · exact fun _ => hbusy
  | cqes n =>
    cases n with
    | zero =>
      simp only [hpc] at ht
      cases ht
      exact fun _ => hbusy
    | succ n =>
      simp only [hpc] at ht
      split at ht
      · cases ht
      · next cqe cq hcq =>
        cases ht
        cases cqe <;> exact .of_pc rfl rfl
  | acquireRemoteItems =>
    simp only [hpc] at ht
    cases ht
    exact .of_pc rfl rfl
  | executeRemoteStopItems =>
    simp only [hpc] at ht
    split_ifs at ht <;> cases ht <;> exact fun _ => hbusy
  | stopItems items =>
    cases items with
    | nil =>
      simp only [hpc] at ht
      cases ht
      exact fun _ => hbusy
    | cons item items =>
      simp only [hpc] at ht
      cases ht
      exact .of_pc (quiet_requestStopFromIoThread item).pc rfl
  | submitWaitForWakeUp =>
    simp only [hpc] at ht
    split_ifs at ht <;> cases ht <;> exact fun _ => hbusy

theorem NotBusy.step {a : Act T O} (h : s.NotBusy) (ht : s.step cfg a = some t) : t.NotBusy := by
  have hbusy : s.busy = true → s.pc.waits = false := by
    intro hbusy
    by_contra hwaits
    rw [h (Bool.of_not_eq_false hwaits)] at hbusy
    cases hbusy
  cases a with
  | io =>
    simp only [Loop.step] at ht
    split_ifs at ht with hbusy'
    exact .ioStep (Bool.of_not_eq_true hbusy') ht
  | run =>
    simp only [Loop.step] at ht
    split_ifs at ht
    cases ht
    exact .of_pc rfl rfl
  | timerDue =>
    simp only [Loop.step] at ht
    split_ifs at ht with hen
    cases ht
    exact .of_pc hen.1 rfl
  | ret ec =>
    simp only [Loop.step] at ht
    split_ifs at ht
    cases ht
    intro hwaits
    cases ec <;> simp only [afterCall] at hwaits <;> try cases hwaits
    split_ifs at hwaits <;> cases hwaits
  | start item =>
    simp only [Loop.step] at ht
    split_ifs at ht with hen
    have hwaits := hbusy hen.1
    cases item with
    | scheduled x =>
      cases ht
      exact .of_pc rfl hwaits
    | io x =>
      cases ht
      exact .of_pc (quiet_trySubmitSqe x).pc hwaits
  | requestStop item =>
    simp only [Loop.step] at ht
    split_ifs at ht with hen
    cases ht
    exact .of_pc (quiet_requestStopFromIoThread item).pc (hbusy hen.1)
  | finish =>
    simp only [Loop.step] at ht
    split_ifs at ht
    cases ht
    exact fun _ => rfl
  | startRemote i item =>
    simp only [Loop.step] at ht
    split at ht <;> cases ht
    exact h
  | receive | scheduleStopRequestRemote i =>
    simp only [Loop.step] at ht
    split at ht <;> cases ht
    exact h
  | complete i =>
    simp only [Loop.step] at ht
    split at ht
    · cases ht
    · split_ifs at ht
      cases ht
      exact h
    · cases ht
      exact h
  | requestStopRemote | wakeUp | stopCallback | stopCallbackWakeUp =>
    simp only [Loop.step] at ht
    split_ifs at ht
    cases ht
    exact h

theorem Ordered.step {a : Act T O} (h : Ordered history s) (hb : s.NotBusy)
    (ht : s.step cfg a = some t) : Ordered (history ++ s.queueEvents a) t := by
  have hbusy : s.busy = true → s.pc.waits = false := by
    intro hbusy
    by_contra hwaits
    rw [hb (Bool.of_not_eq_false hwaits)] at hbusy
    cases hbusy
  cases a with
  | io =>
    simp only [Loop.step] at ht
    split_ifs at ht
    exact h.ioStep ht
  | run =>
    simp only [Loop.step] at ht
    split_ifs at ht
    cases ht
    exact h.frame rfl rfl (fun _ => id) (fun hwaits => by cases hwaits)
  | ret ec =>
    simp only [Loop.step] at ht
    split_ifs at ht with hpc
    cases ht
    refine h.frame rfl rfl (fun _ => id) ?_
    intro hwaits
    cases ec <;> simp only [afterCall] at hwaits <;> try cases hwaits
    split_ifs at hwaits <;> cases hwaits
  | start item =>
    simp only [Loop.step] at ht
    split_ifs at ht with hen
    have hwaits := hbusy hen.1
    cases item with
    | scheduled x =>
      cases ht
      exact h.start hen.2 hwaits
    | io x =>
      cases ht
      obtain ⟨hready, hremote, hstarted, hpc⟩ := trySubmitSqe_frame cfg
        { s with started := Function.update s.started (.io x) true } x
      refine h.frame hready (by rw [hremote]) ?_ (fun hwaits => .inl (hpc ▸ hwaits))
      intro item hitem
      rw [hstarted]
      dsimp only
      by_cases hx : item = .io x
      · rw [hx, Function.update_self]
      · rwa [Function.update_of_ne hx]
  | requestStop item =>
    simp only [Loop.step] at ht
    split_ifs at ht with hen
    cases ht
    have hstopped : Ordered history
        { s with stopped := Function.update s.stopped item true } :=
      ⟨h.order, h.started, h.remote, h.waits⟩
    exact hstopped.requestStop (hbusy hen.1)
  | startRemote i item =>
    simp only [Loop.step] at ht
    split at ht
    · next hen =>
      cases ht
      exact h.startRemote hen.2
    · cases ht
  | receive =>
    simp only [Loop.step] at ht
    split at ht <;> cases ht
    exact h.frame rfl rfl (fun _ => id) .inl
  | complete i =>
    simp only [Loop.step] at ht
    split at ht
    · cases ht
    · split_ifs at ht
      cases ht
      exact h.frame rfl rfl (fun _ => id) .inl
    · cases ht
      exact h.frame rfl rfl (fun _ => id) .inl
  | scheduleStopRequestRemote i =>
    simp only [Loop.step] at ht
    split at ht <;> cases ht
    exact h.frame rfl rfl (fun _ => id) .inl
  | timerDue | finish | requestStopRemote | wakeUp | stopCallback | stopCallbackWakeUp =>
    simp only [Loop.step] at ht
    split_ifs at ht
    cases ht
    exact h.frame rfl rfl (fun _ => id) .inl

theorem ordered_of_produces (h : (system T O cfg).Produces queueEvents history s) :
    Ordered history s ∧ s.NotBusy := by
  induction h with
  | init => exact ⟨.init, fun _ => rfl⟩
  | step _ ht ih => exact ⟨ih.1.step ih.2 ht, ih.2.step ht⟩

/-- Each item that is queued for the I/O thread is executed once, or removed by a stop request, or
still queued, and the items of each thread are executed in the order in which it has queued them. -/
theorem executes_in_order (h : (system T O cfg).Produces queueEvents history s) :
    KeepsOrder history s.pending :=
  (ordered_of_produces h).1.order

/-- Two threads queue three items; the first one, when it is executed, queues another one and stops
the item of the second thread, which the remote queue's items were acquired for. -/
def queueAndRemove : List (Act (Fin 2) ℕ) :=
  [.run, .startRemote 0 (.scheduled 1), .startRemote 1 (.scheduled 2),
    .startRemote 0 (.scheduled 3)] ++ List.replicate 8 .io ++
    [.ret .ok, .io, .io, .start (.scheduled 4), .requestStop (.scheduled 2), .finish]

/-- What the run does to the queue, and with `rest` what is done after it. -/
def queueAndRemoveHistory (rest : List (SourceEvent (Option (Fin 2)) (Item ℕ))) :
    List (SourceEvent (Option (Fin 2)) (Item ℕ)) :=
  [.queued (some 0) (.scheduled 1), .queued (some 1) (.scheduled 2),
    .queued (some 0) (.scheduled 3), .taken (.scheduled 1), .queued none (.scheduled 4),
    .removed (.scheduled 2)] ++ rest

theorem executes_in_order_run : ∃ s : Loop (Fin 2) ℕ,
    s.pending = [.scheduled 3, .scheduled 4] ∧
      KeepsOrder (queueAndRemoveHistory []) s.pending := by
  obtain ⟨s, hs, hp⟩ : ∃ s, (system (Fin 2) ℕ ⟨4, 8, true⟩).Produces queueEvents
      (queueAndRemoveHistory []) s ∧ decide (s.pending = [.scheduled 3, .scheduled 4]) = true :=
    System.exists_produces queueAndRemove _ (by decide +kernel) (by decide +kernel)
  exact ⟨s, of_decide_eq_true hp, executes_in_order hs⟩

/-- While the I/O thread is blocked and nothing is going to wake it up, every item that was queued
has been executed or removed, and no stop request waits. -/
theorem sleeps_when_done (h : (system T O cfg).Produces queueEvents history s)
    (hpc : s.pc = .blocked) (hasleep : ¬s.WakeUpInFlight) :
    (takenItems history ++ removedItems history).Perm (queuedItems history) ∧
      s.remoteStop.items = [] ∧ s.stopRequested = false := by
  have hinv := inv_of_reachable h.reachable
  obtain ⟨hordered, -⟩ := ordered_of_produces h
  have hsubmitted : s.isWakeUpReadSubmitted = true := hinv.withRead (by rw [hpc]; rfl)
  have hready : s.readyToRun = [] := hordered.waits (by rw [hpc]; rfl)
  have hremote : s.remote.items = [] := by
    apply s.remote.empty
    by_contra hactive
    exact hasleep (hinv.active hsubmitted (.inl (Bool.of_not_eq_false hactive)))
  have hpending : s.pending = [] := by rw [pending, hready, hremote, List.append_nil]
  refine ⟨?_, ?_, ?_⟩
  · have hperm := hordered.order.perm
    rwa [hpending, List.append_nil] at hperm
  · apply s.remoteStop.empty
    by_contra hactive
    exact hasleep (hinv.active hsubmitted (.inr (Bool.of_not_eq_false hactive)))
  · by_contra hstop
    exact hasleep (hinv.stop (by rw [hpc]; rfl) hsubmitted (Bool.of_not_eq_false hstop))

/-- The other items are executed, and the I/O thread waits for its wake-up read. -/
def sleepAfterwards : List (Act (Fin 2) ℕ) :=
  queueAndRemove ++ [.io, .finish, .io, .finish] ++ List.replicate 7 .io ++ [.ret .ok] ++
    List.replicate 11 .io

theorem sleeps_when_done_run : ∃ s : Loop (Fin 2) ℕ, s.pc = .blocked ∧ ¬s.WakeUpInFlight ∧
    let history := queueAndRemoveHistory [.taken (.scheduled 3), .taken (.scheduled 4)]
    (takenItems history ++ removedItems history).Perm (queuedItems history) ∧
      s.remoteStop.items = [] ∧ s.stopRequested = false := by
  obtain ⟨s, hs, hp⟩ : ∃ s, (system (Fin 2) ℕ ⟨4, 8, true⟩).Produces queueEvents
      (queueAndRemoveHistory [.taken (.scheduled 3), .taken (.scheduled 4)]) s ∧
      decide (s.pc = .blocked ∧ ¬(0 < s.eventfd ∨ .wakeUp ∈ s.cq ∨
        (∃ t, s.threads t = .wakingUp) ∨ s.stopCallbackWakingUp = true)) = true :=
    System.exists_produces sleepAfterwards _ (by decide +kernel) (by decide +kernel)
  obtain ⟨hpc, hasleep⟩ := of_decide_eq_true hp
  exact ⟨s, hpc, hasleep, sleeps_when_done hs hpc hasleep⟩

end Loop
end Squiz.LinuxOS.RunLoop
