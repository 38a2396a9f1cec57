import Squiz.Detail.BinnedTimePriorityQueue.BinTime
import Squiz.Detail.BinnedTimePriorityQueue.Earlier
import Squiz.Detail.BinnedTimePriorityQueue.Reindex
import Squiz.Lib.System

/-! Runs of a `binned_time_priority_queue`, next to the list of the items that were added. -/
namespace Squiz.Detail.BinnedTimePriorityQueue
open Squiz.Lib

inductive Action (p : Params) (α : Type) where
  /-- of an item with the given timestamp, which it keeps until `reindexItems` -/
  | add (item : α) (time : p.Timestamp)
  | remove (item : α)
  | tryDequeueNextDueBy (currentTime : p.Timestamp)
  /-- once the items have the timestamps `due` -/
  | reindexItems (due : α → p.Timestamp)

structure Run (p : Params) (α : Type) where
  due : α → p.Timestamp
  queue : Queue p α := {}
  /-- the items in the queue, in the order in which they were added -/
  queued : List α := []
  /-- what the calls of `try_dequeue_next_due_by` returned, with what they should have returned -/
  answers : List (Option α × Option α) := []
  /-- where the calls of `try_dequeue_next_due_by` computed `bin_time` -/
  levels : List (Level p α) := []
  /-- the largest time passed to `try_dequeue_next_due_by` -/
  largestTime : p.Timestamp := 0
  /-- the last operation was `try_dequeue_next_due_by` with this time, and returned `nullptr`
  although there are items -/
  waitingFor : Option p.Timestamp := none
  /-- an assertion failed or the behaviour was undefined -/
  fault : Bool := false

namespace Run
variable {p : Params} {α : Type} [DecidableEq α]

def add (s : Run p α) (item : α) (time : p.Timestamp) : Run p α :=
  let due := Function.update s.due item time
  match s.queue.add due item with
  | none => { s with fault := true }
  | some queue =>
    { s with due := due, queue := queue, queued := s.queued ++ [item], waitingFor := none }

def remove (s : Run p α) (item : α) : Run p α :=
  match s.queue.remove s.due item with
  | none => { s with fault := true }
  | some queue => { s with queue := queue, queued := s.queued.erase item, waitingFor := none }

def tryDequeueNextDueBy (s : Run p α) (currentTime : p.Timestamp) : Run p α :=
  let s := { s with
    levels := s.levels ++ s.queue.levels s.due p.shiftMinor currentTime
    largestTime := if s.largestTime < currentTime then currentTime else s.largestTime }
  match s.queue.tryDequeueNextDueBy s.due p.shiftMinor currentTime with
  | none => { s with fault := true }
  | some (item, queue) =>
    { s with
      queue := queue
      queued := Queue.remaining s.queued item
      answers := s.answers ++
        [(item, StableQueue.next (Queue.dueTime s.due) s.queued currentTime.toNat)]
      waitingFor := if item = none ∧ s.queued ≠ [] then some currentTime else none }

def reindexItems (s : Run p α) (due : α → p.Timestamp) : Run p α :=
  match s.queue.reindexItems due with
  | none => { s with fault := true }
  | some queue => { s with due := due, queue := queue, waitingFor := none }

/-- An item is added only while it is not queued, and removed only while it is. -/
def step (s : Run p α) (a : Action p α) : Option (Run p α) :=
  if s.fault then none
  else
    match a with
    | .add item time =>
      if item ∉ s.queued ∧ time ≤ p.maxTimestamp then some (s.add item time) else none
    | .remove item => if item ∈ s.queued then some (s.remove item) else none
    | .tryDequeueNextDueBy currentTime => some (s.tryDequeueNextDueBy currentTime)
    | .reindexItems due =>
      if ∀ x ∈ s.queued, due x ≤ p.maxTimestamp then some (s.reindexItems due) else none

/-- An item before the active time leaves nothing to move, and the bin of any other item is inside
of the array. -/
def AddFits (s : Run p α) (time : p.Timestamp) : Prop :=
  (time < s.queue.activeTime → s.queue.NothingToMove s.due time) ∧
    (s.queue.activeTime ≤ time → s.queue.slot time.toNat < p.totalBinCount)

instance (s : Run p α) (time : p.Timestamp) : Decidable (s.AddFits time) :=
  inferInstanceAs (Decidable ((_ → _) ∧ (_ → _)))

/-- The operation stays clear of the shifts and of the bins that the source gets wrong. -/
def Fits (s : Run p α) : Action p α → Prop
  | .add _ time => s.AddFits time
  | .remove _ => True
  | .tryDequeueNextDueBy currentTime => s.queue.FirstRoundExact s.due currentTime
  | .reindexItems due => ∀ x ∈ s.queued, Radix.slot p.bits 0 (due x).toNat < p.totalBinCount

instance (s : Run p α) (a : Action p α) : Decidable (s.Fits a) := by
  cases a with
  | add item time => exact inferInstanceAs (Decidable (s.AddFits time))
  | remove item => exact instDecidableTrue
  | tryDequeueNextDueBy currentTime =>
    exact inferInstanceAs (Decidable (s.queue.FirstRoundExact s.due currentTime))
  | reindexItems due => exact inferInstanceAs (Decidable (∀ x ∈ s.queued, _))

end Run

def runs (p : Params) (α : Type) [DecidableEq α] : System (Run p α) (Action p α) where
  init := { due := fun _ => 0 }
  step := Run.step

namespace Queue
variable {p : Params} {α : Type} {q q' : Queue p α} {due newDue : α → p.Timestamp} {l : List α}
  {x : α}

/-- The timestamps of items that are not in the queue do not matter. -/
theorem Holds.congr_due (h : Holds due l q) (hdue : ∀ y ∈ l, newDue y = due y) :
    Holds newDue l q where
  aligned := h.aligned
  active_le := by
    intro y hy
    rw [hdue y hy]
    exact h.active_le y hy
  le_max := by
    intro y hy
    rw [hdue y hy]
    exact h.le_max y hy
  distributes := by
    intro i k
    have hfilter : ∀ m : List α, (∀ y ∈ m, y ∈ l) →
        m.filter (dueTime newDue · = k) = m.filter (dueTime due · = k) := by
      intro m hm
      apply List.filter_congr
      intro y hy
      unfold dueTime
      rw [hdue y (hm y hy)]
    rw [hfilter _ fun y hy => (h.mem_bins_iff.mp hy).1, hfilter l fun y hy => hy]
    exact h.distributes i k
  marked := h.marked

theorem add_activeTime_le (h : q.add due x = some q') : q'.activeTime ≤ q.activeTime := by
  unfold Queue.add at h
  obtain ⟨q₁, hset, h⟩ := Option.bind_eq_some_iff.mp h
  obtain ⟨index, _, h⟩ := Option.bind_eq_some_iff.mp h
  have hle : q₁.activeTime ≤ q.activeTime := by
    split at hset
    · unfold setEarlierActiveTime at hset
      dsimp only at hset
      split at hset
      · next hcond =>
        obtain ⟨q₂, _, rfl⟩ := Option.map_eq_some_iff.mp hset
        exact rounded_le hcond.1
      · cases hset
    · cases hset
      exact BitVec.le_refl _
  split at h
  · cases h
    rwa [pushBack_activeTime]
  · cases h

theorem remove_activeTime [DecidableEq α] (h : q.remove due x = some q') :
    q'.activeTime = q.activeTime := by
  unfold Queue.remove at h
  obtain ⟨index, _, h⟩ := Option.bind_eq_some_iff.mp h
  dsimp only at h
  split at h
  · cases h
    split <;> rfl
  · cases h

end Queue

namespace Run
variable {p : Params} {α : Type} [DecidableEq α] {s t : Run p α} {a : Action p α}

theorem step_cases (h : s.step a = some t) :
    (∃ x time, a = .add x time ∧ x ∉ s.queued ∧ time ≤ p.maxTimestamp ∧ t = s.add x time) ∨
    (∃ x, a = .remove x ∧ x ∈ s.queued ∧ t = s.remove x) ∨
    (∃ currentTime, a = .tryDequeueNextDueBy currentTime ∧
      t = s.tryDequeueNextDueBy currentTime) ∨
    ∃ due, a = .reindexItems due ∧ (∀ x ∈ s.queued, due x ≤ p.maxTimestamp) ∧
      t = s.reindexItems due := by
  unfold Run.step at h
  split at h
  · cases h
  cases a with
  | add x time =>
    dsimp only at h
    split at h
    · next hcond =>
      cases h
      exact Or.inl ⟨x, time, rfl, hcond.1, hcond.2, rfl⟩
    · cases h
  | remove x =>
    dsimp only at h
    split at h
    · next hx =>
      cases h
      exact Or.inr (Or.inl ⟨x, rfl, hx, rfl⟩)
    · cases h
  | tryDequeueNextDueBy currentTime =>
    cases h
    exact Or.inr (Or.inr (Or.inl ⟨currentTime, rfl, rfl⟩))
  | reindexItems due =>
    dsimp only at h
    split at h
    · next hmax =>
      cases h
      exact Or.inr (Or.inr (Or.inr ⟨due, rfl, hmax, rfl⟩))
    · cases h

/-! The arithmetic of `bin_time`, in all runs. -/

/-- The first shift of a call of `try_dequeue_next_due_by` fits its type. -/
def ShiftFits (s : Run p α) : Action p α → Prop
  | .tryDequeueNextDueBy currentTime => s.queue.FirstRoundFits s.due currentTime
  | _ => True

instance (s : Run p α) (a : Action p α) : Decidable (s.ShiftFits a) := by
  cases a with
  | tryDequeueNextDueBy currentTime =>
    exact inferInstanceAs (Decidable (s.queue.FirstRoundFits s.due currentTime))
  | _ => exact instDecidableTrue

structure BinTimeInv (s : Run p α) : Prop where
  exact : ∀ r ∈ s.levels, r.Exact
  active_le : s.queue.activeTime ≤ s.largestTime

theorem BinTimeInv.step (h : s.BinTimeInv) (hok : s.ShiftFits a) (hstep : s.step a = some t) :
    t.BinTimeInv := by
  obtain ⟨x, time, rfl, _, _, rfl⟩ | ⟨x, rfl, _, rfl⟩ | ⟨currentTime, rfl, rfl⟩ |
    ⟨due, rfl, _, rfl⟩ := step_cases hstep
  · unfold Run.add
    dsimp only
    split
    · exact ⟨h.exact, h.active_le⟩
    · next hadd => exact ⟨h.exact, BitVec.le_trans (Queue.add_activeTime_le hadd) h.active_le⟩
  · unfold Run.remove
    split
    · exact ⟨h.exact, h.active_le⟩
    · next hremove =>
      refine ⟨h.exact, ?_⟩
      dsimp only
      rw [Queue.remove_activeTime hremove]
      exact h.active_le
  · have hlevels : ∀ r ∈ s.levels ++ s.queue.levels s.due p.shiftMinor currentTime, r.Exact := by
      intro r hr
      rcases List.mem_append.mp hr with hr | hr
      · exact h.exact r hr
      · exact Queue.levels_exact_iff.mpr hok r hr
    have hle : s.largestTime ≤ (if s.largestTime < currentTime then currentTime
        else s.largestTime) ∧ currentTime ≤ (if s.largestTime < currentTime then currentTime
        else s.largestTime) := by
      split
      · next hlt => exact ⟨BitVec.le_of_lt hlt, BitVec.le_refl _⟩
      · next hge => exact ⟨BitVec.le_refl _, BitVec.not_lt.mp hge⟩
    unfold Run.tryDequeueNextDueBy
    dsimp only
    split
    · exact ⟨hlevels, BitVec.le_trans h.active_le hle.1⟩
    · next hdequeue =>
      refine ⟨hlevels, ?_⟩
      have hfits : s.queue.FirstRoundFits s.due currentTime := hok
      rw [hfits.exact.tryDequeueNextDueBy_eq] at hdequeue
      dsimp only
      rcases Queue.tryDequeueNextDueBy_activeTime hdequeue with heq | htime
      · rw [heq]
        exact BitVec.le_trans h.active_le hle.1
      · exact BitVec.le_trans htime hle.2
  · unfold Run.reindexItems
    split
    · exact ⟨h.exact, h.active_le⟩
    · next hreindex =>
      refine ⟨h.exact, ?_⟩
      dsimp only
      rw [Queue.reindexItems_activeTime hreindex, BitVec.le_def]
      exact Nat.zero_le _

/-- In the runs of which every first shift fits, `bin_time` is exact at every level, and the active
time stays behind the times that were passed in. A single call is exact only if its first shift
fits. -/
theorem bin_time_exact_when (hs : (runs p α).Reaches ShiftFits s) :
    ((∀ r ∈ s.levels, r.Exact) ∧ s.queue.activeTime ≤ s.largestTime) ∧
      ∀ currentTime, (∀ r ∈ s.queue.levels s.due p.shiftMinor currentTime, r.Exact) ↔
        s.queue.FirstRoundFits s.due currentTime := by
  have hinit : BinTimeInv (runs p α).init := ⟨by simp [runs], BitVec.le_refl _⟩
  have h : s.BinTimeInv := hs.invariant hinit fun _ _ _ h hok ht => h.step hok ht
  exact ⟨⟨h.exact, h.active_le⟩, fun _ => Queue.levels_exact_iff⟩

theorem bin_time_exact_when_run : ∃ s : Run sixteenMinorBins (BitVec 32),
    s.levels.length = 1 ∧ ((∀ r ∈ s.levels, r.Exact) ∧ s.queue.activeTime ≤ s.largestTime) ∧
      ∀ currentTime, (∀ r ∈ s.queue.levels s.due sixteenMinorBins.shiftMinor currentTime, r.Exact) ↔
        s.queue.FirstRoundFits s.due currentTime := by
  obtain ⟨s, hs, hp⟩ := (runs sixteenMinorBins (BitVec 32)).exists_reaches ShiftFits
    [.add 0x45 0x45, .tryDequeueNextDueBy 0x40] (fun s => s.levels.length = 1) (by decide +kernel)
  exact ⟨s, by simpa using hp, bin_time_exact_when hs⟩

/-- The instantiation of `io_uring_context`. -/
def timerQueueParams : Params where
  width := 64
  bits := 8
  maxTimestamp := 281474976710655
  bits_pos := by decide
  bits_lt := by decide
  maxTimestamp_pos := by decide

/-- The digit 0x80 is shifted by 24 bits, which makes it negative, so the item seems to be due and
the active time is set to its timestamp. -/
theorem bin_time_exact_fails : ∃ s : Run timerQueueParams Unit,
    (runs timerQueueParams Unit).Reachable s ∧ (∃ r ∈ s.levels, ¬ r.Exact) ∧
      s.largestTime < s.queue.activeTime := by
  obtain ⟨s, hs, hp⟩ := (runs timerQueueParams Unit).exists_reachable
    [.add () 0x180000000, .tryDequeueNextDueBy 0x100000000]
    (fun s => s.levels.any (fun r => ¬ timerQueueParams.ShiftFits r.targetMajor
      r.firstNonemptyMinorIndex) && s.largestTime < s.queue.activeTime) (by decide +kernel)
  rw [Bool.and_eq_true, List.any_eq_true] at hp
  obtain ⟨⟨r, hr, hshift⟩, hactive⟩ := hp
  refine ⟨s, hs, ⟨r, hr, fun hexact => ?_⟩, by simpa using hactive⟩
  have hnot : ¬ timerQueueParams.ShiftFits r.targetMajor r.firstNonemptyMinorIndex := by
    simpa using hshift
  exact hnot hexact.shift

/-- What an allowed operation does to a queue that holds a list. -/
theorem add_holds {l : List α} {x : α} {time : p.Timestamp} (h : Queue.Holds s.due l s.queue)
    (hx : x ∉ l) (hmax : time ≤ p.maxTimestamp) (hfits : s.AddFits time) :
    ∃ queue, s.queue.add (Function.update s.due x time) x = some queue ∧
      Queue.Holds (Function.update s.due x time) (l ++ [x]) queue := by
  have hne : ∀ y ∈ l, y ≠ x := by
    rintro y hy rfl
    exact hx hy
  have hdue : ∀ y ∈ l, Function.update s.due x time y = s.due y := fun y hy =>
    Function.update_of_ne (hne y hy) _ _
  have hself : Function.update s.due x time x = time := Function.update_self _ _ _
  have h' := h.congr_due hdue
  by_cases hearlier : time < s.queue.activeTime
  · obtain ⟨hlt, hupper⟩ := hfits.1 hearlier
    apply h'.add_earlier
    · rwa [hself]
    · rwa [hself]
    · rwa [hself]
    · intro y hy
      rw [hself, hdue y hy]
      exact hupper y (h.sameOrder_items.mem_iff.mpr hy)
  · have hactive : s.queue.activeTime ≤ time := BitVec.not_lt.mp hearlier
    obtain ⟨queue, hadd, hholds, _⟩ := h'.add_of_le (x := x) (by rwa [hself]) (by rwa [hself])
      (by rw [hself]; exact hfits.2 hactive)
    exact ⟨queue, hadd, hholds⟩

/-! The contents of the queue, in the runs that stay clear of what the source gets wrong. -/

/-- The queue is placed and holds the items that were added, and its bound is after the time for
which it had none of them. -/
structure BoundInv (s : Run p α) : Prop where
  fault : s.fault = false
  holds : ∃ l, Queue.Holds s.due l s.queue ∧ l.Perm s.queued
  after : ∀ currentTime ∈ s.waitingFor, currentTime < s.queue.earliestDueTimeLowerBound

theorem BoundInv.init : BoundInv (runs p α).init where
  fault := rfl
  holds := ⟨[], Queue.holds_nil _ (by simp), List.Perm.refl _⟩
  after := by simp [runs]

theorem BoundInv.step (h : s.BoundInv) (hok : s.Fits a) (hstep : s.step a = some t) :
    t.BoundInv := by
  obtain ⟨l, hl, hperm⟩ := h.holds
  obtain ⟨x, time, rfl, hx, hmax, rfl⟩ | ⟨x, rfl, hx, rfl⟩ | ⟨currentTime, rfl, rfl⟩ |
    ⟨due, rfl, hmax, rfl⟩ := step_cases hstep
  · have hnot : x ∉ l := fun hx' => hx (hperm.mem_iff.mp hx')
    obtain ⟨queue, hadd, hholds⟩ := add_holds hl hnot hmax hok
    unfold Run.add
    dsimp only
    rw [hadd]
    exact ⟨h.fault, ⟨_, hholds, hperm.append_right _⟩, by simp⟩
  · obtain ⟨queue, hremove, hholds, _⟩ := hl.remove (hperm.mem_iff.mpr hx)
    unfold Run.remove
    rw [hremove]
    exact ⟨h.fault, ⟨_, hholds, hperm.erase x⟩, by simp⟩
  · have hexact : s.queue.FirstRoundExact s.due currentTime := hok
    obtain ⟨r, queue, hdequeue, _, hholds, hbound⟩ := hl.tryDequeueNextDueBy currentTime
    unfold Run.tryDequeueNextDueBy
    dsimp only
    rw [hexact.tryDequeueNextDueBy_eq, hdequeue]
    refine ⟨h.fault, ⟨_, hholds, ?_⟩, ?_⟩
    · cases r with
      | none => exact hperm
      | some x => exact hperm.erase x
    · dsimp only
      split
      · next hcond =>
        rintro time htime
        cases htime
        refine hbound hcond.1 fun hnil => hcond.2 ?_
        rw [hnil] at hperm
        exact hperm.nil_eq.symm
      · simp
  · have hmem : ∀ x, x ∈ s.queue.items ↔ x ∈ s.queued := fun x =>
      hl.sameOrder_items.mem_iff.trans hperm.mem_iff
    obtain ⟨queue, hreindex, hholds⟩ := hl.placed.reindexItems
      (fun x hx => hmax x ((hmem x).mp hx)) (fun x hx => hok x ((hmem x).mp hx))
    unfold Run.reindexItems
    rw [hreindex]
    exact ⟨h.fault, ⟨_, hholds, hl.sameOrder_items.perm.trans hperm⟩, by simp⟩

/-- The bound is not later than any timestamp, and later than a time for which there was no item. -/
theorem lower_bound_sound_when (hs : (runs p α).Reaches Fits s) :
    (∀ x ∈ s.queued, s.queue.earliestDueTimeLowerBound ≤ s.due x) ∧
      (s.queued = [] → s.queue.earliestDueTimeLowerBound = p.maxTimestamp) ∧
      ∀ currentTime ∈ s.waitingFor, currentTime < s.queue.earliestDueTimeLowerBound := by
  have h : s.BoundInv := hs.invariant BoundInv.init fun _ _ _ h hok ht => h.step hok ht
  obtain ⟨l, hl, hperm⟩ := h.holds
  refine ⟨fun x hx => hl.lowerBound_le (hperm.mem_iff.mpr hx), fun hnil => ?_, h.after⟩
  rw [hnil] at hperm
  rw [hperm.eq_nil] at hl
  exact hl.lowerBound_nil

theorem lower_bound_sound_when_run : ∃ s : Run sixteenMinorBins (BitVec 32),
    (s.queued = [0x52] ∧ s.waitingFor = some 0x40) ∧
      (∀ x ∈ s.queued, s.queue.earliestDueTimeLowerBound ≤ s.due x) ∧
      (s.queued = [] → s.queue.earliestDueTimeLowerBound = sixteenMinorBins.maxTimestamp) ∧
      ∀ currentTime ∈ s.waitingFor, currentTime < s.queue.earliestDueTimeLowerBound := by
  obtain ⟨s, hs, hp⟩ := (runs sixteenMinorBins (BitVec 32)).exists_reaches Fits
    [.add 0x45 0x45, .tryDequeueNextDueBy 0x45, .add 0x52 0x52, .add 0x31 0x31,
      .tryDequeueNextDueBy 0x40, .reindexItems id, .tryDequeueNextDueBy 0x40]
    (fun s => s.queued = [0x52] && s.waitingFor = some 0x40) (by decide +kernel)
  exact ⟨s, by simpa using hp, lower_bound_sound_when hs⟩

/-- The bound does not take account of an item that was moved to a bin that is not marked. -/
theorem lower_bound_sound_fails : ∃ s : Run sixteenMinorBins (BitVec 32),
    (runs sixteenMinorBins (BitVec 32)).Reachable s ∧
      ∃ x ∈ s.queued, s.due x < s.queue.earliestDueTimeLowerBound := by
  obtain ⟨s, hs, hp⟩ := (runs sixteenMinorBins (BitVec 32)).exists_reachable
    [.add 0x45 0x45, .tryDequeueNextDueBy 0x45, .add 0x52 0x52, .add 0x4A 0x4A, .add 0x31 0x31,
      .tryDequeueNextDueBy 0xFF]
    (fun s => s.queued.any fun x => s.due x < s.queue.earliestDueTimeLowerBound)
    (by decide +kernel)
  exact ⟨s, hs, by simpa using hp⟩

/-! The refinement of a stable priority queue, in the runs that do not reindex. -/

def Action.isReindexItems : Action p α → Bool
  | .reindexItems _ => true
  | _ => false

abbrev Refining (s : Run p α) (a : Action p α) : Prop :=
  Action.isReindexItems a = false ∧ s.Fits a

/-- The queue is placed and holds the items in the order in which they were added, and has returned
the items that came next. -/
structure RefinesInv (s : Run p α) : Prop where
  fault : s.fault = false
  holds : Queue.Holds s.due s.queued s.queue
  answers : ∀ answer ∈ s.answers, answer.1 = answer.2

theorem RefinesInv.init : RefinesInv (runs p α).init where
  fault := rfl
  holds := Queue.holds_nil _ (by simp)
  answers := by simp [runs]

theorem RefinesInv.step (h : s.RefinesInv) (hok : s.Refining a) (hstep : s.step a = some t) :
    t.RefinesInv := by
  obtain ⟨hreindex, hfits⟩ := hok
  obtain ⟨x, time, rfl, hx, hmax, rfl⟩ | ⟨x, rfl, hx, rfl⟩ | ⟨currentTime, rfl, rfl⟩ |
    ⟨due, rfl, _, rfl⟩ := step_cases hstep
  · obtain ⟨queue, hadd, hholds⟩ := add_holds h.holds hx hmax hfits
    unfold Run.add
    dsimp only
    rw [hadd]
    exact ⟨h.fault, hholds, h.answers⟩
  · obtain ⟨queue, hremove, hholds, _⟩ := h.holds.remove hx
    unfold Run.remove
    rw [hremove]
    exact ⟨h.fault, hholds, h.answers⟩
  · have hexact : s.queue.FirstRoundExact s.due currentTime := hfits
    obtain ⟨r, queue, hdequeue, hnext, hholds, _⟩ := h.holds.tryDequeueNextDueBy currentTime
    unfold Run.tryDequeueNextDueBy
    dsimp only
    rw [hexact.tryDequeueNextDueBy_eq, hdequeue]
    refine ⟨h.fault, hholds, ?_⟩
    intro answer hanswer
    rcases List.mem_append.mp hanswer with hanswer | hanswer
    · exact h.answers answer hanswer
    · rw [List.mem_singleton.mp hanswer]
      exact hnext
  · cases hreindex

/-- No index is outside of the array, the queue has the items that were added, those with equal
timestamps in this order, and every call returned what a stable priority queue returns. -/
theorem refines_stable_queue_when (hs : (runs p α).Reaches Refining s) :
    s.fault = false ∧ Queue.Placed s.due s.queue ∧ s.queue.items.Perm s.queued ∧
      SameOrder (Queue.dueTime s.due) s.queue.items s.queued ∧
      ∀ answer ∈ s.answers, answer.1 = answer.2 := by
  have h : s.RefinesInv := hs.invariant RefinesInv.init fun _ _ _ h hok ht => h.step hok ht
  exact ⟨h.fault, h.holds.placed, h.holds.sameOrder_items.perm, h.holds.sameOrder_items, h.answers⟩

theorem refines_stable_queue_when_run : ∃ s : Run sixteenMinorBins (BitVec 32),
    (s.queued = [0x52] ∧ s.answers.length = 3) ∧ s.fault = false ∧ Queue.Placed s.due s.queue ∧
      s.queue.items.Perm s.queued ∧ SameOrder (Queue.dueTime s.due) s.queue.items s.queued ∧
      ∀ answer ∈ s.answers, answer.1 = answer.2 := by
  obtain ⟨s, hs, hp⟩ := (runs sixteenMinorBins (BitVec 32)).exists_reaches Refining
    [.add 0x45 0x45, .add 0x46 0x46, .tryDequeueNextDueBy 0x45, .remove 0x46, .add 0x52 0x52,
      .add 0x31 0x31, .tryDequeueNextDueBy 0xFF, .tryDequeueNextDueBy 0x40]
    (fun s => s.queued = [0x52] && s.answers.length = 3) (by decide +kernel)
  exact ⟨s, by simpa using hp, refines_stable_queue_when hs⟩

/-- An item that was moved to a bin that is not marked is passed over. -/
theorem refines_stable_queue_fails : ∃ s : Run sixteenMinorBins (BitVec 32),
    (runs sixteenMinorBins (BitVec 32)).Reachable s ∧ (some 0x52, some 0x4A) ∈ s.answers := by
  obtain ⟨s, hs, hp⟩ := (runs sixteenMinorBins (BitVec 32)).exists_reachable
    [.add 0x45 0x45, .tryDequeueNextDueBy 0x45, .add 0x52 0x52, .add 0x4A 0x4A, .add 0x31 0x31,
      .tryDequeueNextDueBy 0xFF, .tryDequeueNextDueBy 0xFF]
    (fun s => (some 0x52, some 0x4A) ∈ s.answers) (by decide +kernel)
  exact ⟨s, hs, by simpa using hp⟩

end Run

end Squiz.Detail.BinnedTimePriorityQueue
