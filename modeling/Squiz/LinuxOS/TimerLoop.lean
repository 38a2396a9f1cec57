import Squiz.Lib.StableQueue
import Squiz.Lib.System
import Squiz.LinuxOS.TimerBase

/-! The timer loop of `run_impl` over a timer queue that keeps the contract of a stable priority
queue, with the item that moves the base of the timestamps. -/
namespace Squiz.LinuxOS
open Squiz.Lib Squiz.Detail

inductive TimerId where
  /-- `reindex_timer_op_` -/
  | reindex
  | user (id : ℕ)
  deriving DecidableEq

structure TimeOperation where
  id : TimerId
  dueTime : TimePoint
  deriving DecidableEq

inductive TimerLoopPc where
  /-- anywhere in `run_impl` before `check_timers` -/
  | outside
  /-- before `try_dequeue_next_due_by` -/
  | dequeue
  /-- in `execute_impl` of `reindex_timer_op_`, before `reset_timer_base` -/
  | reset
  deriving DecidableEq

structure TimerLoop where
  base : TimerBase
  /-- `timer_queue_`, in the order of insertion -/
  timers : List TimeOperation
  clock : TimePoint
  /-- what `monotonic_clock::now()` returned last -/
  lastReading : TimePoint
  currentTimestamp : ℕ := 0
  pc : TimerLoopPc := .outside
  /-- the base was reset after `currentTimestamp` was computed -/
  rebased : Bool := false
  /-- the due times of the items executed, each with the last reading of the clock -/
  executed : List (TimePoint × TimePoint) := []

inductive TimerAction where
  | tick (time : TimePoint)
  /-- `schedule_at_local` -/
  | add (id : ℕ) (dueTime : TimePoint)
  /-- `remove_time_op_local` -/
  | remove (id : ℕ)
  | checkTimers
  | dequeue
  /-- `order` is the order in which `reindex_items` adds the items again -/
  | resetTimerBase (order : List TimeOperation)

namespace TimerLoop

/-- `get_due_time` -/
def timestamp (s : TimerLoop) (op : TimeOperation) : ℕ :=
  s.base.timePointToTimestamp op.dueTime true

def reindexOp (b : TimerBase) : TimeOperation := ⟨.reindex, b.reindexDueTime⟩

/-- `reset_timer_base`; the queue holds `order` once its items are reindexed. -/
def resetTimerBase (s : TimerLoop) (order : List TimeOperation) : TimerLoop :=
  { s with
    base := .reset s.clock
    timers := order ++ [reindexOp (.reset s.clock)]
    lastReading := s.clock
    rebased := true }

/-- One round of the loop, with the item that the queue returned. -/
def execute (s : TimerLoop) (op : TimeOperation) : TimerLoop :=
  match op.id with
  | .reindex => { s with timers := s.timers.erase op, pc := .reset }
  | .user _ =>
    { s with
      timers := s.timers.erase op
      executed := s.executed ++ [(op.dueTime, s.lastReading)] }

def step (s : TimerLoop) : TimerAction → Option TimerLoop
  | .tick time => if s.clock ≤ time then some { s with clock := time } else none
  | .add id dueTime =>
    if TimerId.user id ∈ s.timers.map (·.id) then none
    else some { s with timers := s.timers ++ [⟨.user id, dueTime⟩] }
  | .remove id => some { s with timers := s.timers.filter (·.id ≠ .user id) }
  | .checkTimers =>
    if s.pc = .outside then
      some { s with
        lastReading := s.clock
        currentTimestamp := s.base.timePointToTimestamp s.clock false
        rebased := false
        pc := .dequeue }
    else none
  | .dequeue =>
    if s.pc = .dequeue then
      match StableQueue.next s.timestamp s.timers s.currentTimestamp with
      | none => some { s with pc := .outside }
      | some op => some (s.execute op)
    else none
  | .resetTimerBase order =>
    if s.pc = .reset ∧ order.Perm s.timers then
      some { s.resetTimerBase order with pc := .dequeue }
    else none

end TimerLoop

/-- The context after construction at the time `start`. -/
def timerLoop (start : TimePoint) : System TimerLoop TimerAction where
  init :=
    { base := .reset start
      timers := [TimerLoop.reindexOp (.reset start)]
      clock := start
      lastReading := start }
  step := TimerLoop.step

namespace TimerLoop

/-- No item was executed before its due time. -/
def NeverEarly (s : TimerLoop) : Prop := ∀ e ∈ s.executed, e.1 ≤ e.2

/-- Of a user item that is next and due by `current_timestamp`: if the base was reset since that
was computed, the item is also due by the timestamp of the last reading under the new base, and
the two are not both in the last second of `std::int64_t`. -/
def Timely (s : TimerLoop) : Prop :=
  ∀ op ∈ s.timers, op.id ≠ .reindex → (∀ y ∈ s.timers, s.timestamp op ≤ s.timestamp y) →
    s.timestamp op ≤ s.currentTimestamp →
    (s.rebased = true → s.timestamp op ≤ s.base.timePointToTimestamp s.lastReading false) ∧
      ¬(op.dueTime.seconds = int64Max ∧ s.lastReading.seconds = int64Max)

instance (s : TimerLoop) : Decidable s.Timely :=
  inferInstanceAs (Decidable (∀ op ∈ s.timers, _ → _ → _ → _))

def TimelyStep (s : TimerLoop) : TimerAction → Prop
  | .dequeue => s.Timely
  | _ => True

instance (s : TimerLoop) (a : TimerAction) : Decidable (s.TimelyStep a) := by
  cases a
  case dequeue => exact inferInstanceAs (Decidable s.Timely)
  all_goals exact instDecidableTrue

/-- The base lies before the last reading, and the reindexing is queued whenever an item is taken
from the queue. -/
structure Inv (s : TimerLoop) : Prop where
  base_le : s.base.baseSeconds ≤ s.lastReading.seconds
  reading_le : s.lastReading ≤ s.clock
  reindex : s.pc ≠ .reset → reindexOp s.base ∈ s.timers
  current : s.pc = .dequeue → s.rebased = false →
    s.currentTimestamp = s.base.timePointToTimestamp s.lastReading false
  neverEarly : s.NeverEarly

namespace Inv
variable {s t : TimerLoop}

theorem init (start : TimePoint) : Inv (timerLoop start).init where
  base_le := TimerBase.reset_le start
  reading_le := le_refl start
  reindex _ := List.mem_singleton.mpr rfl
  current hpc := nomatch hpc
  neverEarly _ he := nomatch he

theorem tick (h : Inv s) {time : TimePoint} (ht : s.step (.tick time) = some t) : Inv t := by
  simp only [TimerLoop.step] at ht
  split_ifs at ht with hle
  cases ht
  exact { h with reading_le := le_trans h.reading_le hle }

theorem add (h : Inv s) {id : ℕ} {due : TimePoint} (ht : s.step (.add id due) = some t) :
    Inv t := by
  simp only [TimerLoop.step] at ht
  split_ifs at ht
  cases ht
  exact { h with reindex := fun hpc => List.mem_append_left _ (h.reindex hpc) }

theorem remove (h : Inv s) {id : ℕ} (ht : s.step (.remove id) = some t) : Inv t := by
  simp only [TimerLoop.step] at ht
  cases ht
  have hkept : ∀ op : TimeOperation, op ∈ s.timers → op.id = .reindex →
      op ∈ s.timers.filter (·.id ≠ .user id) := by
    intro op hmem hid
    exact List.mem_filter.mpr ⟨hmem, by simp [hid]⟩
  exact { h with reindex := fun hpc => hkept _ (h.reindex hpc) rfl }

theorem checkTimers (h : Inv s) (ht : s.step .checkTimers = some t) : Inv t := by
  simp only [TimerLoop.step] at ht
  split_ifs at ht with hpc
  cases ht
  exact
    { base_le := le_trans h.base_le (TimePoint.seconds_le h.reading_le)
      reading_le := le_refl _
      reindex := fun _ => h.reindex (by simp [hpc])
      current := fun _ _ => rfl
      neverEarly := h.neverEarly }

/-- The item that the queue returns has passed: by the cached timestamp, while the base is the one
it was computed with, and else by what the step is required to meet. -/
theorem next_le (h : Inv s) (hok : s.Timely) (hpc : s.pc = .dequeue) {op : TimeOperation}
    (hnext : StableQueue.next s.timestamp s.timers s.currentTimestamp = some op)
    (hid : op.id ≠ .reindex) : op.dueTime ≤ s.lastReading := by
  have hmin : ∀ y ∈ s.timers, s.timestamp op ≤ s.timestamp y := fun _ hy =>
    StableQueue.next_min hnext hy
  have hdue : s.timestamp op ≤ s.currentTimestamp := StableQueue.next_le hnext
  obtain ⟨hstale, hlast⟩ := hok op (StableQueue.next_mem hnext) hid hmin hdue
  have hreached : s.timestamp op ≤ s.base.timePointToTimestamp s.lastReading false := by
    cases hre : s.rebased with
    | true => exact hstale hre
    | false => rwa [h.current hpc hre] at hdue
  have hreindex : s.timestamp op ≤ s.timestamp (reindexOp s.base) :=
    hmin _ (h.reindex (by simp [hpc]))
  apply TimerBase.le_of_timestamp_le h.base_le _ hreached
  by_contra hclamp
  rw [not_or, not_lt, not_lt] at hclamp
  have hmax := TimerBase.seconds_eq_max_of_le_reindex hreindex hclamp.1
  have hop := op.dueTime.seconds_mem.2
  have hnow := s.lastReading.seconds_mem.2
  rw [hmax] at hclamp
  exact hlast ⟨le_antisymm hop hclamp.1, le_antisymm hnow hclamp.2⟩

theorem dequeue (h : Inv s) (hok : s.Timely) (ht : s.step .dequeue = some t) : Inv t := by
  simp only [TimerLoop.step] at ht
  split_ifs at ht with hpc
  cases hnext : StableQueue.next s.timestamp s.timers s.currentTimestamp with
  | none =>
    rw [hnext] at ht
    cases ht
    exact { h with
      reindex := fun _ => h.reindex (by simp [hpc])
      current := fun hn => nomatch hn }
  | some op =>
    rw [hnext] at ht
    cases ht
    unfold execute
    cases hid : op.id with
    | reindex =>
      exact { h with
        reindex := fun hn => absurd rfl hn
        current := fun hn => nomatch hn }
    | user id =>
      have hne : reindexOp s.base ≠ op := by
        rintro rfl
        cases hid
      have hle : op.dueTime ≤ s.lastReading := h.next_le hok hpc hnext (by simp [hid])
      exact { h with
        reindex := fun hn => (List.mem_erase_of_ne hne).mpr (h.reindex hn)
        neverEarly := by
          intro e he
          rcases List.mem_append.mp he with he | he
          · exact h.neverEarly e he
          · cases List.mem_singleton.mp he
            exact hle }

theorem reset (h : Inv s) {order : List TimeOperation}
    (ht : s.step (.resetTimerBase order) = some t) : Inv t := by
  simp only [TimerLoop.step] at ht
  split_ifs at ht
  cases ht
  exact
    { base_le := TimerBase.reset_le s.clock
      reading_le := le_refl _
      reindex := fun _ => List.mem_append_right _ (List.mem_singleton.mpr rfl)
      current := fun _ hn => nomatch hn
      neverEarly := h.neverEarly }

theorem step (h : Inv s) {a : TimerAction} (hok : s.TimelyStep a) (ht : s.step a = some t) :
    Inv t := by
  cases a with
  | tick time => exact h.tick ht
  | add id due => exact h.add ht
  | remove id => exact h.remove ht
  | checkTimers => exact h.checkTimers ht
  | dequeue => exact h.dequeue hok ht
  | resetTimerBase order => exact h.reset ht

end Inv

/-- Timers are never early in runs that stay clear of a timestamp computed before a rebase. -/
theorem never_early_when {start : TimePoint} {s : TimerLoop}
    (hs : (timerLoop start).Reaches TimelyStep s) : s.NeverEarly := by
  have hinv : Inv s :=
    hs.invariant (Inv.init start) fun _ _ _ h hok ht => Inv.step h hok ht
  exact hinv.neverEarly

/-- Whole seconds. -/
def atSecond (seconds : ℤ) : TimePoint := .fromSecondsAndNanoseconds seconds 0

theorem never_early_when_run : ∃ s,
    (timerLoop (atSecond 0)).Reaches TimelyStep s ∧ s.executed ≠ [] ∧ s.NeverEarly := by
  obtain ⟨s, hs, hp⟩ := System.exists_reaches (S := timerLoop (atSecond 0)) TimelyStep
    [.add 1 (atSecond 140737100), .tick (atSecond 140737200), .checkTimers, .dequeue, .dequeue,
      .resetTimerBase []]
    (fun s => decide (s.executed ≠ [])) (by decide +kernel)
  exact ⟨s, hs, of_decide_eq_true hp, never_early_when hs⟩

/-- The reindexing comes due when an item is a thousand seconds away. Its timestamp under the new
base is below the `current_timestamp` of the old one. -/
theorem never_early_fails :
    ¬ ∀ (start : TimePoint) (s : TimerLoop), (timerLoop start).Reachable s → s.NeverEarly := by
  intro hall
  obtain ⟨s, hs, hp⟩ := System.exists_reachable (S := timerLoop (atSecond 0))
    [.add 1 (atSecond 140738200), .tick (atSecond 140737200), .checkTimers, .dequeue,
      .resetTimerBase [⟨.user 1, atSecond 140738200⟩], .dequeue]
    (fun s => s.executed.any fun e => !decide (e.1 ≤ e.2)) (by decide +kernel)
  obtain ⟨e, he, hbad⟩ := List.any_eq_true.mp hp
  have hle := hall _ s hs e he
  simp [hle] at hbad

end TimerLoop
end Squiz.LinuxOS
