import Squiz.LinuxOS.TimerLoop

/-! The end of the timer loop of `run_impl`, whose items include the one that moves the base. -/
namespace Squiz.LinuxOS
open Squiz.Lib

/-- The loop, with the items that it has executed since it was entered. -/
structure TimerRounds where
  loop : TimerLoop
  executed : List TimerId := []

namespace TimerRounds

/-- The callbacks of the items add no timers, but they may remove some. -/
def step (s : TimerRounds) : TimerAction → Option TimerRounds
  | .add _ _ => none
  | .checkTimers => none
  | .dequeue => (s.loop.step .dequeue).map fun loop =>
    { loop := loop
      executed := s.executed ++ ((StableQueue.next s.loop.timestamp s.loop.timers
        s.loop.currentTimestamp).map (·.id)).toList }
  | a => (s.loop.step a).map fun loop => { s with loop := loop }

/-- A base that was reset at the last reading of the clock leaves the reindexing after the timestamp
that the loop has cached. -/
def ReindexesLater (s : TimerRounds) : TimerAction → Prop
  | .resetTimerBase _ =>
    s.loop.currentTimestamp < (TimerBase.reset s.loop.clock).timePointToTimestamp
      (TimerBase.reset s.loop.clock).reindexDueTime true
  | _ => True

instance (s : TimerRounds) : ∀ a : TimerAction, Decidable (s.ReindexesLater a)
  | .resetTimerBase _ => inferInstanceAs (Decidable (_ < _))
  | .tick _ | .add _ _ | .remove _ | .checkTimers | .dequeue => .isTrue trivial

/-- The calls of the loop and of `reset_timer_base`. -/
def isRound : TimerAction → Bool
  | .dequeue => true
  | .resetTimerBase _ => true
  | _ => false

end TimerRounds

/-- The loop from any state of the queue. -/
def timerRounds (start : TimerLoop) : System TimerRounds TimerAction where
  init := { loop := start }
  step := TimerRounds.step

namespace TimerLoop

def ids (s : TimerLoop) : List TimerId := s.timers.map (·.id)

/-- At the head of the loop, with finitely many timers and the reindexing. -/
structure InLoop (s : TimerLoop) : Prop where
  pc : s.pc = .dequeue
  nodup : s.ids.Nodup
  reindex : .reindex ∈ s.ids

instance (s : TimerLoop) : Decidable s.InLoop :=
  decidable_of_iff (s.pc = .dequeue ∧ s.ids.Nodup ∧ TimerId.reindex ∈ s.ids)
    ⟨fun h => ⟨h.1, h.2.1, h.2.2⟩, fun h => ⟨h.pc, h.nodup, h.reindex⟩⟩

end TimerLoop

namespace TimerRounds
variable {start : TimerLoop} {s t : TimerRounds} {a : TimerAction}

/-- What a step does. -/
theorem step_cases (h : s.step a = some t) :
    (∃ time, a = .tick time ∧ t = { s with loop := { s.loop with clock := time } }) ∨
    (∃ id, a = .remove id ∧
      t = { s with loop := { s.loop with
        timers := s.loop.timers.filter (·.id ≠ .user id) } }) ∨
    (a = .dequeue ∧ s.loop.pc = .dequeue ∧
      StableQueue.next s.loop.timestamp s.loop.timers s.loop.currentTimestamp = none ∧
      t = { s with loop := { s.loop with pc := .outside } }) ∨
    (∃ op, a = .dequeue ∧ s.loop.pc = .dequeue ∧
      StableQueue.next s.loop.timestamp s.loop.timers s.loop.currentTimestamp = some op ∧
      t = { loop := s.loop.execute op, executed := s.executed ++ [op.id] }) ∨
    ∃ order, a = .resetTimerBase order ∧ s.loop.pc = .reset ∧ order.Perm s.loop.timers ∧
      t = { s with loop := { s.loop.resetTimerBase order with pc := .dequeue } } := by
  cases a with
  | tick time =>
    obtain ⟨loop, hloop, rfl⟩ := Option.map_eq_some_iff.mp h
    simp only [TimerLoop.step] at hloop
    split_ifs at hloop
    cases hloop
    exact Or.inl ⟨time, rfl, rfl⟩
  | add id due => cases h
  | remove id =>
    cases h
    exact Or.inr (Or.inl ⟨id, rfl, rfl⟩)
  | checkTimers => cases h
  | dequeue =>
    obtain ⟨loop, hloop, rfl⟩ := Option.map_eq_some_iff.mp h
    simp only [TimerLoop.step] at hloop
    split_ifs at hloop with hpc
    cases hnext : StableQueue.next s.loop.timestamp s.loop.timers s.loop.currentTimestamp with
    | none =>
      rw [hnext] at hloop
      cases hloop
      refine Or.inr (Or.inr (Or.inl ⟨rfl, hpc, rfl, ?_⟩))
      simp
    | some op =>
      rw [hnext] at hloop
      cases hloop
      exact Or.inr (Or.inr (Or.inr (Or.inl ⟨op, rfl, hpc, rfl, rfl⟩)))
  | resetTimerBase order =>
    obtain ⟨loop, hloop, rfl⟩ := Option.map_eq_some_iff.mp h
    simp only [TimerLoop.step] at hloop
    split_ifs at hloop with hcond
    cases hloop
    exact Or.inr (Or.inr (Or.inr (Or.inr ⟨order, rfl, hcond.1, hcond.2, rfl⟩)))

/-- Where the base is only reset to one that leaves the reindexing after the cached timestamp, no
item is executed twice. -/
structure Inv (start : TimerLoop) (s : TimerRounds) : Prop where
  nodup : s.loop.ids.Nodup
  subset : ∀ op ∈ s.loop.timers, op.id ∈ start.ids
  executed_subset : ∀ id ∈ s.executed, id ∈ start.ids
  executed_nodup : s.executed.Nodup
  later : ∀ op ∈ s.loop.timers, op.id ∈ s.executed →
    op.id = .reindex ∧ s.loop.currentTimestamp < s.loop.timestamp op
  reset : s.loop.pc = .reset →
    .reindex ∈ s.executed ∧ ∀ op ∈ s.loop.timers, op.id ≠ .reindex

theorem Inv.init (h : start.InLoop) : Inv start (timerRounds start).init where
  nodup := h.nodup
  subset := fun op hop => List.mem_map_of_mem hop
  executed_subset := by simp [timerRounds]
  executed_nodup := List.nodup_nil
  later := by simp [timerRounds]
  reset := by
    intro hpc
    have hdequeue : (timerRounds start).init.loop.pc = .dequeue := h.pc
    rw [hdequeue] at hpc
    cases hpc

/-- No other item has the identity of one that is taken out. -/
theorem ne_of_mem_erase {timers : List TimeOperation} {op x : TimeOperation}
    (h : (timers.map (·.id)).Nodup) (hop : op ∈ timers) (hx : x ∈ timers.erase op) :
    x.id ≠ op.id := by
  have hperm : (timers.map (·.id)).Perm (op.id :: (timers.erase op).map (·.id)) :=
    (List.perm_cons_erase hop).map _
  have hnot : op.id ∉ (timers.erase op).map (·.id) := (List.nodup_cons.mp (hperm.nodup h)).1
  rintro heq
  exact hnot (heq ▸ List.mem_map_of_mem hx)

theorem Inv.remove (h : Inv start s) (id : ℕ) :
    Inv start { s with loop := { s.loop with
      timers := s.loop.timers.filter (·.id ≠ .user id) } } where
  nodup := h.nodup.sublist (List.filter_sublist.map _)
  subset := fun op hop => h.subset op (List.mem_of_mem_filter hop)
  executed_subset := h.executed_subset
  executed_nodup := h.executed_nodup
  later := fun op hop => h.later op (List.mem_of_mem_filter hop)
  reset := fun hpc => ⟨(h.reset hpc).1, fun op hop =>
    (h.reset hpc).2 op (List.mem_of_mem_filter hop)⟩

theorem Inv.execute (h : Inv start s) (hdequeue : s.loop.pc = .dequeue) {op : TimeOperation}
    (hnext : StableQueue.next s.loop.timestamp s.loop.timers s.loop.currentTimestamp = some op) :
    Inv start { loop := s.loop.execute op, executed := s.executed ++ [op.id] } := by
  have hop : op ∈ s.loop.timers := StableQueue.next_mem hnext
  have hdue : s.loop.timestamp op ≤ s.loop.currentTimestamp := StableQueue.next_le hnext
  have hnew : op.id ∉ s.executed := by
    intro hmem
    have hlater := (h.later op hop hmem).2
    omega
  have htimers : (s.loop.execute op).timers = s.loop.timers.erase op := by
    unfold TimerLoop.execute
    split <;> rfl
  have hbase : (s.loop.execute op).base = s.loop.base ∧
      (s.loop.execute op).currentTimestamp = s.loop.currentTimestamp := by
    unfold TimerLoop.execute
    split <;> exact ⟨rfl, rfl⟩
  constructor
  case nodup =>
    unfold TimerLoop.ids
    rw [htimers]
    exact h.nodup.sublist (List.erase_sublist.map _)
  case subset =>
    intro x hx
    rw [htimers] at hx
    exact h.subset x (List.mem_of_mem_erase hx)
  case executed_subset =>
    intro id hid
    rcases List.mem_append.mp hid with hid | hid
    · exact h.executed_subset id hid
    · rw [List.mem_singleton.mp hid]
      exact h.subset op hop
  case executed_nodup =>
    rw [← List.concat_eq_append]
    exact h.executed_nodup.concat hnew
  case later =>
    intro x hx hid
    rw [htimers] at hx
    have hne := ne_of_mem_erase h.nodup hop hx
    rcases List.mem_append.mp hid with hid | hid
    · have hlater := h.later x (List.mem_of_mem_erase hx) hid
      unfold TimerLoop.timestamp at hlater ⊢
      rwa [hbase.1, hbase.2]
    · exact absurd (List.mem_singleton.mp hid) hne
  case reset =>
    intro hpc
    have hid : op.id = .reindex := by
      unfold TimerLoop.execute at hpc
      split at hpc
      · assumption
      · cases hdequeue.symm.trans hpc
    refine ⟨?_, fun x hx => ?_⟩
    · rw [← hid]
      exact List.mem_append_right _ (List.mem_singleton.mpr rfl)
    · rw [htimers] at hx
      rw [← hid]
      exact ne_of_mem_erase h.nodup hop hx

theorem Inv.resetTimerBase (h : Inv start s) (hstart : start.InLoop) (hpc : s.loop.pc = .reset)
    {order : List TimeOperation} (hperm : order.Perm s.loop.timers)
    (hlater : s.ReindexesLater (.resetTimerBase order)) :
    Inv start { s with loop := { s.loop.resetTimerBase order with pc := .dequeue } } := by
  obtain ⟨hexecuted, hnone⟩ := h.reset hpc
  have hmem : ∀ op ∈ order ++ [TimerLoop.reindexOp (.reset s.loop.clock)],
      op ∈ s.loop.timers ∨ op = TimerLoop.reindexOp (.reset s.loop.clock) := by
    intro op hop
    rcases List.mem_append.mp hop with hop | hop
    · exact Or.inl (hperm.mem_iff.mp hop)
    · exact Or.inr (List.mem_singleton.mp hop)
  constructor
  case nodup =>
    have horder : (order.map (·.id)).Nodup := (hperm.map _).symm.nodup h.nodup
    have hnew : TimerId.reindex ∉ order.map (·.id) := by
      intro hid
      obtain ⟨op, hop, hid⟩ := List.mem_map.mp hid
      exact hnone op (hperm.mem_iff.mp hop) hid
    change ((order ++ [TimerLoop.reindexOp _]).map (·.id)).Nodup
    rw [List.map_append, List.map_singleton, ← List.concat_eq_append]
    exact horder.concat hnew
  case subset =>
    intro op hop
    rcases hmem op hop with hop | rfl
    · exact h.subset op hop
    · exact hstart.reindex
  case executed_subset => exact h.executed_subset
  case executed_nodup => exact h.executed_nodup
  case later =>
    intro op hop hid
    rcases hmem op hop with hop | rfl
    · exact absurd (h.later op hop hid).1 (hnone op hop)
    · exact ⟨rfl, hlater⟩
  case reset => exact fun hn => nomatch hn

theorem Inv.step (h : Inv start s) (hstart : start.InLoop) (hok : s.ReindexesLater a)
    (ht : s.step a = some t) : Inv start t := by
  obtain ⟨time, rfl, rfl⟩ | ⟨id, rfl, rfl⟩ | ⟨rfl, hpc, hnext, rfl⟩ | ⟨op, rfl, hpc, hnext, rfl⟩ |
    ⟨order, rfl, hpc, hperm, rfl⟩ := step_cases ht
  · exact ⟨h.nodup, h.subset, h.executed_subset, h.executed_nodup, h.later, h.reset⟩
  · exact h.remove id
  · exact ⟨h.nodup, h.subset, h.executed_subset, h.executed_nodup, h.later, fun hn => nomatch hn⟩
  · exact h.execute hpc hnext
  · exact h.resetTimerBase hstart hpc hperm hok

theorem Inv.length_le (h : Inv start s) : s.executed.length ≤ start.timers.length := by
  have hle := (List.subperm_of_subset h.executed_nodup h.executed_subset).length_le
  unfold TimerLoop.ids at hle
  rwa [List.length_map] at hle

/-- Rounds that are left, for what the loop has executed so far. -/
def rank (start : TimerLoop) (s : TimerRounds) : ℕ :=
  2 * (start.timers.length - s.executed.length) +
    match s.loop.pc with
    | .outside => 0
    | .dequeue => 1
    | .reset => 2

theorem Inv.rank_step (h : Inv start s) (hstart : start.InLoop) (hok : s.ReindexesLater a)
    (ht : s.step a = some t) : rank start t + (isRound a).toNat ≤ rank start s := by
  have h' := h.step hstart hok ht
  have hle := h'.length_le
  obtain ⟨time, rfl, rfl⟩ | ⟨id, rfl, rfl⟩ | ⟨rfl, hpc, hnext, rfl⟩ | ⟨op, rfl, hpc, hnext, rfl⟩ |
    ⟨order, rfl, hpc, hperm, rfl⟩ := step_cases ht
  · exact Nat.le_refl _
  · exact Nat.le_refl _
  · simp [rank, hpc, isRound]
  · have hexecute : (match (s.loop.execute op).pc with
        | .outside => 0 | .dequeue => 1 | .reset => 2) ≤ 2 := by
      split <;> omega
    rw [List.length_append, List.length_singleton] at hle
    simp only [rank, hpc, isRound, Bool.toNat_true, List.length_append, List.length_singleton]
    omega
  · simp [rank, hpc, isRound]

/-- The reindexing is to be executed again. -/
def Again (s : TimerRounds) : Prop :=
  2 ≤ s.executed.count .reindex ∨ s.executed.count .reindex = 1 ∧ s.loop.pc = .dequeue ∧
    ∃ op ∈ s.loop.timers, op.id = .reindex ∧ s.loop.timestamp op ≤ s.loop.currentTimestamp

theorem Again.step (h : s.Again) (ht : s.step a = some t) : t.Again := by
  obtain ⟨time, rfl, rfl⟩ | ⟨id, rfl, rfl⟩ | ⟨rfl, hpc, hnext, rfl⟩ | ⟨op, rfl, hpc, hnext, rfl⟩ |
    ⟨order, rfl, hpc, hperm, rfl⟩ := step_cases ht
  · exact h
  · rcases h with htwice | ⟨hone, hpc, op, hop, hid, hdue⟩
    · exact Or.inl htwice
    · exact Or.inr ⟨hone, hpc, op, List.mem_filter.mpr ⟨hop, by simp [hid]⟩, hid, hdue⟩
  · rcases h with htwice | ⟨_, _, op, hop, _, hdue⟩
    · exact Or.inl htwice
    · have hlt := StableQueue.lt_of_next_eq_none hnext hop
      omega
  · rcases h with htwice | ⟨hone, _, x, hx, hid, hdue⟩
    · left
      rw [List.count_append]
      omega
    · unfold Again TimerLoop.execute
      rw [List.count_append, hone]
      cases hop : op.id with
      | reindex => exact Or.inl (by simp)
      | user id =>
        have hne : x ≠ op := by
          rintro rfl
          rw [hid] at hop
          cases hop
        exact Or.inr ⟨by simp, hpc, x, (List.mem_erase_of_ne hne).mpr hx, hid, hdue⟩
  · rcases h with htwice | ⟨_, hdequeue, _⟩
    · exact Or.inl htwice
    · cases hdequeue.symm.trans hpc

theorem Inv.count_reindex (h : Inv start s) (hpc : s.loop.pc = .reset) :
    s.executed.count .reindex = 1 :=
  List.count_eq_one_of_mem h.executed_nodup (h.reset hpc).1

/-- A run either keeps to such bases, or executes the reindexing again. -/
theorem reaches_or_again (hstart : start.InLoop) (hs : (timerRounds start).Reachable s) :
    (timerRounds start).Reaches ReindexesLater s ∨ s.Again := by
  induction hs with
  | init => exact Or.inl .init
  | @step s t a _ _ ht ih =>
    rcases ih with hreaches | hagain
    · by_cases hok : s.ReindexesLater a
      · exact Or.inl (hreaches.step hok ht)
      · right
        have h : Inv start s := hreaches.invariant (Inv.init hstart)
          fun _ _ _ h hok ht => h.step hstart hok ht
        cases a with
        | resetTimerBase order =>
          have hstep : s.step (.resetTimerBase order) = some t := ht
          simp only [TimerRounds.step, TimerLoop.step] at hstep
          split_ifs at hstep with hcond
          · cases hstep
            exact Or.inr ⟨h.count_reindex hcond.1, rfl, _, List.mem_append_right _
              (List.mem_singleton.mpr rfl), rfl, Nat.le_of_not_lt hok⟩
          · cases hstep
        | _ => exact absurd trivial hok
    · exact Or.inr (hagain.step ht)

/-- The loop ends, and executes every item once at most, in the runs that leave the reindexing after
the cached timestamp. It executes the reindexing again before the end of any other run. -/
theorem timer_loop_ends_when (hstart : start.InLoop) {as : List TimerAction}
    (hs : (timerRounds start).exec ReindexesLater (timerRounds start).init as = some s) :
    (s.executed.Nodup ∧ s.executed ⊆ start.ids ∧
        as.countP isRound ≤ 2 * start.timers.length + 1) ∧
      ∀ t, (timerRounds start).Reachable t → t.loop.pc = .outside →
        (t.executed.count .reindex ≤ 1 ↔ (timerRounds start).Reaches ReindexesLater t) := by
  have hinit : Inv start (timerRounds start).init := Inv.init hstart
  have h : Inv start s :=
    System.exec_invariant (S := timerRounds start) (P := Inv start)
      (fun _ _ _ h hok ht => h.step hstart hok ht) hinit hs
  refine ⟨⟨h.executed_nodup, fun _ hid => h.executed_subset _ hid, ?_⟩, fun t ht hpc => ?_⟩
  · have hle := System.exec_countP_le_of_ok (S := timerRounds start) (P := Inv start) (rank start)
      isRound (fun _ _ _ h hok ht => ⟨h.step hstart hok ht, h.rank_step hstart hok ht⟩) hinit hs
    have hrank : rank start (timerRounds start).init = 2 * start.timers.length + 1 := by
      simp [rank, timerRounds, hstart.pc]
    omega
  · constructor
    · intro hone
      rcases reaches_or_again hstart ht with hreaches | htwice | ⟨_, hdequeue, _⟩
      · exact hreaches
      · omega
      · cases hdequeue.symm.trans hpc
    · intro hreaches
      have h : Inv start t := hreaches.invariant hinit fun _ _ _ h hok ht => h.step hstart hok ht
      exact List.nodup_iff_count_le_one.mp h.executed_nodup _

/-- At the head of the loop at the time `now`, with a base of an earlier time. -/
def entered (baseTime now : TimePoint) (timers : List TimeOperation) : TimerLoop where
  base := .reset baseTime
  timers := timers ++ [TimerLoop.reindexOp (.reset baseTime)]
  clock := now
  lastReading := now
  currentTimestamp := (TimerBase.reset baseTime).timePointToTimestamp now false
  pc := .dequeue

/-- In the last minutes of `std::int64_t`, where the due time of the reindexing is clamped. -/
def lastMinutes : TimerLoop :=
  entered (TimerLoop.atSecond 9223372036714038319) (TimerLoop.atSecond 9223372036854775607)
    [⟨.user 1, TimerLoop.atSecond 9223372036714038320⟩]

theorem timer_loop_ends_when_run : ∃ s : TimerRounds,
    s.executed = [.user 1, .reindex] ∧ (s.executed.Nodup ∧ s.executed ⊆ lastMinutes.ids ∧
        [.dequeue, .dequeue, .resetTimerBase [], .dequeue].countP isRound ≤
          2 * lastMinutes.timers.length + 1) ∧
      ∀ t, (timerRounds lastMinutes).Reachable t → t.loop.pc = .outside →
        (t.executed.count .reindex ≤ 1 ↔ (timerRounds lastMinutes).Reaches ReindexesLater t) := by
  have hrun : ((timerRounds lastMinutes).exec ReindexesLater (timerRounds lastMinutes).init
      [.dequeue, .dequeue, .resetTimerBase [], .dequeue]).any
      (fun s => s.executed = [.user 1, .reindex]) = true := by decide +kernel
  obtain ⟨s, hs, hp⟩ := (Option.any_eq_true _ _).mp hrun
  exact ⟨s, by simpa using hp, timer_loop_ends_when (by decide) hs⟩

/-- Half of the range of timestamps after the base. -/
def reindexing : TimerLoop := entered (TimerLoop.atSecond 0) (TimerLoop.atSecond 140737200) []

/-- After the base was reset at the same time, which leaves the reindexing due. -/
def reindexed : TimerLoop :=
  { entered (TimerLoop.atSecond 140737200) (TimerLoop.atSecond 140737200) [] with
    currentTimestamp := reindexing.currentTimestamp
    rebased := true }

/-- A round that executes the reindexing alone. -/
theorem reindex_round {loop : TimerLoop} {baseTime : TimePoint} {executed : List TimerId}
    (hloop : (timerRounds reindexing).Reachable { loop := loop, executed := executed })
    (hpc : loop.pc = .dequeue) (htimers : loop.timers = [TimerLoop.reindexOp (.reset baseTime)])
    (hnext : StableQueue.next loop.timestamp loop.timers loop.currentTimestamp =
      some (TimerLoop.reindexOp (.reset baseTime))) :
    (timerRounds reindexing).Reachable
      { loop := { loop.resetTimerBase [] with pc := .dequeue }
        executed := executed ++ [.reindex] } := by
  have hdequeue : (timerRounds reindexing).step { loop := loop, executed := executed } .dequeue =
      some { loop := loop.execute (TimerLoop.reindexOp (.reset baseTime))
             executed := executed ++ [.reindex] } := by
    simp only [timerRounds, TimerRounds.step, TimerLoop.step]
    rw [if_pos hpc, hnext]
    rfl
  have hnil : (loop.execute (TimerLoop.reindexOp (.reset baseTime))).timers = [] := by
    change loop.timers.erase _ = []
    rw [htimers, List.erase_cons_head]
  have hreset : (timerRounds reindexing).step
      { loop := loop.execute (TimerLoop.reindexOp (.reset baseTime))
        executed := executed ++ [.reindex] } (.resetTimerBase []) =
      some { loop := { loop.resetTimerBase [] with pc := .dequeue }
             executed := executed ++ [.reindex] } := by
    simp only [timerRounds, TimerRounds.step, TimerLoop.step]
    rw [hnil, if_pos ⟨rfl, List.Perm.refl _⟩]
    rfl
  exact (hloop.step trivial hdequeue).step trivial hreset

/-- The base that the reindexing sets leaves it due, so the loop executes it for ever. -/
theorem timer_loop_endless : reindexing.InLoop ∧
    ∀ n, ∃ s, (timerRounds reindexing).Reachable s ∧ s.executed = List.replicate n .reindex := by
  refine ⟨by decide, fun n => ?_⟩
  have hloop : ∀ n, (timerRounds reindexing).Reachable
      { loop := reindexed, executed := List.replicate (n + 1) .reindex } := by
    intro n
    induction n with
    | zero => exact reindex_round .init rfl rfl (by decide +kernel)
    | succ n ih =>
      have hround := reindex_round ih rfl rfl (by decide +kernel)
      rw [List.replicate_succ']
      exact hround
  cases n with
  | zero => exact ⟨_, .init, rfl⟩
  | succ n => exact ⟨_, hloop n, rfl⟩

end TimerRounds
end Squiz.LinuxOS
