import Squiz.WhenAll.Invariant

/-! `when_all_op` completes once with the right result, and what it takes for it to leave its
operation-state alone from then on. -/
namespace Squiz.WhenAll
open Squiz.Lib Squiz.Lib.Word Squiz.Lib.Processes Squiz.Detail

variable {N : Arity} {D X : Type}

/-! How many steps each thread has left. -/

def StartPc.rank : StartPc N → ℕ
  | .launch k => 2 * N.children + 3 - k
  | .setStarted => N.children + 2
  | .requestStop k => N.children + 1 - k
  | .deliver => 1
  | .done => 0

def StopPc.rank : StopPc N → ℕ
  | .idle => N.children + 1
  | .requestStop k => N.children - k
  | .done => 0

theorem StopPc.rank_next (k : N.Child) :
    (((Broadcast.next k).map StopPc.requestStop).getD .done).rank <
      (StopPc.requestStop k).rank := by
  have hk := k.isLt
  apply Broadcast.next_lt
  · intro j hj
    simp only [StopPc.rank]
    omega
  · simp only [StopPc.rank]
    omega

theorem StartPc.rank_launch (k : N.Child) :
    (((Broadcast.next k).map StartPc.launch).getD .setStarted).rank <
      (StartPc.launch k).rank := by
  have hk := k.isLt
  apply Broadcast.next_lt
  · intro j hj
    simp only [StartPc.rank]
    omega
  · simp only [StartPc.rank]
    omega

theorem StartPc.rank_requestStop (k : N.Child) :
    (((Broadcast.next k).map StartPc.requestStop).getD .done).rank <
      (StartPc.requestStop k).rank := by
  have hk := k.isLt
  apply Broadcast.next_lt
  · intro j hj
    simp only [StartPc.rank]
    omega
  · simp only [StartPc.rank]
    omega

def ChildPc.rank : ChildPc N D X → ℕ
  | .notStarted => N.children + 9
  | .running => N.children + 8
  | .storeValue _ _ => N.children + 7
  | .loadFlag _ => N.children + 6
  | .setFlag _ => N.children + 5
  | .requestStop _ k => N.children + 3 - k
  | .storeFailure _ => 3
  | .arrive => 2
  | .deliver => 1
  | .done => 0

namespace Op
variable {s t : Op N D X} {i : N.Child}

def rank (s : Op N D X) : ℕ := s.start.rank + s.stop.rank + ∑ i, (s.child i).rank

theorem rank_child_lt {p : ChildPc N D X} (h : p.rank < (s.child i).rank) :
    ∑ j, (Function.update s.child i p j).rank < ∑ j, (s.child j).rank :=
  sum_update_lt h

theorem deliverResult_pcs (s : Op N D X) : s.deliverResult.start = s.start ∧
    s.deliverResult.stop = s.stop ∧ s.deliverResult.child = s.child := by
  unfold deliverResult
  split
  · exact ⟨rfl, rfl, rfl⟩
  · split <;> exact ⟨rfl, rfl, rfl⟩

theorem startStep_rank (hi : s.Inv) (ht : s.startStep = some t) : t.rank < s.rank := by
  unfold startStep at ht
  split at ht
  · next k hpc =>
    cases ht
    have hlt := StartPc.rank_launch k
    rw [← hpc] at hlt
    have hchild : s.child k = .notStarted := by
      have := hi.launched k
      rw [hpc] at this
      exact this.mpr le_rfl
    have hsum := rank_child_lt (s := s) (i := k) (p := .running)
      (by rw [hchild]; simp [ChildPc.rank])
    simp only [rank, setChild]
    omega
  · next hpc =>
    cases ht
    have hlt : s.setStarted.start.rank < s.start.rank := by
      rw [hpc]
      unfold setStarted
      split_ifs <;> simp only [StartPc.rank, Arity.first] <;> omega
    change _ + s.stop.rank + ∑ i, (s.child i).rank < _
    unfold rank
    omega
  · next k hpc =>
    cases ht
    have hlt := StartPc.rank_requestStop k
    rw [← hpc] at hlt
    simp only [rank, requestStopOn]
    omega
  · next hpc =>
    cases ht
    obtain ⟨-, hstop, hchild⟩ := s.deliverResult_pcs
    simp only [rank, hstop, hchild, hpc, StartPc.rank]
    omega
  · cases ht

theorem stopStep_rank (ht : s.stopStep = some t) : t.rank < s.rank := by
  unfold stopStep at ht
  split at ht
  · next hpc =>
    by_cases hstart : s.start = .done
    · rw [if_pos hstart] at ht
      cases ht
      simp only [rank, hpc]
      split_ifs <;> simp only [StopPc.rank, Arity.first] <;> omega
    · rw [if_neg hstart] at ht
      cases ht
  · next k hpc =>
    cases ht
    have hlt := StopPc.rank_next k
    simp only [rank, requestStopOn, hpc]
    omega
  · cases ht

/-- Where a child's step leads, whatever else it does. -/
theorem childStep_pcs (ht : s.childStep i = some t) : t.start = s.start ∧ t.stop = s.stop ∧
    ∃ pc : ChildPc N D X, t.child = Function.update s.child i pc ∧
      pc.rank < (s.child i).rank ∧
      (s.child i = .arrive ∨ pc.outstanding = (s.child i).outstanding) := by
  unfold childStep at ht
  split at ht
  · next vs hpc =>
    cases ht
    refine ⟨rfl, rfl, .arrive, rfl, ?_, .inr (by rw [hpc]; rfl)⟩
    rw [hpc]
    simp only [ChildPc.rank]
    omega
  · next vs x hpc =>
    cases ht
    refine ⟨rfl, rfl, .loadFlag _, rfl, ?_, .inr (by rw [hpc]; rfl)⟩
    rw [hpc]
    simp only [ChildPc.rank]
    omega
  · next f hpc =>
    cases ht
    refine ⟨rfl, rfl, _, rfl, ?_, .inr ?_⟩
    · rw [hpc]
      split_ifs <;> simp only [ChildPc.rank] <;> omega
    · rw [hpc]
      split_ifs <;> rfl
  · next f hpc =>
    cases ht
    unfold setFailureFlag
    by_cases hfailed : hasFlag s.word failedFlag = true
    · rw [if_pos hfailed]
      refine ⟨rfl, rfl, .arrive, rfl, ?_, .inr (by rw [hpc]; rfl)⟩
      rw [hpc]
      simp only [ChildPc.rank]
      omega
    · rw [if_neg hfailed]
      refine ⟨rfl, rfl, _, rfl, ?_, .inr ?_⟩
      · rw [hpc]
        split_ifs <;> simp only [ChildPc.rank, Arity.first] <;> omega
      · rw [hpc]
        split_ifs <;> rfl
  · next f k hpc =>
    cases ht
    have hk := k.isLt
    refine ⟨rfl, rfl, _, rfl, ?_, .inr ?_⟩
    · rw [hpc]
      apply Broadcast.next_lt
      · intro j hj
        simp only [ChildPc.rank]
        omega
      · simp only [ChildPc.rank]
        omega
    · rw [hpc]
      cases Broadcast.next k <;> rfl
  · next f hpc =>
    cases ht
    refine ⟨rfl, rfl, .arrive, rfl, ?_, .inr (by rw [hpc]; rfl)⟩
    rw [hpc]
    simp only [ChildPc.rank]
    omega
  · next hpc =>
    cases ht
    refine ⟨rfl, rfl, _, rfl, ?_, .inl hpc⟩
    rw [hpc]
    split_ifs <;> simp only [ChildPc.rank] <;> omega
  · next hpc =>
    cases ht
    obtain ⟨hstart, hstop, hchild⟩ := s.deliverResult_pcs
    refine ⟨hstart, hstop, .done, ?_, ?_, .inr (by rw [hpc]; rfl)⟩
    · simp only [setChild, hchild]
    · rw [hpc]
      simp only [ChildPc.rank]
      omega
  all_goals cases ht

/-- Every step brings the operation closer to its end. -/
theorem rank_step (hi : s.Inv) {a : Act N D X} (ht : s.step a = some t) : t.rank < s.rank := by
  cases a with
  | start => exact startStep_rank hi ht
  | stop => exact stopStep_rank ht
  | complete i c =>
    simp only [step] at ht
    split at ht
    · next hpc =>
      cases ht
      have hlt : (setResult c : ChildPc N D X).rank < (s.child i).rank := by
        rw [hpc]
        rcases c with ⟨vs, throws⟩ | ⟨tag, datums, _ | x⟩ <;>
          simp only [setResult, ChildPc.rank] <;> omega
      have hsum := rank_child_lt hlt
      simp only [rank, setChild]
      omega
    · cases ht
  | child i =>
    obtain ⟨hstart, hstop, pc, hchild, hlt, -⟩ := childStep_pcs ht
    have hsum := rank_child_lt hlt
    simp only [rank, hstart, hstop, hchild]
    omega

/-- The threads that have entered `deliver_result`, now or before. -/
def Entered (s : Op N D X) : Prop :=
  s.start = .deliver ∨ (∃ i, s.child i = .deliver) ∨ s.delivered ≠ []

theorem Inv.complete_of_entered (hi : s.Inv) (h : s.Entered) : s.Complete := by
  by_contra hnc
  obtain ⟨hnone, hnil⟩ := hi.undelivered hnc
  unfold delivering at hnone
  rcases h with hstart | ⟨i, hchild⟩ | hdelivered
  · rw [hstart, StartPc.delivering] at hnone
    omega
  · have := hi.not_delivering hnc i
    rw [hchild] at this
    cases this
  · exact hdelivered hnil

/-- Nothing is left to do but, possibly, an outer `request_stop()`. -/
def Quiescent (s : Op N D X) : Prop := ∀ a, a ≠ .stop → s.step a = none

/-- A child that was started and has completed, and has no step left, is done. -/
theorem child_done_of_childStep (hchild : s.childStep i = none) (hstarted : s.child i ≠ .notStarted)
    (hrunning : s.child i ≠ .running) : s.child i = .done := by
  unfold childStep at hchild
  cases hpc : s.child i with
  | done => rfl
  | notStarted => exact absurd hpc hstarted
  | running => exact absurd hpc hrunning
  | storeValue vs throws => cases throws <;> simp [hpc] at hchild
  | _ => simp [hpc] at hchild

theorem Quiescent.child_done (h : s.Quiescent) (hstart : ∀ i, s.child i ≠ .notStarted)
    (i : N.Child) : s.child i = .done := by
  apply child_done_of_childStep (h (.child i) (by simp)) (hstart i)
  intro hpc
  have hcomplete := h (.complete i (.value [] none)) (by simp)
  simp [step, hpc] at hcomplete

theorem Quiescent.start_done (h : s.Quiescent) : s.start = .done := by
  have hstart := h .start (by simp)
  simp only [step, startStep] at hstart
  cases hpc : s.start with
  | done => rfl
  | _ => simp [hpc] at hstart

/-- The whole promise of `when_all_op` about one reachable state. -/
structure CompletesOnce (s : Op N D X) : Prop where
  wordFits : s.word < 2 ^ N.stateBits
  startedFits : s.start = .setStarted → s.word + startedFlag < 2 ^ N.stateBits
  stopFits : s.stop = .idle → s.word + stopRequestedFlag < 2 ^ N.stateBits
  countFits : ∀ i, s.child i = .arrive → countIncrement ≤ s.word
  deliveredOnce : s.delivered.length ≤ 1
  /-- delivery begins after all children have completed and `started_flag` is set -/
  deliveredLast : s.Entered → hasFlag s.word startedFlag = true ∧
    ∀ i, (s.completion i).isSome = true ∧ (s.child i = .deliver ∨ s.child i = .done)
  requestedOnce : ∀ i, s.stopRequests i ≤ 1
  requestedAfterStart : ∀ i, s.stopRequests i ≠ 0 → ∀ j, s.child j ≠ .notStarted
  result : ∀ r ∈ s.delivered, Correct s.firstFailure s.completion r
  /-- a run that cannot go on has delivered -/
  deliveredAtEnd : s.Quiescent → s.delivered.length = 1
  noFault : s.fault = false

theorem Inv.arrived (hi : s.Inv) (hzero : s.outstanding = 0) (i : N.Child) :
    (s.completion i).isSome = true ∧ (s.child i = .deliver ∨ s.child i = .done) := by
  have hout : (s.child i).outstanding = false := count_eq_zero.mp hzero i
  have hok := hi.child i
  cases hpc : s.child i with
  | deliver | done =>
    rw [hpc] at hok
    refine ⟨?_, by simp⟩
    rcases hok with ⟨vs, hc, -⟩ | ⟨-, c, f, hc, -⟩ <;> simp [hc]
  | _ =>
    rw [hpc] at hout
    cases hout

theorem Inv.not_launching (hi : s.Inv) (hpub : s.start.published = true) (i : N.Child) :
    s.child i ≠ .notStarted := by
  rw [Ne, hi.launched i]
  cases hpc : s.start with
  | launch k =>
    rw [hpc] at hpub
    cases hpub
  | _ => exact id

theorem Inv.completesOnce (hi : s.Inv) : s.CompletesOnce := by
  have hle := s.outstanding_le
  refine ⟨hi.word_lt, ?_, ?_, ?_, ?_, ?_, hi.forwarding.le_one, ?_, hi.correct, ?_, hi.noFault⟩
  · intro hpc
    rw [hi.word, hpc]
    exact (pack3_add_one _ _ _).symm ▸ Arity.pack3_lt_bits hle _ _ _
  · intro hpc
    rw [hi.word, hpc]
    exact (pack3_add_four _ _ _).symm ▸ Arity.pack3_lt_bits hle _ _ _
  · intro i hpc
    exact hi.countIncrement_le.mpr (count_pos (i := i) (by rw [hpc]; rfl))
  · by_cases hc : s.Complete
    · have := hi.delivered hc
      omega
    · rw [(hi.undelivered hc).2]
      exact Nat.zero_le 1
  · intro he
    obtain ⟨hzero, hpub⟩ := hi.complete_of_entered he
    exact ⟨hi.started_eq.trans hpub, hi.arrived hzero⟩
  · intro i hcalled j
    cases hfw : s.forwarder with
    | none =>
      have := hi.forwarding.unsent hfw
      rw [this] at hcalled
      exact absurd rfl hcalled
    | some c => exact hi.not_launching (hi.forwarder c hfw).1 j
  · intro hq
    have hstart := hq.start_done
    have hpub : s.start.published = true := by rw [hstart]; rfl
    have hdone := hq.child_done (hi.not_launching hpub)
    have hzero : s.outstanding = 0 := count_eq_zero.mpr fun i => by rw [hdone i]; rfl
    have hdel : count ChildPc.delivering s.child = 0 :=
      count_eq_zero.mpr fun i => by rw [hdone i]; rfl
    have hone := hi.delivered ⟨hzero, hpub⟩
    unfold delivering at hone
    simp only [hstart, StartPc.delivering, hdel] at hone
    omega

/-- Over every interleaving of `start()`, one `request_stop()` and the completions of any number
of children; and every run comes to its end. -/
theorem completes_once (hs : (system N D X).Reachable s) :
    s.CompletesOnce ∧ ∀ as t, (system N D X).run s as = some t → as.length ≤ s.rank := by
  have hi := inv_of_reaches hs
  refine ⟨hi.completesOnce, fun as t ht => ?_⟩
  have hle := System.exec_length_le rank
    (fun u a v hu hv => ⟨Inv.step hu a hv, rank_step hu hv⟩) hi ht
  omega

end Op

/-- Two children, with datums and exceptions that are numbers. -/
def pair : Arity := .two

namespace Op

/-- The first child fails while it is started, so `start()` asks the second to stop, which then
completes with a value. -/
def failureInStart : List (Act pair ℕ ℕ) :=
  [.start, .complete 0 (.signal .error [7] none), .child 0, .child 0, .child 0, .child 0, .start,
    .start, .start, .start, .complete 1 (.value [1] none), .child 1, .child 1, .child 1, .stop]

theorem completes_once_run : ∃ s : Op pair ℕ ℕ, s.delivered = [.failure (.signal .error [7])] ∧
    s.CompletesOnce ∧ ∀ as t, (system pair ℕ ℕ).run s as = some t → as.length ≤ s.rank := by
  obtain ⟨s, hs, hp⟩ := (system pair ℕ ℕ).exists_reachable failureInStart
    (fun s => s.delivered = [.failure (.signal .error [7])]) (by decide +kernel)
  exact ⟨s, by simpa using hp, completes_once hs⟩

/-! The stop requests that `start()` defers are sent after `started_flag` is set, when the last
child may already hand the result over. -/

/-- The last child arrives while `start()` still has stop requests to send. -/
def lastArrivesDuringStart {N : Arity} (s : Op N D X) : Act N D X → Bool
  | .child i =>
    match s.child i with
    | .arrive => decide (s.word < 2 * countIncrement) && s.start.position.isSome
    | _ => false
  | _ => false

/-- Once a thread has entered `deliver_result`, the threads in `start()` and `set_result` are
there or have returned: none of them comes to the word or to `request_stop()` again. -/
def HandsOver {N : Arity} (s : Op N D X) : Prop :=
  s.Entered → (s.start = .deliver ∨ s.start = .done) ∧
    ∀ i, s.child i = .deliver ∨ s.child i = .done

/-- While `start()` sends stop requests, some child has not arrived. -/
def Held {N : Arity} (s : Op N D X) : Prop := s.start.position.isSome = true → ¬ s.Complete

variable {N : Arity} {s t : Op N D X} {i : N.Child}

theorem Inv.handsOver (hi : s.Inv) (hheld : s.Held) : s.HandsOver := by
  intro he
  have hc := hi.complete_of_entered he
  refine ⟨?_, fun i => (hi.arrived hc.1 i).2⟩
  have hpub := hc.2
  cases hpc : s.start with
  | launch k | setStarted =>
    rw [hpc] at hpub
    cases hpub
  | requestStop k => exact absurd hc (hheld (by rw [hpc]; rfl))
  | deliver => exact .inl rfl
  | done => exact .inr rfl

theorem Inv.held_start (hi : s.Inv) (hheld : s.Held) (ht : s.startStep = some t) : t.Held := by
  unfold Op.startStep at ht
  split at ht
  · next k hpc =>
    cases ht
    intro hp
    have hnone : (((Broadcast.next k).map StartPc.launch).getD .setStarted).position = none := by
      cases Broadcast.next k <;> rfl
    simp [hnone] at hp
  · next hpc =>
    -- the stop requests are sent only if a child is still running
    cases ht
    rintro hp ⟨hzero, -⟩
    have hle := hi.countIncrement_le
    have hzero' : s.outstanding = 0 := hzero
    simp only [setStarted] at hp
    rw [if_neg (by rw [hle]; omega)] at hp
    cases hp
  · next k hpc =>
    cases ht
    rintro - ⟨hzero, -⟩
    exact hheld (by rw [hpc]; rfl) ⟨hzero, by rw [hpc]; rfl⟩
  · next hpc =>
    cases ht
    intro hp
    cases hp
  · cases ht

theorem Inv.held_child (hi : s.Inv) (hheld : s.Held)
    (hok : s.lastArrivesDuringStart (.child i) = false) (ht : s.childStep i = some t) :
    t.Held := by
  obtain ⟨hstart, -, pc, hchild, -, hpc⟩ := childStep_pcs ht
  intro hp
  rw [hstart] at hp
  have hnc := hheld hp
  rintro ⟨hzero, hpub⟩
  rw [hstart] at hpub
  simp only [outstanding, hchild] at hzero
  rcases hpc with harrive | hsame
  · simp only [lastArrivesDuringStart, harrive, hp, Bool.and_true, decide_eq_false_iff_not,
      not_lt] at hok
    have htwo : 2 ≤ s.outstanding := hi.twice_countIncrement_le.mp hok
    have hout : (s.child i).outstanding = true := by rw [harrive]; rfl
    cases hleft : pc.outstanding with
    | true =>
      have hsame : count ChildPc.outstanding (Function.update s.child i pc) = s.outstanding :=
        count_update_same (hleft.trans hout.symm)
      omega
    | false =>
      have hless : count ChildPc.outstanding (Function.update s.child i pc) + 1 = s.outstanding :=
        count_update_leave hout hleft
      omega
  · rw [count_update_same hsame] at hzero
    exact hnc ⟨hzero, hpub⟩

theorem Inv.held_step (hi : s.Inv) (hheld : s.Held) {a : Act N D X}
    (hok : s.lastArrivesDuringStart a = false) (ht : s.step a = some t) : t.Held := by
  cases a with
  | start => exact hi.held_start hheld ht
  | child i => exact hi.held_child hheld hok ht
  | stop =>
    simp only [Op.step, Op.stopStep] at ht
    split at ht
    · by_cases hstart : s.start = .done
      · rw [if_pos hstart] at ht
        cases ht
        exact hheld
      · rw [if_neg hstart] at ht
        cases ht
    · cases ht
      exact hheld
    · cases ht
  | complete i c =>
    simp only [Op.step] at ht
    split at ht
    · next hpc =>
      cases ht
      have hout : count ChildPc.outstanding (Function.update s.child i (setResult c)) =
          s.outstanding := by
        refine outstanding_update (by rw [hpc]; rfl) ?_
        rcases c with ⟨vs, throws⟩ | ⟨tag, datums, _ | x⟩ <;> rfl
      intro hp
      have hnc := hheld hp
      simpa only [setChild, Complete, outstanding, hout] using hnc
    · cases ht

theorem held_of_reaches (hs : (system N D X).Reaches (fun s a => s.lastArrivesDuringStart a = false)
    s) : s.Inv ∧ s.Held := by
  refine hs.invariant (P := fun u => u.Inv ∧ u.Held) ⟨Inv.initial, ?_⟩ ?_
  · intro hp
    cases hp
  · intro u a v hu hok hv
    exact ⟨hu.1.step a hv, hu.1.held_step hu.2 hok hv⟩

/-- A last arrival during `start()`'s stop requests hands the result over too early. -/
theorem Inv.not_handsOver (hi : s.Inv) {a : Act N D X} (hbad : s.lastArrivesDuringStart a = true)
    (ht : s.step a = some t) : ¬ t.HandsOver := by
  cases a with
  | child i =>
    simp only [lastArrivesDuringStart] at hbad
    split at hbad
    · next hpc =>
      simp only [Bool.and_eq_true, decide_eq_true_eq] at hbad
      obtain ⟨hlast, hposition⟩ := hbad
      have hpub : s.start.published = true := by
        cases hp : s.start with
        | requestStop k => rfl
        | _ =>
          rw [hp] at hposition
          cases hposition
      have hcond : s.word < 2 * countIncrement ∧ hasFlag s.word startedFlag = true :=
        ⟨hlast, hi.started_eq.trans hpub⟩
      simp only [Op.step, Op.childStep, hpc, Option.some.injEq] at ht
      subst ht
      intro hover
      have hentered : (s.arrive i).Entered := by
        refine .inr (.inl ⟨i, ?_⟩)
        simp only [arrive, setChild, Function.update_self]
        exact if_pos hcond
      have hstart : s.start = .deliver ∨ s.start = .done := (hover hentered).1
      rcases hstart with h | h
      · rw [h] at hposition
        cases hposition
      · rw [h] at hposition
        cases hposition
    · cases hbad
  | _ => cases hbad

/-- The result is handed over safely in every run where no last arrival falls into `start()`'s
stop requests, and every such arrival hands it over while `start()` goes on. -/
theorem hands_over_when (N : Arity) (D X : Type) :
    (∀ s, (system N D X).Reaches (fun s a => s.lastArrivesDuringStart a = false) s →
      s.HandsOver) ∧
    ∀ s a t, (system N D X).Reachable s → s.lastArrivesDuringStart a = true →
      s.step a = some t → ¬ t.HandsOver := by
  constructor
  · intro s hs
    obtain ⟨hi, hheld⟩ := held_of_reaches hs
    exact hi.handsOver hheld
  · intro s a t hs hbad ht
    exact (inv_of_reaches hs).not_handsOver hbad ht

/-- The first child fails while it is started, and `start()` has asked the second to stop before
that one completes. -/
theorem hands_over_when_run : ∃ s : Op pair ℕ ℕ,
    (system pair ℕ ℕ).Reaches (fun s a => s.lastArrivesDuringStart a = false) s ∧
      s.delivered = [.failure (.signal .error [7])] ∧ s.HandsOver := by
  obtain ⟨s, hs, hp⟩ := (system pair ℕ ℕ).exists_reaches
    (fun s a => s.lastArrivesDuringStart a = false)
    [.start, .complete 0 (.signal .error [7] none), .child 0, .child 0, .child 0, .child 0,
      .start, .start, .start, .start, .complete 1 (.value [1] none), .child 1, .child 1, .child 1]
    (fun s => decide (s.delivered = [.failure (.signal .error [7])])) (by decide +kernel)
  exact ⟨s, hs, of_decide_eq_true hp, (hands_over_when pair ℕ ℕ).1 s hs⟩

/-- The first child fails while it is started, and the second completes while `start()` is about
to ask the first to stop. -/
theorem hands_over_fails : ∃ s : Op pair ℕ ℕ,
    (system pair ℕ ℕ).Reaches (fun _ a => a ≠ .stop) s ∧ ¬ s.HandsOver := by
  obtain ⟨s, hs, hp⟩ := (system pair ℕ ℕ).exists_reaches (fun _ a => a ≠ .stop)
    [.start, .complete 0 (.signal .error [7] none), .child 0, .child 0, .child 0, .child 0,
      .start, .start, .complete 1 (.value [1] none), .child 1, .child 1]
    (fun s => s.start = .requestStop 0 ∧ s.child 1 = .deliver) (by decide +kernel)
  simp only [decide_eq_true_eq] at hp
  refine ⟨s, hs, fun h => ?_⟩
  have := (h (.inr (.inl ⟨1, hp.2⟩))).1
  rw [hp.1] at this
  rcases this with h | h
  · cases h
  · cases h

end Op
end Squiz.WhenAll
