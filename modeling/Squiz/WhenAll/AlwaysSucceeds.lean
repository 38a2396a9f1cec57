import Squiz.Lib.Simulation
import Squiz.WhenAll.Protocol

/-! The specialisation of `when_all_op` for children that only complete with values that can be
moved without throwing: a plain countdown, without `started_flag`. It is simulated by the general
`when_all_op`. -/
namespace Squiz.WhenAll.AlwaysSucceeds
open Squiz.Lib Squiz.Lib.Word Squiz.Lib.Processes Squiz.Detail

/-- Progress of `start()`. -/
inductive StartPc (N : Arity) where
  /-- about to call `start()` of child `k` -/
  | launch (k : N.Child)
  | done
  deriving DecidableEq

/-- Progress of one child and of its `set_result`. -/
inductive ChildPc (D : Type) where
  | notStarted
  | running
  | storeValue (vs : List D)
  | arrive
  | deliver
  | done
  deriving DecidableEq

/-- Width of `ref_count_t`. -/
def refCountBits (N : Arity) : ℕ := smallestUnsignedIntegerFor N.children

structure Op (N : Arity) (D : Type) where
  /-- `state_` -/
  state : ℕ := N.children
  valueResults : N.Child → Option (List D) := fun _ => none
  start : StartPc N := .launch N.first
  stop : StopPc N := .idle
  child : N.Child → ChildPc D := fun _ => .notStarted
  /-- the values of each child's `set_result` -/
  completion : N.Child → Option (List D) := fun _ => none
  stopRequests : N.Child → ℕ := fun _ => 0
  /-- the values that the receiver is completed with -/
  delivered : List (List D) := []
  /-- `std::unreachable()` was reached -/
  fault : Bool := false

variable {N : Arity} {D X : Type}

namespace Op

def setChild (s : Op N D) (i : N.Child) (pc : ChildPc D) : Op N D :=
  { s with child := Function.update s.child i pc }

def startStep (s : Op N D) : Option (Op N D) :=
  match s.start with
  | .launch k =>
    some { s.setChild k .running with start := ((Broadcast.next k).map .launch).getD .done }
  | .done => none

def stopStep (s : Op N D) : Option (Op N D) :=
  match s.stop with
  | .idle => if s.start = .done then some { s with stop := .requestStop N.first } else none
  | .requestStop k =>
    some { s with
      stopRequests := Function.update s.stopRequests k (s.stopRequests k + 1)
      stop := ((Broadcast.next k).map .requestStop).getD .done }
  | .done => none

/-- The `fetch_sub` of `arrive`. -/
def arrive (s : Op N D) (i : N.Child) : Op N D :=
  { s.setChild i (if s.state = 1 then .deliver else .done) with
    state := fetchSub (refCountBits N) s.state 1 }

def deliverValue (s : Op N D) : Op N D :=
  match WhenAll.Op.deliverValue s.valueResults (List.finRange N.children) [] with
  | some vs => { s with delivered := s.delivered ++ [vs] }
  | none => { s with fault := true }

def childStep (s : Op N D) (i : N.Child) : Option (Op N D) :=
  match s.child i with
  | .storeValue vs =>
    some { s.setChild i .arrive with
      valueResults := Function.update s.valueResults i (some vs) }
  | .arrive => some (s.arrive i)
  | .deliver => some (s.deliverValue.setChild i .done)
  | .notStarted | .running | .done => none

end Op

inductive Act (N : Arity) (D : Type) where
  /-- the next step of `start()` -/
  | start
  /-- the next step of the outer `request_stop()` -/
  | stop
  /-- child `i` completes: it calls `set_result` -/
  | complete (i : N.Child) (vs : List D)
  /-- the next step of child `i`'s `set_result` -/
  | child (i : N.Child)

def Op.step (s : Op N D) : Act N D → Option (Op N D)
  | .start => s.startStep
  | .stop => s.stopStep
  | .complete i vs =>
    match s.child i with
    | .running =>
      some { s.setChild i (.storeValue vs) with
        completion := Function.update s.completion i (some vs) }
    | _ => none
  | .child i => s.childStep i

def system (N : Arity) (D : Type) : System (Op N D) (Act N D) := ⟨{}, Op.step⟩

/-! The general `when_all_op` on the same children. -/

def StartPc.general : StartPc N → WhenAll.StartPc N
  | .launch k => .launch k
  | .done => .done

def ChildPc.general : ChildPc D → WhenAll.ChildPc N D X
  | .notStarted => .notStarted
  | .running => .running
  | .storeValue vs => .storeValue vs none
  | .arrive => .arrive
  | .deliver => .deliver
  | .done => .done

/-- The child is still counted. -/
def ChildPc.outstanding : ChildPc D → Bool
  | .deliver | .done => false
  | _ => true

/-- The completions of the children in an action. -/
def completions : Act N D → List (N.Child × WhenAll.Completion D X)
  | .complete i vs => [(i, .value vs none)]
  | _ => []

def generalCompletions : WhenAll.Act N D X → List (N.Child × WhenAll.Completion D X)
  | .complete i c => [(i, c)]
  | _ => []

/-- The general operation has come as far. It sends no stop requests where no child is running. -/
structure Op.Matches (s : Op N D) (t : WhenAll.Op N D X) : Prop where
  inv : t.Inv
  start : t.start = s.start.general
  child : ∀ i, t.child i = (s.child i).general
  completion : ∀ i, t.completion i = (s.completion i).map fun vs => .value vs none
  valueResults : t.valueResults = s.valueResults
  noFailure : t.firstFailure = none
  delivered : t.delivered = s.delivered.map .value
  stop : t.stop = s.stop ∨ t.stop = .done ∧ s.stop ≠ .idle
  state : s.state = count ChildPc.outstanding s.child
  /-- the calls of `request_stop()` by the outer one -/
  forwarding : Broadcast.Once (fun _ _ => true) (fun _ : Unit => s.stop.position)
    (if s.stop.requested then some () else none) s.stopRequests
  noFault : s.fault = false

theorem ChildPc.outstanding_general (pc : ChildPc D) :
    (pc.general : WhenAll.ChildPc N D X).outstanding = pc.outstanding := by
  cases pc <;> rfl

namespace Op
variable {s s' : Op N D} {t : WhenAll.Op N D X} {i : N.Child}

theorem Matches.outstanding (h : s.Matches t) : t.outstanding = s.state := by
  rw [h.state]
  apply Eq.symm
  unfold WhenAll.Op.outstanding count
  simp only [h.child, ChildPc.outstanding_general]

theorem Matches.child_update (h : s.Matches t) (i : N.Child) (pc : ChildPc D) (j : N.Child) :
    Function.update t.child i pc.general j = (Function.update s.child i pc j).general := by
  by_cases hj : j = i
  · subst hj
    simp only [Function.update_self]
  · simp only [Function.update_of_ne hj, h.child]

theorem init_matches : ({} : Op N D).Matches ({} : WhenAll.Op N D X) where
  inv := WhenAll.Op.Inv.initial
  start := rfl
  child _ := rfl
  completion _ := rfl
  valueResults := rfl
  noFailure := rfl
  delivered := rfl
  stop := .inl rfl
  state := by
    rw [count_const_true rfl, Fintype.card_fin]
  forwarding := Broadcast.Once.initial fun _ => rfl
  noFault := rfl

theorem Matches.child_general (h : s.Matches t) {pc : ChildPc D} (hpc : s.child i = pc) :
    t.child i = pc.general := by
  rw [h.child, hpc]

theorem Matches.start_general (h : s.Matches t) {pc : StartPc N} (hpc : s.start = pc) :
    t.start = pc.general := by
  rw [h.start, hpc]

theorem Matches.launch (h : s.Matches t) {k : N.Child} (hpc : s.start = .launch k) :
    s.child k = .notStarted := by
  have hlaunched : t.child k = .notStarted := by
    rw [h.inv.launched, h.start_general hpc]
    exact le_refl k
  rw [h.child] at hlaunched
  cases hchild : s.child k <;> rw [hchild] at hlaunched <;> first | rfl | cases hlaunched

/-- Without a failure `start()` of the general operation has nothing left to do while a child is
running. -/
theorem setStarted_done (hi : t.Inv) (hrunning : 1 ≤ t.outstanding) (hf : t.firstFailure = none) :
    t.setStarted.start = .done := by
  have hflag : hasFlag t.word failedFlag = false := by
    rw [hi.failed_eq, hf]
    rfl
  unfold WhenAll.Op.setStarted
  rw [if_pos (hi.countIncrement_le.mpr hrunning), hflag]
  rfl

theorem matches_start (h : s.Matches t) (hs : s.startStep = some s') :
    ∃ bs t', (WhenAll.system N D X).run t bs = some t' ∧ bs.flatMap generalCompletions = [] ∧
      s'.Matches t' := by
  cases hpc : s.start with
  | done =>
    simp only [startStep, hpc] at hs
    cases hs
  | launch k =>
    simp only [startStep, hpc] at hs
    cases hs
    have hchild : s.child k = .notStarted := h.launch hpc
    have hstate : s.state = count ChildPc.outstanding (Function.update s.child k .running) := by
      rw [h.state, count_update_same]
      rw [hchild]
      rfl
    cases hnext : Broadcast.next k with
    | some j =>
      have ht : t.step .start = some { t.setChild k .running with start := .launch j } := by
        simp only [WhenAll.Op.step, WhenAll.Op.startStep, h.start_general hpc, StartPc.general,
          hnext, Option.map_some, Option.getD_some]
      exact ⟨[.start], _, System.run_singleton ht, rfl, h.inv.step _ ht, rfl,
        h.child_update k .running, h.completion, h.valueResults, h.noFailure, h.delivered, h.stop,
        hstate, h.forwarding, h.noFault⟩
    | none =>
      have ht : t.step .start = some { t.setChild k .running with start := .setStarted } := by
        simp only [WhenAll.Op.step, WhenAll.Op.startStep, h.start_general hpc, StartPc.general,
          hnext, Option.map_none, Option.getD_none]
      have hinv := h.inv.step _ ht
      have ht' := (rfl :
        WhenAll.Op.step { t.setChild k .running with start := .setStarted } .start =
        some (WhenAll.Op.setStarted { t.setChild k .running with start := .setStarted }))
      have hrunning : 1 ≤ count WhenAll.ChildPc.outstanding (Function.update t.child k .running) :=
        count_pos (i := k) (by rw [Function.update_self]; rfl)
      have hrun : (WhenAll.system N D X).run t [.start, .start] =
          some (WhenAll.Op.setStarted { t.setChild k .running with start := .setStarted }) := by
        rw [System.run_cons]
        exact Option.bind_eq_some_iff.mpr ⟨_, ht, System.run_singleton ht'⟩
      exact ⟨[.start, .start], _, hrun, rfl, hinv.step _ ht',
        setStarted_done hinv hrunning h.noFailure, h.child_update k .running, h.completion,
        h.valueResults, h.noFailure, h.delivered, h.stop, hstate, h.forwarding, h.noFault⟩

/-- The general operation forwards an outer `request_stop()`, or it has nobody to forward it to. -/
theorem stop_idle (hidle : t.stop = .idle) (hstart : t.start = .done) :
    ∃ word fault forwarder stop,
      t.step .stop = some { t with word, fault, forwarder, stop } ∧
        (stop = .requestStop N.first ∨ stop = .done) := by
  have ht : t.step .stop = t.stopStep := rfl
  simp only [WhenAll.Op.stopStep, hidle] at ht
  rw [if_pos hstart] at ht
  refine ⟨_, _, _, _, ht, ?_⟩
  split_ifs
  · exact .inl rfl
  · exact .inr rfl

theorem matches_stop (h : s.Matches t) (hs : s.stopStep = some s') :
    ∃ bs t', (WhenAll.system N D X).run t bs = some t' ∧ bs.flatMap generalCompletions = [] ∧
      s'.Matches t' := by
  cases hpc : s.stop with
  | done =>
    simp only [stopStep, hpc] at hs
    cases hs
  | idle =>
    simp only [stopStep, hpc] at hs
    split_ifs at hs with hdone
    cases hs
    have hidle : t.stop = .idle := by
      rcases h.stop with hstop | ⟨-, hne⟩
      · rw [hstop, hpc]
      · exact absurd hpc hne
    have hstart : t.start = .done := h.start_general hdone
    have hforwarding : Broadcast.Once (fun _ _ => true)
        (fun _ : Unit => (StopPc.requestStop N.first).position) (some ()) s.stopRequests := by
      have hnone := h.forwarding
      rw [hpc] at hnone
      exact Broadcast.Once.enter hnone rfl rfl fun _ hd => absurd (Subsingleton.elim _ _) hd
    obtain ⟨word, fault, forwarder, stop, ht, hstop⟩ := stop_idle hidle hstart
    have hsame : stop = .requestStop N.first ∨ stop = .done ∧ StopPc.requestStop N.first ≠ .idle :=
      hstop.imp_right fun hdone => ⟨hdone, by simp⟩
    exact ⟨[.stop], _, System.run_singleton ht, rfl, h.inv.step _ ht, h.start, h.child,
      h.completion, h.valueResults, h.noFailure, h.delivered, hsame, h.state, hforwarding,
      h.noFault⟩
  | requestStop k =>
    simp only [stopStep, hpc] at hs
    cases hs
    have hforwarding : Broadcast.Once (fun _ _ => true)
        (fun _ : Unit => (((Broadcast.next k).map StopPc.requestStop).getD .done).position)
        (if (((Broadcast.next k).map StopPc.requestStop).getD .done).requested then some ()
          else none)
        (Function.update s.stopRequests k (s.stopRequests k + 1)) := by
      have hcalling := h.forwarding
      rw [hpc] at hcalling
      have hposition : (((Broadcast.next k).map StopPc.requestStop).getD .done).position =
          Broadcast.next k := by
        cases Broadcast.next k <;> rfl
      have hrequested : (((Broadcast.next k).map StopPc.requestStop).getD .done).requested =
          true := by
        cases Broadcast.next k <;> rfl
      rw [hrequested]
      exact Broadcast.Once.advance (c := ()) hcalling rfl hposition
        fun _ hd => absurd (Subsingleton.elim _ _) hd
    rcases h.stop with hstop | ⟨hstop, -⟩
    · have ht : t.step .stop = some { t.requestStopOn k with
          stop := ((Broadcast.next k).map .requestStop).getD .done } := by
        simp only [WhenAll.Op.step, WhenAll.Op.stopStep, hstop, hpc]
      exact ⟨[.stop], _, System.run_singleton ht, rfl, h.inv.step _ ht, h.start, h.child,
        h.completion, h.valueResults, h.noFailure, h.delivered, .inl rfl, h.state, hforwarding,
        h.noFault⟩
    · refine ⟨[], t, rfl, rfl, h.inv, h.start, h.child, h.completion, h.valueResults, h.noFailure,
        h.delivered, .inr ⟨hstop, ?_⟩, h.state, hforwarding, h.noFault⟩
      cases Broadcast.next k <;> simp

theorem matches_complete (h : s.Matches t) {vs : List D} (hs : s.step (.complete i vs) = some s') :
    ∃ bs t', (WhenAll.system N D X).run t bs = some t' ∧
      bs.flatMap generalCompletions = [(i, .value vs none)] ∧ s'.Matches t' := by
  simp only [Op.step] at hs
  split at hs
  · next hpc =>
    cases hs
    have ht : t.step (.complete i (.value vs none)) = some { t.setChild i (.storeValue vs none) with
        completion := Function.update t.completion i (some (.value vs none)) } := by
      simp only [WhenAll.Op.step, h.child_general hpc, ChildPc.general, WhenAll.Op.setResult]
    have hstate : s.state = count ChildPc.outstanding
        (Function.update s.child i (.storeValue vs)) := by
      rw [h.state, count_update_same]
      rw [hpc]
      rfl
    refine ⟨[.complete i (.value vs none)], _, System.run_singleton ht, rfl, h.inv.step _ ht,
      h.start, h.child_update i (.storeValue vs), ?_, h.valueResults, h.noFailure, h.delivered,
      h.stop, hstate, h.forwarding, h.noFault⟩
    intro j
    by_cases hj : j = i
    · subst hj
      simp only [Function.update_self, Option.map_some]
    · simp only [Function.update_of_ne hj, h.completion]
  · cases hs

theorem Matches.state_lt (h : s.Matches t) : s.state < 2 ^ refCountBits N := by
  have hfits : N.children < 2 ^ 64 := by
    have hword := N.fits
    omega
  have hle : s.state ≤ N.children := by
    rw [← h.outstanding]
    exact t.outstanding_le
  exact hle.trans_lt (lt_smallestUnsignedIntegerFor hfits)

/-- The last child to arrive is the last one for the general operation too, whose `start()` has then
set `started_flag`: the children of a `start()` that still launches are counted. -/
theorem Matches.last_arrives (h : s.Matches t) (hpc : s.child i = .arrive) :
    t.word < 2 * countIncrement ∧ hasFlag t.word startedFlag = true ↔ s.state = 1 := by
  have hout : (s.child i).outstanding = true := by
    rw [hpc]
    rfl
  have htwo := h.inv.twice_countIncrement_le
  have hpos : 1 ≤ s.state := by
    rw [h.state]
    exact count_pos hout
  rw [h.outstanding] at htwo
  constructor
  · rintro ⟨hword, -⟩
    omega
  · intro hone
    refine ⟨by omega, ?_⟩
    rw [h.inv.started_eq]
    cases hstart : s.start with
    | done =>
      rw [h.start_general hstart]
      rfl
    | launch k =>
      exfalso
      have hchild : s.child k = .notStarted := h.launch hstart
      have hne : k ≠ i := by
        rintro rfl
        rw [hpc] at hchild
        cases hchild
      rw [h.state, count_eq_one_iff hout] at hone
      have hk := hone k hne
      rw [hchild] at hk
      cases hk

theorem matches_arrive (h : s.Matches t) (hpc : s.child i = .arrive) :
    ∃ bs t', (WhenAll.system N D X).run t bs = some t' ∧ bs.flatMap generalCompletions = [] ∧
      (s.arrive i).Matches t' := by
  have ht : t.step (.child i) = some (t.arrive i) := by
    simp only [WhenAll.Op.step, WhenAll.Op.childStep, h.child_general hpc, ChildPc.general]
  have hout : (s.child i).outstanding = true := by
    rw [hpc]
    rfl
  have hpos : 1 ≤ s.state := by
    rw [h.state]
    exact count_pos hout
  refine ⟨[.child i], _, System.run_singleton ht, rfl, h.inv.step _ ht, h.start, ?_, h.completion,
    h.valueResults, h.noFailure, h.delivered, h.stop, ?_, h.forwarding, h.noFault⟩
  · have hlast := h.last_arrives hpc
    by_cases hone : s.state = 1
    · simp only [WhenAll.Op.arrive, arrive, if_pos hone, if_pos (hlast.mpr hone)]
      exact h.child_update i .deliver
    · simp only [WhenAll.Op.arrive, arrive, if_neg hone, if_neg (mt hlast.mp hone)]
      exact h.child_update i .done
  · have hleft : (if s.state = 1 then ChildPc.deliver else .done : ChildPc D).outstanding =
        false := by
      split_ifs <;> rfl
    have hcount := count_update_leave hout hleft
    show fetchSub (refCountBits N) s.state 1 =
      count ChildPc.outstanding
        (Function.update s.child i (if s.state = 1 then .deliver else .done))
    rw [fetchSub_of_le hpos h.state_lt]
    rw [← h.state] at hcount
    omega

theorem matches_deliver (h : s.Matches t) (hpc : s.child i = .deliver) :
    ∃ bs t', (WhenAll.system N D X).run t bs = some t' ∧ bs.flatMap generalCompletions = [] ∧
      (s.deliverValue.setChild i .done).Matches t' := by
  have ht : t.step (.child i) = some (t.deliverResult.setChild i .done) := by
    simp only [WhenAll.Op.step, WhenAll.Op.childStep, h.child_general hpc, ChildPc.general]
  have hinv : (t.deliverResult.setChild i .done).Inv := h.inv.step _ ht
  have hstate : s.state = count ChildPc.outstanding (Function.update s.child i .done) := by
    rw [h.state, count_update_same]
    rw [hpc]
    rfl
  refine ⟨[.child i], _, System.run_singleton ht, rfl, ?_⟩
  have hnone : t.errorOrStopped = none := h.inv.noFailure h.noFailure
  cases hvalue : WhenAll.Op.deliverValue s.valueResults (List.finRange N.children) [] with
  | none =>
    have hgeneral : t.deliverResult = { t with fault := true } := by
      simp only [WhenAll.Op.deliverResult, hnone, h.valueResults, hvalue]
    have hfault := hinv.noFault
    rw [hgeneral] at hfault
    cases hfault
  | some vs =>
    have hgeneral : t.deliverResult = { t with delivered := t.delivered ++ [.value vs] } := by
      simp only [WhenAll.Op.deliverResult, hnone, h.valueResults, hvalue]
    have hspecial : s.deliverValue = { s with delivered := s.delivered ++ [vs] } := by
      simp only [deliverValue, hvalue]
    have hdelivered : t.delivered ++ [.value vs] = (s.delivered ++ [vs]).map .value := by
      rw [h.delivered, List.map_append]
      rfl
    rw [hgeneral] at hinv ⊢
    rw [hspecial]
    exact ⟨hinv, h.start, h.child_update i .done, h.completion, h.valueResults, h.noFailure,
      hdelivered, h.stop, hstate, h.forwarding, h.noFault⟩

theorem matches_child (h : s.Matches t) (hs : s.childStep i = some s') :
    ∃ bs t', (WhenAll.system N D X).run t bs = some t' ∧ bs.flatMap generalCompletions = [] ∧
      s'.Matches t' := by
  cases hpc : s.child i with
  | notStarted | running | done =>
    simp only [childStep, hpc] at hs
    cases hs
  | arrive =>
    simp only [childStep, hpc] at hs
    cases hs
    exact matches_arrive h hpc
  | deliver =>
    simp only [childStep, hpc] at hs
    cases hs
    exact matches_deliver h hpc
  | storeValue vs =>
    simp only [childStep, hpc] at hs
    cases hs
    have ht : t.step (.child i) = some { t.setChild i .arrive with
        valueResults := Function.update t.valueResults i (some vs) } := by
      simp only [WhenAll.Op.step, WhenAll.Op.childStep, h.child_general hpc, ChildPc.general]
    have hstate : s.state = count ChildPc.outstanding (Function.update s.child i .arrive) := by
      rw [h.state, count_update_same]
      rw [hpc]
      rfl
    have hvalues : Function.update t.valueResults i (some vs) =
        Function.update s.valueResults i (some vs) := by
      rw [h.valueResults]
    exact ⟨[.child i], _, System.run_singleton ht, rfl, h.inv.step _ ht, h.start,
      h.child_update i .arrive, h.completion, hvalues, h.noFailure, h.delivered, h.stop, hstate,
      h.forwarding, h.noFault⟩

/-- The general operation matches every step, with the same completions of the children. -/
theorem general_simulates : System.Simulates (S := system N D) (T := WhenAll.system N D X) Matches
    completions generalCompletions := by
  intro s t a s' h hs
  cases a with
  | start => exact matches_start h hs
  | stop => exact matches_stop h hs
  | complete i vs => exact matches_complete h hs
  | child i => exact matches_child h hs

end Op

/-! How many steps each thread has left. -/

def StartPc.rank : StartPc N → ℕ
  | .launch k => N.children - k
  | .done => 0

def ChildPc.rank : ChildPc D → ℕ
  | .notStarted => 5
  | .running => 4
  | .storeValue _ => 3
  | .arrive => 2
  | .deliver => 1
  | .done => 0

namespace Op
variable {s s' : Op N D} {t : WhenAll.Op N D X} {i : N.Child}

def rank (s : Op N D) : ℕ := s.start.rank + s.stop.rank + ∑ i, (s.child i).rank

theorem rank_child_lt {pc : ChildPc D} (h : pc.rank < (s.child i).rank) :
    ∑ j, (Function.update s.child i pc j).rank < ∑ j, (s.child j).rank :=
  sum_update_lt h

theorem deliverValue_pcs (s : Op N D) : s.deliverValue.start = s.start ∧
    s.deliverValue.stop = s.stop ∧ s.deliverValue.child = s.child := by
  unfold deliverValue
  split <;> exact ⟨rfl, rfl, rfl⟩

theorem StartPc.rank_next (k : N.Child) :
    (((Broadcast.next k).map StartPc.launch).getD .done).rank < (StartPc.launch k).rank := by
  have hk := k.isLt
  apply Broadcast.next_lt
  · intro j hj
    simp only [StartPc.rank]
    omega
  · simp only [StartPc.rank]
    omega

theorem childStep_rank (hs : s.childStep i = some s') : s'.rank < s.rank := by
  unfold childStep at hs
  split at hs
  · next vs hpc =>
    cases hs
    have hsum : ∑ j, (Function.update s.child i .arrive j).rank < ∑ j, (s.child j).rank :=
      rank_child_lt (by rw [hpc]; simp [ChildPc.rank])
    simp only [rank, setChild]
    omega
  · next hpc =>
    cases hs
    have hsum :
        ∑ j, (Function.update s.child i (if s.state = 1 then .deliver else .done) j).rank <
        ∑ j, (s.child j).rank := by
      apply rank_child_lt
      rw [hpc]
      split_ifs <;> simp [ChildPc.rank]
    simp only [rank, arrive, setChild]
    omega
  · next hpc =>
    cases hs
    obtain ⟨hstart, hstop, hchild⟩ := s.deliverValue_pcs
    have hsum : ∑ j, (Function.update s.child i .done j).rank < ∑ j, (s.child j).rank :=
      rank_child_lt (by rw [hpc]; simp [ChildPc.rank])
    simp only [rank, setChild, hstart, hstop, hchild]
    omega
  all_goals cases hs

theorem stopStep_rank (hs : s.stopStep = some s') : s'.rank < s.rank := by
  unfold stopStep at hs
  split at hs
  · next hpc =>
    split_ifs at hs
    cases hs
    have hN := N.two_le
    simp only [rank, hpc, StopPc.rank, Arity.first]
    omega
  · next k hpc =>
    cases hs
    have hlt := StopPc.rank_next k
    simp only [rank, hpc]
    omega
  · cases hs

/-- Every step brings the specialisation closer to its end. -/
theorem Matches.rank_step (h : s.Matches t) {a : Act N D} (hs : s.step a = some s') :
    s'.rank < s.rank := by
  cases a with
  | start =>
    simp only [Op.step, startStep] at hs
    split at hs
    · next k hpc =>
      cases hs
      have hlt := StartPc.rank_next k
      rw [← hpc] at hlt
      have hsum : ∑ j, (Function.update s.child k .running j).rank < ∑ j, (s.child j).rank :=
        rank_child_lt (by rw [h.launch hpc]; simp [ChildPc.rank])
      simp only [rank, setChild]
      omega
    · cases hs
  | stop => exact stopStep_rank hs
  | complete i vs =>
    simp only [Op.step] at hs
    split at hs
    · next hpc =>
      cases hs
      have hsum : ∑ j, (Function.update s.child i (.storeValue vs) j).rank <
          ∑ j, (s.child j).rank :=
        rank_child_lt (by rw [hpc]; simp [ChildPc.rank])
      simp only [rank, setChild]
      omega
    · cases hs
  | child i => exact childStep_rank hs

/-- Nothing is left to do but, possibly, an outer `request_stop()`. -/
def Quiescent (s : Op N D) : Prop := ∀ a, a ≠ .stop → s.step a = none

/-- The whole promise of the specialisation about one reachable state. -/
structure CompletesOnce (s : Op N D) : Prop where
  deliveredOnce : s.delivered.length ≤ 1
  /-- delivery begins after all children were started and have completed -/
  deliveredLast : (∃ i, s.child i = .deliver) ∨ s.delivered ≠ [] → s.start = .done ∧
    ∀ i, (s.completion i).isSome = true ∧ (s.child i = .deliver ∨ s.child i = .done)
  /-- the children's values in child order -/
  result : ∀ r ∈ s.delivered, ∃ vs : N.Child → List D, (∀ i, s.completion i = some (vs i)) ∧
    r = ((List.finRange N.children).map vs).flatten
  requestedOnce : ∀ i, s.stopRequests i ≤ 1
  /-- a run that cannot go on has delivered -/
  deliveredAtEnd : s.Quiescent → s.delivered.length = 1
  noFault : s.fault = false

/-- What the general operation delivers for the same values. -/
def AgreesWith (s : Op N D) (t : WhenAll.Op N D X) : Prop :=
  (∀ i vs, s.completion i = some vs → t.completion i = some (.value vs none)) →
    s.delivered ≠ [] → t.delivered ≠ [] → t.delivered = s.delivered.map .value

theorem Quiescent.general (h : s.Matches t) (hq : s.Quiescent) : t.Quiescent := by
  have hstart : s.start = .done := by
    have hnone := hq .start nofun
    cases hpc : s.start with
    | done => rfl
    | launch k => simp [Op.step, startStep, hpc] at hnone
  have hpublished : t.start.published = true := by
    rw [h.start_general hstart]
    rfl
  have hchild : ∀ i, s.child i = .done := by
    intro i
    have hcomplete := hq (.complete i []) nofun
    have hstep := hq (.child i) nofun
    have hlaunched := h.inv.not_launching hpublished i
    cases hpc : s.child i with
    | done => rfl
    | notStarted => exact absurd (h.child_general hpc) hlaunched
    | running => simp [Op.step, hpc] at hcomplete
    | _ => simp [Op.step, childStep, hpc] at hstep
  intro a ha
  cases a with
  | stop => exact absurd rfl ha
  | start =>
    simp only [WhenAll.Op.step, WhenAll.Op.startStep, h.start_general hstart, StartPc.general]
  | complete i c => simp only [WhenAll.Op.step, h.child_general (hchild i), ChildPc.general]
  | child i =>
    simp only [WhenAll.Op.step, WhenAll.Op.childStep, h.child_general (hchild i), ChildPc.general]

theorem Matches.values (h : s.Matches t) {vs : N.Child → List D}
    (hvs : ∀ i, t.completion i = some (.value (vs i) none)) (i : N.Child) :
    s.completion i = some (vs i) := by
  have hi := hvs i
  rw [h.completion] at hi
  cases hc : s.completion i with
  | none =>
    rw [hc] at hi
    cases hi
  | some vs' =>
    rw [hc] at hi
    cases hi
    rfl

theorem Matches.completesOnce (h : s.Matches t) : s.CompletesOnce := by
  have hc := h.inv.completesOnce
  have hlength : t.delivered.length = s.delivered.length := by rw [h.delivered, List.length_map]
  refine ⟨?_, ?_, ?_, h.forwarding.le_one, ?_, h.noFault⟩
  · rw [← hlength]
    exact hc.deliveredOnce
  · intro hentered
    have hentered' : t.Entered := by
      rcases hentered with ⟨i, hpc⟩ | hne
      · exact .inr (.inl ⟨i, h.child_general hpc⟩)
      · refine .inr (.inr fun hnil => hne ?_)
        rw [h.delivered] at hnil
        exact List.map_eq_nil_iff.mp hnil
    have hpublished := (h.inv.complete_of_entered hentered').2
    refine ⟨?_, fun i => ?_⟩
    · cases hstart : s.start with
      | done => rfl
      | launch k =>
        rw [h.start_general hstart] at hpublished
        cases hpublished
    · obtain ⟨hsome, hpc⟩ := (hc.deliveredLast hentered').2 i
      rw [h.completion, Option.isSome_map] at hsome
      refine ⟨hsome, ?_⟩
      rw [h.child] at hpc
      cases hchild : s.child i <;> simp [hchild, ChildPc.general] at hpc ⊢
  · intro r hr
    have hcorrect : Correct none t.completion (.value r) := by
      rw [← h.noFailure]
      apply hc.result
      rw [h.delivered]
      exact List.mem_map_of_mem hr
    obtain ⟨vs, hvs, heq⟩ := hcorrect
    cases heq
    exact ⟨vs, h.values hvs, rfl⟩
  · intro hq
    rw [← hlength]
    exact hc.deliveredAtEnd (hq.general h)

/-- The general operation does not fail on children that complete with values that it can store. -/
theorem values_delivered (hi : t.Inv) {vs : N.Child → List D}
    (hvs : ∀ i, t.completion i = some (.value (vs i) none)) (hne : t.delivered ≠ []) :
    t.delivered = [.value ((List.finRange N.children).map vs).flatten] := by
  have hc := hi.completesOnce
  have hnoFailure : t.firstFailure = none := by
    by_contra hsome
    obtain ⟨i, hfirst⟩ := Option.ne_none_iff_exists'.mp hsome
    have hstoring : (t.child i).storing = false := by
      rcases ((hc.deliveredLast (.inr (.inr hne))).2 i).2 with hpc | hpc <;> rw [hpc] <;> rfl
    obtain ⟨c, f, hcompletion, hfailure, -⟩ := hi.stored i hfirst hstoring
    rw [hvs] at hcompletion
    cases hcompletion
    cases hfailure
  obtain ⟨r, hr⟩ := List.exists_mem_of_ne_nil _ hne
  have hcorrect := hc.result r hr
  rw [hnoFailure] at hcorrect
  obtain ⟨vs', hvs', rfl⟩ := hcorrect
  have hsame : vs' = vs := by
    funext i
    simpa using (hvs' i).symm.trans (hvs i)
  rw [hsame] at hr
  have hpos : 0 < t.delivered.length := List.length_pos_iff.mpr hne
  have hone : t.delivered.length = 1 := le_antisymm hc.deliveredOnce hpos
  obtain ⟨r', hd⟩ := List.length_eq_one_iff.mp hone
  rw [hd, List.mem_singleton] at hr
  rw [hd, hr]

theorem Matches.agreesWith {u : WhenAll.Op N D X} (h : s.Matches t) (hi : u.Inv) :
    s.AgreesWith u := by
  intro hsame hs hu
  have hc := h.completesOnce
  obtain ⟨r, hr⟩ := List.exists_mem_of_ne_nil _ hs
  obtain ⟨vs, hvs, -⟩ := hc.result r hr
  have ht : t.delivered ≠ [] := by
    rw [h.delivered]
    exact fun hnil => hs (List.map_eq_nil_iff.mp hnil)
  have htvs : ∀ i, t.completion i = some (.value (vs i) none) := by
    intro i
    rw [h.completion, hvs]
    rfl
  rw [values_delivered hi (fun i => hsame i _ (hvs i)) hu, ← h.delivered,
    values_delivered h.inv htvs ht]

/-- In every run the specialisation completes once, with the values of all children; a run of the
general operation on the same completions, in the same order, delivers the same, and so does every
run on the same values. -/
theorem agrees_with_general (X : Type) {as : List (Act N D)} {s : Op N D}
    (hrun : (system N D).run (system N D).init as = some s) :
    s.CompletesOnce ∧
      (∃ bs t, (WhenAll.system N D X).run (WhenAll.system N D X).init bs = some t ∧
        bs.flatMap generalCompletions = as.flatMap completions ∧
        t.delivered = s.delivered.map .value) ∧
      (∀ t, (WhenAll.system N D X).Reachable t → s.AgreesWith t) ∧
      ∀ as' s', (system N D).run s as' = some s' → as'.length ≤ s.rank := by
  obtain ⟨bs, t, ht, hcompletions, h⟩ := general_simulates (X := X).run init_matches hrun
  refine ⟨h.completesOnce, ⟨bs, t, ht, hcompletions, h.delivered⟩, fun u hu => ?_,
    fun as' s' hs' => ?_⟩
  · exact h.agreesWith (WhenAll.Op.inv_of_reaches hu)
  · have hkept : ∀ u a v, (∃ t : WhenAll.Op N D X, u.Matches t) → (system N D).step u a = some v →
        (∃ t : WhenAll.Op N D X, v.Matches t) ∧ v.rank < u.rank := by
      rintro u a v ⟨w, hw⟩ hv
      obtain ⟨-, w', -, -, hw'⟩ := general_simulates u w a v hw hv
      exact ⟨⟨w', hw'⟩, hw.rank_step hv⟩
    have hle := System.exec_length_le rank hkept ⟨t, h⟩ hs'
    omega

/-- Both children complete with values, the second one first and before a `request_stop()`. -/
theorem agrees_with_general_run : ∃ s : Op pair ℕ, s.delivered = [[1, 2, 3]] ∧ s.CompletesOnce ∧
    ∀ t, (WhenAll.system pair ℕ ℕ).Reachable t → s.AgreesWith t := by
  let as : List (Act pair ℕ) := [.start, .start, .complete 1 [2, 3], .child 1, .child 1, .stop,
    .stop, .complete 0 [1], .child 0, .child 0, .child 0, .stop]
  have hrun : ((system pair ℕ).run (system pair ℕ).init as).any
      (fun s => s.delivered = [[1, 2, 3]]) = true := by decide +kernel
  obtain ⟨s, hs, hp⟩ := (Option.any_eq_true _ _).mp hrun
  obtain ⟨honce, -, hagrees, -⟩ := agrees_with_general ℕ hs
  exact ⟨s, of_decide_eq_true hp, honce, hagrees⟩

end Op
end Squiz.WhenAll.AlwaysSucceeds
