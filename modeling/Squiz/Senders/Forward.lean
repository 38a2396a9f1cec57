import Squiz.Lib.StructuredOperations
import Squiz.CompletionSignatures

/-! Operations that complete with what their child's result is turned into: `then_op`,
`unstoppable_op` and `variant_op`. -/
namespace Squiz
open Squiz.Lib Squiz.SigSet

variable {T R : Type}

namespace Forward

/-- Progress of `start()`. -/
inductive StartPc where
  | notCalled | inChild | returned
  deriving DecidableEq

/-- Progress of `set_result`. -/
inductive SetPc (R : Type) where
  | notCalled
  /-- about to turn the child's result into its own -/
  | convert (r : R)
  | deliver (r : R)
  | returned

structure Op (R : Type) where
  start : StartPc := .notCalled
  set : SetPc R := .notCalled
  /-- calls of the child's `request_stop()` -/
  childStops : ℕ := 0
  delivered : List R := []

inductive Act (R : Type) where
  /-- the call of `start()`, and then its return from the child's `start()` -/
  | start
  /-- `request_stop()` -/
  | requestStop
  /-- the child completes: it calls `set_result` -/
  | complete (r : R)
  /-- the next step of `set_result`, in which the conversion may throw -/
  | set (throws : Bool)

/-- The child was started and has not completed. -/
def Op.childRuns (s : Op R) : Bool :=
  match s.start, s.set with
  | .notCalled, _ => false
  | _, .notCalled => true
  | _, _ => false

/-- `convert` gives what `set_result` delivers for the child's result when the conversion returns or
throws, or `none` where it does not; `stoppable` is whether the operation has `request_stop()`. -/
def Op.step (convert : R → Bool → Option R) (stoppable : Bool) (s : Op R) : Act R → Option (Op R)
  | .start =>
    match s.start with
    | .notCalled => some { s with start := .inChild }
    | .inChild => some { s with start := .returned }
    | .returned => none
  | .requestStop =>
    if stoppable = true ∧ s.start = .returned ∧ s.childStops = 0 then
      some { s with childStops := 1 }
    else none
  | .complete r => if s.childRuns then some { s with set := .convert r } else none
  | .set throws =>
    match s.set with
    | .notCalled | .returned => none
    | .convert r => (convert r throws).map fun r' => { s with set := .deliver r' }
    | .deliver r => some { s with delivered := s.delivered ++ [r], set := .returned }

def system (convert : R → Bool → Option R) (stoppable : Bool) : System (Op R) (Act R) :=
  ⟨{}, Op.step convert stoppable⟩

def adapter [DecidableEq R] (convert : R → Bool → Option R) (stoppable : Bool) :
    Adapter Unit Unit R where
  State := Op R
  Act := Act R
  system := system convert stoppable
  asksToStop _
    | .requestStop => true
    | _ => false
  spurious _ := false
  delivered := Op.delivered
  own
    | .complete _ => false
    | _ => true
  completes _ r
    | .complete r' => decide (r' = r)
    | _ => false
  running s _ := if s.childRuns then some () else none
  asked s _ := decide (s.childStops ≠ 0)
  stopCalled s := decide (s.childStops ≠ 0)
  forwards := stoppable

/-- What `set_result` is to deliver, or has delivered, comes from a result of the child. -/
def Op.Inv (convert : R → Bool → Option R) (declared : R → Prop) (s : Op R) : Prop :=
  match s.set with
  | .notCalled => s.delivered = []
  | .convert r => declared r ∧ s.delivered = []
  | .deliver r' => (∃ r throws, declared r ∧ convert r throws = some r') ∧ s.delivered = []
  | .returned => ∃ r', s.delivered = [r'] ∧ ∃ r throws, declared r ∧ convert r throws = some r'

def StartPc.rank : StartPc → ℕ
  | .notCalled => 2
  | .inChild => 1
  | .returned => 0

def SetPc.rank : SetPc R → ℕ
  | .notCalled => 3
  | .convert _ => 2
  | .deliver _ => 1
  | .returned => 0

def Op.rank (s : Op R) : ℕ := s.start.rank + s.set.rank + (1 - s.childStops)

variable {convert : R → Bool → Option R} {stoppable : Bool} {declared : R → Prop} {s t : Op R}
  {a : Act R}

theorem Op.childRuns_iff :
    s.childRuns = true ↔ s.start ≠ .notCalled ∧ s.set = .notCalled := by
  unfold Op.childRuns
  cases s.start <;> cases s.set <;> simp

theorem Op.Inv.step (hi : s.Inv convert declared) (ha : ∀ r, a = .complete r → declared r)
    (ht : s.step convert stoppable a = some t) : t.Inv convert declared := by
  cases a with
  | start =>
    simp only [Op.step] at ht
    split at ht <;> cases ht <;> exact hi
  | requestStop =>
    simp only [Op.step] at ht
    split_ifs at ht
    cases ht
    exact hi
  | complete r =>
    simp only [Op.step] at ht
    split_ifs at ht with hrun
    cases ht
    unfold Op.Inv at hi
    rw [(childRuns_iff.mp hrun).2] at hi
    exact ⟨ha r rfl, hi⟩
  | set throws =>
    unfold Op.Inv at hi
    simp only [Op.step] at ht
    split at ht
    · cases ht
    · cases ht
    · next r hpc =>
      rw [hpc] at hi
      obtain ⟨r', hr', rfl⟩ := Option.map_eq_some_iff.mp ht
      exact ⟨⟨r, throws, hi.1, hr'⟩, hi.2⟩
    · next r hpc =>
      rw [hpc] at hi
      cases ht
      exact ⟨r, by rw [hi.2]; rfl, hi.1⟩

theorem Op.rank_step (ht : s.step convert stoppable a = some t) : t.rank < s.rank := by
  cases a with
  | start =>
    simp only [Op.step] at ht
    split at ht <;> cases ht <;> simp_all [Op.rank, StartPc.rank]
  | requestStop =>
    simp only [Op.step] at ht
    split_ifs at ht with h
    cases ht
    simp only [Op.rank, h.2.2]
    omega
  | complete r =>
    simp only [Op.step] at ht
    split_ifs at ht with hrun
    cases ht
    simp only [Op.rank, (childRuns_iff.mp hrun).2, SetPc.rank]
    omega
  | set throws =>
    simp only [Op.step] at ht
    split at ht
    · cases ht
    · cases ht
    · next r hpc =>
      obtain ⟨r', -, rfl⟩ := Option.map_eq_some_iff.mp ht
      simp only [Op.rank, hpc, SetPc.rank]
      omega
    · next r hpc =>
      cases ht
      simp only [Op.rank, hpc, SetPc.rank]
      omega

theorem Op.delivered_grows (ht : s.step convert stoppable a = some t) :
    s.delivered <+: t.delivered := by
  cases a with
  | start =>
    simp only [Op.step] at ht
    split at ht <;> cases ht <;> exact List.prefix_rfl
  | requestStop | complete r =>
    simp only [Op.step] at ht
    split_ifs at ht
    cases ht
    exact List.prefix_rfl
  | set throws =>
    simp only [Op.step] at ht
    split at ht
    · cases ht
    · cases ht
    · obtain ⟨r', -, rfl⟩ := Option.map_eq_some_iff.mp ht
      exact List.prefix_rfl
    · cases ht
      exact List.prefix_append _ _

theorem Op.Inv.once (hi : s.Inv convert declared) : s.delivered.length ≤ 1 := by
  unfold Op.Inv at hi
  split at hi
  · rw [hi]
    exact Nat.zero_le 1
  · rw [hi.2]
    exact Nat.zero_le 1
  · rw [hi.2]
    exact Nat.zero_le 1
  · obtain ⟨r, hone, -⟩ := hi
    rw [hone]
    exact Nat.le_refl 1

theorem Op.Inv.declares (hi : s.Inv convert declared) {r' : R} (hr : r' ∈ s.delivered) :
    ∃ r throws, declared r ∧ convert r throws = some r' := by
  unfold Op.Inv at hi
  split at hi
  · rw [hi] at hr
    cases hr
  · rw [hi.2] at hr
    cases hr
  · rw [hi.2] at hr
    cases hr
  · obtain ⟨r, hone, hmem⟩ := hi
    rw [hone, List.mem_singleton] at hr
    rwa [hr]

section Adapter
variable [DecidableEq R]

theorem inv_of_reaches
    (hs : (adapter convert stoppable).Reaches (fun _ _ => True) (fun _ _ => declared) s) :
    s.Inv convert declared := by
  have hinit : Op.Inv convert declared {} := rfl
  refine hs.invariant (P := Op.Inv convert declared) hinit ?_
  intro s a t hi hok ht
  refine hi.step ?_ ht
  rintro r rfl
  rcases hok with hown | ⟨_, _, r', _, hr', hcompletes⟩
  · cases hown
  · obtain rfl : r = r' := of_decide_eq_true hcompletes
    exact hr'

/-- What the operation delivers is what its child's results are turned into. -/
theorem adapter_safe (convert : R → Bool → Option R) (stoppable : Bool) (declared : R → Prop) :
    (adapter convert stoppable).Safe (fun _ _ => True) (fun _ _ => declared)
      fun r' => ∃ r throws, declared r ∧ convert r throws = some r' where
  params := fun _ _ _ _ _ => trivial
  once := fun _ hs => (inv_of_reaches hs).once
  declares := fun _ hs _ hr => (inv_of_reaches hs).declares hr
  terminates := ⟨Op.rank, .of_lt fun _ _ _ _ ht => Op.rank_step ht⟩

theorem adapter_ends (convert : R → Bool → Option R) (stoppable : Bool) (declared : R → Prop)
    (hconvert : ∀ r, (convert r false).isSome = true) :
    (adapter convert stoppable).Ends (fun _ _ => True) fun _ _ => declared where
  accepts := by
    intro s _ _ hrunning _ r _ _
    have hrun : s.childRuns = true := Option.isSome_ite.mp hrunning
    refine ⟨.complete r, decide_eq_true rfl, ?_⟩
    change (s.step convert stoppable (.complete r)).isSome = true
    simp only [Op.step, hrun, if_true, Option.isSome_some]
  ends := by
    intro s hs hstuck hrunning
    have hi := inv_of_reaches hs
    have hstart : s.step convert stoppable .start = none := hstuck .start rfl rfl
    have hset : s.step convert stoppable (.set false) = none := hstuck (.set false) rfl rfl
    have hnot : s.childRuns ≠ true := fun h => by
      cases (if_pos h).symm.trans (hrunning ())
    have hcalled : s.start ≠ .notCalled := fun hpc => by simp [Op.step, hpc] at hstart
    change s.delivered ≠ []
    unfold Op.Inv at hi
    cases hpc : s.set with
    | notCalled => exact absurd (Op.childRuns_iff.mpr ⟨hcalled, hpc⟩) hnot
    | convert r =>
      have hnone : convert r false = none := by simpa [Op.step, hpc] using hset
      have hsome := hconvert r
      rw [hnone] at hsome
      cases hsome
    | deliver r => simp [Op.step, hpc] at hset
    | returned =>
      rw [hpc] at hi
      obtain ⟨r, hone, -⟩ := hi
      rw [hone]
      exact List.cons_ne_nil _ _

theorem adapter_structured (convert : R → Bool → Option R) (stoppable : Bool)
    (declared : R → Prop) :
    (adapter convert stoppable).Structured (fun _ _ => True) fun _ _ => declared where
  keeps := fun _ _ _ ht hne => (Op.delivered_grows ht).ne_nil hne
  runs_on := by
    intro s a t _ _ ht hother hrunning
    have hrun : s.childRuns = true := Option.isSome_ite.mp hrunning
    obtain ⟨hstart, hset⟩ := Op.childRuns_iff.mp hrun
    apply Option.isSome_ite.mpr
    apply Op.childRuns_iff.mpr
    change s.step convert stoppable a = some t at ht
    cases a with
    | start =>
      simp only [Op.step] at ht
      split at ht <;> cases ht
      · exact ⟨fun h => (by cases h), hset⟩
      · exact ⟨fun h => (by cases h), hset⟩
    | requestStop =>
      simp only [Op.step] at ht
      split_ifs at ht
      cases ht
      exact ⟨hstart, hset⟩
    | complete r =>
      rcases hother with hown | ⟨j, -, hj, -⟩
      · cases hown
      · exact absurd rfl hj
    | set throws => simp [Op.step, hset] at ht
  ended := by
    intro s hs hne _
    have hi := inv_of_reaches hs
    change s.delivered ≠ [] at hne
    unfold Op.Inv at hi
    apply if_neg
    intro hrun
    rw [(Op.childRuns_iff.mp hrun).2] at hi
    exact hne hi

/-- A request to stop is passed on at once. -/
theorem adapter_cancels (convert : R → Bool → Option R) (stoppable : Bool)
    (declared : R → Prop) :
    (adapter convert stoppable).Cancels (fun _ _ => True) fun _ _ => declared where
  asks := by
    intro s _ _ hidle hforwards hrunning hcalled
    have hrun : s.childRuns = true := Option.isSome_ite.mp hrunning
    have hstart : s.step convert stoppable .start = none := hidle .start rfl rfl
    have hzero : s.childStops = 0 := not_not.mp (of_decide_eq_false hcalled)
    have hreturned : s.start = .returned := by
      cases hpc : s.start <;> simp [Op.step, hpc] at hstart ⊢
    refine ⟨.requestStop, rfl, rfl, ?_⟩
    change s.step convert stoppable .requestStop ≠ none
    simp only [Op.step]
    rw [if_pos ⟨hforwards, hreturned, hzero⟩]
    exact Option.some_ne_none _
  cancels := by
    intro s _ _ _ _ hcause
    rcases hcause with hcalled | hdecided
    · exact hcalled
    · exact hdecided.elim

end Adapter
end Forward

/-! `then_op` -/
namespace Then

/-- What is known of the function, for the types of its arguments. -/
structure Func (T : Type) where
  /-- `std::invoke_result_t`, or `none` for `void` -/
  result : List T → Option T
  /-- `std::is_nothrow_invocable_v` -/
  nothrowInvocable : List T → Bool

variable (types : DatumTypes T) (func : Func T)

/-- `set_value_signature_t` of what the function returns -/
def Func.setValueSignature (vs : List T) : Signature T := .value (func.result vs).toList

/-- `then_completion_transform` -/
def completionTransform : Signature T → SigSet T
  | .value vs =>
    if func.nothrowInvocable vs then [func.setValueSignature vs]
    else [func.setValueSignature vs, .error types.exceptionPtr]
  | .error e => [.error e]
  | .stopped => [.stopped]

/-- `set_result`: a value is passed to the function, which may throw. -/
def setResult : Signature T → Bool → Option (Signature T)
  | .value vs, false => some (func.setValueSignature vs)
  | .value vs, true =>
    if func.nothrowInvocable vs then none else some (.error types.exceptionPtr)
  | sig, false => some sig
  | _, true => none

/-- `then_op` as the parent of its source, which may be stoppable -/
def adapter [DecidableEq T] (stoppable : Bool) : Adapter Unit Unit (Signature T) :=
  Forward.adapter (setResult types func) stoppable

variable {types func}

theorem setResult_mem {sig sig' : Signature T} {throws : Bool}
    (h : setResult types func sig throws = some sig') :
    sig' ∈ completionTransform types func sig := by
  cases sig with
  | value vs =>
    simp only [completionTransform]
    cases throws with
    | false =>
      cases h
      split_ifs <;> exact List.mem_cons_self
    | true =>
      simp only [setResult] at h
      split_ifs at h with hnothrow
      cases h
      rw [if_neg hnothrow]
      exact List.mem_cons_of_mem _ List.mem_cons_self
  | error e | stopped =>
    cases throws <;> cases h
    exact List.mem_cons_self

theorem setResult_isSome (sig : Signature T) : (setResult types func sig false).isSome = true := by
  cases sig <;> rfl

end Then

/-! `statement_op` of a source that is not stoppable: nothing competes with `set_result`, which
copies the datums, destructs the source and completes. -/
namespace Statement
variable {types : DatumTypes T}

/-- Copying the datums may throw. -/
def setResult (types : DatumTypes T) : Signature T → Bool → Option (Signature T)
  | sig, false => some sig
  | sig, true => if sig.nothrowMove types then none else some (.error types.exceptionPtr)

def unstoppableAdapter [DecidableEq T] (types : DatumTypes T) : Adapter Unit Unit (Signature T) :=
  Forward.adapter (setResult types) false

theorem setResult_mem [DecidableEq T] {sig sig' : Signature T} {throws : Bool} {sigs : SigSet T}
    (h : setResult types sig throws = some sig') (hsig : sig ∈ sigs) :
    sig' ∈ addErrorIfMoveCanThrow types sigs := by
  rw [mem_addErrorIfMoveCanThrow]
  cases throws with
  | false =>
    cases h
    exact .inl hsig
  | true =>
    simp only [setResult] at h
    split_ifs at h with hmove
    cases h
    exact .inr ⟨rfl, sig, hsig, Bool.of_not_eq_true hmove⟩

theorem setResult_isSome (sig : Signature T) : (setResult types sig false).isSome = true := rfl

end Statement

/-! `unstoppable_op` has no `request_stop()`, `variant_op` may have it; both pass results on as they
are. -/

def passOn (r : R) (throws : Bool) : Option R := if throws then none else some r

theorem eq_of_passOn {r r' : R} {throws : Bool} (h : passOn r throws = some r') : r' = r := by
  unfold passOn at h
  split_ifs at h
  exact (Option.some.inj h).symm

def Unstoppable.adapter [DecidableEq R] : Adapter Unit Unit R := Forward.adapter passOn false

def Variant.adapter [DecidableEq R] (stoppable : Bool) : Adapter Unit Unit R :=
  Forward.adapter passOn stoppable

end Squiz
