import Squiz.CompletionSignatures
import Squiz.CountingScope.Nest
import Squiz.Lib.StructuredOperations

/-! `counting_scope_nest_op` as the parent of its source. -/
namespace Squiz.CountingScope.Nest
open Squiz.Lib Squiz.SigSet

variable {T R : Type}

def StartPc.rank : StartPc → ℕ
  | .notCalled => 2
  | .inChild | .setStopped => 1
  | .returned => 0

def StopPc.rank : StopPc → ℕ
  | .notCalled => 2
  | .inChild => 1
  | .returned => 0

def SetPc.rank : SetPc R → ℕ
  | .notCalled => 3
  | .reset _ => 2
  | .deliver _ => 1
  | .returned => 0

namespace Op
variable {s t : Op R} {a : Act R}

def rank (s : Op R) : ℕ := s.start.rank + s.stop.rank + s.set.rank + (!s.destroyed).toNat

theorem rank_step (hi : s.Inv) (ht : s.step a = some t) : t.rank < s.rank := by
  cases a with
  | start =>
    simp only [step] at ht
    cases hpc : s.start <;> simp only [hpc] at ht <;> try split_ifs at ht
    all_goals
      cases ht
      try simp only [rank, useChild, hpc, StartPc.rank]; omega
  | stop =>
    simp only [step] at ht
    cases hpc : s.stop <;> simp only [hpc] at ht <;> try split_ifs at ht
    all_goals
      cases ht
      try simp only [rank, useChild, hpc, StopPc.rank]; omega
  | complete r =>
    simp only [step] at ht
    split_ifs at ht with hrun
    cases ht
    simp only [rank, (hi.childRuns_iff.mp hrun).2.2, SetPc.rank]
    omega
  | set =>
    simp only [step] at ht
    cases hpc : s.set <;> simp only [hpc] at ht <;> cases ht <;>
      simp only [rank, hpc, SetPc.rank] <;> omega
  | destroy =>
    simp only [step] at ht
    split_ifs at ht with hmay
    all_goals
      cases ht
      simp only [rank, useChild, hmay.1, Bool.not_true, Bool.not_false, Bool.toNat_true,
        Bool.toNat_false]
      omega

/-- Only the source's `set_result` brings a completion, only the owner destroys the operation, and
whether the reference was valid is decided at the construction. -/
theorem step_owner (ht : s.step a = some t) :
    (t.completion = s.completion ∨ ∃ r, a = .complete r ∧ t.completion = some r) ∧
      (t.destroyed = s.destroyed ∨ a = .destroy) ∧ t.active = s.active := by
  cases a <;> simp only [step] at ht
  case start =>
    cases hpc : s.start <;> simp only [hpc] at ht <;> try split_ifs at ht
    all_goals
      cases ht
      try exact ⟨.inl rfl, .inl rfl, rfl⟩
  case stop =>
    cases hpc : s.stop <;> simp only [hpc] at ht <;> try split_ifs at ht
    all_goals
      cases ht
      try exact ⟨.inl rfl, .inl rfl, rfl⟩
  case complete r =>
    split_ifs at ht
    cases ht
    exact ⟨.inr ⟨r, rfl, rfl⟩, .inl rfl, rfl⟩
  case set =>
    cases hpc : s.set <;> simp only [hpc] at ht <;> cases ht <;> exact ⟨.inl rfl, .inl rfl, rfl⟩
  case destroy =>
    split_ifs at ht <;> cases ht <;> exact ⟨.inl rfl, .inr rfl, rfl⟩

theorem delivered_grows (ht : s.step a = some t) : s.delivered <+: t.delivered := by
  cases a <;> simp only [step] at ht
  case start =>
    cases hpc : s.start <;> simp only [hpc] at ht <;> try split_ifs at ht
    all_goals
      cases ht
      try first
        | exact List.prefix_rfl
        | exact List.prefix_append _ _
  case stop =>
    cases hpc : s.stop <;> simp only [hpc] at ht <;> try split_ifs at ht
    all_goals
      cases ht
      try exact List.prefix_rfl
  case complete r =>
    split_ifs at ht
    cases ht
    exact List.prefix_rfl
  case set =>
    split at ht
    · cases ht
    · cases ht
    · cases ht
      exact List.prefix_rfl
    · cases ht
      exact List.prefix_append _ _
  case destroy =>
    split_ifs at ht <;> cases ht <;> exact List.prefix_rfl

/-- The source runs until it completes. -/
theorem Inv.childRuns_step (hi : s.Inv) (ht : s.step a = some t) (hrun : s.childRuns = true)
    (ha : ∀ r, a ≠ .complete r) : t.childRuns = true := by
  obtain ⟨hactive, hstart, hset⟩ := hi.childRuns_iff.mp hrun
  apply (hi.step ht).childRuns_iff.mpr
  cases a <;> simp only [Op.step] at ht
  case start =>
    cases hpc : s.start <;> simp only [hpc] at ht <;> try split_ifs at ht
    all_goals
      cases ht
      try exact ⟨hactive, by simp, hset⟩
  case stop =>
    cases hpc : s.stop <;> simp only [hpc] at ht <;> try split_ifs at ht
    all_goals
      cases ht
      try exact ⟨hactive, hstart, hset⟩
  case complete r => exact absurd rfl (ha r)
  case set => simp [hset] at ht
  case destroy =>
    split_ifs at ht
    all_goals
      cases ht
      exact ⟨hactive, hstart, hset⟩

theorem Inv.not_childRuns (hi : s.Inv) (hne : s.delivered ≠ []) : s.childRuns = false := by
  by_contra hrun
  obtain ⟨hactive, -, hset⟩ := hi.childRuns_iff.mp (Bool.of_not_eq_false hrun)
  have hok := (hi.active hactive).2
  rw [hset] at hok
  exact hne hok.2

end Op

def Outcome.signature : Outcome (Signature T) → Signature T
  | .stopped => .stopped
  | .of sig => sig

/-- The destructor is left to the owner, who calls it when the operation is over. -/
def adapter [DecidableEq T] (scopeHandle : Option Ref) : Adapter Unit Unit (Signature T) where
  State := Op (Signature T)
  Act := Act (Signature T)
  system := ⟨.construct scopeHandle, Op.step⟩
  asksToStop s
    | .stop => decide (s.stop = .notCalled)
    | _ => false
  spurious _ := false
  delivered s := s.delivered.map Outcome.signature
  own
    | .complete _ | .destroy => false
    | _ => true
  completes _ sig
    | .complete sig' => decide (sig' = sig)
    | _ => false
  running s _ := if s.childRuns then some () else none
  asked s _ := s.active && decide (s.stop ≠ .notCalled)
  stopCalled s := decide (s.stop ≠ .notCalled)

section Adapter
variable [DecidableEq T] {scopeHandle : Option Ref} {sigs : SigSet T}

abbrev Runs (scopeHandle : Option Ref) (sigs : SigSet T) : Op (Signature T) → Prop :=
  (adapter scopeHandle).Reaches (fun _ _ => True) fun _ _ sig => sig ∈ sigs

theorem Runs.inv {s : Op (Signature T)} (hs : Runs scopeHandle sigs s) : s.Inv ∧
    s.destroyed = false ∧ ∀ sig, s.completion = some sig → sig ∈ sigs := by
  refine hs.invariant (P := fun s : Op (Signature T) => s.Inv ∧ s.destroyed = false ∧
    ∀ sig, s.completion = some sig → sig ∈ sigs)
    ⟨Op.Inv.construct scopeHandle, rfl, fun sig hsig => by cases hsig⟩ ?_
  rintro s a t ⟨hi, hd, hc⟩ hok ht
  obtain ⟨hcompletion, hdestroyed, -⟩ := Op.step_owner ht
  refine ⟨hi.step ht, ?_, ?_⟩
  · rcases hdestroyed with hsame | rfl
    · rw [hsame, hd]
    · rcases hok with hown | ⟨_, _, _, _, _, hcompletes⟩
      · cases hown
      · cases hcompletes
  · intro sig hsig
    rcases hcompletion with hsame | ⟨r, rfl, hr⟩
    · exact hc sig (hsame ▸ hsig)
    · rw [hr] at hsig
      cases hsig
      rcases hok with hown | ⟨_, _, sig', _, hdeclared, hcompletes⟩
      · cases hown
      · obtain rfl : sig = sig' := of_decide_eq_true hcompletes
        exact hdeclared

/-- What the operation delivers is its source's result, or a stopped signal. -/
theorem adapter_safe (scopeHandle : Option Ref) (sigs : SigSet T) :
    (adapter scopeHandle).Safe (fun _ _ => True) (fun _ _ sig => sig ∈ sigs)
      fun sig => sig ∈ merge [sigs, [.stopped]] where
  params := fun _ _ _ _ _ => trivial
  once := by
    intro s hs
    obtain ⟨hi, -, -⟩ := Runs.inv hs
    change (s.delivered.map Outcome.signature).length ≤ 1
    rw [List.length_map]
    exact hi.once
  declares := by
    intro s hs sig hsig
    obtain ⟨o, ho, rfl⟩ := List.mem_map.mp hsig
    obtain ⟨hi, -, hc⟩ := Runs.inv hs
    rw [mem_merge]
    cases o with
    | stopped => exact ⟨[.stopped], by simp, by simp [Outcome.signature]⟩
    | of r => exact ⟨sigs, by simp, hc r (hi.result ho).2⟩
  terminates := ⟨Op.rank, .of_lt fun _ _ _ hs ht => Op.rank_step (Runs.inv hs).1 ht⟩

theorem adapter_ends (scopeHandle : Option Ref) (sigs : SigSet T) :
    (adapter scopeHandle).Ends (fun _ _ => True) fun _ _ sig => sig ∈ sigs where
  accepts := by
    intro s _ _ hrunning _ sig _ _
    have hrun : s.childRuns = true := Option.isSome_ite.mp hrunning
    refine ⟨.complete sig, decide_eq_true rfl, ?_⟩
    change (s.step (.complete sig)).isSome = true
    simp only [Op.step, hrun, if_true, Option.isSome_some]
  ends := by
    intro s hs hstuck hrunning
    obtain ⟨hi, hd, -⟩ := Runs.inv hs
    have hnot : s.childRuns ≠ true := fun h => by
      cases (if_pos h).symm.trans (hrunning ())
    have hne := hi.delivered_ne_nil hd (hstuck .start rfl rfl) (hstuck .set rfl rfl) hnot
    exact mt List.map_eq_nil_iff.mp hne

theorem adapter_structured (scopeHandle : Option Ref) (sigs : SigSet T) :
    (adapter scopeHandle).Structured (fun _ _ => True) fun _ _ sig => sig ∈ sigs where
  keeps := by
    intro s a t ht hne
    change t.delivered.map _ ≠ []
    change s.delivered.map _ ≠ [] at hne
    rw [Ne, List.map_eq_nil_iff] at hne ⊢
    exact (Op.delivered_grows ht).ne_nil hne
  runs_on := by
    intro s a t _ hs ht hother hrunning
    have hrun : s.childRuns = true := Option.isSome_ite.mp hrunning
    apply Option.isSome_ite.mpr
    apply Op.Inv.childRuns_step (Runs.inv hs).1 ht hrun
    rintro sig rfl
    rcases hother with hown | ⟨j, -, hj, -⟩
    · cases hown
    · exact hj rfl
  ended := by
    intro s hs hne _
    apply if_neg
    rw [Bool.not_eq_true]
    apply (Runs.inv hs).1.not_childRuns
    exact mt List.map_eq_nil_iff.mpr hne

/-- A request to stop is passed on at once. -/
theorem adapter_cancels (scopeHandle : Option Ref) (sigs : SigSet T) :
    (adapter scopeHandle).Cancels (fun _ _ => True) fun _ _ sig => sig ∈ sigs where
  asks := by
    intro s _ hs hidle _ hrunning hcalled
    obtain ⟨hi, hd, -⟩ := Runs.inv hs
    have hrun : s.childRuns = true := Option.isSome_ite.mp hrunning
    obtain ⟨hactive, hstart, -⟩ := hi.childRuns_iff.mp hrun
    have hstuck : s.step .start = none := hidle .start rfl rfl
    have hstop : s.stop = .notCalled := not_not.mp (of_decide_eq_false hcalled)
    have hreturned : s.start = .returned := by
      cases hpc : s.start with
      | notCalled => exact absurd hpc hstart
      | inChild | setStopped => simp [Op.step, hpc] at hstuck
      | returned => rfl
    refine ⟨.stop, rfl, decide_eq_true hstop, ?_⟩
    change s.step .stop ≠ none
    simp only [Op.step, hstop]
    rw [if_pos ⟨hreturned, hd⟩, if_pos hactive]
    exact Option.some_ne_none _
  cancels := by
    intro s _ hs _ hrunning hcause
    have hrun : s.childRuns = true := Option.isSome_ite.mp hrunning
    obtain ⟨hactive, -, -⟩ := (Runs.inv hs).1.childRuns_iff.mp hrun
    rcases hcause with hcalled | hdecided
    · exact Bool.and_eq_true_iff.mpr ⟨hactive, hcalled⟩
    · exact hdecided.elim

end Adapter
end Squiz.CountingScope.Nest
