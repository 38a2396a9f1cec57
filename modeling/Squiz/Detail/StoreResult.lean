import Mathlib.Logic.Basic

/-! `store_result`: a copy of a child's result, or of the exception that copying it throws. -/
namespace Squiz.Detail

/-- A signal with its datums, and what copying them throws. -/
structure Completion (R X : Type) where
  result : R
  throws : Option X
  deriving DecidableEq

/-- What a receiver is completed with. -/
inductive Result (R X : Type) where
  | child (result : R)
  | exceptionPtr (x : X)
  deriving DecidableEq

variable {R X : Type}

/-- What `store_result` leaves in the variant. -/
def storeResult (c : Completion R X) : Result R X :=
  match c.throws with
  | none => .child c.result
  | some x => .exceptionPtr x

/-- The child's result, or the exception that copying it threw. -/
def Completion.Gives (c : Completion R X) (r : Result R X) : Prop :=
  r = .child c.result ∨ ∃ x, c.throws = some x ∧ r = .exceptionPtr x

theorem Completion.gives_result (c : Completion R X) : c.Gives (.child c.result) := .inl rfl

/-- Without a copy that throws it is the child's result. -/
theorem Completion.Gives.eq_result {c : Completion R X} {r : Result R X} (h : c.Gives r)
    (hthrows : c.throws = none) : r = .child c.result := by
  rcases h with h | ⟨x, hx, -⟩
  · exact h
  · rw [hthrows] at hx
    cases hx

theorem gives_storeResult (c : Completion R X) : c.Gives (storeResult c) := by
  unfold Completion.Gives storeResult
  cases c.throws with
  | none => exact .inl rfl
  | some x => exact .inr ⟨x, rfl, rfl⟩

end Squiz.Detail
