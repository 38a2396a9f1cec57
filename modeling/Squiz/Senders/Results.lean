import Squiz.CompletionSignatures
import Squiz.Detail.StoreResult

/-! What a child that completes with a declared signature can leave in its parent's storage. A datum
stands for its type. -/
namespace Squiz.Detail
open Squiz.SigSet

variable {T X : Type} {types : DatumTypes T} {sig : Signature T}

/-- The child completes with the signature; storing throws only where a move can throw. -/
def Completion.matches [DecidableEq T] (types : DatumTypes T) (sig : Signature T)
    (c : Completion (Signature T) X) : Bool :=
  decide (c.result = sig) && (c.throws.isNone || !sig.nothrowMove types)

/-- The signature that the receiver is completed with. -/
def Result.signature (types : DatumTypes T) : Result (Signature T) X → Signature T
  | .child sig => sig
  | .exceptionPtr _ => .error types.exceptionPtr

section Matches
variable [DecidableEq T] {c : Completion (Signature T) X} {r : Result (Signature T) X}

theorem Completion.matches_iff : c.matches types sig = true ↔
    c.result = sig ∧ (c.throws.isSome = true → sig.nothrowMove types = false) := by
  unfold Completion.matches
  cases c.throws <;> simp

theorem Completion.matches_nothrow (sig : Signature T) :
    Completion.matches types sig (⟨sig, none⟩ : Completion (Signature T) X) = true :=
  matches_iff.mpr ⟨rfl, fun h => by cases h⟩

/-- The result is the signature, or the exception that storing it threw. -/
theorem Completion.Gives.signature (h : c.Gives r) (hc : c.matches types sig = true) :
    r.signature types = sig ∨
      r.signature types = .error types.exceptionPtr ∧ sig.nothrowMove types = false := by
  obtain ⟨rfl, hthrows⟩ := matches_iff.mp hc
  rcases h with rfl | ⟨x, hx, rfl⟩
  · exact .inl rfl
  · exact .inr ⟨rfl, hthrows (by rw [hx]; rfl)⟩

theorem Completion.Gives.mem {sigs : SigSet T} (h : c.Gives r) (hc : c.matches types sig = true)
    (hsig : sig ∈ sigs) : r.signature types ∈ addErrorIfMoveCanThrow types sigs := by
  rw [mem_addErrorIfMoveCanThrow]
  rcases h.signature hc with hsame | ⟨hexception, hmove⟩
  · exact .inl (hsame ▸ hsig)
  · exact .inr ⟨hexception, sig, hsig, hmove⟩

end Matches
end Squiz.Detail
