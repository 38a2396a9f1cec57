import Mathlib.Data.List.Basic

/-! The completion signatures of a sender, and the meta-functions on sets of them. -/
namespace Squiz

/-- `result_t`, over the types of the datums. -/
inductive Signature (T : Type) where
  | value (vs : List T)
  | error (e : T)
  | stopped
  deriving DecidableEq

inductive CompletionTag where
  | value | error | stopped
  deriving DecidableEq

/-- What is known of the types of datums. -/
structure DatumTypes (T : Type) where
  /-- `std::is_nothrow_move_constructible_v` -/
  nothrowMove : T → Bool
  /-- `std::exception_ptr` -/
  exceptionPtr : T

namespace Signature
variable {T : Type}

def tag : Signature T → CompletionTag
  | value _ => .value
  | error _ => .error
  | stopped => .stopped

def datums : Signature T → List T
  | value vs => vs
  | error e => [e]
  | stopped => []

/-- Moving the datums does not throw. -/
def nothrowMove (types : DatumTypes T) (sig : Signature T) : Bool :=
  sig.datums.all types.nothrowMove

end Signature

/-- `completion_signatures` -/
abbrev SigSet (T : Type) := List (Signature T)

namespace SigSet
variable {T : Type} [DecidableEq T]

/-- `merge_completion_signatures` of two sets -/
def mergeTwo : SigSet T → SigSet T → SigSet T
  | as, [] => as
  | as, b :: bs => if b ∈ as then mergeTwo as bs else mergeTwo (as ++ [b]) bs

/-- `merge_completion_signatures`: of more than two sets, the first two are merged first. -/
def merge : List (SigSet T) → SigSet T
  | [] => []
  | as :: rest => rest.foldl mergeTwo as

/-- `transform_completion_signatures` -/
def transform (apply : Signature T → SigSet T) (sigs : SigSet T) : SigSet T :=
  merge (sigs.map apply)

def onlyTags (tags : List CompletionTag) (sig : Signature T) : SigSet T :=
  if sig.tag ∈ tags then [sig] else []

def valueSignatures (sigs : SigSet T) : SigSet T := transform (onlyTags [.value]) sigs

def errorOrStoppedSignatures (sigs : SigSet T) : SigSet T :=
  transform (onlyTags [.error, .stopped]) sigs

/-- `add_error_if_move_can_throw_t` -/
def addErrorIfMoveCanThrow (types : DatumTypes T) (sigs : SigSet T) : SigSet T :=
  transform (fun sig =>
    if sig.nothrowMove types then [sig] else [sig, .error types.exceptionPtr]) sigs

variable {sig : Signature T} {as bs sigs : SigSet T} {sets : List (SigSet T)}
  {types : DatumTypes T} {apply : Signature T → SigSet T}

theorem mem_mergeTwo : sig ∈ mergeTwo as bs ↔ sig ∈ as ∨ sig ∈ bs := by
  induction bs generalizing as with
  | nil => simp [mergeTwo]
  | cons b bs ih =>
    unfold mergeTwo
    split_ifs with hb
    · rw [ih, List.mem_cons]
      constructor
      · rintro (h | h)
        · exact .inl h
        · exact .inr (.inr h)
      · rintro (h | rfl | h)
        · exact .inl h
        · exact .inl hb
        · exact .inr h
    · rw [ih, List.mem_append, List.mem_singleton, List.mem_cons, or_assoc]

theorem mem_merge : sig ∈ merge sets ↔ ∃ set ∈ sets, sig ∈ set := by
  have hfold : ∀ (rest : List (SigSet T)) (as : SigSet T),
      sig ∈ rest.foldl mergeTwo as ↔ sig ∈ as ∨ ∃ set ∈ rest, sig ∈ set := by
    intro rest
    induction rest with
    | nil => simp
    | cons bs rest ih =>
      intro as
      rw [List.foldl_cons, ih, mem_mergeTwo, or_assoc]
      simp only [List.mem_cons, exists_eq_or_imp]
  cases sets with
  | nil => simp [merge]
  | cons as rest =>
    rw [merge, hfold]
    simp only [List.mem_cons, exists_eq_or_imp]

theorem mem_transform : sig ∈ transform apply sigs ↔ ∃ other ∈ sigs, sig ∈ apply other := by
  unfold transform
  rw [mem_merge]
  simp only [List.mem_map, exists_exists_and_eq_and]

theorem mem_transform_onlyTags {tags : List CompletionTag} :
    sig ∈ transform (onlyTags tags) sigs ↔ sig ∈ sigs ∧ sig.tag ∈ tags := by
  rw [mem_transform]
  constructor
  · rintro ⟨other, hother, hsig⟩
    unfold onlyTags at hsig
    split_ifs at hsig with htag
    · cases List.mem_singleton.mp hsig
      exact ⟨hother, htag⟩
    · cases hsig
  · rintro ⟨hsig, htag⟩
    refine ⟨sig, hsig, ?_⟩
    unfold onlyTags
    rw [if_pos htag]
    exact List.mem_singleton_self sig

theorem mem_valueSignatures {vs : List T} :
    .value vs ∈ valueSignatures sigs ↔ .value vs ∈ sigs := by
  unfold valueSignatures
  rw [mem_transform_onlyTags]
  simp [Signature.tag]

theorem mem_errorOrStoppedSignatures :
    sig ∈ errorOrStoppedSignatures sigs ↔ sig ∈ sigs ∧ ∀ vs, sig ≠ .value vs := by
  unfold errorOrStoppedSignatures
  rw [mem_transform_onlyTags]
  cases sig <;> simp [Signature.tag]

theorem mem_addErrorIfMoveCanThrow : sig ∈ addErrorIfMoveCanThrow types sigs ↔ sig ∈ sigs ∨
    sig = .error types.exceptionPtr ∧ ∃ other ∈ sigs, other.nothrowMove types = false := by
  unfold addErrorIfMoveCanThrow
  rw [mem_transform]
  constructor
  · rintro ⟨other, hother, hsig⟩
    split_ifs at hsig with hmove
    · cases List.mem_singleton.mp hsig
      exact .inl hother
    · rcases List.mem_cons.mp hsig with rfl | hsig
      · exact .inl hother
      · exact .inr ⟨List.mem_singleton.mp hsig, other, hother, Bool.of_not_eq_true hmove⟩
  · rintro (hsig | ⟨rfl, other, hother, hmove⟩)
    · refine ⟨sig, hsig, ?_⟩
      split_ifs <;> exact List.mem_cons_self
    · refine ⟨other, hother, ?_⟩
      rw [hmove]
      exact List.mem_cons_of_mem _ List.mem_cons_self

end SigSet
end Squiz
