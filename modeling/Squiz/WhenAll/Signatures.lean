import Squiz.CompletionSignatures
import Squiz.WhenAll.AlwaysSucceeds

/-! The completion signatures that `when_all_sender` computes from those of its children, and the
results that its operation delivers. A datum stands for its type. -/
namespace Squiz.WhenAll
open Squiz.Lib Squiz.Lib.Word Squiz.Detail Squiz.SigSet

variable {N : Arity} {T : Type} {X : Type}

/-- The completion signatures of a sender, in an environment where stop is or is not possible. -/
abbrev Sender (T : Type) := Bool → SigSet T

/-- `append_sig`, of two value signatures -/
def appendSig : Signature T → Signature T → Signature T
  | .value as, .value bs => .value (as ++ bs)
  | sig, _ => sig

section Declared
variable [DecidableEq T]

/-- `when_all_combine_value_sigs`: the first two sets are combined first. -/
def combineValueSigs : List (SigSet T) → SigSet T
  | [] => []
  | sigs :: rest =>
    rest.foldl (fun sigs sigs2 => merge (sigs.map fun sig => sigs2.map (appendSig sig))) sigs

/-- `when_all_child_always_succeeds` -/
def childAlwaysSucceeds (types : DatumTypes T) (sigs : SigSet T) : Bool :=
  (errorOrStoppedSignatures (addErrorIfMoveCanThrow types sigs)).length == 0

/-- The specialisation for children that always succeed is chosen. -/
def allSucceed (types : DatumTypes T) (children : N.Child → Sender T) (stopPossible : Bool) :
    Bool :=
  (List.finRange N.children).all fun i => childAlwaysSucceeds types (children i stopPossible)

def getCompletionSignatures (types : DatumTypes T) (children : N.Child → Sender T)
    (stopPossible : Bool) : SigSet T :=
  if allSucceed types children stopPossible then
    combineValueSigs
      ((List.finRange N.children).map fun i => valueSignatures (children i stopPossible))
  else
    merge (combineValueSigs
        ((List.finRange N.children).map fun i => valueSignatures (children i true)) ::
      (List.finRange N.children).map fun i => errorOrStoppedSignatures (children i true))

/-- `error_or_stopped_sigs_t`, the alternatives of `error_or_stopped_` -/
def errorOrStoppedSigs (types : DatumTypes T) (children : N.Child → Sender T) : SigSet T :=
  merge ((List.finRange N.children).map fun i =>
    errorOrStoppedSignatures (addErrorIfMoveCanThrow types (children i true)))

end Declared

/-- The signature of an error or stopped result. -/
def SignalTag.signature : SignalTag → List T → Option (Signature T)
  | .error, [e] => some (.error e)
  | .stopped, [] => some .stopped
  | _, _ => none

def Completion.signature : Completion T X → Option (Signature T)
  | .value vs _ => some (.value vs)
  | .signal tag datums _ => SignalTag.signature tag datums

/-- Storing the datums throws. -/
def Completion.throws : Completion T X → Option X
  | .value _ x => x
  | .signal _ _ x => x

def Failure.signature (types : DatumTypes T) : Failure T X → Option (Signature T)
  | .signal tag datums => SignalTag.signature tag datums
  | .exceptionPtr _ => some (.error types.exceptionPtr)

def Result.signature (types : DatumTypes T) : Result T X → Option (Signature T)
  | .value vs => some (.value vs)
  | .failure f => f.signature types

/-- A child completes as it has declared; only a datum whose move can throw makes storing throw. -/
def Accords (types : DatumTypes T) (sigs : SigSet T) (c : Completion T X) : Prop :=
  ∃ sig ∈ sigs, c.signature = some sig ∧ (c.throws.isSome = true → sig.nothrowMove types = false)

instance [DecidableEq T] (types : DatumTypes T) (sigs : SigSet T) (c : Completion T X) :
    Decidable (Accords types sigs c) :=
  inferInstanceAs (Decidable (∃ sig ∈ sigs, c.signature = some sig ∧
    (c.throws.isSome = true → sig.nothrowMove types = false)))

/-- The children of the general operation complete as they have declared for its environment, in
which stop is possible. -/
def Act.Accords (types : DatumTypes T) (children : N.Child → Sender T) : Act N T X → Prop
  | .complete i c => WhenAll.Accords types (children i true) c
  | _ => True

instance [DecidableEq T] (types : DatumTypes T) (children : N.Child → Sender T) (a : Act N T X) :
    Decidable (a.Accords types children) :=
  match a with
  | .complete i c => inferInstanceAs (Decidable (WhenAll.Accords types (children i true) c))
  | .start | .stop | .child _ => inferInstanceAs (Decidable True)

def AlwaysSucceeds.Act.Accords (children : N.Child → Sender T) (stopPossible : Bool) :
    AlwaysSucceeds.Act N T → Prop
  | .complete i vs => .value vs ∈ children i stopPossible
  | _ => True

/-- The operation, in the specialisation that is chosen for the children, can complete its receiver
with the signature. -/
def Delivers [DecidableEq T] (types : DatumTypes T) (children : N.Child → Sender T)
    (stopPossible : Bool) (sig : Signature T) : Prop :=
  if allSucceed types children stopPossible then
    ∃ s, (AlwaysSucceeds.system N T).Reaches (fun _ a => a.Accords children stopPossible) s ∧
      ∃ vs ∈ s.delivered, sig = .value vs
  else
    ∃ s, (system N T Unit).Reaches (fun _ a => a.Accords types children) s ∧
      ∃ r ∈ s.delivered, r.signature types = some sig

section Members
variable [DecidableEq T] {types : DatumTypes T} {sig : Signature T}

/-- One value signature of each set, concatenated in order. -/
theorem value_mem_combineValueSigs {sets : List (SigSet T)} {vss : List (List T)}
    (h : List.Forall₂ (fun sigs vs => .value vs ∈ sigs) sets vss) (hne : sets ≠ []) :
    .value vss.flatten ∈ combineValueSigs sets := by
  have hfold : ∀ {rest : List (SigSet T)} {vss : List (List T)},
      List.Forall₂ (fun sigs vs => Signature.value vs ∈ sigs) rest vss →
      ∀ (sigs : SigSet T) (vs : List T), .value vs ∈ sigs →
        .value (vs ++ vss.flatten) ∈ rest.foldl
          (fun sigs sigs2 => merge (sigs.map fun sig => sigs2.map (appendSig sig))) sigs := by
    intro rest vss h
    induction h with
    | nil =>
      intro sigs vs hvs
      simpa using hvs
    | cons hhead _ ih =>
      intro sigs vs hvs
      rw [List.foldl_cons, List.flatten_cons, ← List.append_assoc]
      apply ih
      rw [mem_merge]
      exact ⟨_, List.mem_map_of_mem hvs, List.mem_map_of_mem hhead⟩
  cases h with
  | nil => exact absurd rfl hne
  | cons hhead hrest => exact hfold hrest _ _ hhead

theorem eq_value_of_mem_combineValueSigs {sets : List (SigSet T)}
    (h : ∀ sigs ∈ sets, ∀ sig ∈ sigs, ∃ vs, sig = .value vs)
    (hsig : sig ∈ combineValueSigs sets) : ∃ vs, sig = .value vs := by
  have hfold : ∀ (rest : List (SigSet T)) (sigs : SigSet T),
      (∀ sig ∈ sigs, ∃ vs, sig = Signature.value vs) →
      (∀ sigs ∈ rest, ∀ sig ∈ sigs, ∃ vs, sig = Signature.value vs) →
      ∀ sig ∈ rest.foldl
        (fun sigs sigs2 => merge (sigs.map fun sig => sigs2.map (appendSig sig))) sigs,
        ∃ vs, sig = .value vs := by
    intro rest
    induction rest with
    | nil =>
      intro sigs hsigs _
      exact hsigs
    | cons sigs2 rest ih =>
      intro sigs hsigs hrest
      refine ih _ ?_ fun sigs hmem => hrest sigs (List.mem_cons_of_mem sigs2 hmem)
      intro sig hsig
      obtain ⟨set, hset, hsig⟩ := mem_merge.mp hsig
      obtain ⟨first, hfirst, rfl⟩ := List.mem_map.mp hset
      obtain ⟨second, hsecond, rfl⟩ := List.mem_map.mp hsig
      obtain ⟨vs, rfl⟩ := hsigs first hfirst
      obtain ⟨vs2, rfl⟩ := hrest sigs2 List.mem_cons_self second hsecond
      exact ⟨vs ++ vs2, rfl⟩
  cases sets with
  | nil => cases hsig
  | cons sigs rest =>
    exact hfold rest sigs (h sigs List.mem_cons_self)
      (fun sigs hmem => h sigs (List.mem_cons_of_mem _ hmem)) sig hsig

theorem allSucceed_iff {children : N.Child → Sender T} {stopPossible : Bool} :
    allSucceed types children stopPossible = true ↔ ∀ i, ∀ sig ∈ children i stopPossible,
      ∃ vs, sig = .value vs ∧ sig.nothrowMove types = true := by
  unfold allSucceed childAlwaysSucceeds
  simp only [List.all_eq_true, List.mem_finRange, true_implies, beq_iff_eq, List.length_eq_zero_iff]
  apply forall_congr'
  intro i
  rw [List.eq_nil_iff_forall_not_mem]
  constructor
  · intro h sig hsig
    have hmove : sig.nothrowMove types = true := by
      by_contra hmove
      apply h (.error types.exceptionPtr)
      rw [mem_errorOrStoppedSignatures, mem_addErrorIfMoveCanThrow]
      exact ⟨.inr ⟨rfl, sig, hsig, Bool.of_not_eq_true hmove⟩, nofun⟩
    have hvalue : ∃ vs, sig = .value vs := by
      by_contra hvalue
      apply h sig
      rw [mem_errorOrStoppedSignatures, mem_addErrorIfMoveCanThrow]
      exact ⟨.inl hsig, not_exists.mp hvalue⟩
    obtain ⟨vs, hvs⟩ := hvalue
    exact ⟨vs, hvs, hmove⟩
  · intro h sig hsig
    rw [mem_errorOrStoppedSignatures, mem_addErrorIfMoveCanThrow] at hsig
    obtain ⟨hsig | ⟨-, other, hother, hmove⟩, hne⟩ := hsig
    · obtain ⟨vs, hvs, -⟩ := h sig hsig
      exact hne vs hvs
    · obtain ⟨-, -, hmove'⟩ := h other hother
      rw [hmove] at hmove'
      cases hmove'

theorem mem_errorOrStoppedSigs {children : N.Child → Sender T} :
    sig ∈ errorOrStoppedSigs types children ↔
      (∃ i, sig ∈ children i true ∧ ∀ vs, sig ≠ .value vs) ∨
      sig = .error types.exceptionPtr ∧
        ∃ i, ∃ other ∈ children i true, other.nothrowMove types = false := by
  unfold errorOrStoppedSigs
  simp only [mem_merge, List.mem_map, List.mem_finRange, true_and, exists_exists_eq_and,
    mem_errorOrStoppedSignatures, mem_addErrorIfMoveCanThrow]
  constructor
  · rintro ⟨i, hsig | ⟨hsig, hmove⟩, hne⟩
    · exact .inl ⟨i, hsig, hne⟩
    · exact .inr ⟨hsig, i, hmove⟩
  · rintro (⟨i, hsig, hne⟩ | ⟨rfl, i, hmove⟩)
    · exact ⟨i, .inl hsig, hne⟩
    · exact ⟨i, .inr ⟨rfl, hmove⟩, nofun⟩

/-- The values that a value result concatenates are declared together. -/
theorem value_flatten_mem {sets : N.Child → SigSet T} {vs : N.Child → List T}
    (h : ∀ i, .value (vs i) ∈ sets i) : .value ((List.finRange N.children).map vs).flatten ∈
      combineValueSigs ((List.finRange N.children).map fun i => valueSignatures (sets i)) := by
  apply value_mem_combineValueSigs
  · rw [List.forall₂_map_left_iff, List.forall₂_map_right_iff, List.forall₂_same]
    intro i _
    exact mem_valueSignatures.mpr (h i)
  · exact List.ne_nil_of_mem (List.mem_map_of_mem (List.mem_finRange N.first))

theorem error_notMem_combineValueSigs {sets : N.Child → SigSet T} {e : T} : .error e ∉
    combineValueSigs ((List.finRange N.children).map fun i => valueSignatures (sets i)) := by
  have hvalues : ∀ sigs ∈ (List.finRange N.children).map fun i => valueSignatures (sets i),
      ∀ sig ∈ sigs, ∃ vs, sig = .value vs := by
    intro sigs hsigs sig hsig
    obtain ⟨i, -, rfl⟩ := List.mem_map.mp hsigs
    unfold valueSignatures at hsig
    rw [mem_transform_onlyTags, List.mem_singleton] at hsig
    cases sig with
    | value vs => exact ⟨vs, rfl⟩
    | error e => cases hsig.2
    | stopped => cases hsig.2
  intro h
  obtain ⟨vs, hvs⟩ := eq_value_of_mem_combineValueSigs hvalues h
  cases hvs

/-- What the general overload declares. -/
theorem mem_getCompletionSignatures {children : N.Child → Sender T} {stopPossible : Bool}
    (h : allSucceed types children stopPossible = false) :
    sig ∈ getCompletionSignatures types children stopPossible ↔
      sig ∈ combineValueSigs
        ((List.finRange N.children).map fun i => valueSignatures (children i true)) ∨
      ∃ i, sig ∈ children i true ∧ ∀ vs, sig ≠ .value vs := by
  unfold getCompletionSignatures
  rw [h]
  simp only [Bool.false_eq_true, if_false, mem_merge, List.mem_cons, exists_eq_or_imp,
    List.mem_map, List.mem_finRange, true_and, exists_exists_eq_and, mem_errorOrStoppedSignatures]

end Members

/-! What a step leaves as it was. -/

namespace Op
variable {D : Type} {s t : Op N D X} {i : N.Child} {a : Act N D X}

theorem deliverResult_frame (s : Op N D X) : s.deliverResult.completion = s.completion ∧
    s.deliverResult.firstFailure = s.firstFailure := by
  unfold deliverResult
  split
  · exact ⟨rfl, rfl⟩
  · split <;> exact ⟨rfl, rfl⟩

theorem childStep_frame (ht : s.childStep i = some t) : t.completion = s.completion ∧
    (t.firstFailure = s.firstFailure ∨
      hasFlag s.word failedFlag = false ∧ (∃ f, s.child i = .setFlag f) ∧
        t.firstFailure = some i) := by
  unfold childStep at ht
  split at ht
  case h_4 f hpc =>
    cases ht
    unfold setFailureFlag
    split_ifs with hflag
    · exact ⟨rfl, .inl rfl⟩
    · exact ⟨rfl, .inr ⟨Bool.of_not_eq_true hflag, ⟨f, hpc⟩, rfl⟩⟩
  case h_8 hpc =>
    cases ht
    obtain ⟨hcompletion, hfirst⟩ := s.deliverResult_frame
    exact ⟨hcompletion, .inl hfirst⟩
  all_goals
    cases ht
    try exact ⟨rfl, .inl rfl⟩

theorem step_completion (ht : s.step a = some t) {c : Completion D X}
    (hc : t.completion i = some c) : s.completion i = some c ∨ a = .complete i c := by
  cases a with
  | start =>
    left
    simp only [step, startStep] at ht
    split at ht <;> cases ht <;> try exact hc
    rwa [← s.deliverResult_frame.1]
  | stop =>
    left
    simp only [step, stopStep] at ht
    split at ht <;> try split_ifs at ht
    all_goals
      cases ht
      try exact hc
  | complete j c' =>
    simp only [step] at ht
    split at ht
    · cases ht
      change Function.update s.completion j (some c') i = some c at hc
      rw [Function.update_apply] at hc
      split_ifs at hc with hi
      · cases hi
        cases hc
        exact .inr rfl
      · exact .inl hc
    · cases ht
  | child j =>
    rw [(childStep_frame ht).1] at hc
    exact .inl hc

theorem step_firstFailure (hi : s.Inv) (ht : s.step a = some t) :
    t.firstFailure = s.firstFailure ∨
      s.firstFailure = none ∧ ∃ i f, s.child i = .setFlag f ∧ t.firstFailure = some i := by
  cases a with
  | start =>
    left
    simp only [step, startStep] at ht
    split at ht <;> cases ht <;> try rfl
    exact s.deliverResult_frame.2
  | stop =>
    left
    simp only [step, stopStep] at ht
    split at ht <;> try split_ifs at ht
    all_goals
      cases ht
      try rfl
  | complete j c =>
    left
    simp only [step] at ht
    split at ht <;> cases ht
    rfl
  | child i =>
    obtain ⟨-, hsame | ⟨hflag, ⟨f, hpc⟩, hfirst⟩⟩ := childStep_frame ht
    · exact .inl hsame
    · rw [hi.failed_eq] at hflag
      exact .inr ⟨by simpa using hflag, i, f, hpc, hfirst⟩

end Op

theorem AlwaysSucceeds.Op.step_completion {D : Type} {s t : AlwaysSucceeds.Op N D} {i : N.Child}
    {a : AlwaysSucceeds.Act N D} (ht : s.step a = some t) {vs : List D}
    (hc : t.completion i = some vs) : s.completion i = some vs ∨ a = .complete i vs := by
  cases a with
  | start =>
    left
    simp only [step, startStep] at ht
    split at ht <;> cases ht
    exact hc
  | stop =>
    left
    simp only [step, stopStep] at ht
    split at ht <;> try split_ifs at ht
    all_goals
      cases ht
      try exact hc
  | complete j vs' =>
    simp only [step] at ht
    split at ht
    · cases ht
      change Function.update s.completion j (some vs') i = some vs at hc
      rw [Function.update_apply] at hc
      split_ifs at hc with hi
      · cases hi
        cases hc
        exact .inr rfl
      · exact .inl hc
    · cases ht
  | child j =>
    left
    simp only [step, childStep] at ht
    split at ht <;> cases ht <;> try exact hc
    unfold deliverValue at hc
    split at hc <;> exact hc

/-! What the operation delivers is declared, or is an exception that storing a datum throws. -/

section Declares
variable [DecidableEq T] {types : DatumTypes T} {children : N.Child → Sender T}
  {stopPossible : Bool} {sig : Signature T}

/-- The operation has room for every failure of children that complete as they have declared. -/
theorem Accords.failure_mem {i : N.Child} {c : Completion T X} {f : Failure T X}
    (h : Accords types (children i true) c) (hf : c.failure = some f)
    (hsig : f.signature types = some sig) : sig ∈ errorOrStoppedSigs types children := by
  obtain ⟨declared, hdeclared, hsignature, hthrows⟩ := h
  rw [mem_errorOrStoppedSigs]
  cases c with
  | value vs throws =>
    cases throws with
    | none => cases hf
    | some x =>
      cases hf
      cases hsig
      exact .inr ⟨rfl, i, declared, hdeclared, hthrows rfl⟩
  | signal tag datums throws =>
    cases throws with
    | none =>
      cases hf
      cases hsignature.symm.trans hsig
      refine .inl ⟨i, hdeclared, ?_⟩
      rintro vs rfl
      rcases tag with _ | _ <;> rcases datums with _ | ⟨e, _ | _⟩ <;> cases hsig
    | some x =>
      cases hf
      cases hsig
      exact .inr ⟨rfl, i, declared, hdeclared, hthrows rfl⟩

/-- The general operation delivers the values that one of its signatures concatenates, or a failure
that it has room for. -/
theorem general_delivers {s : Op N T X}
    (hs : (system N T X).Reaches (fun _ a => a.Accords types children) s) {r : Result T X}
    (hr : r ∈ s.delivered) (hsig : r.signature types = some sig) :
    (sig ∈ combineValueSigs
        ((List.finRange N.children).map fun i => valueSignatures (children i true)) ∨
      sig ∈ errorOrStoppedSigs types children) ∧ ∀ i, children i true ≠ [] := by
  have haccords : ∀ i c, s.completion i = some c → Accords types (children i true) c := by
    apply hs.invariant (P := fun s => ∀ i c, s.completion i = some c →
      Accords types (children i true) c)
    · intro i c hc
      cases hc
    · intro s a t hs hok ht i c hc
      rcases Op.step_completion ht hc with hsame | rfl
      · exact hs i c hsame
      · exact hok
  have honce := (Op.inv_of_reaches hs).completesOnce
  constructor
  · have hcorrect := honce.result r hr
    cases hfirst : s.firstFailure with
    | none =>
      rw [hfirst] at hcorrect
      obtain ⟨vs, hvs, rfl⟩ := hcorrect
      cases hsig
      left
      apply value_flatten_mem
      intro i
      obtain ⟨declared, hdeclared, hsignature, -⟩ := haccords i _ (hvs i)
      cases hsignature
      exact hdeclared
    | some i =>
      rw [hfirst] at hcorrect
      obtain ⟨c, f, hc, hf, rfl⟩ := hcorrect
      exact .inr ((haccords i c hc).failure_mem hf hsig)
  · intro i hnil
    have hcompleted := ((honce.deliveredLast (.inr (.inr (List.ne_nil_of_mem hr)))).2 i).1
    obtain ⟨c, hc⟩ := Option.isSome_iff_exists.mp hcompleted
    obtain ⟨declared, hdeclared, -⟩ := haccords i c hc
    rw [hnil] at hdeclared
    cases hdeclared

/-- The specialisation delivers the values that one of its signatures concatenates. -/
theorem alwaysSucceeds_delivers {s : AlwaysSucceeds.Op N T}
    (hs : (AlwaysSucceeds.system N T).Reaches (fun _ a => a.Accords children stopPossible) s)
    {vs : List T} (hvs : vs ∈ s.delivered) : .value vs ∈ combineValueSigs
      ((List.finRange N.children).map fun i => valueSignatures (children i stopPossible)) := by
  have haccords : (∃ t : Op N T Unit, s.Matches t) ∧
      ∀ i vs, s.completion i = some vs → .value vs ∈ children i stopPossible := by
    apply hs.invariant (P := fun s => (∃ t : Op N T Unit, s.Matches t) ∧
      ∀ i vs, s.completion i = some vs → .value vs ∈ children i stopPossible)
    · constructor
      · exact ⟨_, AlwaysSucceeds.Op.init_matches⟩
      · intro i vs hc
        cases hc
    · rintro s a s' ⟨⟨t, ht⟩, hs⟩ hok hs'
      constructor
      · obtain ⟨-, t', -, -, ht'⟩ := AlwaysSucceeds.Op.general_simulates s t a s' ht hs'
        exact ⟨t', ht'⟩
      · intro i vs hc
        rcases AlwaysSucceeds.Op.step_completion hs' hc with hsame | rfl
        · exact hs i vs hsame
        · exact hok
  obtain ⟨⟨t, ht⟩, haccords⟩ := haccords
  obtain ⟨vs', hvs', rfl⟩ := ht.completesOnce.result vs hvs
  exact value_flatten_mem fun i => haccords i _ (hvs' i)

end Declares

/-! A run in which only storing the result of child `i` throws, and that before another child
completes. -/

/-- The completion with the datums of a signature. -/
def Signature.completion (throws : Option X) : Signature T → Completion T X
  | .value vs => .value vs throws
  | .error e => .signal .error [e] throws
  | .stopped => .signal .stopped [] throws

theorem Signature.completion_accords {types : DatumTypes T} {sigs : SigSet T} {sig : Signature T}
    {throws : Option X} (hsig : sig ∈ sigs)
    (hthrows : throws.isSome = true → sig.nothrowMove types = false) :
    Accords types sigs (Signature.completion throws sig) := by
  refine ⟨sig, hsig, ?_, fun h => hthrows ?_⟩
  · cases sig <;> rfl
  · cases sig <;> exact h

theorem Signature.completion_throws (x : X) (sig : Signature T) :
    (Signature.completion (some x) sig).failure = some (.exceptionPtr x) := by
  cases sig <;> rfl

section Throwing
variable {D : Type} {i : N.Child} {chosen : N.Child → Completion D X}

/-- The children complete with what is chosen, the others after child `i` has set `failed_flag`. -/
def Schedule (chosen : N.Child → Completion D X) (i : N.Child) (s : Op N D X) : Act N D X → Prop
  | .stop => False
  | .complete j c => c = chosen j ∧ (j = i ∨ s.firstFailure = some i)
  | .start | .child _ => True

structure Throwing (chosen : N.Child → Completion D X) (i : N.Child) (s : Op N D X) : Prop where
  inv : s.Inv
  completed : ∀ j c, s.completion j = some c → c = chosen j ∧ (j = i ∨ s.firstFailure = some i)
  first : ∀ j, s.firstFailure = some j → j = i

theorem Throwing.initial : Throwing chosen i ({} : Op N D X) where
  inv := Op.Inv.initial
  completed := by
    intro j c hc
    cases hc
  first := by
    intro j hj
    cases hj

theorem Throwing.step {s t : Op N D X} (h : Throwing chosen i s) {a : Act N D X}
    (hok : Schedule chosen i s a) (ht : s.step a = some t) : Throwing chosen i t := by
  have hcompleted : ∀ j c, t.completion j = some c →
      c = chosen j ∧ (j = i ∨ s.firstFailure = some i) := by
    intro j c hc
    rcases Op.step_completion ht hc with hsame | rfl
    · exact h.completed j c hsame
    · exact hok
  rcases Op.step_firstFailure h.inv ht with hsame | ⟨hnone, j, f, hpc, hfirst⟩
  · refine ⟨h.inv.step a ht, ?_, ?_⟩
    · rwa [hsame]
    · rw [hsame]
      exact h.first
  · -- nobody else has completed, so it is child `i` that sets the flag
    have hj : j = i := by
      have hchild := h.inv.child j
      rw [hpc] at hchild
      obtain ⟨c, hc, -⟩ := hchild
      rcases (h.completed j c hc).2 with hj | hsome
      · exact hj
      · rw [hnone] at hsome
        cases hsome
    refine ⟨h.inv.step a ht, ?_, ?_⟩
    · intro k c hc
      exact ⟨(hcompleted k c hc).1, .inr (hj ▸ hfirst)⟩
    · intro k hk
      rw [hfirst] at hk
      cases hk
      exact hj

/-- A run that only the schedule holds up has come to its end, and child `i` has failed. -/
theorem Throwing.quiescent {s : Op N D X} (h : Throwing chosen i s)
    (hthrows : ∀ vs, chosen i ≠ .value vs none)
    (hstuck : ∀ a, Schedule chosen i s a → s.step a = none) :
    s.Quiescent ∧ s.firstFailure = some i := by
  have hstart : s.start = .done := by
    have hnone : s.startStep = none := hstuck .start trivial
    unfold Op.startStep at hnone
    cases hpc : s.start with
    | done => rfl
    | _ => simp [hpc] at hnone
  have hstarted : ∀ j, s.child j ≠ .notStarted :=
    h.inv.not_launching (by rw [hstart]; rfl)
  have hrunning : ∀ j, (j = i ∨ s.firstFailure = some i) → s.child j ≠ .running := by
    intro j hj hpc
    have hnone := hstuck (.complete j (chosen j)) ⟨rfl, hj⟩
    simp [Op.step, hpc] at hnone
  have hdone : s.child i = .done :=
    Op.child_done_of_childStep (hstuck (.child i) trivial) (hstarted i) (hrunning i (.inl rfl))
  have hfirst : s.firstFailure = some i := by
    have hchild := h.inv.child i
    rw [hdone] at hchild
    rcases hchild with ⟨vs, hc, -⟩ | ⟨hfailed, -⟩
    · exact absurd (h.completed i _ hc).1.symm (hthrows vs)
    · obtain ⟨j, hj⟩ := Option.isSome_iff_exists.mp hfailed
      rw [hj, h.first j hj]
  refine ⟨?_, hfirst⟩
  intro a ha
  cases a with
  | start => exact hstuck .start trivial
  | stop => exact absurd rfl ha
  | child j => exact hstuck (.child j) trivial
  | complete j c =>
    have hne := hrunning j (.inr hfirst)
    simp only [Op.step]

/-- The exception of child `i` is delivered. -/
theorem exists_throwing (chosen : N.Child → Completion D X) (i : N.Child) {x : X}
    (hthrows : (chosen i).failure = some (.exceptionPtr x)) :
    ∃ s, (system N D X).Reaches (Schedule chosen i) s ∧
      .failure (.exceptionPtr x) ∈ s.delivered := by
  have hstep : ∀ s a t, Throwing chosen i s → Schedule chosen i s a →
      (system N D X).step s a = some t → Throwing chosen i t ∧ t.rank < s.rank :=
    fun s a t hs hok ht => ⟨hs.step hok ht, Op.rank_step hs.inv ht⟩
  obtain ⟨s, hs, h, hstuck⟩ := System.Reaches.exists_stuck Op.rank hstep .init Throwing.initial
  have hne : ∀ vs, chosen i ≠ .value vs none := by
    intro vs hvs
    rw [hvs] at hthrows
    cases hthrows
  obtain ⟨hquiescent, hfirst⟩ := h.quiescent hne hstuck
  have honce := h.inv.completesOnce
  obtain ⟨r, hr⟩ := List.length_eq_one_iff.mp (honce.deliveredAtEnd hquiescent)
  have hmem : r ∈ s.delivered := hr ▸ List.mem_singleton_self r
  obtain ⟨c, f, hc, hf, rfl⟩ : Correct (some i) s.completion r := hfirst ▸ honce.result r hmem
  rw [(h.completed i c hc).1, hthrows] at hf
  cases hf
  exact ⟨s, hs, hmem⟩

end Throwing

section Declares
variable [DecidableEq T] {types : DatumTypes T} {children : N.Child → Sender T}
  {stopPossible : Bool}

theorem delivers_exceptionPtr (hspecial : allSucceed types children stopPossible = false)
    {i : N.Child} {sig : Signature T} (hsig : sig ∈ children i true)
    (hmove : sig.nothrowMove types = false) (hne : ∀ j, children j true ≠ []) :
    Delivers types children stopPossible (.error types.exceptionPtr) := by
  choose other hother using fun j => List.exists_mem_of_ne_nil _ (hne j)
  let chosen : N.Child → Completion T Unit := fun j =>
    if j = i then Signature.completion (some ()) sig else Signature.completion none (other j)
  have haccords : ∀ j, Accords types (children j true) (chosen j) := by
    intro j
    by_cases hj : j = i
    · subst hj
      rw [show chosen j = Signature.completion (some ()) sig from if_pos rfl]
      exact Signature.completion_accords hsig fun _ => hmove
    · rw [show chosen j = Signature.completion none (other j) from if_neg hj]
      exact Signature.completion_accords (hother j) nofun
  have hthrows : (chosen i).failure = some (.exceptionPtr ()) := by
    rw [show chosen i = Signature.completion (some ()) sig from if_pos rfl]
    exact Signature.completion_throws () sig
  obtain ⟨s, hs, hdelivered⟩ := exists_throwing chosen i hthrows
  unfold Delivers
  rw [if_neg (by rw [hspecial]; exact Bool.false_ne_true)]
  refine ⟨s, hs.mono ?_, _, hdelivered, rfl⟩
  intro s a hok
  cases a with
  | complete j c =>
    show Accords types (children j true) c
    rw [hok.1]
    exact haccords j
  | _ => trivial

/-- Every result is declared exactly where no exception can come from storing a datum, where a
child itself declares `std::exception_ptr`, or where a child never completes. -/
theorem declares_iff (types : DatumTypes T) (children : N.Child → Sender T) (stopPossible : Bool) :
    (∀ sig, Delivers types children stopPossible sig →
      sig ∈ getCompletionSignatures types children stopPossible) ↔
    (∀ i, ∀ sig ∈ children i stopPossible, ∃ vs, sig = .value vs ∧ sig.nothrowMove types = true) ∨
    (∀ i, ∀ sig ∈ children i true, sig.nothrowMove types = true) ∨
    (∃ i, .error types.exceptionPtr ∈ children i true) ∨ ∃ i, children i true = [] := by
  rw [← allSucceed_iff]
  cases hspecial : allSucceed types children stopPossible with
  | true =>
    refine iff_of_true ?_ (.inl rfl)
    intro sig h
    unfold Delivers at h
    rw [if_pos hspecial] at h
    obtain ⟨s, hs, vs, hvs, rfl⟩ := h
    unfold getCompletionSignatures
    rw [if_pos hspecial]
    exact alwaysSucceeds_delivers hs hvs
  | false =>
    have hgeneral : ¬ allSucceed types children stopPossible = true := by
      rw [hspecial]
      exact Bool.false_ne_true
    constructor
    · intro h
      right
      by_contra hnot
      obtain ⟨hthrow, hnot⟩ := not_or.mp hnot
      obtain ⟨hundeclared, hne⟩ := not_or.mp hnot
      obtain ⟨i, hi⟩ := not_forall.mp hthrow
      obtain ⟨sig, hsig⟩ := not_forall.mp hi
      obtain ⟨hsig, hmove⟩ := Classical.not_imp.mp hsig
      have hdelivers := delivers_exceptionPtr hspecial hsig (Bool.of_not_eq_true hmove)
        (not_exists.mp hne)
      rcases (mem_getCompletionSignatures hspecial).mp (h _ hdelivers) with hvalue | ⟨j, hj, -⟩
      · exact error_notMem_combineValueSigs hvalue
      · exact hundeclared ⟨j, hj⟩
    · intro h sig hdelivers
      unfold Delivers at hdelivers
      rw [if_neg hgeneral] at hdelivers
      obtain ⟨s, hs, r, hr, hsig⟩ := hdelivers
      obtain ⟨hmem, hne⟩ := general_delivers hs hr hsig
      rw [mem_getCompletionSignatures hspecial]
      rcases hmem with hvalue | hfailure
      · exact .inl hvalue
      · right
        rcases mem_errorOrStoppedSigs.mp hfailure with hdeclared | ⟨rfl, i, other, hother, hmove⟩
        · exact hdeclared
        · rcases h with h | h | ⟨j, hj⟩ | ⟨j, hj⟩
          · cases h
          · rw [h i other hother] at hmove
            cases hmove
          · exact ⟨j, hj, nofun⟩
          · exact absurd hj (hne j)

end Declares

/-- Storing the value of the first child throws, which neither child declares. -/
theorem declares_fails : ∃ (types : DatumTypes ℕ) (children : pair.Child → Sender ℕ)
    (sig : Signature ℕ), (∀ i stopPossible, children i stopPossible = [.value [7]]) ∧
      Delivers types children true sig ∧ sig ∉ getCompletionSignatures types children true := by
  let types : DatumTypes ℕ := ⟨fun n => decide (n ≠ 7), 0⟩
  let children : pair.Child → Sender ℕ := fun _ _ => [.value [7]]
  have hspecial : allSucceed types children true = false := by decide
  obtain ⟨s, hs, hp⟩ := (system pair ℕ Unit).exists_reaches (fun _ a => a.Accords types children)
    [.start, .start, .start, .complete 0 (.value [7] (some ())), .child 0, .child 0, .child 0,
      .child 0, .child 0, .child 0, .child 0, .complete 1 (.value [7] none), .child 1, .child 1,
      .child 1]
    (fun s => s.delivered = [.failure (.exceptionPtr ())]) (by decide +kernel)
  refine ⟨types, children, .error 0, fun _ _ => rfl, ?_, by decide⟩
  unfold Delivers
  rw [if_neg (by rw [hspecial]; exact Bool.false_ne_true)]
  exact ⟨s, hs, _, (of_decide_eq_true hp) ▸ List.mem_singleton_self _, rfl⟩

end Squiz.WhenAll
