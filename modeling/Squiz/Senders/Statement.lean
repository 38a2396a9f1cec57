import Squiz.Lib.StructuredOperations
import Squiz.Senders.Results
import Squiz.Statement

/-! `statement_op` as the parent of its source. -/
namespace Squiz.Statement
open Squiz.Lib Squiz.Detail Squiz.SigSet Op

variable {T : Type} [DecidableEq T]

/-- The destructor is left to the owner, who calls it when the operation is over. -/
def adapter (types : DatumTypes T) : Adapter Unit Unit (Signature T) where
  State := Op (Signature T) Unit
  Act := Act (Signature T) Unit
  system := system (Signature T) Unit
  asksToStop _
    | .requestStop => true
    | _ => false
  spurious _ := false
  delivered s := s.delivered.map (Result.signature types)
  own
    | .complete _ | .destroy => false
    | _ => true
  completes _ sig
    | .complete c => c.toCompletion.matches types sig
    | _ => false
  running s _ := if s.start ≠ .notCalled ∧ s.set = .notCalled then some () else none
  asked s _ := decide (s.stop = .inChild ∨
    s.set = .notCalled ∧ (s.stop = .sub ∨ s.stop = .returned))
  stopCalled s := decide (s.stop ≠ .notCalled)

variable {types : DatumTypes T} {sigs : SigSet T}

namespace Op
variable {R X : Type} {s t : Op R X} {a : Act R X}

theorem deliverResult_owner (s : Op R X) : s.deliverResult.completion = s.completion ∧
    s.deliverResult.destroyed = s.destroyed := by
  unfold deliverResult
  split <;> exact ⟨rfl, rfl⟩

/-- Only the child's `set_result` brings a completion, and only the owner destroys the operation. -/
theorem step_owner (ht : s.step a = some t) :
    (t.completion = s.completion ∨ ∃ c, a = .complete c ∧ t.completion = some c) ∧
      (t.destroyed = s.destroyed ∨ a = .destroy) := by
  obtain ⟨hcompletion, hdestroyed⟩ := s.deliverResult_owner
  cases a with
  | start =>
    simp only [step] at ht
    split at ht <;> try split_ifs at ht
    all_goals
      cases ht
      try exact ⟨.inl rfl, .inl rfl⟩
  | requestStop =>
    simp only [step] at ht
    split_ifs at ht
    cases ht
    exact ⟨.inl rfl, .inl rfl⟩
  | stop =>
    simp only [step, stopStep] at ht
    split at ht <;> cases ht <;> first
      | exact ⟨.inl rfl, .inl rfl⟩
      | exact ⟨.inl hcompletion, .inl hdestroyed⟩
  | complete c =>
    simp only [step] at ht
    split at ht <;> cases ht <;> exact ⟨.inr ⟨c, rfl, rfl⟩, .inl rfl⟩
  | set =>
    simp only [step, setStep] at ht
    split at ht <;> try split at ht
    all_goals
      cases ht
      try first
        | exact ⟨.inl rfl, .inl rfl⟩
        | exact ⟨.inl hcompletion, .inl hdestroyed⟩
  | destroy =>
    simp only [step] at ht
    split_ifs at ht
    cases ht
    unfold destroy
    split_ifs <;> exact ⟨.inl rfl, .inr rfl⟩

theorem deliverResult_grows (s : Op R X) : s.delivered <+: s.deliverResult.delivered := by
  unfold deliverResult
  split
  · exact List.prefix_append _ _
  · exact List.prefix_rfl

theorem delivered_grows (ht : s.step a = some t) : s.delivered <+: t.delivered := by
  have hdeliver := s.deliverResult_grows
  cases a with
  | start | complete c =>
    simp only [step] at ht
    split at ht <;> try split_ifs at ht
    all_goals
      cases ht
      try exact List.prefix_rfl
  | requestStop =>
    simp only [step] at ht
    split_ifs at ht
    cases ht
    exact List.prefix_rfl
  | stop =>
    simp only [step, stopStep] at ht
    split at ht <;> cases ht <;> first
      | exact List.prefix_rfl
      | exact hdeliver
  | set =>
    simp only [step, setStep] at ht
    split at ht <;> try split at ht
    all_goals
      cases ht
      try first
        | exact List.prefix_rfl
        | exact hdeliver
        | exact List.prefix_append _ _
  | destroy =>
    simp only [step] at ht
    split_ifs at ht
    cases ht
    unfold destroy
    split_ifs <;> exact List.prefix_rfl

/-- The child runs until it completes. -/
theorem runs_on (ht : s.step a = some t) (hstart : s.start ≠ .notCalled) (hset : s.set = .notCalled)
    (ha : ∀ c, a ≠ .complete c) : t.start ≠ .notCalled ∧ t.set = .notCalled := by
  have hdeliver : s.deliverResult.start = s.start ∧ s.deliverResult.set = s.set := by
    unfold deliverResult
    split <;> exact ⟨rfl, rfl⟩
  cases a with
  | start =>
    simp only [step] at ht
    split at ht <;> try split_ifs at ht
    all_goals
      cases ht
      try exact ⟨by simp, hset⟩
  | requestStop =>
    simp only [step] at ht
    split_ifs at ht
    cases ht
    exact ⟨hstart, hset⟩
  | stop =>
    simp only [step, stopStep] at ht
    split at ht <;> cases ht <;> first
      | exact ⟨hstart, hset⟩
      | exact ⟨by rw [hdeliver.1]; exact hstart, by rw [hdeliver.2]; exact hset⟩
  | complete c => exact absurd rfl (ha c)
  | set => simp [step, setStep, hset] at ht
  | destroy =>
    simp only [step] at ht
    split_ifs at ht
    cases ht
    unfold destroy
    split_ifs <;> exact ⟨hstart, hset⟩

end Op

/-- The runs of a statement whose source completes as it has declared. -/
abbrev Runs (types : DatumTypes T) (sigs : SigSet T) : Op (Signature T) Unit → Prop :=
  (adapter types).Reaches (fun _ _ => True) fun _ _ sig => sig ∈ sigs

theorem Runs.inv {s : Op (Signature T) Unit} (hs : Runs types sigs s) : s.Inv ∧
    s.destroyed = false ∧
    ∀ c, s.completion = some c → ∃ sig ∈ sigs, c.toCompletion.matches types sig = true := by
  refine hs.invariant (P := fun s : Op (Signature T) Unit => s.Inv ∧ s.destroyed = false ∧
    ∀ c, s.completion = some c → ∃ sig ∈ sigs, c.toCompletion.matches types sig = true)
    ⟨Inv.init, rfl, fun c hc => by cases hc⟩ ?_
  rintro s a t ⟨hi, hd, hc⟩ hok ht
  obtain ⟨hcompletion, hdestroyed⟩ := step_owner ht
  refine ⟨Inv.step hi ht, ?_, ?_⟩
  · rcases hdestroyed with hsame | rfl
    · rw [hsame, hd]
    · rcases hok with hown | ⟨_, _, _, _, _, hcompletes⟩
      · cases hown
      · cases hcompletes
  · intro c htc
    rcases hcompletion with hsame | ⟨c', rfl, hc'⟩
    · exact hc c (hsame ▸ htc)
    · rw [hc'] at htc
      cases htc
      rcases hok with hown | ⟨_, _, sig, _, hsig, hmatches⟩
      · cases hown
      · exact ⟨sig, hsig, hmatches⟩

/-- What a statement delivers is its source's result, or an exception from copying it. -/
theorem adapter_safe (types : DatumTypes T) (sigs : SigSet T) :
    (adapter types).Safe (fun _ _ => True) (fun _ _ sig => sig ∈ sigs)
      fun sig => sig ∈ addErrorIfMoveCanThrow types sigs where
  params := fun _ _ _ _ _ => trivial
  once := by
    intro s hs
    change (s.delivered.map _).length ≤ 1
    rw [List.length_map]
    exact (Runs.inv hs).1.orderly.deliveredOnce
  declares := by
    intro s hs sig hsig
    obtain ⟨r, hr, rfl⟩ := List.mem_map.mp hsig
    obtain ⟨hi, -, hcompletion⟩ := Runs.inv hs
    obtain ⟨c, hc, hgives⟩ := hi.gives r hr
    obtain ⟨sig, hsig, hmatches⟩ := hcompletion c hc
    exact hgives.mem hmatches hsig
  terminates := ⟨rank, .of_lt fun _ _ _ _ ht => rank_step ht⟩

theorem adapter_ends (types : DatumTypes T) (sigs : SigSet T) :
    (adapter types).Ends (fun _ _ => True) fun _ _ sig => sig ∈ sigs where
  accepts := by
    intro s _ _ hrunning _ sig _ _
    have h : s.start ≠ .notCalled ∧ s.set = .notCalled := Option.isSome_ite.mp hrunning
    refine ⟨.complete ⟨⟨sig, none⟩, false⟩, Completion.matches_nothrow sig, ?_⟩
    change (s.step (.complete ⟨⟨sig, none⟩, false⟩)).isSome = true
    simp only [Op.step, h.2]
    cases hpc : s.start with
    | notCalled => exact absurd hpc h.1
    | inChild => rfl
    | returned => rfl
  ends := by
    intro s hs hstuck hrunning
    obtain ⟨hi, hd, -⟩ := Runs.inv hs
    have hstart : s.step .start = none := hstuck .start rfl rfl
    have hstop : s.step .stop = none := hstuck .stop rfl rfl
    have hset : s.step .set = none := hstuck .set rfl rfl
    have hnot : ¬ (s.start ≠ .notCalled ∧ s.set = .notCalled) := fun h => by
      cases (if_pos h).symm.trans (hrunning ())
    have hcalled : s.start ≠ .notCalled := by
      intro hpc
      simp [Op.step, hpc, hd] at hstart
    have hsetCalled : s.set ≠ .notCalled := fun hpc => hnot ⟨hcalled, hpc⟩
    change s.delivered.map _ ≠ []
    rw [Ne, List.map_eq_nil_iff]
    intro hnil
    have hcompletion : s.completion.isSome = true := by
      have hok := hi.ok
      have hdelivered := hi.phase.2.2.2
      rw [hnil] at hdelivered
      cases hpc : s.set <;> rw [hpc] at hok hdelivered
      case notCalled => exact absurd hpc hsetCalled
      case returned => cases hdelivered
      case cas c | copy c | store c => exact Option.isSome_iff_exists.mpr ⟨c, hok⟩
      case destruct r | deliver r =>
        obtain ⟨c, hc, -⟩ := hok
        rw [hc]
        rfl
      all_goals
        obtain ⟨c, r, hc, -⟩ := hok
        rw [hc]
        rfl
    have hone := hi.orderly.deliveredAtEnd ⟨hcompletion, hstart, hstop, hset⟩
    rw [hnil] at hone
    cases hone

theorem adapter_structured (types : DatumTypes T) (sigs : SigSet T) :
    (adapter types).Structured (fun _ _ => True) fun _ _ sig => sig ∈ sigs where
  keeps := by
    intro s a t ht hne
    change t.delivered.map _ ≠ []
    change s.delivered.map _ ≠ [] at hne
    rw [Ne, List.map_eq_nil_iff] at hne ⊢
    exact (delivered_grows ht).ne_nil hne
  runs_on := by
    intro s a t _ hs ht hother hrunning
    obtain ⟨hstart, hset⟩ : s.start ≠ .notCalled ∧ s.set = .notCalled :=
      Option.isSome_ite.mp hrunning
    apply Option.isSome_ite.mpr
    apply Op.runs_on ht hstart hset
    rintro c rfl
    rcases hother with hown | ⟨j, -, hj, -⟩
    · cases hown
    · exact hj rfl
  ended := by
    intro s hs hne _
    apply if_neg
    rintro ⟨-, hset⟩
    apply hne
    apply List.map_eq_nil_iff.mpr
    exact (Runs.inv hs).1.delivered_of_notCalled hset

/-- A request to stop is passed on, if the child has not completed meanwhile. -/
theorem adapter_cancels (types : DatumTypes T) (sigs : SigSet T) :
    (adapter types).Cancels (fun _ _ => True) fun _ _ sig => sig ∈ sigs where
  asks := by
    intro s _ hs hidle _ hrunning hcalled
    obtain ⟨-, hd, -⟩ := Runs.inv hs
    obtain ⟨hstart, -⟩ : s.start ≠ .notCalled ∧ s.set = .notCalled := Option.isSome_ite.mp hrunning
    have hstuck : s.step .start = none := hidle .start rfl rfl
    have hstop : s.stop = .notCalled := not_not.mp (of_decide_eq_false hcalled)
    have hreturned : s.start = .returned := by
      cases hpc : s.start with
      | notCalled => exact absurd hpc hstart
      | inChild => simp [Op.step, hpc] at hstuck
      | returned => rfl
    refine ⟨.requestStop, rfl, rfl, ?_⟩
    change s.step .requestStop ≠ none
    simp only [Op.step]
    rw [if_pos ⟨hstop, hreturned, hd⟩]
    exact Option.some_ne_none _
  cancels := by
    intro s _ hs hidle hrunning hcause
    obtain ⟨-, hset⟩ : s.start ≠ .notCalled ∧ s.set = .notCalled := Option.isSome_ite.mp hrunning
    have hstuck : s.stopStep = none := hidle .stop rfl rfl
    obtain ⟨-, hjoint, -⟩ := (Runs.inv hs).1.phase
    rw [hset] at hjoint
    rcases hcause with hcalled | hdecided
    · have hstop : s.stop ≠ .notCalled := of_decide_eq_true hcalled
      apply decide_eq_true
      cases hpc : s.stop with
      | notCalled => exact absurd hpc hstop
      | returned => exact .inr ⟨hset, .inr rfl⟩
      | tooLate => exact absurd hpc hjoint.1
      | _ => simp [stopStep, hpc] at hstuck
    · exact hdecided.elim

end Squiz.Statement
