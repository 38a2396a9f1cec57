import Squiz.Lib.Operations

/-! What an operation leaves behind when it completes, and whom a request to stop reaches: what is
promised of one operation and its children holds of the composition. -/
namespace Squiz.Lib
namespace Operation
variable {R : Type} (O : Operation R)

/-- When the operation completes, nothing that it has started is pending. -/
structure Structured : Prop where
  keeps : ∀ s a t, O.system.step s a = some t → O.delivered s ≠ [] → O.delivered t ≠ []
  ended : ∀ s, O.system.Reachable s → O.delivered s ≠ [] → ¬ O.pending s

/-- No step is left but completions outside and, possibly, the beginning of a request to stop. -/
def Settled (s : O.State) : Prop :=
  ∀ a, O.asksToStop s a = false → O.outside a = false → O.system.step s a = none

/-- Requests to stop reach everything that they should. -/
structure Cancels : Prop where
  pending : ∀ s, O.system.Reachable s → O.unasked s → O.pending s
  asks : ∀ s, O.system.Reachable s → O.Settled s → O.unasked s → O.stopCalled s = false →
    ∃ a, O.asksToStop s a = true ∧ O.outside a = false ∧ O.system.step s a ≠ none
  heeds : ∀ s, O.system.Reachable s → O.Settled s → O.stopCalled s = true → ¬ O.unasked s
  attends : ∀ s, O.system.Reachable s → O.Settled s → ¬ O.neglected s

variable {O} {stoppable : Bool}

theorem Structured.restrict (h : O.Structured) : (O.restrict stoppable).Structured where
  keeps := fun s a t ht => h.keeps s a t (step_of_restrict ht)
  ended := fun s hs => h.ended s (reachable_of_restrict hs)

theorem settled_of_restrict {s : O.State} (h : (O.restrict stoppable).Settled s) : O.Settled s := by
  intro a ha hout
  have hnone := h a ha hout
  change (if O.asksToStop s a = true ∧ stoppable = false then none else O.system.step s a) = none
    at hnone
  rwa [if_neg (fun hstop => by rw [ha] at hstop; cases hstop.1)] at hnone

theorem Settled.restrict {s : O.State} (h : O.Settled s) : (O.restrict stoppable).Settled s := by
  intro a ha hout
  change (if O.asksToStop s a = true ∧ stoppable = false then none else O.system.step s a) = none
  rw [h a ha hout, ite_self]

theorem Cancels.restrict (h : O.Cancels) : (O.restrict stoppable).Cancels where
  pending := fun s hs hunasked => h.pending s (reachable_of_restrict hs) hunasked.2
  asks := by
    rintro s hs hsettled ⟨hstoppable, hunasked⟩ hcalled
    obtain ⟨a, hasks, hout, hstep⟩ :=
      h.asks s (reachable_of_restrict hs) (settled_of_restrict hsettled) hunasked hcalled
    refine ⟨a, hasks, hout, ?_⟩
    change (if O.asksToStop s a = true ∧ stoppable = false then none else O.system.step s a) ≠ none
    rw [if_neg]
    · exact hstep
    · rintro ⟨-, hnot⟩
      rw [hstoppable] at hnot
      cases hnot
  heeds := fun s hs hsettled hcalled hunasked =>
    h.heeds s (reachable_of_restrict hs) (settled_of_restrict hsettled) hcalled hunasked.2
  attends := fun s hs hsettled =>
    h.attends s (reachable_of_restrict hs) (settled_of_restrict hsettled)

end Operation

namespace Adapter
variable {ι P R : Type} (A : Adapter ι P R)

/-- The operation has no step of its own left but, possibly, the beginning of a request to stop. -/
def Idle (s : A.State) : Prop :=
  ∀ a, A.own a = true → A.asksToStop s a = false → A.system.step s a = none

/-- The operation completes when no child runs, and a child runs until it tells the operation. -/
structure Structured (admits : ι → P → Prop) (declared : ι → P → R → Prop) : Prop where
  keeps : ∀ s a t, A.system.step s a = some t → A.delivered s ≠ [] → A.delivered t ≠ []
  runs_on : ∀ s a t i, A.Reaches admits declared s → A.system.step s a = some t →
    (A.own a = true ∨ ∃ j r, j ≠ i ∧ A.completes j r a = true) →
    (A.running s i).isSome = true → (A.running t i).isSome = true
  ended : ∀ s, A.Reaches admits declared s → A.delivered s ≠ [] → ∀ i, A.running s i = none

/-- The operation asks its children to stop when it is asked to, or when it does not want their
results any more. -/
structure Cancels (admits : ι → P → Prop) (declared : ι → P → R → Prop) : Prop where
  asks : ∀ s i, A.Reaches admits declared s → A.Idle s → A.forwards = true →
    (A.running s i).isSome = true → A.stopCalled s = false →
    ∃ a, A.own a = true ∧ A.asksToStop s a = true ∧ A.system.step s a ≠ none
  cancels : ∀ s i, A.Reaches admits declared s → A.Idle s → (A.running s i).isSome = true →
    A.stopCalled s = true ∨ A.decided s → A.asked s i = true

section Composition
variable [DecidableEq ι] [DecidableEq P] {A} {child : ι → P → Operation R}
  {admits : ι → P → Prop} {declared : ι → P → R → Prop} {result : R → Prop}
  {s t : A.Composite child}

/-- A child that was started and does not run has completed. -/
def Told (s : A.Composite child) : Prop :=
  ∀ i p t, s.child i = some ⟨p, t⟩ → A.running s.op i = none → (child i p).delivered t ≠ []

omit [DecidableEq ι] [DecidableEq P] in
theorem Told.launch {op : A.State} (h : ∀ i p t, s.child i = some ⟨p, t⟩ →
    A.running op i = none → (child i p).delivered t ≠ []) : Told (s.launch op) := by
  intro i p t ht hnone
  simp only [Composite.launch] at ht hnone
  split at ht
  · next c hc =>
    cases ht
    exact h i p t hc hnone
  · rw [hnone] at ht
    cases ht

theorem Told.step (hA : A.Structured admits declared)
    (hc : ∀ i p, admits i p → (child i p).Structured) (hs : Composed admits declared s)
    (h : Told s) {a : A.CompositeAct child} (ht : s.step a = some t) : Told t := by
  cases a with
  | op a =>
    simp only [Composite.step] at ht
    split_ifs at ht with hown
    obtain ⟨op, hop, rfl⟩ := Option.map_eq_some_iff.mp ht
    apply Told.launch
    intro i p u hu hnone
    apply h i p u hu
    by_contra hrunning
    have hsome := hA.runs_on s.op a op i hs.op hop (.inl hown)
      (Option.isSome_iff_ne_none.mpr hrunning)
    rw [hnone] at hsome
    cases hsome
  | child j p a =>
    simp only [Composite.step] at ht
    obtain ⟨u, hu, ht⟩ := Option.bind_eq_some_iff.mp ht
    split_ifs at ht
    obtain ⟨u', hu', rfl⟩ := Option.map_eq_some_iff.mp ht
    have hchild := Started.eq_of_state hu
    intro i q v hv hnone
    by_cases hij : i = j
    · subst hij
      simp only [Function.update_self] at hv
      cases hv
      obtain ⟨hadmits, -⟩ := hs.child i p u hchild
      exact (hc i p hadmits).keeps u a u' hu' (h i p u hchild hnone)
    · simp only [Function.update_of_ne hij] at hv
      exact h i q v hv hnone
  | complete j a =>
    simp only [Composite.step] at ht
    split_ifs at ht with hany
    obtain ⟨r, hr, hcompletes⟩ := List.any_eq_true.mp hany
    obtain ⟨op, hop, rfl⟩ := Option.map_eq_some_iff.mp ht
    apply Told.launch
    intro i p u hu hnone
    by_cases hij : i = j
    · -- the child that tells the operation has completed
      subst hij
      rw [hu] at hr
      exact List.ne_nil_of_mem hr
    · apply h i p u hu
      by_contra hrunning
      have hsome := hA.runs_on s.op a op i hs.op hop (.inr ⟨j, r, Ne.symm hij, hcompletes⟩)
        (Option.isSome_iff_ne_none.mpr hrunning)
      rw [hnone] at hsome
      cases hsome

theorem Told.of_reachable (hsafe : A.Safe admits declared result)
    (hA : A.Structured admits declared)
    (hcs : ∀ i p, admits i p → (child i p).Safe (declared i p))
    (hc : ∀ i p, admits i p → (child i p).Structured)
    (hs : (compose A child).system.Reachable s) : Told s := by
  have hinit : Told (Composite.init : A.Composite child) := by
    apply Told.launch
    intro i p t ht
    cases ht
  have hboth := hs.invariant
    (P := fun s : A.Composite child => Composed admits declared s ∧ Told s)
    ⟨.initial hsafe, hinit⟩
    fun _ _ _ h _ ht => ⟨h.1.step hsafe hcs ht, h.2.step hA hc h.1 ht⟩
  exact hboth.2

/-- A composition completes when none of its parts is pending. -/
theorem Structured.compose (hsafe : A.Safe admits declared result)
    (hA : A.Structured admits declared)
    (hcs : ∀ i p, admits i p → (child i p).Safe (declared i p))
    (hc : ∀ i p, admits i p → (child i p).Structured) : (A.compose child).Structured where
  keeps := by
    intro s a t ht hne
    change A.delivered t.op ≠ []
    change s.step a = some t at ht
    cases a with
    | op a =>
      simp only [Composite.step] at ht
      split_ifs at ht
      obtain ⟨op, hop, rfl⟩ := Option.map_eq_some_iff.mp ht
      exact hA.keeps s.op a op hop hne
    | child i p a =>
      simp only [Composite.step] at ht
      obtain ⟨u, hu, ht⟩ := Option.bind_eq_some_iff.mp ht
      split_ifs at ht
      obtain ⟨u', -, rfl⟩ := Option.map_eq_some_iff.mp ht
      exact hne
    | complete i a =>
      simp only [Composite.step] at ht
      split_ifs at ht
      obtain ⟨op, hop, rfl⟩ := Option.map_eq_some_iff.mp ht
      exact hA.keeps s.op a op hop hne
  ended := by
    rintro s hs hne ⟨i, p, u, hu, hpending⟩
    have hcomposed := Composed.of_reachable hsafe hcs hs
    obtain ⟨hadmits, hreach⟩ := hcomposed.child i p u hu
    have hnone := hA.ended s.op hcomposed.op hne i
    exact (hc i p hadmits).ended u hreach
      (Told.of_reachable hsafe hA hcs hc hs i p u hu hnone) hpending

/-- Where the composition is settled, its children are. -/
theorem child_settled (h : (compose A child).Settled s) {i : ι} {p : P} {u : (child i p).State}
    (hu : s.child i = some ⟨p, u⟩) : (child i p).Settled u := by
  intro a ha hout
  have hnone : s.step (.child i p a) = none := h (.child i p a) rfl hout
  simp only [Composite.step, hu, Started.state_some, Option.bind_some] at hnone
  rw [if_pos (by rw [ha]; exact fun h => by cases h)] at hnone
  exact Option.map_eq_none_iff.mp hnone

theorem idle_of_settled (h : (compose A child).Settled s) : A.Idle s.op := by
  intro a hown ha
  have hnone : s.step (.op a) = none := h (.op a) ha rfl
  simp only [Composite.step] at hnone
  rw [if_pos hown] at hnone
  exact Option.map_eq_none_iff.mp hnone

/-- A composition is settled where the operation is, its children are and heed its requests, and
what they have completed with was told. -/
theorem compose_settled (hop : A.Idle s.op)
    (hchild : ∀ i p u, s.child i = some ⟨p, u⟩ → (child i p).Settled u)
    (hheeded : ∀ i p u, s.child i = some ⟨p, u⟩ → A.asked s.op i = true →
      ∀ a, (child i p).asksToStop u a = true → (child i p).system.step u a = none)
    (htold : ∀ i, ∀ r ∈ Composite.results (s.child i), ∀ a, A.completes i r a = true →
      A.system.step s.op a = none) : (compose A child).Settled s := by
  intro a ha hout
  change s.step a = none
  cases a with
  | op a =>
    simp only [Composite.step]
    split_ifs with hown
    · rw [hop a hown ha, Option.map_none]
    · rfl
  | child i p a =>
    simp only [Composite.step]
    refine Option.bind_eq_none_iff.mpr fun u hu => ?_
    have hu := Started.eq_of_state hu
    split_ifs with hasked
    · have hnone : (child i p).system.step u a = none := by
        cases hasks : (child i p).asksToStop u a with
        | true => exact hheeded i p u hu (hasked hasks) a hasks
        | false => exact hchild i p u hu a hasks hout
      rw [hnone, Option.map_none]
    · rfl
  | complete i a =>
    simp only [Composite.step]
    split_ifs with hany
    · obtain ⟨r, hr, hcompletes⟩ := List.any_eq_true.mp hany
      rw [htold i r hr a hcompletes, Option.map_none]
    · rfl

/-- A child that was asked to stop has heeded the request when nothing moves any more. -/
theorem heeded (h : (compose A child).Settled s) {i : ι} {p : P} {u : (child i p).State}
    (hc : (child i p).Cancels) (hreach : (child i p).system.Reachable u)
    (hu : s.child i = some ⟨p, u⟩) (hasked : A.asked s.op i = true) : ¬ (child i p).unasked u := by
  intro hunasked
  have hsettled := child_settled h hu
  cases hcalled : (child i p).stopCalled u with
  | true => exact hc.heeds u hreach hsettled hcalled hunasked
  | false =>
    obtain ⟨a, hasks, hout, hstep⟩ := hc.asks u hreach hsettled hunasked hcalled
    have hnone : s.step (.child i p a) = none := h (.child i p a) rfl hout
    simp only [Composite.step, hu, Started.state_some, Option.bind_some] at hnone
    rw [if_pos fun _ => hasked] at hnone
    exact hstep (Option.map_eq_none_iff.mp hnone)

/-- In a composition, requests to stop reach everything that they should. -/
theorem Cancels.compose (hsafe : A.Safe admits declared result)
    (hstructured : A.Structured admits declared) (hA : A.Cancels admits declared)
    (hcs : ∀ i p, admits i p → (child i p).Safe (declared i p))
    (hct : ∀ i p, admits i p → (child i p).Structured)
    (hc : ∀ i p, admits i p → (child i p).Cancels) : (A.compose child).Cancels := by
  have hruns : ∀ s : A.Composite child, (A.compose child).system.Reachable s → ∀ i p u,
      s.child i = some ⟨p, u⟩ → (child i p).unasked u →
      admits i p ∧ (child i p).system.Reachable u ∧ A.Reaches admits declared s.op ∧
        (A.running s.op i).isSome = true := by
    intro s hs i p u hu hunasked
    have hcomposed := Composed.of_reachable hsafe hcs hs
    obtain ⟨hadmits, hreach⟩ := hcomposed.child i p u hu
    refine ⟨hadmits, hreach, hcomposed.op, ?_⟩
    by_contra hnot
    have hnone := Option.not_isSome_iff_eq_none.mp hnot
    exact (hct i p hadmits).ended u hreach
      (Told.of_reachable hsafe hstructured hcs hct hs i p u hu hnone)
      ((hc i p hadmits).pending u hreach hunasked)
  constructor
  · rintro s hs ⟨-, i, p, u, hu, hunasked⟩
    obtain ⟨hadmits, hreach, -⟩ := hruns s hs i p u hu hunasked
    exact ⟨i, p, u, hu, (hc i p hadmits).pending u hreach hunasked⟩
  · rintro s hs hsettled ⟨hforwards, i, p, u, hu, hunasked⟩ hcalled
    obtain ⟨-, -, hop, hrunning⟩ := hruns s hs i p u hu hunasked
    obtain ⟨a, hown, hasks, hstep⟩ :=
      hA.asks s.op i hop (idle_of_settled hsettled) hforwards hrunning hcalled
    refine ⟨.op a, hasks, rfl, ?_⟩
    change s.step (.op a) ≠ none
    simp only [Composite.step]
    rw [if_pos hown]
    exact mt Option.map_eq_none_iff.mp hstep
  · rintro s hs hsettled hcalled ⟨-, i, p, u, hu, hunasked⟩
    obtain ⟨hadmits, hreach, hop, hrunning⟩ := hruns s hs i p u hu hunasked
    exact heeded hsettled (hc i p hadmits) hreach hu
      (hA.cancels s.op i hop (idle_of_settled hsettled) hrunning (.inl hcalled)) hunasked
  · rintro s hs hsettled ⟨i, p, u, hu, ⟨hcause, hunasked⟩ | hneglected⟩
    · obtain ⟨hadmits, hreach, hop, hrunning⟩ := hruns s hs i p u hu hunasked
      exact heeded hsettled (hc i p hadmits) hreach hu
        (hA.cancels s.op i hop (idle_of_settled hsettled) hrunning hcause) hunasked
    · obtain ⟨hadmits, hreach⟩ := (Composed.of_reachable hsafe hcs hs).child i p u hu
      exact (hc i p hadmits).attends u hreach (child_settled hsettled hu) hneglected

end Composition
end Adapter
end Squiz.Lib
