import Squiz.Lib.Simulation

/-! What can be observed of a run of a system. -/
namespace Squiz.Lib

namespace System
variable {σ α γ : Type*} (S : System σ α)

/-- The runs that end in a state, with what is observed in them. -/
inductive Produces (observe : σ → α → List γ) : List γ → σ → Prop
  | init : Produces observe [] S.init
  | step {history : List γ} {s t : σ} {a : α} (hs : Produces observe history s)
      (ht : S.step s a = some t) : Produces observe (history ++ observe s a) t

theorem Produces.reachable {observe : σ → α → List γ} {history : List γ} {s : σ}
    (h : S.Produces observe history s) : S.Reachable s := by
  induction h with
  | init => exact Reaches.init
  | step _ ht ih => exact ih.step trivial ht

/-- What is observed in a run from the state. -/
def trace (observe : σ → α → List γ) (s : σ) : List α → List γ
  | [] => []
  | a :: as => observe s a ++
    match S.step s a with
    | none => []
    | some t => trace observe t as

variable {S} {observe : σ → α → List γ}

theorem Produces.run {history : List γ} {s t : σ} {as : List α} (h : S.Produces observe history s)
    (ht : S.run s as = some t) : S.Produces observe (history ++ S.trace observe s as) t := by
  induction as generalizing history s with
  | nil =>
    cases ht
    rwa [trace, List.append_nil]
  | cons a as ih =>
    rw [run_cons] at ht
    obtain ⟨u, hu, hrest⟩ := Option.bind_eq_some_iff.mp ht
    rw [trace, hu, ← List.append_assoc]
    exact ih (h.step hu) hrest

/-- Where what a step shows does not depend on the state. -/
theorem trace_const {observe : α → List γ} {s t : σ} {as : List α} (ht : S.run s as = some t) :
    S.trace (fun _ => observe) s as = as.flatMap observe := by
  induction as generalizing s with
  | nil => rfl
  | cons a as ih =>
    rw [run_cons] at ht
    obtain ⟨u, hu, hrest⟩ := Option.bind_eq_some_iff.mp ht
    rw [trace, hu, List.flatMap_cons, ← ih hrest]

theorem exists_produces {history : List γ} (as : List α) (p : σ → Bool)
    (hrun : (S.run S.init as).any p = true) (htrace : S.trace observe S.init as = history) :
    ∃ s, S.Produces observe history s ∧ p s = true := by
  obtain ⟨s, hs, hp⟩ := (Option.any_eq_true _ _).mp hrun
  exact ⟨s, htrace ▸ Produces.init.run hs, hp⟩

/-- `f` maps each step to steps with the same observations. -/
theorem Produces.map {τ β : Type*} {T : System τ β} {observe' : β → List γ} {P : σ → Prop}
    {f : σ → τ} (hinit : f S.init = T.init) (hP0 : P S.init)
    (hP : ∀ s a t, P s → S.step s a = some t → P t)
    (hstep : ∀ s a t, P s → S.step s a = some t →
      ∃ bs, T.run (f s) bs = some (f t) ∧ bs.flatMap observe' = observe s a)
    {history : List γ} {s : σ} (h : S.Produces observe history s) :
    P s ∧ T.Produces (fun _ => observe') history (f s) := by
  induction h with
  | init => exact ⟨hP0, hinit ▸ .init⟩
  | @step history s t a _ ht ih =>
    obtain ⟨hs, hproduces⟩ := ih
    obtain ⟨bs, hrun, hobserve⟩ := hstep s a t hs ht
    refine ⟨hP s a t hs ht, ?_⟩
    rw [← hobserve, ← trace_const hrun]
    exact hproduces.run hrun

end System

end Squiz.Lib
