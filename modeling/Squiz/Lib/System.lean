import Mathlib.Logic.Basic
import Mathlib.Tactic.Common

/-! Transition systems with computed steps, their guarded runs and the invariant rule. -/
namespace Squiz.Lib

/-- `step s a` is the state after action `a`, or `none` where `a` is not enabled. -/
structure System (σ α : Type*) where
  init : σ
  step : σ → α → Option σ

namespace System
variable {σ α : Type*} (S : System σ α)

/-- States reached by steps that all meet `ok`, which sees the state before the step. -/
inductive Reaches (ok : σ → α → Prop) : σ → Prop
  | init : Reaches ok S.init
  | step {s t : σ} {a : α} (hs : Reaches ok s) (hok : ok s a) (ht : S.step s a = some t) :
      Reaches ok t

/-- States reached by any run. -/
abbrev Reachable : σ → Prop := S.Reaches fun _ _ => True

/-- Executes a schedule, stopping with `none` at the first action that is not enabled
or does not meet `ok`. -/
def exec (ok : σ → α → Prop) [∀ s a, Decidable (ok s a)] (s : σ) : List α → Option σ
  | [] => some s
  | a :: as => if ok s a then (S.step s a).bind fun t => exec ok t as else none

/-- Executes a schedule without a guard. -/
def run (s : σ) (as : List α) : Option σ := S.exec (fun _ _ => True) s as

variable {S} {ok : σ → α → Prop}

theorem Reaches.mono {ok' : σ → α → Prop} (h : ∀ s a, ok s a → ok' s a) {s : σ}
    (hs : S.Reaches ok s) : S.Reaches ok' s := by
  induction hs with
  | init => exact .init
  | step _ hok ht ih => exact ih.step (h _ _ hok) ht

theorem Reaches.reachable {s : σ} (hs : S.Reaches ok s) : S.Reachable s :=
  hs.mono fun _ _ _ => trivial

/-- What holds initially and is kept by every guarded step holds in every state reached. -/
theorem Reaches.invariant {P : σ → Prop} (h0 : P S.init)
    (hstep : ∀ s a t, P s → ok s a → S.step s a = some t → P t) {s : σ}
    (hs : S.Reaches ok s) : P s := by
  induction hs with
  | init => exact h0
  | step _ hok ht ih => exact hstep _ _ _ ih hok ht

theorem Reaches.exec [∀ s a, Decidable (ok s a)] {s t : σ} {as : List α}
    (hs : S.Reaches ok s) (ht : S.exec ok s as = some t) : S.Reaches ok t := by
  induction as generalizing s with
  | nil =>
    cases ht
    exact hs
  | cons a as ih =>
    simp only [System.exec] at ht
    split_ifs at ht with hok
    obtain ⟨u, hu, htu⟩ := Option.bind_eq_some_iff.mp ht
    exact ih (hs.step hok hu) htu

theorem run_of_exec [∀ s a, Decidable (ok s a)] {s t : σ} {as : List α}
    (ht : S.exec ok s as = some t) : S.run s as = some t := by
  induction as generalizing s with
  | nil => exact ht
  | cons a as ih =>
    simp only [System.exec] at ht
    split_ifs at ht
    obtain ⟨u, hu, htu⟩ := Option.bind_eq_some_iff.mp ht
    show (S.step s a).bind (fun t => S.run t as) = some t
    rw [hu]
    exact ih htu

/-- What every guarded step keeps holds at the end of a run if it held at its start. -/
theorem exec_invariant [∀ s a, Decidable (ok s a)] {P : σ → Prop}
    (h : ∀ s a t, P s → ok s a → S.step s a = some t → P t) {s t : σ} {as : List α} (hs : P s)
    (ht : S.exec ok s as = some t) : P t := by
  induction as generalizing s with
  | nil =>
    cases ht
    exact hs
  | cons a as ih =>
    simp only [System.exec] at ht
    split_ifs at ht with hok
    obtain ⟨u, hu, htu⟩ := Option.bind_eq_some_iff.mp ht
    exact ih (h s a u hs hok hu) htu

theorem countP_cons_toNat (counts : α → Bool) (a : α) (as : List α) :
    (a :: as).countP counts = as.countP counts + (counts a).toNat := by
  rw [List.countP_cons]
  cases counts a <;> rfl

/-- If every guarded step from a state with `P` keeps `P` and lowers the rank, by one or more where
the action counts, a run takes no more such actions than the rank it starts with. -/
theorem exec_countP_le_of_ok [∀ s a, Decidable (ok s a)] {P : σ → Prop} (rank : σ → ℕ)
    (counts : α → Bool)
    (h : ∀ s a t, P s → ok s a → S.step s a = some t →
      P t ∧ rank t + (counts a).toNat ≤ rank s) {s t : σ}
    {as : List α} (hs : P s) (ht : S.exec ok s as = some t) :
    as.countP counts + rank t ≤ rank s := by
  induction as generalizing s with
  | nil =>
    cases ht
    simp
  | cons a as ih =>
    simp only [System.exec] at ht
    split_ifs at ht with hok
    obtain ⟨u, hu, htu⟩ := Option.bind_eq_some_iff.mp ht
    obtain ⟨hpu, hle⟩ := h s a u hs hok hu
    have hrest : as.countP counts + rank t ≤ rank u := ih hpu htu
    have hcons : (a :: as).countP counts = as.countP counts + (counts a).toNat :=
      countP_cons_toNat counts a as
    omega

/-- The same, where the guard does not matter. -/
theorem exec_countP_le [∀ s a, Decidable (ok s a)] {P : σ → Prop} (rank : σ → ℕ)
    (counts : α → Bool)
    (h : ∀ s a t, P s → S.step s a = some t → P t ∧ rank t + (counts a).toNat ≤ rank s) {s t : σ}
    {as : List α} (hs : P s) (ht : S.exec ok s as = some t) :
    as.countP counts + rank t ≤ rank s :=
  exec_countP_le_of_ok rank counts (fun s a t hs _ => h s a t hs) hs ht

theorem exec_length_le [∀ s a, Decidable (ok s a)] {P : σ → Prop} (rank : σ → ℕ)
    (h : ∀ s a t, P s → S.step s a = some t → P t ∧ rank t < rank s) {s t : σ} {as : List α}
    (hs : P s) (ht : S.exec ok s as = some t) : as.length + rank t ≤ rank s := by
  have hle := exec_countP_le rank (fun _ => true) h hs ht
  rwa [List.countP_true] at hle

/-- A measure that grows by one with each action that counts, and with no other, counts them. -/
theorem exec_countP_eq [∀ s a, Decidable (ok s a)] (f : σ → ℕ) (counts : α → Bool)
    (h : ∀ s a t, S.step s a = some t → f t = f s + (counts a).toNat) {s t : σ} {as : List α}
    (ht : S.exec ok s as = some t) : f t = f s + as.countP counts := by
  induction as generalizing s with
  | nil =>
    cases ht
    rfl
  | cons a as ih =>
    simp only [System.exec] at ht
    split_ifs at ht
    obtain ⟨u, hu, htu⟩ := Option.bind_eq_some_iff.mp ht
    have hrest : f t = f u + as.countP counts := ih htu
    have hstep : f u = f s + (counts a).toNat := h s a u hu
    have hcons : (a :: as).countP counts = as.countP counts + (counts a).toNat :=
      countP_cons_toNat counts a as
    omega

/-- Where every action is enabled and has the effect of `f` on what a state represents, so do all
schedules. -/
theorem run_refines {ρ : Type*} (R : σ → ρ → Prop) (f : ρ → α → ρ)
    (h : ∀ s x a, R s x → ∃ t, S.step s a = some t ∧ R t (f x a)) {s : σ} {x : ρ} (hs : R s x)
    (as : List α) : ∃ t, S.run s as = some t ∧ R t (as.foldl f x) := by
  induction as generalizing s x with
  | nil => exact ⟨s, rfl, hs⟩
  | cons a as ih =>
    obtain ⟨t, ht, hrt⟩ := h s x a hs
    obtain ⟨u, hu, hru⟩ := ih hrt
    refine ⟨u, ?_, hru⟩
    simp only [run, exec, if_true, ht, Option.bind_some]
    exact hu

/-- Where every guarded step lowers the rank, steps can be taken until none is left. -/
theorem Reaches.exists_stuck {P : σ → Prop} (rank : σ → ℕ)
    (h : ∀ s a t, P s → ok s a → S.step s a = some t → P t ∧ rank t < rank s) {s : σ}
    (hs : S.Reaches ok s) (hp : P s) :
    ∃ t, S.Reaches ok t ∧ P t ∧ ∀ a, ok t a → S.step t a = none := by
  induction hn : rank s using Nat.strongRecOn generalizing s with
  | _ n ih =>
    by_cases hstuck : ∀ a, ok s a → S.step s a = none
    · exact ⟨s, hs, hp, hstuck⟩
    · obtain ⟨a, ha⟩ := not_forall.mp hstuck
      obtain ⟨hok, hstep⟩ := Classical.not_imp.mp ha
      obtain ⟨t, ht⟩ := Option.ne_none_iff_exists'.mp hstep
      obtain ⟨hpt, hlt⟩ := h s a t hp hok ht
      exact ih (rank t) (hn ▸ hlt) (hs.step hok ht) hpt rfl

/-- A schedule that runs to a state with a checked property exhibits a reachable one. -/
theorem exists_reaches (ok : σ → α → Prop) [∀ s a, Decidable (ok s a)] (as : List α) (p : σ → Bool)
    (h : (S.exec ok S.init as).any p = true) : ∃ s, S.Reaches ok s ∧ p s = true := by
  obtain ⟨s, hs, hp⟩ := (Option.any_eq_true _ _).mp h
  exact ⟨s, Reaches.init.exec hs, hp⟩

theorem exists_reachable (as : List α) (p : σ → Bool)
    (h : (S.run S.init as).any p = true) : ∃ s, S.Reachable s ∧ p s = true :=
  exists_reaches _ as p h

end System
end Squiz.Lib
