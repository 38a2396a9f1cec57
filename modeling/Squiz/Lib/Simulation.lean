import Squiz.Lib.System

/-! Forward simulation of one transition system by another that matches a step by some steps, the
two with the same observations. -/
namespace Squiz.Lib.System

variable {σ τ α β γ : Type*} {S : System σ α} {T : System τ β}

theorem run_append {s : σ} (as as' : List α) :
    S.run s (as ++ as') = (S.run s as).bind fun t => S.run t as' := by
  induction as generalizing s with
  | nil => rfl
  | cons a as ih =>
    show (S.step s a).bind (fun t => S.run t (as ++ as')) =
      ((S.step s a).bind fun t => S.run t as).bind fun t => S.run t as'
    rw [Option.bind_assoc]
    congr 1
    funext t
    exact ih

theorem run_cons {s : σ} (a : α) (as : List α) :
    S.run s (a :: as) = (S.step s a).bind fun t => S.run t as := rfl

theorem run_singleton {s t : σ} {a : α} (h : S.step s a = some t) : S.run s [a] = some t := by
  rw [run_cons, h]
  rfl

/-- `T` matches every step of `S` from related states by steps with the same observations. -/
def Simulates (R : σ → τ → Prop) (observe : α → List γ) (observe' : β → List γ) : Prop :=
  ∀ s t a s', R s t → S.step s a = some s' →
    ∃ bs t', T.run t bs = some t' ∧ bs.flatMap observe' = observe a ∧ R s' t'

/-- A simulation of the steps is one of the runs. -/
theorem Simulates.run {R : σ → τ → Prop} {observe : α → List γ} {observe' : β → List γ}
    (h : Simulates (S := S) (T := T) R observe observe') {s s' : σ} {t : τ} {as : List α}
    (hR : R s t) (hrun : S.run s as = some s') :
    ∃ bs t', T.run t bs = some t' ∧ bs.flatMap observe' = as.flatMap observe ∧ R s' t' := by
  induction as generalizing s t with
  | nil =>
    cases hrun
    exact ⟨[], t, rfl, rfl, hR⟩
  | cons a as ih =>
    rw [run_cons] at hrun
    obtain ⟨u, hu, hrest⟩ := Option.bind_eq_some_iff.mp hrun
    obtain ⟨bs, v, hv, hobserve, hRv⟩ := h s t a u hR hu
    obtain ⟨bs', t', ht', hobserve', hRt⟩ := ih hRv hrest
    refine ⟨bs ++ bs', t', ?_, ?_, hRt⟩
    · rw [run_append, hv, Option.bind_some, ht']
    · rw [List.flatMap_append, hobserve, hobserve', List.flatMap_cons]

end Squiz.Lib.System
