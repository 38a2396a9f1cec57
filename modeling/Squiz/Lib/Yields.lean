import Mathlib.Logic.Basic

/-! What a computation that may fail yields, with the rules for its composition. -/
namespace Squiz.Lib

/-- The computation has a result, which has the property. -/
def Yields {α : Type*} (x : Option α) (P : α → Prop) : Prop := ∃ a, x = some a ∧ P a

variable {α β : Type*} {x : Option α} {P Q : α → Prop} {R : β → Prop}

@[simp] theorem yields_some {a : α} : Yields (some a) P ↔ P a := by
  constructor
  · rintro ⟨_, ⟨rfl⟩, ha⟩
    exact ha
  · intro ha
    exact ⟨a, rfl, ha⟩

namespace Yields

theorem mono (h : Yields x P) (hPQ : ∀ a, P a → Q a) : Yields x Q := by
  obtain ⟨a, ha, hP⟩ := h
  exact ⟨a, ha, hPQ a hP⟩

theorem bind (h : Yields x P) {f : α → Option β} (hf : ∀ a, P a → Yields (f a) R) :
    Yields (x.bind f) R := by
  obtain ⟨a, rfl, hP⟩ := h
  exact hf a hP

theorem map (h : Yields x P) {f : α → β} (hf : ∀ a, P a → R (f a)) : Yields (x.map f) R := by
  obtain ⟨a, rfl, hP⟩ := h
  exact ⟨f a, rfl, hf a hP⟩

end Yields
end Squiz.Lib
