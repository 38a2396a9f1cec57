import Mathlib.Data.List.Nodup
import Mathlib.Logic.Function.Basic

/-! Lists that hold the addresses of the objects with a flag, each once. -/
namespace Squiz.Lib

variable {A B : Type*}

structure Enumerates (objects : A → Option B) (flag : B → Bool) (l : List A) : Prop where
  nodup : l.Nodup
  mem : ∀ a, a ∈ l ↔ ∃ b, objects a = some b ∧ flag b = true

namespace Enumerates
variable {objects : A → Option B} {flag : B → Bool} {l : List A} {a : A} {b b' : B}

theorem empty : Enumerates (fun _ : A => none) flag [] where
  nodup := .nil
  mem a := by simp

theorem mem_iff (h : Enumerates objects flag l) (ha : objects a = some b) :
    a ∈ l ↔ flag b = true := by
  rw [h.mem, ha]
  simp

theorem exists_of_mem (h : Enumerates objects flag l) (ha : a ∈ l) :
    ∃ b, objects a = some b ∧ flag b = true :=
  (h.mem a).mp ha

theorem head (h : Enumerates objects flag (a :: l)) : ∃ b, objects a = some b ∧ flag b = true :=
  h.exists_of_mem List.mem_cons_self

/-- All objects change, and none of them its flag. -/
theorem map {f : B → B} (h : Enumerates objects flag l) (hf : ∀ b, flag (f b) = flag b) :
    Enumerates (fun a => (objects a).map f) flag l where
  nodup := h.nodup
  mem a := by
    rw [h.mem]
    cases objects a <;> simp [hf]

/-- Two flags become one. -/
theorem map_append {f : B → B} {flag' : B → Bool} {l' : List A} (h : Enumerates objects flag l)
    (h' : Enumerates objects flag' l')
    (hne : ∀ a b, objects a = some b → flag b = true → flag' b = false)
    (hf : ∀ b, flag (f b) = (flag b || flag' b)) :
    Enumerates (fun a => (objects a).map f) flag (l ++ l') where
  nodup := by
    refine List.nodup_append.mpr ⟨h.nodup, h'.nodup, ?_⟩
    rintro a ha a' ha' rfl
    obtain ⟨b, hb, hflag⟩ := h.exists_of_mem ha
    rw [h'.mem_iff hb, hne a b hb hflag] at ha'
    cases ha'
  mem a := by
    rw [List.mem_append, h.mem, h'.mem]
    cases objects a <;> simp [hf]

/-- The flag is cleared everywhere. -/
theorem map_nil {f : B → B} (hf : ∀ b, flag (f b) = false) :
    Enumerates (fun a => (objects a).map f) flag [] where
  nodup := .nil
  mem a := by cases objects a <;> simp [hf]

variable [DecidableEq A]

theorem update (h : Enumerates objects flag l) (ha : objects a = some b)
    (hb : flag b' = flag b) : Enumerates (Function.update objects a (some b')) flag l where
  nodup := h.nodup
  mem c := by
    by_cases hc : c = a
    · subst hc
      rw [h.mem_iff ha, Function.update_self, ← hb]
      simp
    · rw [h.mem, Function.update_of_ne hc]

theorem push (h : Enumerates objects flag l) (ha : objects a = some b) (hb : flag b = false)
    (hb' : flag b' = true) : Enumerates (Function.update objects a (some b')) flag (l ++ [a]) where
  nodup := by
    have hnot : a ∉ l := by
      rw [h.mem_iff ha, hb]
      exact Bool.false_ne_true
    exact List.nodup_append.mpr ⟨h.nodup, List.nodup_singleton a, by
      rintro c hc d hd rfl
      exact hnot (List.mem_singleton.mp hd ▸ hc)⟩
  mem c := by
    rw [List.mem_append, List.mem_singleton]
    by_cases hc : c = a
    · subst hc
      rw [Function.update_self]
      simp [hb']
    · rw [h.mem, Function.update_of_ne hc]
      simp [hc]

theorem erase (h : Enumerates objects flag l) (hb' : flag b' = false) :
    Enumerates (Function.update objects a (some b')) flag (l.erase a) where
  nodup := h.nodup.erase a
  mem c := by
    rw [h.nodup.mem_erase_iff]
    by_cases hc : c = a
    · subst hc
      rw [Function.update_self]
      simp [hb']
    · rw [h.mem, Function.update_of_ne hc]
      simp [hc]

theorem pop (h : Enumerates objects flag (a :: l)) (hb' : flag b' = false) :
    Enumerates (Function.update objects a (some b')) flag l := by
  have herase := h.erase hb' (a := a)
  rwa [List.erase_cons_head] at herase

theorem create (h : Enumerates objects flag l) (ha : objects a = none) (hb' : flag b' = false) :
    Enumerates (Function.update objects a (some b')) flag l where
  nodup := h.nodup
  mem c := by
    rw [h.mem]
    by_cases hc : c = a
    · subst hc
      rw [ha, Function.update_self]
      simp [hb']
    · rw [Function.update_of_ne hc]

theorem destroy (h : Enumerates objects flag l) (ha : objects a = some b) (hb : flag b = false) :
    Enumerates (Function.update objects a none) flag l where
  nodup := h.nodup
  mem c := by
    rw [h.mem]
    by_cases hc : c = a
    · subst hc
      rw [ha, Function.update_self]
      simp [hb]
    · rw [Function.update_of_ne hc]

end Enumerates
end Squiz.Lib
