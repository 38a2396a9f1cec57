import Mathlib.Data.List.Basic
import Mathlib.Data.List.Nodup
import Mathlib.Logic.Function.Basic
import Mathlib.Tactic.Common

/-! Null-terminated linked lists in a heap that gives each cell its next cell. -/
namespace Squiz.Lib
variable {α : Type*}

/-- From the pointer `p` the cells are those of the list, in order, and then comes null. -/
def Linked (next : α → Option α) : Option α → List α → Prop
  | p, [] => p = none
  | p, a :: l => p = some a ∧ Linked next (next a) l

/-- The cells from `p` on, if null comes after at most so many. -/
def readList (next : α → Option α) : ℕ → Option α → Option (List α)
  | _, none => some []
  | 0, some _ => none
  | n + 1, some a => (readList next n (next a)).map (a :: ·)

namespace Linked
variable {next next' : α → Option α} {p q : Option α} {a b : α} {l l' : List α}

@[simp] theorem nil_iff : Linked next p [] ↔ p = none := .rfl

@[simp] theorem cons_iff : Linked next p (a :: l) ↔ p = some a ∧ Linked next (next a) l := .rfl

@[simp] theorem none_iff : Linked next none l ↔ l = [] := by
  cases l <;> simp

theorem some_iff : Linked next (some a) l ↔ ∃ l', l = a :: l' ∧ Linked next (next a) l' := by
  cases l with
  | nil => simp
  | cons b l =>
    constructor
    · rintro ⟨hb, hl⟩
      obtain rfl := Option.some.inj hb
      exact ⟨l, rfl, hl⟩
    · rintro ⟨l', hl, hl'⟩
      obtain ⟨rfl, rfl⟩ := List.cons.inj hl
      exact ⟨rfl, hl'⟩

theorem head_eq (h : Linked next p l) : p = l.head? := by
  cases l with
  | nil => exact h
  | cons a l => exact h.1

/-- A heap that agrees on the cells of the list holds the same list. -/
theorem congr (h : Linked next p l) (heq : ∀ a ∈ l, next' a = next a) : Linked next' p l := by
  induction l generalizing p with
  | nil => exact h
  | cons a l ih =>
    refine ⟨h.1, ?_⟩
    rw [heq a List.mem_cons_self]
    exact ih h.2 fun b hb => heq b (List.mem_cons_of_mem a hb)

theorem unique (h : Linked next p l) (h' : Linked next p l') : l = l' := by
  induction l generalizing p l' with
  | nil =>
    rw [nil_iff] at h
    subst h
    exact (none_iff.mp h').symm
  | cons a l ih =>
    obtain ⟨rfl, hl⟩ := h
    obtain ⟨l'', rfl, hl''⟩ := some_iff.mp h'
    rw [ih hl hl'']

/-- The cells after a cell of the list. -/
theorem rest {front back : List α} (h : Linked next p (front ++ a :: back)) :
    Linked next (next a) back := by
  induction front generalizing p with
  | nil => exact h.2
  | cons b front ih => exact ih h.2

/-- A list that ends in null visits no cell twice. -/
theorem nodup (h : Linked next p l) : l.Nodup := by
  induction l generalizing p with
  | nil => exact List.nodup_nil
  | cons a l ih =>
    refine List.nodup_cons.mpr ⟨fun ha => ?_, ih h.2⟩
    obtain ⟨front, back, hl⟩ := List.append_of_mem ha
    have hfirst : Linked next (next a) l := h.2
    have hagain : Linked next (next a) back := by
      rw [hl] at hfirst
      exact hfirst.rest
    have hlen : l.length = back.length := by rw [hfirst.unique hagain]
    rw [hl, List.length_append, List.length_cons] at hlen
    omega

theorem readList_eq (h : Linked next p l) {n : ℕ} (hn : l.length ≤ n) :
    readList next n p = some l := by
  induction l generalizing p n with
  | nil =>
    rw [nil_iff] at h
    subst h
    cases n <;> rfl
  | cons a l ih =>
    obtain ⟨rfl, hl⟩ := h
    cases n with
    | zero => simp at hn
    | succ n =>
      have htail : readList next n (next a) = some l := ih hl (by simpa using hn)
      simp [readList, htail]

variable [DecidableEq α]

/-- A write to a cell outside the list leaves the list. -/
theorem update (h : Linked next p l) (ha : a ∉ l) (q : Option α) :
    Linked (Function.update next a q) p l := by
  refine h.congr fun b hb => Function.update_of_ne ?_ _ _
  rintro rfl
  exact ha hb

/-- A cell written to point to the list stands before it. -/
theorem push (h : Linked next p l) (ha : a ∉ l) :
    Linked (Function.update next a p) (some a) (a :: l) := by
  refine ⟨rfl, ?_⟩
  rw [Function.update_self]
  exact h.update ha p

/-- Redirects the cell `b` of a list to another list. -/
theorem relink {front back : List α} (h : Linked next p (front ++ b :: back))
    (hq : Linked next q l') (hb : b ∉ l') :
    Linked (Function.update next b q) p (front ++ b :: l') := by
  have hnotMem : b ∉ front := fun hmem =>
    (List.nodup_append.mp h.nodup).2.2 b hmem b List.mem_cons_self rfl
  induction front generalizing p with
  | nil =>
    obtain ⟨rfl, -⟩ := h
    exact hq.push hb
  | cons a front ih =>
    obtain ⟨rfl, hrest⟩ := h
    rw [List.mem_cons, not_or] at hnotMem
    refine ⟨rfl, ?_⟩
    rw [Function.update_of_ne (Ne.symm hnotMem.1)]
    exact ih hrest hnotMem.2

/-- Takes the cell `a` out of a list by redirecting the cell before it. -/
theorem unlink {front back : List α} (h : Linked next p (front ++ b :: a :: back)) :
    Linked (Function.update next b (next a)) p (front ++ b :: back) := by
  have hrest : Linked next (next b) (a :: back) := h.rest
  have hnodup : (b :: a :: back).Nodup := (List.nodup_append.mp h.nodup).2.1
  refine h.relink hrest.2 fun hb => ?_
  exact (List.nodup_cons.mp hnodup).1 (List.mem_cons_of_mem a hb)

end Linked
end Squiz.Lib
