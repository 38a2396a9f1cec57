import Mathlib.Data.List.Basic
import Mathlib.Logic.Function.Basic
import Mathlib.Tactic.Common

/-! Linked lists whose cells also point to the link that points to them. -/
namespace Squiz.Lib

/-- A variable that points to a cell or is null. -/
inductive Link (α : Type*) where
  | head
  | next (cell : α)
  deriving DecidableEq

variable {α : Type*}

/-- From the link `l` on, the cells are those of the list, in order, each with a pointer back to the
link before it; the link `m` comes after them. -/
def LinkPath (link : Link α → Option α) (back : α → Option (Link α)) :
    Link α → List α → Link α → Prop
  | l, [], m => l = m
  | l, a :: as, m => link l = some a ∧ back a = some l ∧ LinkPath link back (.next a) as m

namespace LinkPath
variable {link link' : Link α → Option α} {back back' : α → Option (Link α)} {l m n : Link α}
  {a b : α} {as bs : List α}

theorem append (h : LinkPath link back l as m) (h' : LinkPath link back m bs n) :
    LinkPath link back l (as ++ bs) n := by
  induction as generalizing l with
  | nil =>
    cases h
    exact h'
  | cons a as ih => exact ⟨h.1, h.2.1, ih h.2.2⟩

theorem of_append (h : LinkPath link back l (as ++ bs) n) :
    ∃ m, LinkPath link back l as m ∧ LinkPath link back m bs n := by
  induction as generalizing l with
  | nil => exact ⟨l, rfl, h⟩
  | cons a as ih =>
    obtain ⟨hlink, hback, hrest⟩ := h
    obtain ⟨m, has, hbs⟩ := ih hrest
    exact ⟨m, ⟨hlink, hback, has⟩, hbs⟩

/-- The link at the end is the first one or belongs to a cell. -/
theorem last_eq (h : LinkPath link back l as m) : m = l ∨ ∃ b ∈ as, m = .next b := by
  induction as generalizing l with
  | nil => exact Or.inl h.symm
  | cons a as ih =>
    rcases ih h.2.2 with rfl | ⟨b, hb, rfl⟩
    · exact Or.inr ⟨a, List.mem_cons_self, rfl⟩
    · exact Or.inr ⟨b, List.mem_cons_of_mem a hb, rfl⟩

theorem next_ne_last (h : LinkPath link back .head as m) (hb : b ∉ as) : .next b ≠ m := by
  rintro rfl
  rcases h.last_eq with hlast | ⟨c, hc, hlast⟩
  · cases hlast
  · cases hlast
    exact hb hc

/-- Only the pointers back of the cells and the links that these lead to matter. -/
theorem congr (h : LinkPath link back l as m) (hback : ∀ a ∈ as, back' a = back a)
    (hlink : ∀ a ∈ as, ∀ k, link k = some a → link' k = link k) : LinkPath link' back' l as m := by
  induction as generalizing l with
  | nil => exact h
  | cons a as ih =>
    refine ⟨?_, ?_, ?_⟩
    · rw [hlink a List.mem_cons_self l h.1, h.1]
    · rw [hback a List.mem_cons_self, h.2.1]
    · exact ih h.2.2 (fun b hb => hback b (List.mem_cons_of_mem a hb))
        fun b hb => hlink b (List.mem_cons_of_mem a hb)

variable [DecidableEq α]

/-- A write to a link that points to none of the cells. -/
theorem updateLink (h : LinkPath link back l as m) {k : Link α}
    (hk : ∀ a ∈ as, link k ≠ some a) (p : Option α) :
    LinkPath (Function.update link k p) back l as m := by
  refine h.congr (fun _ _ => rfl) fun a ha k' hk' => ?_
  rw [Function.update_of_ne]
  rintro rfl
  exact hk a ha hk'

/-- A write to the pointer back of another cell. -/
theorem updateBack (h : LinkPath link back l as m) (hb : b ∉ as) (k : Option (Link α)) :
    LinkPath link (Function.update back b k) l as m := by
  refine h.congr (fun a ha => ?_) fun _ _ _ _ => rfl
  rw [Function.update_of_ne]
  rintro rfl
  exact hb ha

/-- A new cell after the last one. -/
theorem push (h : LinkPath link back l as m) (hm : link m = none) (hb : b ∉ as) :
    LinkPath (Function.update link m (some b)) (Function.update back b (some m)) l (as ++ [b])
      (.next b) := by
  have hother : ∀ a ∈ as, link m ≠ some a := by
    rintro a - hma
    rw [hm] at hma
    cases hma
  refine ((h.updateLink hother _).updateBack hb _).append ⟨?_, ?_, rfl⟩
  · rw [Function.update_self]
  · rw [Function.update_self]

/-- A cell taken out by redirecting the link before it and the pointer back of the cell after it. -/
theorem unlink (h : LinkPath link back l (as ++ a :: b :: bs) n) (hback : back a = some m)
    (hnodup : (as ++ a :: b :: bs).Nodup) :
    LinkPath (Function.update link m (some b)) (Function.update back b (some m)) l (as ++ b :: bs)
      n := by
  obtain ⟨m', has, hma, hback', -, -, hbs⟩ := h.of_append
  rw [hback] at hback'
  cases hback'
  obtain ⟨-, hnodup', hdisjoint⟩ := List.nodup_append.mp hnodup
  rw [List.nodup_cons, List.nodup_cons, List.mem_cons, not_or] at hnodup'
  have hother : ∀ c ∈ as, link m ≠ some c := by
    rintro c hc hmc
    rw [hma] at hmc
    cases hmc
    exact hdisjoint a hc a List.mem_cons_self rfl
  have hafter : ∀ c ∈ bs, link m ≠ some c := by
    rintro c hc hmc
    rw [hma] at hmc
    cases hmc
    exact hnodup'.1.2 hc
  have hb : b ∉ as := fun hmem =>
    hdisjoint b hmem b (List.mem_cons_of_mem a List.mem_cons_self) rfl
  refine ((has.updateLink hother _).updateBack hb _).append ⟨?_, ?_, ?_⟩
  · rw [Function.update_self]
  · rw [Function.update_self]
  · exact (hbs.updateLink hafter _).updateBack hnodup'.2.1 _

/-- The last cell taken out. -/
theorem unlinkLast (h : LinkPath link back l (as ++ [a]) n) (hback : back a = some m)
    (hnodup : (as ++ [a]).Nodup) :
    n = .next a ∧ LinkPath (Function.update link m none) back l as m := by
  obtain ⟨m', has, hma, hback', hlast⟩ := h.of_append
  rw [hback] at hback'
  cases hback'
  refine ⟨hlast.symm, has.updateLink ?_ _⟩
  rintro c hc hmc
  rw [hma] at hmc
  cases hmc
  exact (List.nodup_append.mp hnodup).2.2 a hc a List.mem_cons_self rfl

end LinkPath
end Squiz.Lib
