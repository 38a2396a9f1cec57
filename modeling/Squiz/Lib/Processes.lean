import Mathlib.Tactic
import Mathlib.Data.Fintype.Card
import Mathlib.Algebra.Order.BigOperators.Group.Finset

/-! Counting the processes whose local state has a property, and how one process's step
changes the count. -/
namespace Squiz.Lib.Processes

variable {ι α : Type*} [Fintype ι]

/-- How many processes are in a state with `p`. -/
def count (p : α → Bool) (f : ι → α) : ℕ := (Finset.univ.filter fun i => p (f i)).card

variable {p : α → Bool} {f : ι → α} {i : ι} {v : α}

theorem count_congr {g : ι → α} (h : ∀ j, p (f j) = p (g j)) : count p f = count p g := by
  simp only [count, h]

theorem count_eq_zero : count p f = 0 ↔ ∀ j, p (f j) = false := by
  simp [count, Finset.filter_eq_empty_iff]

theorem count_pos (hi : p (f i) = true) : 1 ≤ count p f :=
  Finset.card_pos.mpr ⟨i, by simp [hi]⟩

theorem count_le_card : count p f ≤ Fintype.card ι := Finset.card_le_univ _

/-- A property that implies another one holds of no more processes. -/
theorem count_le_count {q : α → Bool} (h : ∀ v, p v = true → q v = true) :
    count p f ≤ count q f := by
  apply Finset.card_le_card
  intro j hj
  rw [Finset.mem_filter] at hj ⊢
  exact ⟨hj.1, h _ hj.2⟩

@[simp] theorem count_const_true (h : p v = true) :
    count p (fun _ : ι => v) = Fintype.card ι := by
  simp [count, h]

/-- If the count is one, the process known to be in `p` is the only one. -/
theorem eq_of_count_le_one (h : count p f ≤ 1) (hi : p (f i) = true) {j : ι}
    (hj : p (f j) = true) : j = i :=
  Finset.card_le_one.mp h j (by simp [hj]) i (by simp [hi])

theorem others_of_count_le_one (h : count p f ≤ 1) (hi : p (f i) = true) {j : ι} (hj : j ≠ i) :
    p (f j) = false := by
  by_contra hne
  exact hj (eq_of_count_le_one h hi (by simpa using hne))

theorem count_eq_one_iff (hi : p (f i) = true) : count p f = 1 ↔ ∀ j, j ≠ i → p (f j) = false := by
  constructor
  · intro h j hj
    exact others_of_count_le_one h.le hi hj
  · intro h
    refine Finset.card_eq_one.mpr ⟨i, ?_⟩
    ext j
    by_cases hj : j = i
    · subst j
      simp [hi]
    · simp [hj, h j hj]

section Update
variable [DecidableEq ι]

theorem count_update_same (h : p v = p (f i)) : count p (Function.update f i v) = count p f := by
  refine count_congr fun j => ?_
  by_cases hj : j = i
  · subst j
    rw [Function.update_self, h]
  · rw [Function.update_of_ne hj]

/-- A process that leaves `p` lowers the count by one. -/
theorem count_update_leave (hi : p (f i) = true) (hv : p v = false) :
    count p (Function.update f i v) + 1 = count p f := by
  have hset : (Finset.univ.filter fun j => p (Function.update f i v j) = true) =
      (Finset.univ.filter fun j => p (f j) = true).erase i := by
    ext j
    by_cases hj : j = i
    · subst j
      simp [hv]
    · simp [hj]
  have hmem : i ∈ Finset.univ.filter fun j => p (f j) = true := by simp [hi]
  unfold count
  rw [hset]
  exact Finset.card_erase_add_one hmem

/-- A process that enters `p` raises the count by one. -/
theorem count_update_enter (hi : p (f i) = false) (hv : p v = true) :
    count p (Function.update f i v) = count p f + 1 := by
  have h := count_update_leave (f := Function.update f i v) (i := i) (v := f i) (by simpa) hi
  simp only [Function.update_idem, Function.update_eq_self] at h
  exact h.symm

/-- A process that moves to a state of no higher rank does not raise the sum of the ranks. -/
theorem sum_update_le {r : α → ℕ} (h : r v ≤ r (f i)) :
    ∑ j, r (Function.update f i v j) ≤ ∑ j, r (f j) := by
  refine Finset.sum_le_sum fun j _ => ?_
  by_cases hj : j = i
  · subst j
    rwa [Function.update_self]
  · rw [Function.update_of_ne hj]

theorem sum_update_lt {r : α → ℕ} (h : r v < r (f i)) :
    ∑ j, r (Function.update f i v j) < ∑ j, r (f j) := by
  refine Finset.sum_lt_sum (fun j _ => ?_) ⟨i, Finset.mem_univ i, ?_⟩
  · by_cases hj : j = i
    · subst j
      rw [Function.update_self]
      exact h.le
    · rw [Function.update_of_ne hj]
  · rwa [Function.update_self]

end Update
end Squiz.Lib.Processes
