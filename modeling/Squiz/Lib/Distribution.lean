import Mathlib.Data.List.Basic
import Mathlib.Logic.Function.Basic
import Mathlib.Tactic.Common

/-! Lists that are distributed over bins by a key, with the order kept among equal keys. -/
namespace Squiz.Lib
variable {α κ ι : Type*} [DecidableEq κ] [DecidableEq ι]

/-- Bin `loc k` holds the items of the list with key `k`, in the order of the list. -/
def Distributes (key : α → κ) (loc : κ → ι) (bins : ι → List α) (q : List α) : Prop :=
  ∀ i k, (bins i).filter (key · = k) = if loc k = i then q.filter (key · = k) else []

namespace Distributes
variable {key : α → κ} {loc loc' : κ → ι} {bins : ι → List α} {q : List α} {i : ι} {x : α}

theorem nil : Distributes key loc (fun _ => []) [] := by
  intro i k
  split <;> rfl

theorem mem_iff (h : Distributes key loc bins q) : x ∈ bins i ↔ x ∈ q ∧ loc (key x) = i := by
  have hfilter : x ∈ (bins i).filter (key · = key x) ↔ x ∈ bins i := by simp
  rw [← hfilter, h i (key x)]
  split
  · next hloc => simp [hloc]
  · next hloc => simp [hloc]

/-- Only where the bins of the keys in the list are matters. -/
theorem congr (h : Distributes key loc bins q) (hloc : ∀ x ∈ q, loc' (key x) = loc (key x)) :
    Distributes key loc' bins q := by
  intro i k
  rw [h i k]
  by_cases hk : ∃ x ∈ q, key x = k
  · obtain ⟨x, hx, rfl⟩ := hk
    rw [hloc x hx]
  · have hnil : q.filter (key · = k) = [] := by
      rw [List.filter_eq_nil_iff]
      intro x hx
      simpa using fun hkey => hk ⟨x, hx, hkey⟩
    simp [hnil]

theorem add (h : Distributes key loc bins q) (x : α) :
    Distributes key loc (Function.update bins (loc (key x)) (bins (loc (key x)) ++ [x]))
      (q ++ [x]) := by
  intro i k
  rw [List.filter_append]
  by_cases hi : i = loc (key x)
  · subst hi
    rw [Function.update_self, List.filter_append, h]
    by_cases hk : key x = k
    · subst hk
      simp
    · simp [hk]
  · rw [Function.update_of_ne hi, h]
    by_cases hk : key x = k
    · subst hk
      simp [Ne.symm hi]
    · simp [hk]

theorem erase [DecidableEq α] (h : Distributes key loc bins q) (x : α) :
    Distributes key loc (Function.update bins (loc (key x)) ((bins (loc (key x))).erase x))
      (q.erase x) := by
  intro i k
  rw [← List.erase_filter]
  by_cases hi : i = loc (key x)
  · subst hi
    rw [Function.update_self, ← List.erase_filter, h]
    split
    · rfl
    · rw [List.erase_nil]
  · rw [Function.update_of_ne hi, h]
    split
    · next hloc =>
      -- the item has another key
      rw [List.erase_of_not_mem]
      simp only [List.mem_filter, decide_eq_true_eq, not_and]
      rintro _ rfl
      exact hi hloc.symm
    · rfl

/-- The items of one bin are moved to the ends of others. -/
theorem split (h : Distributes key loc bins q) (source : ι)
    (hkeep : ∀ k, loc k ≠ source → loc' k = loc k)
    (hmove : ∀ k, loc k = source → loc' k ≠ source) :
    Distributes key loc' (fun i =>
      if i = source then [] else bins i ++ (bins source).filter fun x => loc' (key x) = i) q := by
  intro i k
  have hmoved : ((bins source).filter fun x => loc' (key x) = i).filter (key · = k) =
      if loc' k = i then if loc k = source then q.filter (key · = k) else [] else [] := by
    rw [List.filter_comm, h source k]
    split
    · rw [List.filter_filter]
      split
      · next hi =>
        apply List.filter_congr
        intro x _
        by_cases hx : key x = k
        · simp [hx, hi]
        · simp [hx]
      · next hi =>
        rw [List.filter_eq_nil_iff]
        intro x _ hx
        simp only [Bool.and_eq_true, decide_eq_true_eq] at hx
        exact hi (by rw [← hx.2]; exact hx.1)
    · simp
  by_cases hsource : loc k = source
  · have hne : loc' k ≠ source := hmove k hsource
    dsimp only
    split
    · next hi =>
      subst hi
      simp [hne]
    · next hi =>
      rw [List.filter_append, h i k, hmoved, hsource, if_neg (Ne.symm hi), if_pos rfl,
        List.nil_append]
  · rw [hkeep k hsource]
    rw [hkeep k hsource] at hmoved
    dsimp only
    split
    · next hi =>
      subst hi
      simp [hsource]
    · rw [List.filter_append, h i k, hmoved, if_neg hsource]
      simp

/-- A bin of one key holds the items of the list with this key. -/
theorem bin_eq {k : κ} (h : Distributes key loc bins q) (hbin : ∀ x ∈ bins (loc k), key x = k) :
    bins (loc k) = q.filter (key · = k) := by
  have hfilter := h (loc k) k
  rw [if_pos rfl] at hfilter
  rw [← hfilter, List.filter_eq_self.mpr]
  simpa using hbin

/-- The bins that hold each item where it belongs, one after the other. -/
theorem flatMap_range {loc : κ → ℕ} {bins : ℕ → List α} {n : ℕ}
    (h : ∀ i x, x ∈ bins i → loc (key x) = i ∧ i < n) :
    Distributes key loc bins ((List.range n).flatMap bins) := by
  have hfilter : ∀ i k, loc k ≠ i → (bins i).filter (key · = k) = [] := by
    intro i k hne
    rw [List.filter_eq_nil_iff]
    intro x hx
    simp only [decide_eq_true_eq]
    rintro rfl
    exact hne (h i x hx).1
  have hprefix : ∀ m k, ((List.range m).flatMap bins).filter (key · = k) =
      if loc k < m then (bins (loc k)).filter (key · = k) else [] := by
    intro m k
    induction m with
    | zero => rfl
    | succ m ih =>
      rw [List.range_succ, List.flatMap_append, List.filter_append, ih, List.flatMap_singleton]
      by_cases hlt : loc k < m
      · rw [if_pos hlt, if_pos (Nat.lt_succ_of_lt hlt), hfilter m k (Nat.ne_of_lt hlt),
          List.append_nil]
      · rw [if_neg hlt, List.nil_append]
        by_cases heq : loc k = m
        · rw [heq, if_pos (Nat.lt_succ_self m)]
        · rw [hfilter m k heq, if_neg (by omega)]
  intro i k
  by_cases hi : loc k = i
  · subst hi
    rw [if_pos rfl, hprefix]
    by_cases hlt : loc k < n
    · rw [if_pos hlt]
    · rw [if_neg hlt, List.filter_eq_nil_iff]
      intro x hx
      exact absurd (h _ x hx).2 hlt
  · rw [if_neg hi, hfilter i k hi]

end Distributes

/-- The lists hold the same items, in the same order among those with equal keys. -/
def SameOrder (key : α → κ) (l l' : List α) : Prop :=
  ∀ k, l.filter (key · = k) = l'.filter (key · = k)

namespace SameOrder
variable {key : α → κ} {l l' : List α}

theorem mem_iff (h : SameOrder key l l') {x : α} : x ∈ l ↔ x ∈ l' := by
  have hx : x ∈ l.filter (key · = key x) ↔ x ∈ l'.filter (key · = key x) := by rw [h (key x)]
  simpa using hx

theorem perm [DecidableEq α] (h : SameOrder key l l') : l.Perm l' := by
  rw [List.perm_iff_count]
  intro x
  have hcount : ∀ m : List α, (m.filter (key · = key x)).count x = m.count x := fun m =>
    List.count_filter (by simp)
  rw [← hcount l, ← hcount l', h (key x)]

end SameOrder

theorem Distributes.sameOrder {key : α → κ} {loc : κ → ι} {bins : ι → List α} {q q' : List α}
    (h : Distributes key loc bins q) (h' : Distributes key loc bins q') : SameOrder key q q' := by
  intro k
  have hq := h (loc k) k
  have hq' := h' (loc k) k
  rw [if_pos rfl] at hq hq'
  rw [← hq, hq']

end Squiz.Lib
