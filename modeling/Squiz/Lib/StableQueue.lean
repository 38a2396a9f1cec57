import Squiz.Lib.Distribution
import Mathlib.Data.List.MinMax

/-! Stable priority queues: lists in the order of insertion, of which the first of the items with
the smallest key comes next. -/
namespace Squiz.Lib.StableQueue
variable {α τ : Type*} [LinearOrder τ] {key : α → τ} {q : List α} {t : τ} {x : α}

/-- The item that comes next, if its key is at most `t`. -/
def next (key : α → τ) (q : List α) (t : τ) : Option α := (q.argmin key).filter (key · ≤ t)

theorem next_eq_some : next key q t = some x ↔ q.argmin key = some x ∧ key x ≤ t := by
  unfold next
  rw [Option.filter_eq_some_iff, decide_eq_true_iff]

theorem next_mem (h : next key q t = some x) : x ∈ q := List.argmin_mem (next_eq_some.mp h).1

theorem next_le (h : next key q t = some x) : key x ≤ t := (next_eq_some.mp h).2

theorem next_min (h : next key q t = some x) {y : α} (hy : y ∈ q) : key x ≤ key y :=
  List.le_of_mem_argmin hy (next_eq_some.mp h).1

/-- The first of the items with the smallest key comes next. -/
theorem argmin_eq_of_filter {k : τ} {rest : List α} (hmin : ∀ y ∈ q, k ≤ key y)
    (hfilter : q.filter (key · = k) = x :: rest) : q.argmin key = some x := by
  induction q with
  | nil => cases hfilter
  | cons y q ih =>
    have hmin' : ∀ z ∈ q, k ≤ key z := fun z hz => hmin z (List.mem_cons_of_mem _ hz)
    rw [List.argmin_cons]
    by_cases hy : key y = k
    · rw [List.filter_cons, if_pos (by simpa using hy)] at hfilter
      cases hfilter
      cases hq : q.argmin key with
      | none => rfl
      | some z =>
        have hz : k ≤ key z := hmin' z (List.argmin_mem hq)
        simp [hy, hz]
    · rw [List.filter_cons, if_neg (by simpa using hy)] at hfilter
      rw [ih hmin' hfilter]
      have hx : key x = k := by
        have hmem : x ∈ q.filter (key · = k) := by simp [hfilter]
        simpa using (List.mem_filter.mp hmem).2
      have hlt : key x < key y := by
        rw [hx]
        exact lt_of_le_of_ne (hmin y List.mem_cons_self) (Ne.symm hy)
      simp [hlt]

theorem next_of_filter {k : τ} {rest : List α} (hmin : ∀ y ∈ q, k ≤ key y)
    (hfilter : q.filter (key · = k) = x :: rest) (hkt : k ≤ t) : next key q t = some x := by
  have hmem : x ∈ q.filter (key · = k) := by simp [hfilter]
  have hx : key x = k := by simpa using (List.mem_filter.mp hmem).2
  exact next_eq_some.mpr ⟨argmin_eq_of_filter hmin hfilter, by rwa [hx]⟩

theorem next_eq_none (h : ∀ y ∈ q, t < key y) : next key q t = none := by
  cases hnext : next key q t with
  | none => rfl
  | some y => exact absurd (next_le hnext) (not_le_of_gt (h y (next_mem hnext)))

theorem lt_of_next_eq_none (h : next key q t = none) {y : α} (hy : y ∈ q) : t < key y := by
  unfold next at h
  cases hq : q.argmin key with
  | none =>
    rw [List.argmin_eq_none] at hq
    rw [hq] at hy
    cases hy
  | some x =>
    rw [hq, Option.filter_eq_none_iff] at h
    have hx : ¬ key x ≤ t := by simpa using h x rfl
    exact lt_of_lt_of_le (not_le.mp hx) (List.le_of_mem_argmin hy hq)

end Squiz.Lib.StableQueue
