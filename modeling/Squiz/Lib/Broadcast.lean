import Mathlib.Tactic

/-! One of several callers calls each of `n` parties at most once, in order, while the other
callers take steps of their own. -/
namespace Squiz.Lib.Broadcast

variable {n : ℕ} {κ : Type*}

/-- The party after `k`, if `k` is not the last. -/
def next (k : Fin n) : Option (Fin n) := if h : k.val + 1 < n then some ⟨k.val + 1, h⟩ else none

theorem next_val {k j : Fin n} (h : next k = some j) : j.val = k.val + 1 := by
  unfold next at h
  split_ifs at h
  cases h
  rfl

/-- What follows the call of party `k` is smaller than a bound, if the next call and the end are. -/
theorem next_lt {α : Type*} {rank : α → ℕ} {call : Fin n → α} {done : α} {k : Fin n} {m : ℕ}
    (hcall : ∀ j : Fin n, j.val = k.val + 1 → rank (call j) < m) (hdone : rank done < m) :
    rank (((next k).map call).getD done) < m := by
  cases hn : next k with
  | none => exact hdone
  | some j => exact hcall j (next_val hn)

/-- The calls made to the targets that come before party `k`. -/
def before (target : Fin n → Bool) (k i : Fin n) : ℕ := if i < k then (target i).toNat else 0

/-- The calls made once every target was called. -/
def toAll (target : Fin n → Bool) (i : Fin n) : ℕ := (target i).toNat

/-- `position c` is the party that caller `c` comes to next, while it is calling. -/
structure Once (target : κ → Fin n → Bool) (position : κ → Option (Fin n)) (sender : Option κ)
    (calls : Fin n → ℕ) : Prop where
  calling : ∀ c k, position c = some k → sender = some c ∧ calls = before (target c) k
  finished : ∀ c, sender = some c → position c = none → calls = toAll (target c)
  unsent : sender = none → calls = fun _ => 0

variable {target : κ → Fin n → Bool} {position position' : κ → Option (Fin n)}
  {sender : Option κ} {calls : Fin n → ℕ} {c : κ} {k : Fin n}

theorem before_first (t : Fin n → Bool) (h : k.val = 0) : before t k = fun _ => 0 := by
  funext i
  have hik : ¬ i < k := by
    rw [Fin.lt_def]
    omega
  exact if_neg hik

/-- A call to party `k`, where it is a target, leads to the next position. -/
theorem before_call (t : Fin n → Bool) (k : Fin n) :
    Function.update (before t k) k (before t k k + (t k).toNat) =
      ((next k).map (before t)).getD (toAll t) := by
  funext i
  have hk : before t k k = 0 := if_neg (lt_irrefl k)
  unfold next
  split_ifs with h
  · change _ = before t ⟨k.val + 1, h⟩ i
    unfold before at hk ⊢
    by_cases hi : i = k
    · subst i
      have hlt : k < (⟨k.val + 1, h⟩ : Fin n) := Nat.lt_succ_self k.val
      rw [Function.update_self, hk, if_pos hlt, Nat.zero_add]
    · have hlt : i < (⟨k.val + 1, h⟩ : Fin n) ↔ i < k := by
        have hv : i.val ≠ k.val := fun hv => hi (Fin.ext hv)
        rw [Fin.lt_def, Fin.lt_def]
        change i.val < k.val + 1 ↔ _
        omega
      simp only [Function.update_of_ne hi, hlt]
  · change _ = toAll t i
    by_cases hi : i = k
    · subst i
      simp [hk, toAll]
    · have hlt : i < k := by
        have hv : i.val ≠ k.val := fun hv => hi (Fin.ext hv)
        have := i.isLt
        rw [Fin.lt_def]
        omega
      simp [Function.update_of_ne hi, before, hlt, toAll]

namespace Once

theorem initial (h : ∀ c, position c = none) : Once target position none fun _ => 0 where
  calling := by
    intro c k hc
    rw [h c] at hc
    cases hc
  finished := by
    intro c hc
    cases hc
  unsent := fun _ => rfl

theorem le_one (h : Once target position sender calls) (i : Fin n) : calls i ≤ 1 := by
  cases hs : sender with
  | none => simp [h.unsent hs]
  | some c =>
    cases hc : position c with
    | none =>
      rw [h.finished c hs hc]
      exact Bool.toNat_le _
    | some k =>
      rw [(h.calling c k hc).2]
      unfold before
      split_ifs
      · exact Bool.toNat_le _
      · exact Nat.zero_le _

/-- No caller is calling while nobody has begun. -/
theorem idle (h : Once target position none calls) (c : κ) : position c = none := by
  cases hc : position c with
  | none => rfl
  | some k =>
    obtain ⟨hs, -⟩ := h.calling c k hc
    cases hs

theorem congr (h : Once target position sender calls) (hp : ∀ d, position' d = position d) :
    Once target position' sender calls := by
  have : position' = position := funext hp
  rwa [this]

/-- Caller `c` begins, at the first party. -/
theorem enter (h : Once target position none calls) (hc : position' c = some k)
    (hk : k.val = 0) (hd : ∀ d, d ≠ c → position' d = position d) :
    Once target position' (some c) calls where
  calling := by
    intro d k' hd'
    by_cases hdc : d = c
    · subst d
      have hkk : k = k' := Option.some.inj (hc.symm.trans hd')
      subst k'
      exact ⟨rfl, by rw [h.unsent rfl, before_first _ hk]⟩
    · rw [hd d hdc, h.idle d] at hd'
      cases hd'
  finished := by
    intro d hd' hnone
    cases hd'
    rw [hc] at hnone
    cases hnone
  unsent := by
    intro hn
    cases hn

/-- Caller `c` calls party `k`, where it is a target, and goes on. -/
theorem advance (h : Once target position sender calls) (hk : position c = some k)
    (hc : position' c = next k) (hd : ∀ d, d ≠ c → position' d = position d) :
    Once target position' sender
      (Function.update calls k (calls k + (target c k).toNat)) := by
  obtain ⟨hs, hcalls⟩ := h.calling c k hk
  have hstep := before_call (target c) k
  rw [← hcalls] at hstep
  rw [hstep]
  refine ⟨?_, ?_, ?_⟩
  · intro d k' hd'
    by_cases hdc : d = c
    · subst d
      rw [hc] at hd'
      rw [hd']
      exact ⟨hs, rfl⟩
    · rw [hd d hdc] at hd'
      obtain ⟨hsd, -⟩ := h.calling d k' hd'
      exact absurd (Option.some.inj (hsd.symm.trans hs)) hdc
  · intro d hsd hnone
    have hdc : c = d := Option.some.inj (hs.symm.trans hsd)
    subst d
    rw [hc] at hnone
    rw [hnone]
    rfl
  · intro hn
    rw [hs] at hn
    cases hn

end Once
end Squiz.Lib.Broadcast
