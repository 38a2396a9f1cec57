import Mathlib.Data.List.Range
import Mathlib.Data.Nat.ModEq
import Mathlib.Logic.Function.Basic
import Mathlib.Tactic.Common

/-! Rings addressed by free-running positions: the window of positions in use, its contents, and
positions that are kept as machine words. -/
namespace Squiz.Lib.Ring

/-! Positions as words. -/

section Words
variable {w a b k : ℕ}

/-- The distance of two positions less than a whole turn of the word apart. -/
theorem toNat_ofNat_sub (hle : b ≤ a) (hlt : a < b + 2 ^ w) :
    (BitVec.ofNat w a - BitVec.ofNat w b).toNat = a - b := by
  obtain ⟨d, rfl⟩ : ∃ d, a = b + d := ⟨a - b, by omega⟩
  have hd : d < 2 ^ w := by omega
  rw [BitVec.ofNat_add, BitVec.add_comm, BitVec.add_sub_cancel, BitVec.toNat_ofNat,
    Nat.mod_eq_of_lt hd, Nat.add_sub_cancel_left]

theorem ofNat_eq_iff (hle : b ≤ a) (hlt : a < b + 2 ^ w) :
    BitVec.ofNat w a = BitVec.ofNat w b ↔ a = b := by
  constructor
  · intro h
    have hsub := toNat_ofNat_sub hle hlt
    rw [h, BitVec.sub_self, BitVec.toNat_ofNat, Nat.zero_mod] at hsub
    omega
  · rintro rfl
    rfl

theorem ofNat_succ : BitVec.ofNat w a + 1 = BitVec.ofNat w (a + 1) := by
  rw [BitVec.ofNat_add]
  rfl

/-- The slot of a position does not see its reduction to a word. -/
theorem toNat_mod_two_pow (hk : k ≤ w) : (BitVec.ofNat w a).toNat % 2 ^ k = a % 2 ^ k := by
  rw [BitVec.toNat_ofNat, Nat.mod_mod_of_dvd _ (Nat.pow_dvd_pow 2 hk)]

theorem toNat_and_mask (hk : k ≤ w) :
    (BitVec.ofNat w a &&& BitVec.ofNat w (2 ^ k - 1)).toNat = a % 2 ^ k := by
  have hpow : 2 ^ k ≤ 2 ^ w := Nat.pow_le_pow_right (by decide) hk
  have hpos : 0 < 2 ^ k := Nat.two_pow_pos k
  rw [BitVec.toNat_and, BitVec.toNat_ofNat (2 ^ k - 1) w, Nat.mod_eq_of_lt (by omega),
    Nat.and_two_pow_sub_one_eq_mod, toNat_mod_two_pow hk]

end Words

/-! The contents of a window. -/

variable {α : Type*} {n lo hi p : ℕ} {slots slots' : ℕ → α}

/-- Two positions of one window have different slots. -/
theorem mod_ne_mod {i j : ℕ} (hij : i < j) (hj : j < i + n) : i % n ≠ j % n := by
  intro h
  have hdvd : n ∣ j - i := (Nat.modEq_iff_dvd' hij.le).mp h
  have hle : n ≤ j - i := Nat.le_of_dvd (by omega) hdvd
  omega

/-- What the slots of the positions from `lo` to before `hi` hold, in order. -/
def contents (n : ℕ) (slots : ℕ → α) (lo hi : ℕ) : List α :=
  (List.range' lo (hi - lo)).map fun p => slots (p % n)

@[simp] theorem length_contents : (contents n slots lo hi).length = hi - lo := by
  simp [contents]

@[simp] theorem contents_self : contents n slots lo lo = [] := by
  simp [contents]

theorem contents_cons (h : lo < hi) :
    contents n slots lo hi = slots (lo % n) :: contents n slots (lo + 1) hi := by
  obtain ⟨d, rfl⟩ : ∃ d, hi = lo + (d + 1) := ⟨hi - lo - 1, by omega⟩
  have h1 : lo + (d + 1) - lo = d + 1 := by omega
  have h2 : lo + (d + 1) - (lo + 1) = d := by omega
  unfold contents
  rw [h1, h2, List.range'_succ, List.map_cons]

theorem contents_succ (h : lo ≤ hi) :
    contents n slots lo (hi + 1) = contents n slots lo hi ++ [slots (hi % n)] := by
  obtain ⟨d, rfl⟩ : ∃ d, hi = lo + d := ⟨hi - lo, by omega⟩
  have h1 : lo + d + 1 - lo = d + 1 := by omega
  have h2 : lo + d - lo = d := by omega
  unfold contents
  rw [h1, h2, List.range'_1_concat, List.map_append, List.map_singleton]

theorem contents_congr (h : ∀ p, lo ≤ p → p < hi → slots (p % n) = slots' (p % n)) :
    contents n slots lo hi = contents n slots' lo hi := by
  unfold contents
  apply List.map_congr_left
  intro p hp
  have hp' := List.mem_range'_1.mp hp
  exact h p hp'.1 (by omega)

/-- Writing the slot of the next position leaves a window with room as it was. -/
theorem contents_update (h : hi < lo + n) (x : α) :
    contents n (Function.update slots (hi % n) x) lo hi = contents n slots lo hi := by
  apply contents_congr
  intro p hlo hp
  exact Function.update_of_ne (mod_ne_mod hp (by omega)) _ _

end Squiz.Lib.Ring
