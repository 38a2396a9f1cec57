import Mathlib.Data.Nat.Bitwise
import Mathlib.Data.Nat.Size
import Mathlib.Tactic.Common

/-! The digits of natural numbers in a base that is a power of two, and the first digit in which two
numbers differ. -/
namespace Squiz.Lib.Radix
variable (b : ℕ)

/-- The number without its last `j` digits. -/
def upper (j x : ℕ) : ℕ := x / 2 ^ (j * b)

def digit (j x : ℕ) : ℕ := upper b j x % 2 ^ b

/-- The position of the most significant digit in which the numbers differ, and 0 where none
does. -/
def level (a x : ℕ) : ℕ := (Nat.size (x ^^^ a) - 1) / b

/-- The level and the digit there, as one number. -/
def slot (a x : ℕ) : ℕ := level b a x * 2 ^ b + digit b (level b a x) x

/-- The smallest number with the digit `d` at position `m` and the digits of `a` above. -/
def start (a m d : ℕ) : ℕ := upper b (m + 1) a * 2 ^ ((m + 1) * b) + d * 2 ^ (m * b)

variable {b} {a a' x y j k m d : ℕ}

@[simp] theorem upper_zero : upper b 0 x = x := by simp [upper]

theorem two_pow_succ_mul : 2 ^ ((j + 1) * b) = 2 ^ (j * b) * 2 ^ b := by
  rw [Nat.add_one_mul, Nat.pow_add]

theorem upper_succ : upper b (j + 1) x = upper b j x / 2 ^ b := by
  unfold upper
  rw [two_pow_succ_mul, Nat.div_div_eq_div_mul]

theorem upper_eq : upper b j x = upper b (j + 1) x * 2 ^ b + digit b j x := by
  rw [upper_succ, digit, Nat.mul_comm, Nat.div_add_mod]

theorem digit_lt : digit b j x < 2 ^ b := Nat.mod_lt _ (Nat.two_pow_pos b)

theorem upper_mono (h : x ≤ y) : upper b j x ≤ upper b j y := Nat.div_le_div_right h

theorem upper_of_le (hjk : j ≤ k) (h : upper b j x = upper b j y) : upper b k x = upper b k y := by
  induction hjk with
  | refl => exact h
  | step _ ih => rw [upper_succ, upper_succ, ih]

theorem upper_between (hax : a ≤ x) (hxy : x ≤ y) (h : upper b j y = upper b j a) :
    upper b j x = upper b j a := by
  have hlo : upper b j a ≤ upper b j x := upper_mono hax
  have hhi : upper b j x ≤ upper b j y := upper_mono hxy
  omega

theorem upper_eq_iff : upper b j x = upper b j y ↔
    upper b (j + 1) x = upper b (j + 1) y ∧ digit b j x = digit b j y := by
  constructor
  · intro h
    exact ⟨upper_of_le (Nat.le_succ j) h, by rw [digit, digit, h]⟩
  · rintro ⟨hupper, hdigit⟩
    rw [upper_eq, hupper, hdigit, ← upper_eq]

theorem of_upper_eq {u : ℕ} (hd : d < 2 ^ b) (h : upper b j x = u * 2 ^ b + d) :
    upper b (j + 1) x = u ∧ digit b j x = d := by
  constructor
  · rw [upper_succ, h, Nat.mul_comm, Nat.mul_add_div (Nat.two_pow_pos b), Nat.div_eq_of_lt hd,
      Nat.add_zero]
  · rw [digit, h, Nat.mul_comm, Nat.mul_add_mod, Nat.mod_eq_of_lt hd]

theorem xor_lt_iff (n : ℕ) : x ^^^ a < 2 ^ n ↔ x / 2 ^ n = a / 2 ^ n := by
  rw [← Nat.div_eq_zero_iff_lt (Nat.two_pow_pos n), Nat.xor_div_two_pow, Nat.xor_eq_zero_iff]

/-- The numbers do not differ above the level. -/
theorem level_le_iff (hb : 0 < b) : level b a x ≤ j ↔ upper b (j + 1) x = upper b (j + 1) a := by
  have hpos : 0 < (j + 1) * b := Nat.mul_pos (Nat.succ_pos j) hb
  rw [upper, upper, ← xor_lt_iff, ← Nat.size_le, level, ← Nat.lt_add_one_iff,
    Nat.div_lt_iff_lt_mul hb]
  omega

theorem upper_level (hb : 0 < b) : upper b (level b a x + 1) x = upper b (level b a x + 1) a :=
  (level_le_iff hb).mp (Nat.le_refl _)

theorem level_eq_iff (hb : 0 < b) : level b a x = j ↔
    upper b (j + 1) x = upper b (j + 1) a ∧ (j = 0 ∨ upper b j x ≠ upper b j a) := by
  rw [← level_le_iff hb]
  cases j with
  | zero => simp
  | succ j =>
    have hle : level b a x ≤ j ↔ upper b (j + 1) x = upper b (j + 1) a := level_le_iff hb
    rw [ne_eq, ← hle]
    omega

theorem level_eq (hb : 0 < b) (hupper : upper b (j + 1) x = upper b (j + 1) a)
    (hdigit : j = 0 ∨ digit b j x ≠ digit b j a) : level b a x = j := by
  refine (level_eq_iff hb).mpr ⟨hupper, hdigit.imp_right fun hne h => hne ?_⟩
  rw [digit, digit, h]

theorem digit_ne (hb : 0 < b) (hpos : 0 < level b a x) :
    digit b (level b a x) x ≠ digit b (level b a x) a := by
  intro h
  have hupper : upper b (level b a x) x = upper b (level b a x) a :=
    upper_eq_iff.mpr ⟨upper_level hb, h⟩
  rcases ((level_eq_iff hb).mp rfl).2 with hzero | hne
  · exact absurd hzero (Nat.ne_of_gt hpos)
  · exact hne hupper

/-- The level of `x` does not depend on the digits of the base from there on downwards. -/
theorem level_congr (hb : 0 < b) (h : upper b (level b a x) a' = upper b (level b a x) a) :
    level b a' x = level b a x := by
  have habove : upper b (level b a x + 1) a' = upper b (level b a x + 1) a :=
    upper_of_le (Nat.le_succ _) h
  refine (level_eq_iff hb).mpr ⟨(upper_level hb).trans habove.symm, ?_⟩
  rw [h]
  exact ((level_eq_iff hb).mp rfl).2

theorem slot_div : slot b a x / 2 ^ b = level b a x := by
  rw [slot, Nat.mul_comm, Nat.mul_add_div (Nat.two_pow_pos b), Nat.div_eq_of_lt digit_lt,
    Nat.add_zero]

theorem slot_mod : slot b a x % 2 ^ b = digit b (level b a x) x := by
  rw [slot, Nat.mul_comm, Nat.mul_add_mod, Nat.mod_eq_of_lt digit_lt]

theorem slot_eq (h : level b a x = j) : slot b a x = j * 2 ^ b + digit b j x := by rw [slot, h]

theorem level_mono (hb : 0 < b) (hax : a ≤ x) (hxy : x ≤ y) : level b a x ≤ level b a y :=
  (level_le_iff hb).mpr (upper_between hax hxy (upper_level hb))

/-- Numbers from the base on are ordered by their slots. -/
theorem slot_mono (hb : 0 < b) (hax : a ≤ x) (hxy : x ≤ y) : slot b a x ≤ slot b a y := by
  rcases Nat.lt_or_eq_of_le (level_mono hb hax hxy) with hlt | heq
  · have hdigit : digit b (level b a x) x < 2 ^ b := digit_lt
    have hmul : (level b a x + 1) * 2 ^ b ≤ level b a y * 2 ^ b := Nat.mul_le_mul_right _ hlt
    rw [Nat.add_one_mul] at hmul
    unfold slot
    omega
  · have habove : upper b (level b a y + 1) x = upper b (level b a y + 1) y := by
      rw [upper_level hb, ← heq, upper_level hb]
    have hle : upper b (level b a y) x ≤ upper b (level b a y) y := upper_mono hxy
    rw [upper_eq (x := x), upper_eq (x := y), habove] at hle
    rw [slot_eq heq, slot]
    omega

theorem digit_lt_digit (hb : 0 < b) (hax : a ≤ x) (hpos : 0 < level b a x) :
    digit b (level b a x) a < digit b (level b a x) x := by
  have hne : digit b (level b a x) x ≠ digit b (level b a x) a := digit_ne hb hpos
  have hle : upper b (level b a x) a ≤ upper b (level b a x) x := upper_mono hax
  rw [upper_eq (x := a), upper_eq (x := x), upper_level hb] at hle
  omega

theorem start_eq_mul : start b a m d = (upper b (m + 1) a * 2 ^ b + d) * 2 ^ (m * b) := by
  rw [start, two_pow_succ_mul, Nat.add_mul, Nat.mul_assoc, Nat.mul_comm (2 ^ b)]

theorem start_eq (hupper : upper b (m + 1) x = upper b (m + 1) a) (hdigit : digit b m x = d) :
    start b a m d = upper b m x * 2 ^ (m * b) := by
  rw [upper_eq, hupper, hdigit, start_eq_mul]

theorem start_le (hupper : upper b (m + 1) x = upper b (m + 1) a) (hdigit : digit b m x = d) :
    start b a m d ≤ x := by
  rw [start_eq hupper hdigit]
  exact Nat.div_mul_le_self _ _

theorem lt_start_add (hupper : upper b (m + 1) x = upper b (m + 1) a) (hdigit : digit b m x = d) :
    x < start b a m d + 2 ^ (m * b) := by
  rw [start_eq hupper hdigit]
  exact Nat.lt_div_mul_add (Nat.two_pow_pos _)

theorem upper_start : upper b m (start b a m d) = upper b (m + 1) a * 2 ^ b + d := by
  rw [start_eq_mul, upper, Nat.mul_div_cancel _ (Nat.two_pow_pos _)]

theorem upper_succ_start (hd : d < 2 ^ b) :
    upper b (m + 1) (start b a m d) = upper b (m + 1) a := (of_upper_eq hd upper_start).1

theorem digit_start (hd : d < 2 ^ b) : digit b m (start b a m d) = d :=
  (of_upper_eq hd upper_start).2

theorem digit_start_of_lt (hj : j < m) : digit b j (start b a m d) = 0 := by
  obtain ⟨k, rfl⟩ := Nat.exists_eq_add_of_lt hj
  have hpow : 2 ^ ((j + k + 1) * b) = 2 ^ (k * b) * 2 ^ b * 2 ^ (j * b) := by
    have hexp : (j + k + 1) * b = k * b + b + j * b := by
      rw [Nat.add_one_mul, Nat.add_mul]
      omega
    rw [hexp, Nat.pow_add, Nat.pow_add]
  rw [digit, upper, start_eq_mul, hpow, ← Nat.mul_assoc, Nat.mul_div_cancel _ (Nat.two_pow_pos _),
    ← Nat.mul_assoc, Nat.mul_mod_left]

theorem start_mono (hdk : d ≤ k) : start b a m d ≤ start b a m k := by
  rw [start_eq_mul, start_eq_mul]
  exact Nat.mul_le_mul_right _ (Nat.add_le_add_left hdk _)

/-- A number of a later slot is not before the start of an earlier one, and its slot stays the same
when this becomes the base. -/
theorem slot_start (hb : 0 < b) (hax : a ≤ x) (hd : d < 2 ^ b) (h : m * 2 ^ b + d < slot b a x) :
    start b a m d ≤ x ∧ slot b (start b a m d) x = slot b a x := by
  have hbase : upper b (m + 1) (start b a m d) = upper b (m + 1) a := upper_succ_start hd
  have hle : m ≤ level b a x := by
    have hdiv := Nat.div_le_div_right (c := 2 ^ b) (Nat.le_of_lt h)
    rwa [slot_div, Nat.mul_comm, Nat.mul_add_div (Nat.two_pow_pos b), Nat.div_eq_of_lt hd,
      Nat.add_zero] at hdiv
  rcases Nat.eq_or_lt_of_le hle with heq | hlt
  · have hupper : upper b (m + 1) x = upper b (m + 1) a := by
      rw [heq]
      exact upper_level hb
    rw [slot_eq heq.symm, Nat.add_lt_add_iff_left] at h
    constructor
    · exact Nat.le_trans (start_mono (Nat.le_of_lt h)) (start_le hupper rfl)
    · have hdigit : digit b m x ≠ digit b m (start b a m d) := by
        rw [digit_start hd]
        omega
      rw [slot_eq (level_eq hb (hupper.trans hbase.symm) (Or.inr hdigit)), slot_eq heq.symm]
  · constructor
    · by_contra hgt
      have hxs : upper b (m + 1) x ≤ upper b (m + 1) (start b a m d) :=
        upper_mono (Nat.le_of_not_le hgt)
      have hxa : upper b (m + 1) a ≤ upper b (m + 1) x := upper_mono hax
      have heq : upper b (m + 1) x = upper b (m + 1) a := by omega
      have hlevel : level b a x ≤ m := (level_le_iff hb).mpr heq
      omega
    · have habove : upper b (level b a x) (start b a m d) = upper b (level b a x) a :=
        upper_of_le hlt hbase
      rw [slot, slot, level_congr hb habove]

theorem le_level (hb : 0 < b) (hj : 0 < j) (h : upper b j x ≠ upper b j a) : j ≤ level b a x := by
  by_contra hlt
  obtain ⟨k, rfl⟩ := Nat.exists_eq_add_of_lt hj
  rw [Nat.zero_add] at h hlt
  exact h ((level_le_iff hb).mp (by omega))

/-- The digits above those in which two numbers differ. -/
theorem upper_succ_eq_of_size (hb : 0 < b) :
    upper b (Nat.size (a' ^^^ a) / b + 1) a' = upper b (Nat.size (a' ^^^ a) / b + 1) a := by
  rw [upper, upper, ← xor_lt_iff, ← Nat.size_le, Nat.mul_comm]
  exact Nat.le_of_lt (Nat.lt_mul_div_succ _ hb)

/-- A number that differs from a base in the digits from a position on, where a smaller base does
not differ from it above, has the same slot for both, after the one of the base. -/
theorem slot_of_smaller (hb : 0 < b) (haa : a' ≤ a) (hax : a ≤ x) (hj : 0 < j)
    (hbase : upper b (j + 1) a' = upper b (j + 1) a) (h : upper b j x ≠ upper b j a) :
    slot b a' x = slot b a x ∧ j * 2 ^ b + digit b j a < slot b a x := by
  have hdigit : digit b j a < 2 ^ b := digit_lt
  rcases Nat.eq_or_lt_of_le (le_level hb hj h) with heq | hlt
  · have hupper : upper b (j + 1) x = upper b (j + 1) a := by
      rw [heq]
      exact upper_level hb
    have hxa : digit b j a < digit b j x := by
      rw [heq]
      exact digit_lt_digit hb hax (by omega)
    have haa' : digit b j a' ≤ digit b j a := by
      have hle : upper b j a' ≤ upper b j a := upper_mono haa
      rw [upper_eq (x := a'), upper_eq (x := a), hbase] at hle
      omega
    have hlevel : level b a' x = j := by
      apply level_eq hb (hupper.trans hbase.symm)
      omega
    rw [slot_eq hlevel, slot_eq heq.symm]
    omega
  · have habove : upper b (level b a x) a' = upper b (level b a x) a := upper_of_le hlt hbase
    have hmul : (j + 1) * 2 ^ b ≤ level b a x * 2 ^ b := Nat.mul_le_mul_right _ hlt
    rw [Nat.add_one_mul] at hmul
    rw [slot, level_congr hb habove, slot]
    omega

end Squiz.Lib.Radix
