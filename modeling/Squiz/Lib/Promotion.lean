import Mathlib.Data.Nat.Bitwise
import Mathlib.Data.BitVec

/-! Operands of an unsigned type of `w` bits, which are promoted to a type of 32 bits, to a signed
one, if they are narrower. -/
namespace Squiz.Lib.Promotion
variable {w n k i : ℕ}

/-- The width after the promotion. -/
def promotedWidth (w : ℕ) : ℕ := max w 32

def promote (x : BitVec w) : BitVec (promotedWidth w) := x.setWidth _

/-- The conversion back, which keeps the low bits of negative values too. -/
def convert (w : ℕ) (x : BitVec (promotedWidth w)) : BitVec w := x.setWidth w

/-- A shift by the width or more is undefined. -/
def shiftLeft (x : BitVec (promotedWidth w)) (n : ℕ) : Option (BitVec (promotedWidth w)) :=
  if n < promotedWidth w then some (x <<< n) else none

/-- Of a value that is not negative. -/
def shiftRight (x : BitVec (promotedWidth w)) (n : ℕ) : Option (BitVec (promotedWidth w)) :=
  if n < promotedWidth w then some (x >>> n) else none

theorem le_promotedWidth : w ≤ promotedWidth w := Nat.le_max_left _ _

theorem getLsbD_promote {x : BitVec w} (hi : i < w) : (promote x).getLsbD i = x.getLsbD i := by
  have hle : w ≤ promotedWidth w := le_promotedWidth
  unfold promote
  rw [BitVec.getLsbD_setWidth, decide_eq_true (by omega), Bool.true_and]

theorem getLsbD_convert {x : BitVec (promotedWidth w)} (hi : i < w) :
    (convert w x).getLsbD i = x.getLsbD i := by
  unfold convert
  rw [BitVec.getLsbD_setWidth, decide_eq_true hi, Bool.true_and]

@[simp] theorem toNat_promote (x : BitVec w) : (promote x).toNat = x.toNat :=
  BitVec.toNat_setWidth_of_le le_promotedWidth

theorem toNat_convert (x : BitVec (promotedWidth w)) : (convert w x).toNat = x.toNat % 2 ^ w :=
  BitVec.toNat_setWidth _ _

@[simp] theorem convert_promote (x : BitVec w) : convert w (promote x) = x := by
  apply BitVec.eq_of_toNat_eq
  rw [toNat_convert, toNat_promote, Nat.mod_eq_of_lt x.isLt]

/-- The complement is the one of the narrow type once it is converted back. -/
theorem convert_not_promote (x : BitVec w) : convert w (~~~promote x) = ~~~x := by
  apply BitVec.eq_of_getLsbD_eq
  intro i hi
  have hle : w ≤ promotedWidth w := le_promotedWidth
  rw [getLsbD_convert hi, BitVec.getLsbD_not, BitVec.getLsbD_not, getLsbD_promote hi,
    decide_eq_true hi, decide_eq_true (by omega)]

theorem shiftLeft_eq {x : BitVec (promotedWidth w)} (hn : n < w) : shiftLeft x n = some (x <<< n) :=
  if_pos (Nat.lt_of_lt_of_le hn le_promotedWidth)

theorem shiftRight_eq {x : BitVec (promotedWidth w)} (hn : n < w) :
    shiftRight x n = some (x >>> n) :=
  if_pos (Nat.lt_of_lt_of_le hn le_promotedWidth)

end Squiz.Lib.Promotion
