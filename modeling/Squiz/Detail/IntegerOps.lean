import Mathlib.Tactic
import Squiz.Lib.WideProduct

/-! The unsigned integer type that holds a given maximum, checked and saturating arithmetic on
`std::int64_t`, and products of `std::uint64_t`. -/
namespace Squiz.Detail
open Squiz.Lib

/-- Width of `smallest_unsigned_integer_for<max>`. -/
def smallestUnsignedIntegerFor (max : ℕ) : ℕ :=
  if max ≤ 2 ^ 8 - 1 then 8
  else if max ≤ 2 ^ 16 - 1 then 16
  else if max ≤ 2 ^ 32 - 1 then 32
  else 64

/-- Every `std::uint64_t` maximum fits in the type chosen for it. -/
theorem lt_smallestUnsignedIntegerFor {max : ℕ} (h : max < 2 ^ 64) :
    max < 2 ^ smallestUnsignedIntegerFor max := by
  unfold smallestUnsignedIntegerFor
  split_ifs <;> omega

/-! Values of `std::int64_t` are integers in its range. -/

def int64Min : ℤ := -9223372036854775808
def int64Max : ℤ := 9223372036854775807

abbrev InInt64 (x : ℤ) : Prop := int64Min ≤ x ∧ x ≤ int64Max

/-- `add_with_overflow`, where no caller uses the result of a sum that overflows. -/
def addWithOverflow (a b : ℤ) : Option ℤ := if InInt64 (a + b) then some (a + b) else none

def saturate (x : ℤ) : ℤ := if x < int64Min then int64Min else if int64Max < x then int64Max else x

/-- `std::add_sat` -/
def addSat (a b : ℤ) : ℤ := saturate (a + b)

/-- `std::sub_sat` -/
def subSat (a b : ℤ) : ℤ := saturate (a - b)

theorem saturate_mem (x : ℤ) : InInt64 (saturate x) := by
  unfold saturate InInt64 int64Min int64Max
  split_ifs <;> omega

/-- A sum saturates upwards only, when its second operand is not negative. -/
theorem addSat_eq_min {a b : ℤ} (ha : InInt64 a) (hb : 0 ≤ b) :
    addSat a b = min (a + b) int64Max := by
  have hlo := ha.1
  unfold addSat saturate
  split_ifs <;> omega

theorem subSat_le {a b : ℤ} (ha : InInt64 a) (hb : 0 ≤ b) : subSat a b ≤ a := by
  have hlo := ha.1
  have hhi := ha.2
  unfold subSat saturate
  split_ifs <;> omega

/-! Values of `std::uint64_t` are words of 64 bits. -/

/-- `add_with_overflow` for `std::uint64_t`: whether the sum overflows, and the result. -/
def uaddWithOverflow (a b : BitVec 64) : Bool × BitVec 64 := (a.uaddOverflow b, a + b)

/-- `extended_result<T>` -/
structure ExtendedResult (T : Type) where
  high : T
  low : T

/-- `mul_64_to_128` with `__int128`. -/
def mul64To128 (a b : BitVec 64) : ExtendedResult (BitVec 64) :=
  let result : BitVec 128 := a.setWidth 128 * b.setWidth 128
  { high := (result >>> 64).setWidth 64, low := result.setWidth 64 }

/-- `static_cast<std::uint64_t>` of a `bool`. -/
def castBool (b : Bool) : BitVec 64 := (BitVec.ofBool b).setWidth 64

/-- `static_cast<std::uint32_t>`, stored in a `std::uint64_t`. -/
def castUint32 (x : BitVec 64) : BitVec 64 := (x.setWidth 32).setWidth 64

/-- What the portable branch of `mul_64_to_128` computes before `result_high`. -/
structure PartialProducts where
  partHigh : BitVec 64
  partMidSum : BitVec 64
  midSumOverflow : Bool
  resultLow : BitVec 64
  lowOverflow : Bool

def partialProducts (a b : BitVec 64) : PartialProducts :=
  let aLow := castUint32 a
  let aHigh := castUint32 (a >>> 32)
  let bLow := castUint32 b
  let bHigh := castUint32 (b >>> 32)
  let partHigh := aHigh * bHigh
  let partMid1 := aHigh * bLow
  let partMid2 := aLow * bHigh
  let partLow := aLow * bLow
  let midSum := uaddWithOverflow partMid1 partMid2
  let low := uaddWithOverflow partLow (midSum.2 <<< 32)
  { partHigh := partHigh
    partMidSum := midSum.2
    midSumOverflow := midSum.1
    resultLow := low.2
    lowOverflow := low.1 }

/-- What is added to `result_high`, in order, after it was set to `part_high`. -/
def PartialProducts.addends (p : PartialProducts) : List (BitVec 64) :=
  [p.partMidSum >>> 32, castBool p.midSumOverflow <<< 32, castBool p.lowOverflow]

/-- `mul_64_to_128` without `__int128`. -/
def mul64To128Portable (a b : BitVec 64) : ExtendedResult (BitVec 64) :=
  let p := partialProducts a b
  { high := p.addends.foldl (· + ·) p.partHigh, low := p.resultLow }

theorem toNat_castUint32 (x : BitVec 64) : (castUint32 x).toNat = x.toNat % 2 ^ 32 := by
  have hlt : x.toNat % 2 ^ 32 < 2 ^ 64 := by omega
  rw [castUint32, BitVec.toNat_setWidth, BitVec.toNat_setWidth, Nat.mod_eq_of_lt hlt]

theorem toNat_castUint32_high (x : BitVec 64) :
    (castUint32 (x >>> 32)).toNat = x.toNat / 2 ^ 32 := by
  have hx : x.toNat < 2 ^ 64 := x.isLt
  rw [toNat_castUint32, BitVec.toNat_ushiftRight, Nat.shiftRight_eq_div_pow,
    Nat.mod_eq_of_lt (by omega)]

theorem toNat_castBool (b : Bool) : (castBool b).toNat = b.toNat := by
  cases b <;> rfl

theorem toNat_castBool_shiftLeft (b : Bool) : (castBool b <<< 32).toNat = b.toNat * 2 ^ 32 := by
  cases b <;> rfl

/-- Products of two halves are exact. -/
theorem toNat_mul_half {x y : BitVec 64} (hx : x.toNat < 2 ^ 32) (hy : y.toNat < 2 ^ 32) :
    (x * y).toNat = x.toNat * y.toNat := by
  have hlt : x.toNat * y.toNat < 2 ^ 32 * 2 ^ 32 := Nat.mul_lt_mul'' hx hy
  rw [BitVec.toNat_mul, Nat.mod_eq_of_lt (by omega)]

theorem half_lt (a : BitVec 64) :
    (castUint32 a).toNat < 2 ^ 32 ∧ (castUint32 (a >>> 32)).toNat < 2 ^ 32 := by
  have ha : a.toNat < 2 ^ 64 := a.isLt
  rw [toNat_castUint32, toNat_castUint32_high]
  omega

namespace PartialProducts

theorem sum_addends (p : PartialProducts) : (p.addends.map BitVec.toNat).sum =
    p.partMidSum.toNat / 2 ^ 32 + (p.midSumOverflow.toNat * 2 ^ 32 + p.lowOverflow.toNat) := by
  rw [addends, List.map_cons, List.map_cons, List.map_singleton, List.sum_cons,
    List.sum_cons, List.sum_singleton, BitVec.toNat_ushiftRight, Nat.shiftRight_eq_div_pow,
    toNat_castBool, toNat_castBool_shiftLeft]

variable (a b : BitVec 64)

theorem partHigh_eq : (partialProducts a b).partHigh.toNat =
    (castUint32 (a >>> 32)).toNat * (castUint32 (b >>> 32)).toNat :=
  toNat_mul_half (half_lt a).2 (half_lt b).2

theorem partMidSum_eq : (partialProducts a b).partMidSum.toNat +
    (partialProducts a b).midSumOverflow.toNat * 2 ^ 64 =
      (castUint32 (a >>> 32)).toNat * (castUint32 b).toNat +
        (castUint32 a).toNat * (castUint32 (b >>> 32)).toNat := by
  rw [← toNat_mul_half (half_lt a).2 (half_lt b).1, ← toNat_mul_half (half_lt a).1 (half_lt b).2]
  exact WideProduct.toNat_add_carry _ _

theorem low_eq : uaddWithOverflow (castUint32 a * castUint32 b)
    ((partialProducts a b).partMidSum <<< 32) =
      ((partialProducts a b).lowOverflow, (partialProducts a b).resultLow) := by
  simp only [partialProducts]

theorem resultLow_eq : (partialProducts a b).resultLow.toNat +
    (partialProducts a b).lowOverflow.toNat * 2 ^ 64 =
      (castUint32 a).toNat * (castUint32 b).toNat +
        (partialProducts a b).partMidSum.toNat % 2 ^ 32 * 2 ^ 32 := by
  have hshift : ((partialProducts a b).partMidSum <<< 32).toNat =
      (partialProducts a b).partMidSum.toNat % 2 ^ 32 * 2 ^ 32 := by
    rw [BitVec.toNat_shiftLeft, Nat.shiftLeft_eq]
    omega
  obtain ⟨hcarry, hsum⟩ := Prod.mk.inj (low_eq a b)
  rw [← toNat_mul_half (half_lt a).1 (half_lt b).1, ← hshift, ← hcarry, ← hsum]
  exact WideProduct.toNat_add_carry _ _

/-- An operand by its halves. -/
theorem operand_eq : (castUint32 (a >>> 32)).toNat * 2 ^ 32 + (castUint32 a).toNat = a.toNat := by
  rw [toNat_castUint32_high, toNat_castUint32, Nat.div_add_mod']

/-- What `part_high` and all that is added to it amount to. -/
theorem high_exact :
    ((partialProducts a b).partHigh.toNat +
      ((partialProducts a b).addends.map BitVec.toNat).sum) * 2 ^ 64 +
        (partialProducts a b).resultLow.toNat = a.toNat * b.toNat := by
  have hproduct := WideProduct.two_digit_product (B := 2 ^ 32) (by norm_num)
    (partMidSum_eq a b) (resultLow_eq a b)
  rw [operand_eq, operand_eq, ← partHigh_eq] at hproduct
  rw [← hproduct, sum_addends, Nat.add_assoc, Nat.add_assoc]

theorem high_lt : (partialProducts a b).partHigh.toNat +
    ((partialProducts a b).addends.map BitVec.toNat).sum < 2 ^ 64 :=
  WideProduct.high_lt a.isLt b.isLt (high_exact a b)

end PartialProducts

section Product
variable (a b : BitVec 64)

/-- The high and the low word are those of the exact product. -/
theorem mul64To128_exact :
    (mul64To128 a b).high.toNat * 2 ^ 64 + (mul64To128 a b).low.toNat = a.toNat * b.toNat := by
  have hlt : a.toNat * b.toNat < 2 ^ 64 * 2 ^ 64 := Nat.mul_lt_mul'' a.isLt b.isLt
  have hresult : (a.setWidth 128 * b.setWidth 128).toNat = a.toNat * b.toNat := by
    rw [BitVec.toNat_mul, BitVec.toNat_setWidth_of_le (by decide),
      BitVec.toNat_setWidth_of_le (by decide), Nat.mod_eq_of_lt (by omega)]
  simp only [mul64To128, BitVec.toNat_setWidth, BitVec.toNat_ushiftRight,
    Nat.shiftRight_eq_div_pow, hresult]
  omega

theorem ExtendedResult.eq_of_toNat {r r' : ExtendedResult (BitVec 64)}
    (h : r.high.toNat * 2 ^ 64 + r.low.toNat = r'.high.toNat * 2 ^ 64 + r'.low.toNat) :
    r = r' := by
  have hlow : r.low.toNat < 2 ^ 64 := r.low.isLt
  have hlow' : r'.low.toNat < 2 ^ 64 := r'.low.isLt
  have hhigh : r.high = r'.high := by
    apply BitVec.eq_of_toNat_eq
    omega
  have hlows : r.low = r'.low := by
    apply BitVec.eq_of_toNat_eq
    omega
  cases r
  cases r'
  exact congrArg₂ ExtendedResult.mk hhigh hlows

/-- The portable branch returns what the other one does, the exact product, and no addition into
`result_high` wraps. -/
theorem mul64To128Portable_exact :
    mul64To128Portable a b = mul64To128 a b ∧
      (mul64To128Portable a b).high.toNat * 2 ^ 64 + (mul64To128Portable a b).low.toNat =
        a.toNat * b.toNat ∧
      WideProduct.sumWraps (partialProducts a b).partHigh (partialProducts a b).addends =
        false := by
  obtain ⟨hwraps, hfold⟩ := WideProduct.sumWraps_eq_false (PartialProducts.high_lt a b)
  have hexact : (mul64To128Portable a b).high.toNat * 2 ^ 64 +
      (mul64To128Portable a b).low.toNat = a.toNat * b.toNat := by
    rw [← PartialProducts.high_exact a b, ← hfold]
    rfl
  refine ⟨ExtendedResult.eq_of_toNat ?_, hexact, hwraps⟩
  rw [hexact, mul64To128_exact]

end Product

end Squiz.Detail
