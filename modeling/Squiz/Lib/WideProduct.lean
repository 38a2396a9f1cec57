import Mathlib.Tactic

/-! Sums of words with their carries, and the product of two numbers of two digits each. -/
namespace Squiz.Lib.WideProduct

section Carries
variable {w : ℕ}

/-- A sum is exact once its carry is counted. -/
theorem toNat_add_carry (x y : BitVec w) :
    (x + y).toNat + (x.uaddOverflow y).toNat * 2 ^ w = x.toNat + y.toNat := by
  have hx : x.toNat < 2 ^ w := x.isLt
  have hy : y.toNat < 2 ^ w := y.isLt
  rw [BitVec.toNat_add]
  cases h : x.uaddOverflow y with
  | false =>
    have hlt : x.toNat + y.toNat < 2 ^ w := by simpa [BitVec.uaddOverflow] using h
    rw [Nat.mod_eq_of_lt hlt, Bool.toNat_false, Nat.zero_mul, Nat.add_zero]
  | true =>
    have hle : 2 ^ w ≤ x.toNat + y.toNat := by simpa [BitVec.uaddOverflow] using h
    rw [Nat.mod_eq_sub_mod hle, Nat.mod_eq_of_lt (by omega), Bool.toNat_true, Nat.one_mul,
      Nat.sub_add_cancel hle]

/-- Whether an addition wraps where the words are added to `x` one after the other. -/
def sumWraps : BitVec w → List (BitVec w) → Bool
  | _, [] => false
  | x, y :: ys => x.uaddOverflow y || sumWraps (x + y) ys

/-- Additions do not wrap if the exact sum fits, and then the word is this sum. -/
theorem sumWraps_eq_false {x : BitVec w} {ys : List (BitVec w)}
    (h : x.toNat + (ys.map BitVec.toNat).sum < 2 ^ w) :
    sumWraps x ys = false ∧
      (ys.foldl (· + ·) x).toNat = x.toNat + (ys.map BitVec.toNat).sum := by
  induction ys generalizing x with
  | nil => exact ⟨rfl, rfl⟩
  | cons y ys ih =>
    rw [List.map_cons, List.sum_cons] at h ⊢
    have hcarry : x.uaddOverflow y = false := by
      simp only [BitVec.uaddOverflow, ge_iff_le, decide_eq_false_iff_not]
      omega
    have hsum : (x + y).toNat = x.toNat + y.toNat := by
      have hexact := toNat_add_carry x y
      rwa [hcarry, Bool.toNat_false, Nat.zero_mul, Nat.add_zero] at hexact
    obtain ⟨hwraps, hfold⟩ := ih (x := x + y) (by rw [hsum]; omega)
    constructor
    · rw [sumWraps, hcarry, hwraps, Bool.or_false]
    · rw [List.foldl_cons, hfold, hsum, Nat.add_assoc]

end Carries

section Digits
variable {B W x₁ x₀ y₁ y₀ s l c d : ℕ}

/-- In words of two digits, the middle products are added with carry `c`, of weight `B` in the high
word, and their low digit is added to the low product with carry `d`, of weight one. -/
theorem two_digit_product (hW : W = B * B) (hmid : s + c * W = x₁ * y₀ + x₀ * y₁)
    (hlow : l + d * W = x₀ * y₀ + s % B * B) :
    (x₁ * y₁ + s / B + c * B + d) * W + l = (x₁ * B + x₀) * (y₁ * B + y₀) := by
  have hs : s / B * B + s % B = s := Nat.div_add_mod' s B
  calc
    (x₁ * y₁ + s / B + c * B + d) * W + l
      = x₁ * y₁ * W + s / B * W + c * W * B + (l + d * W) := by ring
    _ = x₁ * y₁ * W + (s / B * B + s % B + c * W) * B + x₀ * y₀ := by rw [hlow, hW]; ring
    _ = x₁ * y₁ * W + (x₁ * y₀ + x₀ * y₁) * B + x₀ * y₀ := by rw [hs, hmid]
    _ = (x₁ * B + x₀) * (y₁ * B + y₀) := by rw [hW]; ring

/-- The high part of a product of two words is a word. -/
theorem high_lt {x y n : ℕ} (hx : x < W) (hy : y < W) (h : n * W + l = x * y) : n < W := by
  have hprod : x * y < W * W := Nat.mul_lt_mul'' hx hy
  have hle : n * W ≤ x * y := by omega
  exact Nat.lt_of_mul_lt_mul_right (Nat.lt_of_le_of_lt hle hprod)

end Digits
end Squiz.Lib.WideProduct
