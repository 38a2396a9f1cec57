import Mathlib.Tactic
import Mathlib.Data.Nat.Bitwise

/-! Unsigned machine words, and words that pack a count above a few flag bits. -/
namespace Squiz.Lib.Word

/-- `fetch_add` on a `w`-bit word: the value it stores. The sum is tested before it is reduced, so
that an unknown `x` does not make `2 ^ w` unfold. -/
def fetchAdd (w x k : ℕ) : ℕ := if x + k < 2 ^ w then x + k else (x + k) % 2 ^ w

/-- `fetch_sub` on a `w`-bit word: the value it stores. -/
def fetchSub (w x k : ℕ) : ℕ :=
  if k ≤ x ∧ x < 2 ^ w then x - k else (x + (2 ^ w - k % 2 ^ w)) % 2 ^ w

/-- `fetch_or`: the value it stores. -/
def fetchOr (x m : ℕ) : ℕ := x ||| m

/-- Whether any bit of the mask is set. -/
def hasFlag (x m : ℕ) : Bool := x &&& m != 0

variable {w x k : ℕ}

theorem fetchAdd_eq_mod : fetchAdd w x k = (x + k) % 2 ^ w := by
  unfold fetchAdd
  split_ifs with h
  · exact (Nat.mod_eq_of_lt h).symm
  · rfl

theorem fetchSub_eq_mod : fetchSub w x k = (x + (2 ^ w - k % 2 ^ w)) % 2 ^ w := by
  unfold fetchSub
  split_ifs with h
  · obtain ⟨hk, hx⟩ := h
    rw [Nat.mod_eq_of_lt (by omega : k < 2 ^ w), show x + (2 ^ w - k) = x - k + 2 ^ w by omega,
      Nat.add_mod_right]
    exact (Nat.mod_eq_of_lt (by omega)).symm
  · rfl

theorem fetchAdd_of_lt (h : x + k < 2 ^ w) : fetchAdd w x k = x + k := if_pos h

theorem fetchSub_of_le (hk : k ≤ x) (hx : x < 2 ^ w) : fetchSub w x k = x - k := if_pos ⟨hk, hx⟩

/-- A count of `c` above `b` flag bits `f`. -/
def pack (b c f : ℕ) : ℕ := 2 ^ b * c + f

variable {b c d f g m : ℕ}

theorem pack_succ : pack b (c + 1) f = pack b c f + 2 ^ b := by
  unfold pack
  ring

/-- Masking with flag bits sees the flags only. -/
theorem pack_and (hm : m < 2 ^ b) : pack b c f &&& m = f &&& m := by
  have hlt : ∀ y : ℕ, y &&& m < 2 ^ b := fun y => Nat.and_lt_two_pow y hm
  have hmod := Nat.and_mod_two_pow (a := pack b c f) (b := m) (n := b)
  have hf := Nat.and_mod_two_pow (a := f) (b := m) (n := b)
  rw [Nat.mod_eq_of_lt (hlt _)] at hmod hf
  rw [hmod, hf, pack, Nat.mul_add_mod]

/-- Setting flag bits leaves the count alone. -/
theorem pack_or (hf : f < 2 ^ b) (hm : m < 2 ^ b) : pack b c f ||| m = pack b c (f ||| m) := by
  have hfm : f ||| m < 2 ^ b := Nat.or_lt_two_pow hf hm
  unfold pack
  rw [Nat.mul_comm, ← Nat.shiftLeft_eq, Nat.shiftLeft_add_eq_or_of_lt hf,
    Nat.shiftLeft_add_eq_or_of_lt hfm, Nat.lor_assoc]

theorem le_pack_iff (hf : f < 2 ^ b) : d * 2 ^ b ≤ pack b c f ↔ d ≤ c := by
  have hpos : 0 < 2 ^ b := Nat.two_pow_pos b
  unfold pack
  constructor
  · intro h
    by_contra hc
    have h1 : (c + 1) * 2 ^ b ≤ d * 2 ^ b := Nat.mul_le_mul_right _ (by omega)
    have h2 : (c + 1) * 2 ^ b = 2 ^ b * c + 2 ^ b := by ring
    omega
  · intro h
    have h1 : d * 2 ^ b ≤ c * 2 ^ b := Nat.mul_le_mul_right _ h
    have h2 : c * 2 ^ b = 2 ^ b * c := Nat.mul_comm _ _
    omega

theorem pack_div (hf : f < 2 ^ b) : pack b c f / 2 ^ b = c := by
  unfold pack
  rw [Nat.mul_add_div (Nat.two_pow_pos b), Nat.div_eq_of_lt hf, Nat.add_zero]

/-! Three flag bits under the count. -/

section ThreeFlags
variable (n : ℕ) (x y z : Bool)

/-- Flags of weights one, two and four. -/
def flags3 : ℕ := x.toNat + 2 * y.toNat + 4 * z.toNat

/-- A count above three flags. -/
def pack3 : ℕ := pack 3 n (flags3 x y z)

theorem flags3_lt : flags3 x y z < 2 ^ 3 := by
  cases x <;> cases y <;> cases z <;> decide

theorem pack3_eq : pack3 n x y z = 8 * n + flags3 x y z := rfl

theorem pack3_lt : pack3 n x y z < 8 * n + 8 := by
  have := flags3_lt x y z
  rw [pack3_eq]
  omega

theorem pack3_and {m : ℕ} (hm : m < 2 ^ 3) : pack3 n x y z &&& m = flags3 x y z &&& m :=
  pack_and hm

@[simp] theorem hasFlag_pack3_one : hasFlag (pack3 n x y z) 1 = x := by
  unfold hasFlag
  rw [pack3_and n x y z (by decide)]
  cases x <;> cases y <;> cases z <;> rfl

@[simp] theorem hasFlag_pack3_two : hasFlag (pack3 n x y z) 2 = y := by
  unfold hasFlag
  rw [pack3_and n x y z (by decide)]
  cases x <;> cases y <;> cases z <;> rfl

@[simp] theorem hasFlag_pack3_four : hasFlag (pack3 n x y z) 4 = z := by
  unfold hasFlag
  rw [pack3_and n x y z (by decide)]
  cases x <;> cases y <;> cases z <;> rfl

/-- The word with its second flag set. -/
theorem pack3_or_two : fetchOr (pack3 n x y z) 2 = pack3 n x true z := by
  unfold fetchOr pack3
  rw [pack_or (flags3_lt x y z) (by decide)]
  cases x <;> cases y <;> cases z <;> rfl

theorem pack3_or_one : pack3 n x y z ||| 1 = pack3 n true y z := by
  unfold pack3
  rw [pack_or (flags3_lt x y z) (by decide)]
  cases x <;> cases y <;> cases z <;> rfl

theorem pack3_add_one : pack3 n false y z + 1 = pack3 n true y z := by
  simp only [pack3_eq, flags3, Bool.toNat_false, Bool.toNat_true]
  omega

theorem pack3_add_four : pack3 n x y false + 4 = pack3 n x y true := by
  simp only [pack3_eq, flags3, Bool.toNat_false, Bool.toNat_true]
  omega

theorem pack3_sub_eight : pack3 (n + 1) x y z - 8 = pack3 n x y z := by
  simp only [pack3_eq]
  omega

variable {n}

theorem mul_eight_le_pack3 {d : ℕ} : d * 8 ≤ pack3 n x y z ↔ d ≤ n :=
  le_pack_iff (flags3_lt x y z)

end ThreeFlags
end Squiz.Lib.Word
