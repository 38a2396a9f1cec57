import Squiz.Detail.IntegerOps
import Squiz.Lib.Word

/-! The children of a `when_all_op` or a `first_successful_op`, and the word that counts them
above three flags. -/
namespace Squiz.Detail
open Squiz.Lib Squiz.Lib.Word

def startedFlag : ℕ := 1
def stopRequestedFlag : ℕ := 4
def countIncrement : ℕ := 8

/-- The number of children: `state_t` is chosen for a maximum that is a `std::uint64_t`. -/
structure Arity where
  children : ℕ
  two_le : 2 ≤ children
  fits : 7 + 8 * children < 2 ^ 64

namespace Arity

abbrev Child (N : Arity) := Fin N.children

instance (N : Arity) : NeZero N.children := ⟨by have := N.two_le; omega⟩

def two : Arity := ⟨2, by decide, by decide⟩

def first (N : Arity) : N.Child := ⟨0, by have := N.two_le; omega⟩

/-- Width of `state_t`; the flag of weight two means `failed` or `has_value`. -/
def stateBits (N : Arity) : ℕ :=
  smallestUnsignedIntegerFor (startedFlag + 2 + stopRequestedFlag + countIncrement * N.children)

/-- The largest value of `state_` fits in `state_t`. -/
theorem max_word_lt (N : Arity) : 7 + 8 * N.children < 2 ^ N.stateBits :=
  lt_smallestUnsignedIntegerFor N.fits

theorem pack3_lt_bits {N : Arity} {n : ℕ} (h : n ≤ N.children) (x y z : Bool) :
    pack3 n x y z < 2 ^ N.stateBits := by
  have h1 := pack3_lt n x y z
  have h2 := N.max_word_lt
  omega

end Arity

inductive SignalTag where
  | error | stopped
  deriving DecidableEq

end Squiz.Detail
