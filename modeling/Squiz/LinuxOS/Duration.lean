import Squiz.Detail.IntegerOps

/-! `std::chrono::duration` of a period that is not a whole number of seconds: its floor to seconds,
and the nanoseconds that remain. -/
namespace Squiz.LinuxOS
open Squiz.Detail

namespace TimePoint

/-! A signed operation that overflows has no result. -/

/-- The result of an operation on `std::int64_t`. -/
def int64 (x : ℤ) : Option ℤ := if InInt64 x then some x else none

/-- The result of an operation that is stored in a `std::int32_t`. -/
def int32 (x : ℤ) : Option ℤ := if -2147483648 ≤ x ∧ x ≤ 2147483647 then some x else none

theorem int64_of_mem {x : ℤ} (h : InInt64 x) : int64 x = some x := if_pos h

end TimePoint
open TimePoint

/-- The type that `std::chrono` computes in: `std::common_type_t` of the type of the counts and
`std::int64_t`. -/
inductive CommonRep where
  | int64
  /-- of a count that is a `std::uint64_t` itself -/
  | uint64
  deriving DecidableEq

namespace CommonRep
variable {rep : CommonRep} {x : ℤ}

/-- The values of the type. -/
def Holds : CommonRep → ℤ → Prop
  | int64, x => InInt64 x
  | uint64, x => 0 ≤ x ∧ x ≤ 18446744073709551615

instance : Decidable (rep.Holds x) :=
  match rep with
  | int64 => inferInstanceAs (Decidable (_ ∧ _))
  | uint64 => inferInstanceAs (Decidable (_ ∧ _))

/-- The value that an operation without sign wraps around to. -/
def wrap : CommonRep → ℤ → ℤ
  | int64, x => x
  | uint64, x => x % 18446744073709551616

/-- The result of an operation. -/
def result : CommonRep → ℤ → Option ℤ
  | int64, x => TimePoint.int64 x
  | uint64, x => some (x % 18446744073709551616)

theorem wrap_of_holds (h : rep.Holds x) : rep.wrap x = x := by
  cases rep with
  | int64 => rfl
  | uint64 =>
    obtain ⟨hnonneg, hle⟩ := h
    exact Int.emod_eq_of_lt hnonneg (by omega)

theorem result_of_holds (h : rep.Holds x) : rep.result x = some x := by
  cases rep with
  | int64 => exact int64_of_mem h
  | uint64 => exact congrArg some (wrap_of_holds h)

/-- An operation without sign always has a result. -/
theorem result_eq_wrap (h : rep = uint64 ∨ rep.Holds x) : rep.result x = some (rep.wrap x) := by
  rcases h with rfl | h
  · rfl
  · rw [result_of_holds h, wrap_of_holds h]

theorem result_int64_eq_none (h : ¬ CommonRep.int64.Holds x) : CommonRep.int64.result x = none :=
  if_neg h

theorem holds_wrap_uint64 (x : ℤ) : uint64.Holds (uint64.wrap x) := by
  have hnonneg := Int.emod_nonneg x (by decide : (18446744073709551616 : ℤ) ≠ 0)
  have hlt := Int.emod_lt_of_pos x (by decide : (0 : ℤ) < 18446744073709551616)
  exact ⟨hnonneg, Int.le_of_lt_add_one hlt⟩

theorem holds_wrap (h : rep = uint64 ∨ rep.Holds x) : rep.Holds (rep.wrap x) := by
  rcases h with rfl | h
  · exact holds_wrap_uint64 x
  · rwa [wrap_of_holds h]

theorem wrap_add_le (hx : 0 ≤ x) (h : ¬ uint64.Holds x) :
    uint64.wrap x + 18446744073709551616 ≤ x := by
  unfold Holds at h
  unfold wrap
  dsimp only
  omega

theorem wrap_mem (rep : CommonRep) (hx : 0 ≤ x) : 0 ≤ rep.wrap x ∧ rep.wrap x ≤ x := by
  cases rep with
  | int64 => exact ⟨hx, le_rfl⟩
  | uint64 =>
    unfold wrap
    dsimp only
    omega

theorem Holds.range (h : rep.Holds x) : -9223372036854775808 ≤ x ∧ x ≤ 18446744073709551615 := by
  cases rep with
  | int64 =>
    unfold Holds InInt64 int64Min int64Max at h
    omega
  | uint64 =>
    unfold Holds at h
    omega

/-- Between zero and a value of the type there are only values of the type. -/
theorem Holds.between {y : ℤ} (h : rep.Holds x) (hnonneg : 0 ≤ x → 0 ≤ y ∧ y ≤ x)
    (hneg : x ≤ 0 → x ≤ y ∧ y ≤ 0) : rep.Holds y := by
  cases rep with
  | int64 =>
    unfold Holds InInt64 int64Min int64Max at *
    omega
  | uint64 =>
    unfold Holds at *
    omega

end CommonRep

/-- A `std::chrono::duration` of an integral count and the period `num / den` in seconds, which is
not a whole number of them. -/
structure Duration where
  rep : CommonRep
  count : ℤ
  num : ℤ
  den : ℤ
  count_mem : rep.Holds count
  num_pos : 0 < num
  num_le : num ≤ int64Max
  one_lt_den : 1 < den
  den_le : den ≤ int64Max
  /-- `std::ratio` is in lowest terms -/
  coprime : Int.gcd num den = 1

namespace Duration

theorem one_le_int64Max : (1 : ℤ) ≤ int64Max := by decide

variable (d : Duration)

/-! The conversions of `std::chrono`. Their common period with `std::chrono::seconds` is
`1 / den`. -/

/-- `static_cast<std::int64_t>` -/
def asInt64 (x : ℤ) : ℤ := x.bmod 18446744073709551616

/-- The duration in the common period. -/
def inCommon : Option ℤ := d.rep.result (d.count * d.num)

/-- Whole seconds in the common period. -/
def secondsInCommon (seconds : ℤ) : Option ℤ := d.rep.result (seconds * d.den)

/-- `std::chrono::duration_cast<std::chrono::seconds>` -/
def castSeconds : Option ℤ := (d.rep.result (d.count * d.num)).map fun x => asInt64 (x.tdiv d.den)

/-- `std::chrono::floor<std::chrono::seconds>`, which compares in the common period. -/
def floorSeconds : Option ℤ :=
  d.castSeconds.bind fun seconds =>
  (d.secondsInCommon seconds).bind fun secondsInCommon =>
  d.inCommon.bind fun inCommon =>
  if inCommon < secondsInCommon then int64 (seconds - 1) else some seconds

/-- `operator-` of a duration and whole seconds -/
def lessSeconds (seconds : ℤ) : Option ℤ :=
  d.inCommon.bind fun inCommon =>
  (d.secondsInCommon seconds).bind fun secondsInCommon =>
  d.rep.result (inCommon - secondsInCommon)

/-- What `num` and `den` of `std::ratio_divide` of the common period by `std::nano` have lost. -/
def nanoGcd : ℤ := Int.gcd 1000000000 d.den

/-- `std::chrono::duration_cast<std::chrono::nanoseconds>` from the common period -/
def castNanoseconds (x : ℤ) : Option ℤ :=
  (d.rep.result (x * (1000000000 / d.nanoGcd))).map fun x => asInt64 (x.tdiv (d.den / d.nanoGcd))

/-- The whole seconds and the nanoseconds after them, with which both operators begin; their two
asserts hold. -/
def split : Option (ℤ × ℤ) :=
  d.floorSeconds.bind fun seconds =>
  (d.lessSeconds seconds).bind fun remainder =>
  (d.castNanoseconds remainder).bind fun nanoseconds =>
  if 0 ≤ nanoseconds ∧ nanoseconds < 1000000000 then some (seconds, nanoseconds) else none

/-! The exact values. -/

/-- The floor to seconds. -/
def wholeSeconds : ℤ := d.count * d.num / d.den

/-- The duration less its whole seconds, in the common period. -/
def remainder : ℤ := d.count * d.num % d.den

/-- The remainder, truncated to nanoseconds. -/
def remainderNanoseconds : ℤ := d.remainder * 1000000000 / d.den

/-- The duration in nanoseconds, truncated to a whole number of them. -/
def nanoseconds : ℤ := d.count * d.num * 1000000000 / d.den

/-- The floor to seconds and the remainder after it are representable. -/
def Representable : Prop := InInt64 d.wholeSeconds ∧ InInt64 d.remainder

instance : Decidable d.Representable := inferInstanceAs (Decidable (_ ∧ _))

/-- The products that the conversions compute are in the range of the type they compute in: the
duration and its floor in the common period, and the remainder before its division to
nanoseconds. -/
def Fits : Prop :=
  d.rep.Holds (d.count * d.num) ∧ d.rep.Holds (d.wholeSeconds * d.den) ∧
    d.rep.Holds (d.remainder * (1000000000 / d.nanoGcd))

instance : Decidable d.Fits := inferInstanceAs (Decidable (_ ∧ _))

/-! What the conversions compute in `std::uint64_t`, where the products wrap around. -/

def wrappedSeconds : ℤ := d.rep.wrap (d.count * d.num) / d.den

def wrappedNanoseconds : ℤ :=
  d.rep.wrap (d.rep.wrap (d.count * d.num) % d.den * (1000000000 / d.nanoGcd)) / (d.den / d.nanoGcd)

theorem den_pos : 0 < d.den := by linarith [d.one_lt_den]

theorem remainder_nonneg : 0 ≤ d.remainder := Int.emod_nonneg _ d.den_pos.ne'

theorem remainder_lt : d.remainder < d.den := Int.emod_lt_of_pos _ d.den_pos

theorem remainderNanoseconds_mem :
    0 ≤ d.remainderNanoseconds ∧ d.remainderNanoseconds < 1000000000 := by
  constructor
  · exact Int.ediv_nonneg (mul_nonneg d.remainder_nonneg (by decide)) d.den_pos.le
  · apply Int.ediv_lt_of_lt_mul d.den_pos
    linarith [d.remainder_lt]

/-- The whole seconds and the rest of them make up a value in the common period. -/
theorem mul_ediv_den (x : ℤ) :
    x * 1000000000 / d.den = x / d.den * 1000000000 + x % d.den * 1000000000 / d.den := by
  have hsplit : x * 1000000000 = x % d.den * 1000000000 + x / d.den * 1000000000 * d.den := by
    conv_lhs => rw [← Int.ediv_mul_add_emod x d.den]
    ring
  rw [hsplit, Int.add_mul_ediv_right _ _ d.den_pos.ne', add_comm]

theorem nanoseconds_eq : d.nanoseconds = d.wholeSeconds * 1000000000 + d.remainderNanoseconds :=
  d.mul_ediv_den (d.count * d.num)

/-! Each conversion, where the product that it computes has a result. -/

theorem asInt64_of_mem {x : ℤ} (h : InInt64 x) : asInt64 x = x := by
  unfold InInt64 int64Min int64Max at h
  exact Int.bmod_eq_of_le (by omega) (by omega)

variable {d} {x : ℤ}

/-- Truncation goes towards zero, and halves at least. -/
theorem tdiv_mem (hx : d.rep.Holds x) :
    InInt64 (x.tdiv d.den) ∧ InInt64 (x.tdiv d.den - 1) ∧ d.rep.Holds (x.tdiv d.den * d.den) := by
  have hdiv := Int.mul_tdiv_add_tmod x d.den
  have hden := d.one_lt_den
  have hnonneg : 0 ≤ x → 0 ≤ x.tdiv d.den ∧ x.tdiv d.den * d.den ≤ x := by
    intro hx
    have hmod := Int.tmod_nonneg d.den hx
    exact ⟨Int.tdiv_nonneg hx d.den_pos.le, by linarith⟩
  have hneg : x ≤ 0 → x.tdiv d.den ≤ 0 ∧ x ≤ x.tdiv d.den * d.den := by
    intro hx
    have hmod := Int.tmod_nonneg d.den (neg_nonneg.mpr hx)
    rw [Int.neg_tmod] at hmod
    have hquot := Int.tdiv_nonneg (neg_nonneg.mpr hx) d.den_pos.le
    rw [Int.neg_tdiv] at hquot
    exact ⟨by linarith, by linarith⟩
  have hbetween : (0 ≤ x → 0 ≤ x.tdiv d.den ∧ x.tdiv d.den * 2 ≤ x) ∧
      (x ≤ 0 → x.tdiv d.den ≤ 0 ∧ x ≤ x.tdiv d.den * 2) := by
    refine ⟨fun hx => ?_, fun hx => ?_⟩
    · obtain ⟨hquot, hle⟩ := hnonneg hx
      exact ⟨hquot, by nlinarith⟩
    · obtain ⟨hquot, hle⟩ := hneg hx
      exact ⟨hquot, by nlinarith⟩
  have hrange := hx.range
  refine ⟨?_, ?_, hx.between ?_ ?_⟩
  · unfold InInt64 int64Min int64Max
    omega
  · unfold InInt64 int64Min int64Max
    omega
  · intro hx
    obtain ⟨hquot, hle⟩ := hnonneg hx
    exact ⟨mul_nonneg hquot d.den_pos.le, hle⟩
  · intro hx
    obtain ⟨hquot, hle⟩ := hneg hx
    exact ⟨hle, mul_nonpos_of_nonpos_of_nonneg hquot d.den_pos.le⟩

theorem floorSeconds_eq (h : d.rep.result (d.count * d.num) = some x) (hx : d.rep.Holds x) :
    d.floorSeconds = some (x / d.den) := by
  obtain ⟨hmem, hpred, hcommon⟩ := tdiv_mem hx
  have hdiv := Int.mul_tdiv_add_tmod x d.den
  have hlt := Int.tmod_lt_of_pos x d.den_pos
  have hgt : -d.den < x.tmod d.den := Int.lt_tmod_of_pos x d.den_pos
  unfold floorSeconds castSeconds secondsInCommon inCommon
  rw [h, Option.map_some, Option.bind_some, asInt64_of_mem hmem,
    CommonRep.result_of_holds hcommon, Option.bind_some, Option.bind_some]
  split_ifs with hneg
  · rw [int64_of_mem hpred, Option.some.injEq, eq_comm, Int.ediv_eq_iff_of_pos d.den_pos]
    constructor <;> linarith
  · rw [Option.some.injEq, eq_comm, Int.ediv_eq_iff_of_pos d.den_pos]
    constructor <;> linarith

theorem holds_emod (x : ℤ) : d.rep.Holds (x % d.den) := by
  have hnonneg := Int.emod_nonneg x d.den_pos.ne'
  have hlt := Int.emod_lt_of_pos x d.den_pos
  have hle := d.den_le
  unfold int64Max at hle
  cases d.rep with
  | int64 =>
    unfold CommonRep.Holds InInt64 int64Min int64Max
    omega
  | uint64 =>
    unfold CommonRep.Holds
    omega

theorem lessSeconds_eq (h : d.rep.result (d.count * d.num) = some x)
    (hfloor : d.rep.Holds (x / d.den * d.den)) : d.lessSeconds (x / d.den) = some (x % d.den) := by
  have hsub : x - x / d.den * d.den = x % d.den := by
    rw [Int.emod_def, mul_comm]
  unfold lessSeconds secondsInCommon inCommon
  rw [h, Option.bind_some, CommonRep.result_of_holds hfloor, Option.bind_some, hsub]
  exact CommonRep.result_of_holds (holds_emod x)

theorem nanoGcd_pos : 0 < d.nanoGcd :=
  Int.natCast_pos.mpr (Int.gcd_pos_of_ne_zero_left _ (by decide))

theorem nanoGcd_mul_num : d.nanoGcd * (1000000000 / d.nanoGcd) = 1000000000 :=
  Int.mul_ediv_cancel' (Int.gcd_dvd_left ..)

theorem nanoGcd_mul_den : d.nanoGcd * (d.den / d.nanoGcd) = d.den :=
  Int.mul_ediv_cancel' (Int.gcd_dvd_right ..)

theorem nanoDen_pos : 0 < d.den / d.nanoGcd :=
  Int.ediv_pos_of_pos_of_dvd d.den_pos nanoGcd_pos.le (Int.gcd_dvd_right ..)

/-- The quotient of a product that has wrapped around is that of a smaller one. -/
theorem nanoseconds_bounds {y : ℤ} (hy : 0 ≤ y) (hx : x < d.den)
    (hle : y ≤ x * (1000000000 / d.nanoGcd)) :
    0 ≤ y / (d.den / d.nanoGcd) ∧ y / (d.den / d.nanoGcd) < 1000000000 := by
  refine ⟨Int.ediv_nonneg hy nanoDen_pos.le, Int.ediv_lt_of_lt_mul nanoDen_pos ?_⟩
  have hnum : 0 < 1000000000 / d.nanoGcd :=
    Int.ediv_pos_of_pos_of_dvd (by decide) nanoGcd_pos.le (Int.gcd_dvd_left ..)
  have hcross : d.den * (1000000000 / d.nanoGcd) = 1000000000 * (d.den / d.nanoGcd) := by
    calc d.den * (1000000000 / d.nanoGcd)
        = d.nanoGcd * (1000000000 / d.nanoGcd) * (d.den / d.nanoGcd) := by
          conv_lhs => rw [← nanoGcd_mul_den (d := d)]
          ring
      _ = 1000000000 * (d.den / d.nanoGcd) := by rw [nanoGcd_mul_num]
  rw [← hcross]
  exact lt_of_le_of_lt hle (mul_lt_mul_of_pos_right hx hnum)

theorem castNanoseconds_eq {y : ℤ} (h : d.rep.result (x * (1000000000 / d.nanoGcd)) = some y)
    (hy : 0 ≤ y) (hx : x < d.den) (hle : y ≤ x * (1000000000 / d.nanoGcd)) :
    d.castNanoseconds x = some (y / (d.den / d.nanoGcd)) := by
  obtain ⟨hnonneg, hlt⟩ := nanoseconds_bounds hy hx hle
  unfold castNanoseconds
  rw [h, Option.map_some, Int.tdiv_eq_ediv_of_nonneg hy, asInt64_of_mem]
  unfold InInt64 int64Min int64Max
  omega

/-! The conversions together. -/

/-- The products have results. -/
theorem products (h : d.rep = .uint64 ∨ d.Fits) :
    (d.rep = .uint64 ∨ d.rep.Holds (d.count * d.num)) ∧
      d.rep.Holds (d.rep.wrap (d.count * d.num) / d.den * d.den) ∧
      (d.rep = .uint64 ∨
        d.rep.Holds (d.rep.wrap (d.count * d.num) % d.den * (1000000000 / d.nanoGcd))) := by
  rcases h with hrep | ⟨hproduct, hfloor, hnanoseconds⟩
  · refine ⟨.inl hrep, ?_, .inl hrep⟩
    have hholds := CommonRep.holds_wrap (x := d.count * d.num) (.inl hrep)
    have hnonneg : 0 ≤ d.rep.wrap (d.count * d.num) := by
      rw [hrep] at hholds ⊢
      exact hholds.1
    have hmul := Int.ediv_mul_le (d.rep.wrap (d.count * d.num)) d.den_pos.ne'
    have hquot := Int.ediv_nonneg hnonneg d.den_pos.le
    refine hholds.between (fun _ => ⟨mul_nonneg hquot d.den_pos.le, hmul⟩) fun hle => ?_
    rw [le_antisymm hle hnonneg, Int.zero_ediv, zero_mul]
    exact ⟨le_rfl, le_rfl⟩
  · rw [CommonRep.wrap_of_holds hproduct]
    exact ⟨.inr hproduct, hfloor, .inr hnanoseconds⟩

theorem wrappedNanoseconds_mem (d : Duration) :
    0 ≤ d.wrappedNanoseconds ∧ d.wrappedNanoseconds < 1000000000 := by
  have hnonneg := Int.emod_nonneg (d.rep.wrap (d.count * d.num)) d.den_pos.ne'
  have hlt := Int.emod_lt_of_pos (d.rep.wrap (d.count * d.num)) d.den_pos
  have hnum := Int.ediv_nonneg (by decide : (0 : ℤ) ≤ 1000000000) (nanoGcd_pos (d := d)).le
  obtain ⟨hwrap, hle⟩ := d.rep.wrap_mem (mul_nonneg hnonneg hnum)
  exact nanoseconds_bounds hwrap hlt hle

/-- The conversions compute the wrapped values. -/
theorem split_eq (h : d.rep = .uint64 ∨ d.Fits) :
    d.split = some (d.wrappedSeconds, d.wrappedNanoseconds) := by
  obtain ⟨hproduct, hfloor, hnanoseconds⟩ := products h
  have hnonneg := Int.emod_nonneg (d.rep.wrap (d.count * d.num)) d.den_pos.ne'
  have hlt := Int.emod_lt_of_pos (d.rep.wrap (d.count * d.num)) d.den_pos
  have hnum := Int.ediv_nonneg (by decide : (0 : ℤ) ≤ 1000000000) (nanoGcd_pos (d := d)).le
  obtain ⟨hwrap, hle⟩ := d.rep.wrap_mem (mul_nonneg hnonneg hnum)
  have hresult := CommonRep.result_eq_wrap hproduct
  unfold split
  rw [floorSeconds_eq hresult (CommonRep.holds_wrap hproduct), Option.bind_some,
    lessSeconds_eq hresult hfloor, Option.bind_some,
    castNanoseconds_eq (CommonRep.result_eq_wrap hnanoseconds) hwrap hlt hle, Option.bind_some]
  exact if_pos d.wrappedNanoseconds_mem

/-- A product that overflows leaves the conversions without a result. -/
theorem split_eq_none (hrep : d.rep = .int64) (h : ¬ d.Fits) : d.split = none := by
  unfold split
  by_cases hproduct : d.rep.Holds (d.count * d.num)
  swap
  · rw [hrep] at hproduct
    unfold floorSeconds castSeconds
    rw [hrep, CommonRep.result_int64_eq_none hproduct, Option.map_none, Option.bind_none,
      Option.bind_none]
  have hresult := CommonRep.result_of_holds hproduct
  rw [floorSeconds_eq hresult hproduct, Option.bind_some]
  by_cases hfloor : d.rep.Holds (d.wholeSeconds * d.den)
  swap
  · rw [hrep] at hfloor
    unfold lessSeconds secondsInCommon inCommon
    rw [hresult, Option.bind_some, hrep]
    unfold wholeSeconds at hfloor
    rw [CommonRep.result_int64_eq_none hfloor, Option.bind_none, Option.bind_none]
  rw [lessSeconds_eq hresult hfloor, Option.bind_some]
  have hnanoseconds : ¬ d.rep.Holds (d.remainder * (1000000000 / d.nanoGcd)) :=
    fun hholds => h ⟨hproduct, hfloor, hholds⟩
  rw [hrep] at hnanoseconds
  unfold castNanoseconds
  rw [hrep]
  unfold remainder at hnanoseconds
  rw [CommonRep.result_int64_eq_none hnanoseconds, Option.map_none, Option.bind_none]

/-- The division to nanoseconds with and without the common factor. -/
theorem mul_ediv_nanoGcd (d : Duration) (x : ℤ) :
    x * 1000000000 / d.den = x * (1000000000 / d.nanoGcd) / (d.den / d.nanoGcd) := by
  have hmul : x * 1000000000 = d.nanoGcd * (x * (1000000000 / d.nanoGcd)) := by
    conv_lhs => rw [← nanoGcd_mul_num (d := d)]
    ring
  rw [hmul]
  conv_lhs => rw [← nanoGcd_mul_den (d := d)]
  exact Int.mul_ediv_mul_of_pos _ _ nanoGcd_pos

/-- Where nothing wraps around, the conversions are exact. -/
theorem wrapped_of_fits (h : d.Fits) :
    d.wrappedSeconds = d.wholeSeconds ∧ d.wrappedNanoseconds = d.remainderNanoseconds := by
  obtain ⟨hproduct, -, hnanoseconds⟩ := h
  unfold wrappedSeconds wrappedNanoseconds
  rw [CommonRep.wrap_of_holds hproduct, remainderNanoseconds, mul_ediv_nanoGcd]
  refine ⟨rfl, ?_⟩
  rw [show d.count * d.num % d.den = d.remainder from rfl, CommonRep.wrap_of_holds hnanoseconds]

theorem split_of_fits (h : d.Fits) : d.split = some (d.wholeSeconds, d.remainderNanoseconds) := by
  obtain ⟨hseconds, hnanoseconds⟩ := wrapped_of_fits h
  rw [split_eq (.inr h), hseconds, hnanoseconds]

theorem wrappedSeconds_mem (h : d.rep = .uint64 ∨ d.Fits) : InInt64 d.wrappedSeconds := by
  obtain ⟨hproduct, -, -⟩ := products h
  obtain ⟨hlo, hhi⟩ := (CommonRep.holds_wrap hproduct).range
  have hden := d.one_lt_den
  have hle := Int.ediv_mul_le (d.rep.wrap (d.count * d.num)) d.den_pos.ne'
  have hlt := Int.lt_ediv_add_one_mul_self (d.rep.wrap (d.count * d.num)) d.den_pos
  unfold wrappedSeconds
  generalize d.rep.wrap (d.count * d.num) / d.den = q at hle hlt ⊢
  unfold InInt64 int64Min int64Max
  rcases le_or_gt 0 q with hnonneg | hneg
  · have hdouble : q * 2 ≤ q * d.den := by nlinarith
    omega
  · have hsucc : (q + 1) * d.den ≤ q + 1 := by nlinarith
    omega

theorem wholeSeconds_mem (h : d.Fits) : InInt64 d.wholeSeconds := by
  rw [← (wrapped_of_fits h).1]
  exact wrappedSeconds_mem (.inr h)

theorem wrappedSeconds_nonneg (hrep : d.rep = .uint64) : 0 ≤ d.wrappedSeconds := by
  have hholds := CommonRep.holds_wrap (x := d.count * d.num) (.inl hrep)
  rw [hrep] at hholds
  unfold wrappedSeconds
  rw [hrep]
  exact Int.ediv_nonneg hholds.1 d.den_pos.le

theorem ediv_lt_of_add_le {a b c : ℤ} (hc : 0 < c) (h : a + c ≤ b) : a / c < b / c := by
  apply Int.lt_of_add_one_le
  apply Int.le_ediv_of_mul_le hc
  linarith [Int.ediv_mul_le a hc.ne']

/-- A product that wraps around leaves a shorter duration. -/
theorem wrapped_lt (hrep : d.rep = .uint64) (h : ¬ d.Fits) :
    d.wrappedSeconds * 1000000000 + d.wrappedNanoseconds < d.nanoseconds := by
  have hnonneg : 0 ≤ d.count * d.num := by
    have hcount := d.count_mem
    rw [hrep] at hcount
    exact mul_nonneg hcount.1 d.num_pos.le
  have hnum := Int.ediv_nonneg (by decide : (0 : ℤ) ≤ 1000000000) (nanoGcd_pos (d := d)).le
  have hden := d.den_le
  unfold int64Max at hden
  by_cases hproduct : d.rep.Holds (d.count * d.num)
  · -- the remainder wraps around
    have hfloor : d.rep.Holds (d.wholeSeconds * d.den) := by
      have hquot := Int.ediv_nonneg hnonneg d.den_pos.le
      have hmul := Int.ediv_mul_le (d.count * d.num) d.den_pos.ne'
      refine hproduct.between (fun _ => ⟨mul_nonneg hquot d.den_pos.le, hmul⟩) fun hle => ?_
      rw [wholeSeconds, le_antisymm hle hnonneg, Int.zero_ediv, zero_mul]
      exact ⟨le_rfl, le_rfl⟩
    have hwraps : ¬ d.rep.Holds (d.remainder * (1000000000 / d.nanoGcd)) :=
      fun hholds => h ⟨hproduct, hfloor, hholds⟩
    have hnanoDen : d.den / d.nanoGcd ≤ d.den := Int.ediv_le_self _ d.den_pos.le
    rw [hrep] at hwraps
    have hle := CommonRep.wrap_add_le (mul_nonneg d.remainder_nonneg hnum) hwraps
    have hlt : d.wrappedNanoseconds < d.remainderNanoseconds := by
      unfold wrappedNanoseconds
      rw [CommonRep.wrap_of_holds hproduct, remainderNanoseconds, mul_ediv_nanoGcd, hrep]
      apply ediv_lt_of_add_le nanoDen_pos
      change CommonRep.uint64.wrap (d.remainder * _) + _ ≤ _
      omega
    have hseconds : d.wrappedSeconds = d.wholeSeconds := by
      unfold wrappedSeconds
      rw [CommonRep.wrap_of_holds hproduct]
      rfl
    rw [nanoseconds_eq, hseconds]
    omega
  · rw [hrep] at hproduct
    have hle := CommonRep.wrap_add_le hnonneg hproduct
    have hwrapped : d.wrappedSeconds * 1000000000 + d.wrappedNanoseconds ≤
        CommonRep.uint64.wrap (d.count * d.num) * 1000000000 / d.den := by
      have hmod := Int.emod_nonneg (CommonRep.uint64.wrap (d.count * d.num)) d.den_pos.ne'
      rw [d.mul_ediv_den, mul_ediv_nanoGcd d (_ % _)]
      unfold wrappedSeconds wrappedNanoseconds
      rw [hrep]
      apply Int.add_le_add_left
      exact Int.ediv_le_ediv nanoDen_pos (CommonRep.uint64.wrap_mem (mul_nonneg hmod hnum)).2
    apply lt_of_le_of_lt hwrapped
    apply ediv_lt_of_add_le d.den_pos
    omega

end Duration
end Squiz.LinuxOS
