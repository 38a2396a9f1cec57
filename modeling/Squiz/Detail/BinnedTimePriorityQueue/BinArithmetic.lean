import Squiz.Detail.BinnedTimePriorityQueue.Reindex
import Squiz.Lib.Promotion

/-! The arithmetic of bin indices and bin times with the promotion of operands to `int`. -/
namespace Squiz.Detail.BinnedTimePriorityQueue
open Squiz.Lib Promotion

/-- `from_linear_index` with its assertion. -/
def BinIndex.fromLinearIndexChecked (p : Params) (linearIndex : ℕ) : Option BinIndex :=
  if linearIndex < p.totalBinCount then some (fromLinearIndex p linearIndex) else none

namespace Params
variable (p : Params)

/-- A type for which `std::unsigned_integral` holds, with as many bits for a minor bin at most. -/
structure Standard : Prop where
  width_mem : p.width = 8 ∨ p.width = 16 ∨ p.width = 32 ∨ p.width = 64
  bits_le : p.bits ≤ p.width

instance : Decidable p.Standard :=
  decidable_of_iff ((p.width = 8 ∨ p.width = 16 ∨ p.width = 32 ∨ p.width = 64) ∧
    p.bits ≤ p.width) ⟨fun h => ⟨h.1, h.2⟩, fun h => ⟨h.1, h.2⟩⟩

/-- The promoted type is `int`, so the result of an operation that overflows is undefined. -/
def Signed : Prop := p.width < 32

/-- Neither `Timestamp` nor `minor_bin_index_t` is as wide as `int`. -/
def MinorSigned : Prop := p.width < 32 ∧ p.minorBinIndexWidth < 32

instance : Decidable p.Signed := inferInstanceAs (Decidable (_ < _))

instance : Decidable p.MinorSigned := inferInstanceAs (Decidable (_ ∧ _))

/-- `x - 1`, which overflows for the lowest `int`. -/
def decrement (x : BitVec (promotedWidth p.width)) : Option (BitVec (promotedWidth p.width)) :=
  if p.Signed ∧ x.toNat = 2147483648 then none else some (x - 1)

/-- The product with a minor bin index. The operands are not negative. -/
def mulMinor (x : BitVec (promotedWidth p.width)) (minor : ℕ) :
    Option (BitVec (promotedWidth p.width)) :=
  if p.MinorSigned ∧ 2147483648 ≤ x.toNat * minor then none else some (x * BitVec.ofNat _ minor)

/-- The sum with such a product. The operands are not negative. -/
def addProduct (x y : BitVec (promotedWidth p.width)) : Option (BitVec (promotedWidth p.width)) :=
  if p.MinorSigned ∧ 2147483648 ≤ x.toNat + y.toNat then none else some (x + y)

end Params

namespace Queue
variable {p : Params} {α : Type} (q : Queue p α)

/-- `get_bin_index` with its assertions, which fail where it is `none`. -/
def getBinIndexPromoted (time : p.Timestamp) : Option BinIndex :=
  let diff := convert p.width (promote time ^^^ promote q.activeTime)
  let diffBits := max (Nat.size diff.toNat) 1 - 1
  let majorBinIndex := diffBits / p.bits
  let binShift := majorBinIndex * p.bits
  if q.activeTime ≤ time ∧ time ≤ p.maxTimestamp ∧ majorBinIndex < p.majorBinCount then
    (shiftRight (promote time) binShift).bind fun shifted =>
    let minorBinIndex := (shifted &&& BitVec.ofNat _ (p.minorBinsPerMajorBin - 1)).toNat
    if minorBinIndex < p.minorBinsPerMajorBin then
      some ⟨majorBinIndex, minorBinIndex % 2 ^ p.minorBinIndexWidth⟩
    else none
  else none

/-- `get_bin_time` -/
def getBinTimePromoted (index : BinIndex) : Option p.Timestamp :=
  (shiftLeft (promote (1 : p.Timestamp)) (index.major * p.bits)).bind fun duration =>
  let binDuration := promote (convert p.width duration)
  (shiftLeft binDuration p.bits).bind fun nextDuration =>
  (p.decrement nextDuration).bind fun lowBits =>
  let timeMaskLowBits := convert p.width lowBits
  let timeMaskHighBits := convert p.width (~~~promote timeMaskLowBits)
  (p.mulMinor binDuration index.minor).bind fun offset =>
  (p.addProduct (promote q.activeTime &&& promote timeMaskHighBits) offset).map (convert p.width)

variable {q} {s t time : p.Timestamp} {m d n : ℕ}

theorem convert_xor (x y : p.Timestamp) : convert p.width (promote x ^^^ promote y) = x ^^^ y := by
  apply BitVec.eq_of_getLsbD_eq
  intro i hi
  rw [getLsbD_convert hi, BitVec.getLsbD_xor, BitVec.getLsbD_xor, getLsbD_promote hi,
    getLsbD_promote hi]

theorem minor_lt_minorBinIndexWidth {x : ℕ} (hx : x < 2 ^ p.bits) :
    x < 2 ^ p.minorBinIndexWidth := by
  have hbits := p.bits_lt
  have hpow : 2 ^ p.bits < 2 ^ 64 := Nat.pow_lt_pow_right (by decide) (by omega)
  have hfit := lt_smallestUnsignedIntegerFor hpow
  unfold Params.minorBinIndexWidth Params.minorBinsPerMajorBin
  omega

/-- The promotion does not change the index. -/
theorem getBinIndexPromoted_eq (hactive : q.activeTime ≤ time) (htime : time ≤ p.maxTimestamp) :
    q.getBinIndexPromoted time = some
      ⟨Radix.level p.bits q.activeTime.toNat time.toNat,
        Radix.digit p.bits (Radix.level p.bits q.activeTime.toNat time.toNat) time.toNat⟩ := by
  have hlevel : (max (Nat.size (time ^^^ q.activeTime).toNat) 1 - 1) / p.bits =
      Radix.level p.bits q.activeTime.toNat time.toNat := by
    rw [BitVec.toNat_xor, Radix.level]
    congr 1
    omega
  have hlt := p.level_lt_majorBinCount (BitVec.le_trans hactive htime) htime
  have hwidth := p.mul_bits_lt_width hlt
  have hminor : ((promote time >>> (Radix.level p.bits q.activeTime.toNat time.toNat * p.bits)) &&&
      BitVec.ofNat (promotedWidth p.width) (p.minorBinsPerMajorBin - 1)).toNat =
        Radix.digit p.bits (Radix.level p.bits q.activeTime.toNat time.toNat) time.toNat := by
    have hle : p.bits ≤ promotedWidth p.width := by
      have hbits := p.bits_lt
      unfold promotedWidth
      omega
    have hmask : 2 ^ p.bits - 1 < 2 ^ promotedWidth p.width :=
      Nat.lt_of_lt_of_le (Nat.sub_lt (Nat.two_pow_pos _) (by decide))
        (Nat.pow_le_pow_right (by decide) hle)
    rw [BitVec.toNat_and, BitVec.toNat_ushiftRight, toNat_promote, BitVec.toNat_ofNat,
      Params.minorBinsPerMajorBin, Nat.mod_eq_of_lt hmask, Nat.and_two_pow_sub_one_eq_mod,
      Nat.shiftRight_eq_div_pow]
    rfl
  have hdigit : Radix.digit p.bits (Radix.level p.bits q.activeTime.toNat time.toNat) time.toNat <
      p.minorBinsPerMajorBin := Radix.digit_lt
  unfold getBinIndexPromoted
  dsimp only
  rw [convert_xor, hlevel, if_pos ⟨hactive, htime, hlt⟩, shiftRight_eq hwidth, Option.bind_some,
    hminor, if_pos hdigit, Nat.mod_eq_of_lt (minor_lt_minorBinIndexWidth hdigit)]

theorem promote_one (hw : 0 < p.width) :
    promote (1 : p.Timestamp) = (1 : BitVec (promotedWidth p.width)) := by
  have hle : p.width ≤ promotedWidth p.width := le_promotedWidth
  apply BitVec.eq_of_toNat_eq
  rw [toNat_promote, toNat_one hw, toNat_one (by omega)]

theorem promote_convert_duration (hn : n < p.width) :
    promote (convert p.width ((1 : BitVec (promotedWidth p.width)) <<< n)) =
      (1 : BitVec (promotedWidth p.width)) <<< n := by
  have hlt : 2 ^ n < 2 ^ p.width := Nat.pow_lt_pow_right (by decide) hn
  have hle : p.width ≤ promotedWidth p.width := le_promotedWidth
  apply BitVec.eq_of_toNat_eq
  rw [toNat_promote, toNat_convert, toNat_one_shiftLeft (by omega), Nat.mod_eq_of_lt hlt]

/-- The modular mask, also where the shift leaves no bit of the type. -/
theorem convert_lowMask (hn : n < p.width) :
    convert p.width ((1 : BitVec (promotedWidth p.width)) <<< n <<< p.bits - 1) =
      (1 : p.Timestamp) <<< n <<< p.bits - 1 := by
  have hle : p.width ≤ promotedWidth p.width := le_promotedWidth
  apply BitVec.eq_of_getLsbD_eq
  intro i hi
  rw [getLsbD_convert hi, lowMask_getLsbD (by omega) (by omega), lowMask_getLsbD hn hi]

/-- Shifted as an `int` the duration keeps clear of the sign bit. -/
theorem decrement_eq (h : p.Standard) (hm : m < p.majorBinCount) :
    p.decrement ((1 : BitVec (promotedWidth p.width)) <<< (m * p.bits) <<< p.bits) =
      some ((1 : BitVec (promotedWidth p.width)) <<< (m * p.bits) <<< p.bits - 1) := by
  apply if_neg
  rintro ⟨hsigned, hmin⟩
  have hn := p.mul_bits_lt_width hm
  have hle := h.bits_le
  unfold Params.Signed at hsigned
  have hwidth : promotedWidth p.width = 32 := Nat.max_eq_right (by omega)
  have hsum : m * p.bits + p.bits < 31 := by
    have hw := h.width_mem
    rcases Nat.eq_zero_or_pos m with hzero | hpos
    · rw [hzero, Nat.zero_mul, Nat.zero_add]
      omega
    · have hmul : 1 * p.bits ≤ m * p.bits := Nat.mul_le_mul_right _ hpos
      omega
  have hpow : 2 ^ (m * p.bits + p.bits) < 2 ^ 31 := Nat.pow_lt_pow_right (by decide) hsum
  have hone : ((1 : BitVec (promotedWidth p.width)) <<< (m * p.bits)).toNat = 2 ^ (m * p.bits) :=
    toNat_one_shiftLeft (by omega)
  rw [BitVec.toNat_shiftLeft, hone, Nat.shiftLeft_eq, ← Nat.pow_add, hwidth,
    Nat.mod_eq_of_lt (Nat.lt_trans hpow (by decide))] at hmin
  omega

/-- The time of the bin of a timestamp, with nothing undefined on the way to it. -/
theorem getBinTimePromoted_eq (h : p.Standard) (hm : m < p.majorBinCount)
    (hupper : Radix.upper p.bits (m + 1) time.toNat = Radix.upper p.bits (m + 1) q.activeTime.toNat)
    (hdigit : Radix.digit p.bits m time.toNat = d) :
    q.getBinTimePromoted ⟨m, d⟩ = some (q.getBinTime ⟨m, d⟩) := by
  have hn := p.mul_bits_lt_width hm
  have hle : p.width ≤ promotedWidth p.width := le_promotedWidth
  have hpow : 2 ^ p.width ≤ 2 ^ promotedWidth p.width := Nat.pow_le_pow_right (by decide) hle
  have hduration : ((1 : BitVec (promotedWidth p.width)) <<< (m * p.bits)).toNat =
      2 ^ (m * p.bits) :=
    toNat_one_shiftLeft (by omega)
  have hhigh : (q.activeTime &&& ~~~((1 : p.Timestamp) <<< (m * p.bits) <<< p.bits - 1)).toNat =
      Radix.upper p.bits (m + 1) q.activeTime.toNat * 2 ^ ((m + 1) * p.bits) :=
    toNat_and_high (fun i hi => highMask_getLsbD hn hi) _
  have hstart : Radix.start p.bits q.activeTime.toNat m d ≤ time.toNat :=
    Radix.start_le hupper hdigit
  have hlt : Radix.start p.bits q.activeTime.toNat m d < 2 ^ p.width :=
    Nat.lt_of_le_of_lt hstart time.isLt
  have hint : p.MinorSigned → Radix.start p.bits q.activeTime.toNat m d < 2147483648 := by
    rintro ⟨hnarrow, -⟩
    have hw := h.width_mem
    have hle : 2 ^ p.width ≤ 2 ^ 16 := Nat.pow_le_pow_right (by decide) (by omega)
    omega
  have hstartEq : Radix.start p.bits q.activeTime.toNat m d =
      Radix.upper p.bits (m + 1) q.activeTime.toNat * 2 ^ ((m + 1) * p.bits) +
        2 ^ (m * p.bits) * d := by rw [Radix.start, Nat.mul_comm d]
  have hlow : 2 ^ (m * p.bits) * d < 2 ^ promotedWidth p.width := by omega
  have hd : d < 2 ^ promotedWidth p.width :=
    Nat.lt_of_le_of_lt (Nat.le_mul_of_pos_left d (Nat.two_pow_pos _)) hlow
  have hoffset : ((1 : BitVec (promotedWidth p.width)) <<< (m * p.bits) * BitVec.ofNat _ d).toNat =
      2 ^ (m * p.bits) * d := by
    rw [BitVec.toNat_mul, hduration, BitVec.toNat_ofNat, Nat.mod_eq_of_lt hd, Nat.mod_eq_of_lt hlow]
  have hbase : (promote q.activeTime &&&
      promote (~~~((1 : p.Timestamp) <<< (m * p.bits) <<< p.bits - 1))).toNat =
        Radix.upper p.bits (m + 1) q.activeTime.toNat * 2 ^ ((m + 1) * p.bits) := by
    rw [BitVec.toNat_and, toNat_promote, toNat_promote, ← BitVec.toNat_and, hhigh]
  have hbits : shiftLeft ((1 : BitVec (promotedWidth p.width)) <<< (m * p.bits)) p.bits =
      some ((1 : BitVec (promotedWidth p.width)) <<< (m * p.bits) <<< p.bits) := by
    apply if_pos
    have hbitsLt := p.bits_lt
    unfold promotedWidth
    omega
  have hmul : p.mulMinor ((1 : BitVec (promotedWidth p.width)) <<< (m * p.bits)) d =
      some ((1 : BitVec (promotedWidth p.width)) <<< (m * p.bits) * BitVec.ofNat _ d) := by
    apply if_neg
    rintro ⟨hsigned, hover⟩
    have hsmall := hint hsigned
    rw [hduration] at hover
    omega
  have hadd : p.addProduct (promote q.activeTime &&&
      promote (~~~((1 : p.Timestamp) <<< (m * p.bits) <<< p.bits - 1)))
        ((1 : BitVec (promotedWidth p.width)) <<< (m * p.bits) * BitVec.ofNat _ d) =
      some ((promote q.activeTime &&&
        promote (~~~((1 : p.Timestamp) <<< (m * p.bits) <<< p.bits - 1))) +
          (1 : BitVec (promotedWidth p.width)) <<< (m * p.bits) * BitVec.ofNat _ d) := by
    apply if_neg
    rintro ⟨hsigned, hover⟩
    have hsmall := hint hsigned
    rw [hbase, hoffset] at hover
    omega
  unfold getBinTimePromoted
  dsimp only
  rw [promote_one (by omega), shiftLeft_eq hn, Option.bind_some, promote_convert_duration hn,
    hbits, Option.bind_some, decrement_eq h hm, Option.bind_some, convert_lowMask hn,
    convert_not_promote, hmul, Option.bind_some, hadd, Option.map_some, Option.some.injEq]
  apply BitVec.eq_of_toNat_eq
  rw [getBinTime_toNat hm hupper hdigit, toNat_convert, BitVec.toNat_add, hbase, hoffset,
    ← hstartEq, Nat.mod_eq_of_lt (Nat.lt_of_lt_of_le hlt hpow), Nat.mod_eq_of_lt hlt]

/-- The bin that a time belongs in, its place in the array and its start. -/
structure Locates (q : Queue p α) (time : p.Timestamp) (index : BinIndex) : Prop where
  index_eq : q.getBinIndexPromoted time = some index
  major_lt : index.major < p.majorBinCount
  minor_lt : index.minor < 2 ^ p.bits
  round_trip : BinIndex.fromLinearIndexChecked p (index.linearIndex p) = some index
  bin_time : ∃ binTime, q.getBinTimePromoted index = some binTime ∧
    binTime.toNat = q.activeTime.toNat / 2 ^ ((index.major + 1) * p.bits) *
      2 ^ ((index.major + 1) * p.bits) + index.minor * 2 ^ (index.major * p.bits) ∧
    binTime.toNat ≤ time.toNat ∧ time.toNat < binTime.toNat + 2 ^ (index.major * p.bits)

/-- The number of bins does not wrap around, or it wraps to the one major bin that the time and the
active time have in common. -/
def InsideBins (q : Queue p α) (time : p.Timestamp) : Prop :=
  p.BinsFit ∨
    2 ^ 62 ≤ p.maxTimestamp.toNat ∧ time.toNat / 2 ^ 31 = q.activeTime.toNat / 2 ^ 31

theorem fromLinearIndex_linearIndex (hd : d < 2 ^ p.bits) :
    BinIndex.fromLinearIndex p ((⟨m, d⟩ : BinIndex).linearIndex p) = ⟨m, d⟩ := by
  unfold BinIndex.fromLinearIndex BinIndex.linearIndex Params.minorBinsPerMajorBin
  dsimp only
  rw [Nat.mul_comm m, Nat.mul_add_div (Nat.two_pow_pos _), Nat.div_eq_of_lt hd, Nat.add_zero,
    Nat.mul_add_mod, Nat.mod_eq_of_lt hd]

/-- Every other part of the arithmetic is right for every instantiation. -/
theorem locates_of_slot_lt (h : p.Standard) (hactive : q.activeTime ≤ time)
    (htime : time ≤ p.maxTimestamp) (hslot : q.slot time.toNat < p.totalBinCount) :
    q.Locates time ⟨Radix.level p.bits q.activeTime.toNat time.toNat,
      Radix.digit p.bits (Radix.level p.bits q.activeTime.toNat time.toNat) time.toNat⟩ := by
  have hlt := p.level_lt_majorBinCount (BitVec.le_trans hactive htime) htime
  have hupper := Radix.upper_level (a := q.activeTime.toNat) (x := time.toNat) p.bits_pos
  have hstart := getBinTime_toNat hlt hupper rfl
  refine ⟨getBinIndexPromoted_eq hactive htime, hlt, Radix.digit_lt, ?_,
    _, getBinTimePromoted_eq h hlt hupper rfl, hstart, ?_, ?_⟩
  · unfold BinIndex.fromLinearIndexChecked
    exact (if_pos hslot).trans (congrArg some (fromLinearIndex_linearIndex Radix.digit_lt))
  · rw [hstart]
    exact Radix.start_le hupper rfl
  · rw [hstart]
    exact Radix.lt_start_add hupper rfl

theorem Locates.slot_lt {index : BinIndex} (hlocates : q.Locates time index)
    (hactive : q.activeTime ≤ time) (htime : time ≤ p.maxTimestamp) :
    q.slot time.toNat < p.totalBinCount ∧ index.linearIndex p = q.slot time.toNat := by
  have hindex := hlocates.index_eq
  rw [getBinIndexPromoted_eq hactive htime] at hindex
  cases hindex
  have htrip := hlocates.round_trip
  unfold BinIndex.fromLinearIndexChecked at htrip
  split_ifs at htrip with hlt
  exact ⟨hlt, rfl⟩

end Queue

namespace Params
variable {p : Params}

/-- The product fits unless a minor bin index takes 31 bits. -/
theorem bits_of_not_binsFit (h : p.Standard) (hfit : ¬ p.BinsFit) :
    p.bits = 31 ∧ (p.majorBinCount = 2 ∨ p.majorBinCount = 3) ∧
      (p.majorBinCount = 3 ↔ 2 ^ 62 ≤ p.maxTimestamp.toNat) := by
  have hsize : Nat.size p.maxTimestamp.toNat ≤ 64 := by
    have hle : Nat.size p.maxTimestamp.toNat ≤ p.width := Nat.size_le.mpr p.maxTimestamp.isLt
    have hw := h.width_mem
    omega
  have hpos := p.bits_pos
  have hlt := p.bits_lt
  have hcount := p.majorBinCount_eq
  have hsmall : ∀ b ≤ 30, 0 < b → (63 / b + 1) * 2 ^ b < 2 ^ 32 := by decide
  unfold BinsFit minorBinsPerMajorBin at hfit
  have hbits : p.bits = 31 := by
    by_contra hne
    have hfew := hsmall p.bits (by omega) hpos
    have hle : p.majorBinCount ≤ 63 / p.bits + 1 := by
      rw [hcount]
      exact Nat.add_le_add_right (Nat.div_le_div_right (by omega)) 1
    have hmul := Nat.mul_le_mul_right (2 ^ p.bits) hle
    omega
  have hsize62 : 62 < Nat.size p.maxTimestamp.toNat ↔ 2 ^ 62 ≤ p.maxTimestamp.toNat := Nat.lt_size
  rw [hbits] at hcount hfit
  refine ⟨hbits, by omega, ?_⟩
  rw [← hsize62]
  omega

end Params

namespace Queue
variable {p : Params} {α : Type} {q : Queue p α} {s t time : p.Timestamp}

theorem slot_lt_iff (h : p.Standard) (hactive : q.activeTime ≤ time)
    (htime : time ≤ p.maxTimestamp) :
    q.slot time.toNat < p.totalBinCount ↔ q.InsideBins time := by
  by_cases hfit : p.BinsFit
  · exact iff_of_true (slot_lt_of_binsFit hfit hactive htime) (Or.inl hfit)
  · obtain ⟨hbits, hcount, hthree⟩ := Params.bits_of_not_binsFit h hfit
    have hlevel : Radix.level p.bits q.activeTime.toNat time.toNat ≤ 0 ↔
        time.toNat / 2 ^ 31 = q.activeTime.toNat / 2 ^ 31 := by
      rw [Radix.level_le_iff p.bits_pos, Radix.upper, Radix.upper, hbits]
    have hdigit : Radix.digit p.bits (Radix.level p.bits q.activeTime.toNat time.toNat) time.toNat <
      2 ^ p.bits := Radix.digit_lt
    unfold InsideBins
    rw [← hthree, ← hlevel, slot, Radix.slot, Params.totalBinCount, Params.minorBinsPerMajorBin]
    rw [hbits] at hdigit ⊢
    simp only [hfit, false_or]
    rcases hcount with hcount | hcount
    · rw [hcount]
      omega
    · rw [hcount]
      omega

/-- The arithmetic is right, with the assertion of `from_linear_index`, exactly where the bin of the
later time is inside of the array. -/
theorem bin_arithmetic_iff (h : p.Standard) (q : Queue p α) (s t : p.Timestamp)
    (hactive : q.activeTime ≤ s) (hst : s ≤ t) (htime : t ≤ p.maxTimestamp) :
    (∃ i j, q.Locates s i ∧ q.Locates t j ∧ i.linearIndex p ≤ j.linearIndex p) ↔
      q.InsideBins t := by
  have hactive' := BitVec.le_trans hactive hst
  have htime' := BitVec.le_trans hst htime
  have hmono : q.slot s.toNat ≤ q.slot t.toNat :=
    Radix.slot_mono p.bits_pos (BitVec.le_def.mp hactive) (BitVec.le_def.mp hst)
  rw [← slot_lt_iff h hactive' htime]
  constructor
  · rintro ⟨i, j, -, hj, -⟩
    exact (hj.slot_lt hactive' htime).1
  · intro hslot
    exact ⟨_, _, locates_of_slot_lt h hactive htime' (Nat.lt_of_le_of_lt hmono hslot),
      locates_of_slot_lt h hactive' htime hslot, hmono⟩

theorem bin_arithmetic_iff_twoItems :
    (∃ i j, twoItems.Locates 0x4A i ∧ twoItems.Locates 0x52 j ∧
      i.linearIndex sixteenMinorBins ≤ j.linearIndex sixteenMinorBins) ↔
      twoItems.InsideBins 0x52 :=
  bin_arithmetic_iff (by decide) twoItems 0x4A 0x52 (by decide) (by decide) (by decide)

/-- The first time of the second major bin does not pass the assertion. -/
theorem bin_arithmetic_fails :
    ¬ ∀ (p : Params), p.Standard → ∀ (q : Queue p Unit) (s t : p.Timestamp),
      p.minorBinsPerMajorBin ∣ q.activeTime.toNat → q.activeTime ≤ s → s ≤ t →
      t ≤ p.maxTimestamp →
      ∃ i j, q.Locates s i ∧ q.Locates t j ∧ i.linearIndex p ≤ j.linearIndex p := by
  intro hall
  have hactive : ({} : Queue overflowingBins Unit).activeTime ≤ (2147483648 : BitVec 64) := by
    decide
  have htime : (2147483648 : BitVec 64) ≤ overflowingBins.maxTimestamp := by decide
  obtain ⟨i, j, -, hj, -⟩ := hall overflowingBins (by decide) {} 2147483648 2147483648
    (Nat.dvd_zero _) hactive (BitVec.le_refl _) htime
  exact absurd (hj.slot_lt hactive htime).1 (by decide)

end Queue
end Squiz.Detail.BinnedTimePriorityQueue
