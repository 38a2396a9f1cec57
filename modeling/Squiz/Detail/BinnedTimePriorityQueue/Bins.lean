import Squiz.Detail.BinnedTimePriorityQueue.Queue
import Squiz.Lib.Radix

/-! Bin indices and bin times in the arithmetic of natural numbers. -/
namespace Squiz.Detail.BinnedTimePriorityQueue
open Squiz.Lib

section
variable {w n : ℕ}

/-- Masking the low bits off. -/
theorem toNat_and_high {mask : BitVec w} (hmask : ∀ i < w, mask.getLsbD i = decide (n ≤ i))
    (a : BitVec w) : (a &&& mask).toNat = a.toNat / 2 ^ n * 2 ^ n := by
  apply Nat.eq_of_testBit_eq
  intro i
  rw [BitVec.toNat_and, Nat.testBit_and, Nat.testBit_mul_two_pow]
  by_cases hi : i < w
  · have hbit : mask.toNat.testBit i = decide (n ≤ i) := hmask i hi
    rw [hbit]
    by_cases hn : n ≤ i
    · rw [Nat.testBit_div_two_pow, Nat.sub_add_cancel hn]
      simp [hn]
    · simp [hn]
  · have hzero : a.toNat.testBit i = false := BitVec.getLsbD_of_ge a i (Nat.le_of_not_lt hi)
    rw [hzero, Bool.false_and]
    by_cases hn : n ≤ i
    · rw [Nat.testBit_div_two_pow, Nat.sub_add_cancel hn, hzero]
      simp
    · simp [hn]

end

section
variable {w n k : ℕ}

theorem toNat_one (hw : 0 < w) : (1 : BitVec w).toNat = 1 := by
  have hlt : 1 < 2 ^ w := Nat.one_lt_two_pow (by omega)
  exact Nat.mod_eq_of_lt hlt

theorem toNat_one_shiftLeft (hn : n < w) : ((1 : BitVec w) <<< n).toNat = 2 ^ n := by
  have hone : (1 : BitVec w).toNat = 1 := toNat_one (by omega)
  have hlt : 2 ^ n < 2 ^ w := Nat.pow_lt_pow_right (by omega) hn
  rw [BitVec.toNat_shiftLeft, hone, Nat.one_shiftLeft, Nat.mod_eq_of_lt hlt]

/-- The mask of the low bits, also where the shift leaves no bit. -/
theorem lowMask_getLsbD {i : ℕ} (hn : n < w) (hi : i < w) :
    (((1 : BitVec w) <<< n <<< k) - 1).getLsbD i = decide (i < n + k) := by
  have hone : (1 : BitVec w).toNat = 1 := toNat_one (by omega)
  have hshift : ((1 : BitVec w) <<< n <<< k).toNat = 2 ^ (n + k) % 2 ^ w := by
    rw [BitVec.toNat_shiftLeft, toNat_one_shiftLeft hn, Nat.shiftLeft_eq, Nat.pow_add]
  have hpow : 0 < 2 ^ w := Nat.two_pow_pos w
  by_cases hnk : n + k < w
  · have hlt : 2 ^ (n + k) < 2 ^ w := Nat.pow_lt_pow_right (by omega) hnk
    have hpos : 0 < 2 ^ (n + k) := Nat.two_pow_pos _
    have hsub : (((1 : BitVec w) <<< n <<< k) - 1).toNat = 2 ^ (n + k) - 1 := by
      rw [BitVec.toNat_sub, hshift, hone, Nat.mod_eq_of_lt hlt]
      have hsum : 2 ^ w - 1 + 2 ^ (n + k) = 2 ^ (n + k) - 1 + 2 ^ w := by omega
      rw [hsum, Nat.add_mod_right, Nat.mod_eq_of_lt (by omega)]
    rw [BitVec.getLsbD, hsub, Nat.testBit_two_pow_sub_one]
  · have hdvd : 2 ^ w ∣ 2 ^ (n + k) := Nat.pow_dvd_pow 2 (by omega)
    have hsub : (((1 : BitVec w) <<< n <<< k) - 1).toNat = 2 ^ w - 1 := by
      rw [BitVec.toNat_sub, hshift, hone, Nat.mod_eq_zero_of_dvd hdvd, Nat.add_zero,
        Nat.mod_eq_of_lt (by omega)]
    rw [BitVec.getLsbD, hsub, Nat.testBit_two_pow_sub_one]
    congr 1
    exact propext (by omega)

end

namespace Params
variable (p : Params)

theorem minorIndexMask_getLsbD {i : ℕ} (hi : i < p.width) :
    p.minorIndexMask.getLsbD i = decide (i < p.bits) := by
  unfold minorIndexMask minorBinsPerMajorBin
  rw [BitVec.getLsbD_ofNat, Nat.testBit_two_pow_sub_one]
  simp [hi]

theorem toNat_and_minorIndexMask (t : p.Timestamp) :
    (t &&& p.minorIndexMask).toNat = t.toNat % 2 ^ p.bits := by
  apply Nat.eq_of_testBit_eq
  intro i
  rw [BitVec.toNat_and, Nat.testBit_and, Nat.testBit_mod_two_pow]
  by_cases hi : i < p.width
  · have hbit : p.minorIndexMask.toNat.testBit i = decide (i < p.bits) :=
      p.minorIndexMask_getLsbD hi
    rw [hbit, Bool.and_comm]
  · have hzero : t.toNat.testBit i = false := BitVec.getLsbD_of_ge t i (Nat.le_of_not_lt hi)
    simp [hzero]

/-- What the source computes as `(time >> shift) & minor_index_mask`. -/
theorem toNat_digit (t : p.Timestamp) (j : ℕ) :
    ((t >>> (j * p.bits)) &&& p.minorIndexMask).toNat = Radix.digit p.bits j t.toNat := by
  rw [toNat_and_minorIndexMask, BitVec.toNat_ushiftRight, Nat.shiftRight_eq_div_pow]
  rfl

theorem activeTimeMask_getLsbD {i m : ℕ} (hi : i < p.width) :
    (p.activeTimeMask <<< (m * p.bits)).getLsbD i = decide ((m + 1) * p.bits ≤ i) := by
  rw [BitVec.getLsbD_shiftLeft, activeTimeMask, BitVec.getLsbD_not, Nat.add_one_mul]
  by_cases hm : i < m * p.bits
  · have hle : ¬ m * p.bits + p.bits ≤ i := by omega
    simp [hm, hle]
  · have hlt : i - m * p.bits < p.width := by omega
    rw [minorIndexMask_getLsbD p hlt]
    simp only [hi, hm, hlt, decide_true, decide_false, Bool.not_false, Bool.true_and,
      ← decide_not]
    congr 1
    exact propext (by omega)

theorem size_maxTimestamp_pos : 0 < Nat.size p.maxTimestamp.toNat := by
  rw [Nat.size_pos]
  have h := p.maxTimestamp_pos
  rw [BitVec.lt_def] at h
  simpa using h

theorem majorBinCount_eq : p.majorBinCount = (Nat.size p.maxTimestamp.toNat - 1) / p.bits + 1 := by
  have hpos := p.size_maxTimestamp_pos
  have hbits := p.bits_pos
  unfold majorBinCount
  rw [← Nat.add_div_right _ hbits]
  congr 1
  omega

/-- The shift by the bits of the major bins before it is defined. -/
theorem mul_bits_lt_width {m : ℕ} (hm : m < p.majorBinCount) : m * p.bits < p.width := by
  have hsize : Nat.size p.maxTimestamp.toNat ≤ p.width := Nat.size_le.mpr p.maxTimestamp.isLt
  have hpos := p.size_maxTimestamp_pos
  rw [majorBinCount_eq, Nat.lt_add_one_iff, Nat.le_div_iff_mul_le p.bits_pos] at hm
  omega

theorem level_lt_majorBinCount {a t : p.Timestamp} (ha : a ≤ p.maxTimestamp)
    (ht : t ≤ p.maxTimestamp) : Radix.level p.bits a.toNat t.toNat < p.majorBinCount := by
  rw [BitVec.le_def] at ha ht
  have hlt : t.toNat ^^^ a.toNat < 2 ^ Nat.size p.maxTimestamp.toNat := by
    apply Nat.xor_lt_two_pow
    · exact Nat.lt_of_le_of_lt ht (Nat.lt_size_self _)
    · exact Nat.lt_of_le_of_lt ha (Nat.lt_size_self _)
  have hsize : Nat.size (t.toNat ^^^ a.toNat) ≤ Nat.size p.maxTimestamp.toNat := Nat.size_le.mpr hlt
  rw [majorBinCount_eq, Nat.lt_add_one_iff]
  exact Nat.div_le_div_right (by omega)

/-- The array of bins is as long as it should be. -/
def BinsFit : Prop := p.majorBinCount * p.minorBinsPerMajorBin < 2 ^ 32

variable {p}

theorem totalBinCount_eq (h : p.BinsFit) : p.totalBinCount = p.majorBinCount * 2 ^ p.bits :=
  Nat.mod_eq_of_lt h

theorem linearIndex_lt (h : p.BinsFit) {m d : ℕ} (hm : m < p.majorBinCount) (hd : d < 2 ^ p.bits) :
    m * 2 ^ p.bits + d < p.totalBinCount := by
  rw [totalBinCount_eq h]
  have hmul : (m + 1) * 2 ^ p.bits ≤ p.majorBinCount * 2 ^ p.bits := Nat.mul_le_mul_right _ hm
  rw [Nat.add_one_mul] at hmul
  omega

end Params

namespace Queue
variable {p : Params} {α : Type} {q : Queue p α}

theorem getBinIndex_eq {time : p.Timestamp} (hactive : q.activeTime ≤ time)
    (htime : time ≤ p.maxTimestamp) : q.getBinIndex time = some
      ⟨Radix.level p.bits q.activeTime.toNat time.toNat,
        Radix.digit p.bits (Radix.level p.bits q.activeTime.toNat time.toNat) time.toNat⟩ := by
  have hlevel : (max (Nat.size (time ^^^ q.activeTime).toNat) 1 - 1) / p.bits =
      Radix.level p.bits q.activeTime.toNat time.toNat := by
    rw [BitVec.toNat_xor, Radix.level]
    congr 1
    omega
  have hlt := p.level_lt_majorBinCount (BitVec.le_trans hactive htime) htime
  unfold getBinIndex
  dsimp only
  rw [hlevel, if_pos ⟨hactive, htime, hlt⟩, Params.toNat_digit]

/-- The mask of the digits above a major bin. -/
theorem highMask_getLsbD {m i : ℕ} (hm : m * p.bits < p.width) (hi : i < p.width) :
    (~~~(((1 : p.Timestamp) <<< (m * p.bits) <<< p.bits) - 1)).getLsbD i =
      decide ((m + 1) * p.bits ≤ i) := by
  rw [BitVec.getLsbD_not, lowMask_getLsbD hm hi, Nat.add_one_mul, decide_eq_true hi,
    Bool.true_and, ← decide_not]
  congr 1
  exact propext Nat.not_lt

/-- The bin of a time starts at or before it. -/
theorem getBinTime_toNat {time : p.Timestamp} {m d : ℕ} (hm : m < p.majorBinCount)
    (hupper : Radix.upper p.bits (m + 1) time.toNat = Radix.upper p.bits (m + 1) q.activeTime.toNat)
    (hdigit : Radix.digit p.bits m time.toNat = d) :
    (q.getBinTime ⟨m, d⟩).toNat = Radix.start p.bits q.activeTime.toNat m d := by
  have hwidth : m * p.bits < p.width := p.mul_bits_lt_width hm
  have hhigh : (q.activeTime &&& ~~~(((1 : p.Timestamp) <<< (m * p.bits) <<< p.bits) - 1)).toNat =
      Radix.upper p.bits (m + 1) q.activeTime.toNat * 2 ^ ((m + 1) * p.bits) :=
    toNat_and_high (fun i hi => highMask_getLsbD hwidth hi) _
  have hle : Radix.start p.bits q.activeTime.toNat m d ≤ time.toNat := Radix.start_le hupper hdigit
  have hlt : Radix.start p.bits q.activeTime.toNat m d < 2 ^ p.width :=
    Nat.lt_of_le_of_lt hle time.isLt
  have hpos : 0 < 2 ^ (m * p.bits) := Nat.two_pow_pos _
  have hmul : 2 ^ (m * p.bits) * d = d * 2 ^ (m * p.bits) := Nat.mul_comm _ _
  have hd : d * 2 ^ (m * p.bits) < 2 ^ p.width := by
    unfold Radix.start at hlt
    omega
  have hdlt : d < 2 ^ p.width := Nat.lt_of_le_of_lt (Nat.le_mul_of_pos_right d hpos) hd
  unfold getBinTime
  dsimp only
  rw [BitVec.toNat_add, hhigh, BitVec.toNat_mul, toNat_one_shiftLeft hwidth, BitVec.toNat_ofNat,
    Nat.mod_eq_of_lt hdlt, hmul, Nat.mod_eq_of_lt hd]
  exact Nat.mod_eq_of_lt hlt

/-- A base without digits in a major bin and below. -/
theorem getBinTime_eq_add {m d : ℕ} (hm : m * p.bits < p.width)
    (hbase : 2 ^ ((m + 1) * p.bits) ∣ q.activeTime.toNat) :
    q.getBinTime ⟨m, d⟩ = q.activeTime + BitVec.ofNat _ (d * 2 ^ (m * p.bits)) := by
  have hhigh : q.activeTime &&& ~~~(((1 : p.Timestamp) <<< (m * p.bits) <<< p.bits) - 1) =
      q.activeTime := by
    apply BitVec.eq_of_toNat_eq
    rw [toNat_and_high (fun i hi => highMask_getLsbD hm hi), Nat.div_mul_cancel hbase]
  have hmul : (1 : p.Timestamp) <<< (m * p.bits) * BitVec.ofNat _ d =
      BitVec.ofNat _ (d * 2 ^ (m * p.bits)) := by
    apply BitVec.eq_of_toNat_eq
    rw [BitVec.toNat_mul, toNat_one_shiftLeft hm, BitVec.toNat_ofNat, BitVec.toNat_ofNat,
      Nat.mul_mod_mod, Nat.mul_comm]
  unfold getBinTime
  dsimp only
  rw [hhigh, hmul]

/-- The base of a round is the start of the bin, whatever the state. -/
theorem roundActiveTime_eq_getBinTime {m d : ℕ} (hm : m * p.bits < p.width)
    (hd : d < 2 ^ p.bits) : q.roundActiveTime ⟨m, d⟩ = q.getBinTime ⟨m, d⟩ := by
  have hmask : p.activeTimeMask <<< (m * p.bits) =
      ~~~(((1 : p.Timestamp) <<< (m * p.bits) <<< p.bits) - 1) := by
    apply BitVec.eq_of_getLsbD_eq
    intro i hi
    rw [p.activeTimeMask_getLsbD hi, highMask_getLsbD hm hi]
  have hmul : (1 : p.Timestamp) <<< (m * p.bits) * BitVec.ofNat _ d =
      BitVec.ofNat _ d <<< (m * p.bits) := by
    apply BitVec.eq_of_toNat_eq
    rw [BitVec.toNat_mul, toNat_one_shiftLeft hm, BitVec.toNat_shiftLeft, Nat.shiftLeft_eq,
      Nat.mul_comm]
  have hdisjoint : (q.activeTime &&& p.activeTimeMask <<< (m * p.bits)) &&&
      (BitVec.ofNat p.width d <<< (m * p.bits)) = 0#p.width := by
    apply BitVec.eq_of_getLsbD_eq
    intro i hi
    rw [BitVec.getLsbD_and, BitVec.getLsbD_and, p.activeTimeMask_getLsbD hi,
      BitVec.getLsbD_shiftLeft, BitVec.getLsbD_ofNat, BitVec.getLsbD_zero]
    by_cases hle : (m + 1) * p.bits ≤ i
    · have hbit : d.testBit (i - m * p.bits) = false := by
        apply Nat.testBit_lt_two_pow
        rw [Nat.add_one_mul] at hle
        exact Nat.lt_of_lt_of_le hd (Nat.pow_le_pow_right (by decide) (by omega))
      simp [hbit]
    · simp [hle]
  unfold roundActiveTime getBinTime
  dsimp only
  rw [← BitVec.add_eq_or_of_and_eq_zero _ _ hdisjoint, hmask, hmul]

/-- A round leaves no digits of the base in the major bins before the one it redistributes. -/
theorem dvd_roundActiveTime (m d : ℕ) :
    2 ^ (m * p.bits) ∣ (q.roundActiveTime ⟨m, d⟩).toNat := by
  unfold roundActiveTime
  dsimp only
  have hhigh : (q.activeTime &&& (p.activeTimeMask <<< (m * p.bits))).toNat =
      q.activeTime.toNat / 2 ^ ((m + 1) * p.bits) * 2 ^ ((m + 1) * p.bits) :=
    toNat_and_high (fun i hi => p.activeTimeMask_getLsbD hi) _
  have hlow : (BitVec.ofNat p.width d <<< (m * p.bits)).toNat % 2 ^ (m * p.bits) = 0 := by
    rw [BitVec.toNat_shiftLeft, Nat.shiftLeft_eq]
    by_cases hm : m * p.bits ≤ p.width
    · rw [Nat.mod_mod_of_dvd _ (Nat.pow_dvd_pow 2 hm), Nat.mul_mod_left]
    · have hdvd : 2 ^ p.width ∣ 2 ^ (m * p.bits) := Nat.pow_dvd_pow 2 (by omega)
      rw [Nat.mod_eq_zero_of_dvd (Nat.dvd_trans hdvd (Nat.dvd_mul_left _ _)), Nat.zero_mod]
  apply Nat.dvd_of_mod_eq_zero
  rw [BitVec.toNat_or, Nat.or_mod_two_pow, hhigh, hlow, Nat.or_zero, Radix.two_pow_succ_mul,
    Nat.mul_comm (2 ^ (m * p.bits)), ← Nat.mul_assoc, Nat.mul_mod_left]

/-- Rounded down to a multiple of the number of minor bins. -/
theorem toNat_and_activeTimeMask (t : p.Timestamp) :
    (t &&& p.activeTimeMask).toNat = Radix.upper p.bits 1 t.toNat * 2 ^ p.bits := by
  have hmask : ∀ i < p.width, p.activeTimeMask.getLsbD i = decide (p.bits ≤ i) := by
    intro i hi
    have h := p.activeTimeMask_getLsbD (m := 0) hi
    simpa using h
  rw [toNat_and_high hmask, Radix.upper, Nat.one_mul]

end Queue
end Squiz.Detail.BinnedTimePriorityQueue
