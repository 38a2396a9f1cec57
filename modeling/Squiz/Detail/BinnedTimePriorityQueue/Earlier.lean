import Squiz.Detail.BinnedTimePriorityQueue.Update

/-! Insertion before the active time of a `binned_time_priority_queue`. -/
namespace Squiz.Detail.BinnedTimePriorityQueue
open Squiz.Lib

namespace Queue
variable {p : Params} {α : Type}

/-- The bin to which `set_earlier_active_time` moves items. -/
def targetBin (q : Queue p α) (newActiveTime : p.Timestamp) : ℕ :=
  (q.relocationIndex (newActiveTime &&& p.activeTimeMask)).linearIndex p

/-- `set_earlier_active_time` has an empty bin to move items to, and leaves the same items in a
placed queue with the new time, rounded down, as its base. -/
structure Relocates (due : α → p.Timestamp) (q : Queue p α) (newActiveTime : p.Timestamp) :
    Prop where
  target_lt : q.targetBin newActiveTime < p.totalBinCount
  target_empty : q.bins (q.targetBin newActiveTime) = []
  placed : ∃ q', q.setEarlierActiveTime newActiveTime = some q' ∧ Placed due q' ∧
    q'.activeTime.toNat =
      newActiveTime.toNat / p.minorBinsPerMajorBin * p.minorBinsPerMajorBin ∧
    SameOrder (dueTime due) q'.items q.items

/-- The major bin that the number of the highest differing bit gives. -/
def targetMajorBin (q : Queue p α) (newActiveTime : p.Timestamp) : ℕ :=
  Nat.size ((newActiveTime &&& p.activeTimeMask) ^^^ q.activeTime).toNat / p.bits

/-- The target bin exists, and every item differs from the active time in the digits from there on.
So there is no item to be moved. -/
def NothingToMove (due : α → p.Timestamp) (q : Queue p α) (newActiveTime : p.Timestamp) : Prop :=
  q.targetMajorBin newActiveTime < p.totalBinCount / p.minorBinsPerMajorBin ∧
    ∀ x ∈ q.items, Radix.upper p.bits (q.targetMajorBin newActiveTime) (due x).toNat ≠
      Radix.upper p.bits (q.targetMajorBin newActiveTime) q.activeTime.toNat

instance (due : α → p.Timestamp) (q : Queue p α) (newActiveTime : p.Timestamp) :
    Decidable (q.NothingToMove due newActiveTime) :=
  inferInstanceAs (Decidable (_ ∧ ∀ x ∈ q.items, _))

variable {q q' : Queue p α} {due : α → p.Timestamp} {l : List α} {newActiveTime : p.Timestamp}

/-- The loop leaves the mark of the target bin as it is, and nothing is taken out of it. -/
theorem moveBins_target {target rounds : ℕ} (h : q.moveBins target rounds = some q') :
    q'.nonemptyBins target = q.nonemptyBins target ∧
      (q.bins target ≠ [] → q'.bins target ≠ []) := by
  induction rounds generalizing q with
  | zero => cases h
  | succ rounds ih =>
    rw [moveBins] at h
    split at h
    · next hlt =>
      obtain ⟨hmark, hbin⟩ := ih h
      have hne : target ≠ q.firstNonemptyBin := by omega
      dsimp only at hmark
      rw [Function.update_of_ne hne] at hmark
      refine ⟨hmark, fun htarget => hbin ?_⟩
      dsimp only
      rw [Function.update_of_ne hne, Function.update_self]
      simp [htarget]
    · cases h
      exact ⟨rfl, id⟩

/-- Once a bin is moved, the target bin has items. -/
theorem moveBins_ne_nil {target rounds : ℕ} (h : q.moveBins target rounds = some q')
    (hlt : q.firstNonemptyBin < target) (hfirst : q.bins q.firstNonemptyBin ≠ []) :
    q'.bins target ≠ [] := by
  cases rounds with
  | zero => cases h
  | succ rounds =>
    rw [moveBins, if_pos hlt] at h
    apply (moveBins_target h).2
    dsimp only
    rw [Function.update_of_ne (by omega), Function.update_self]
    simp [hfirst]

theorem minorBinsPerMajorBin_dvd_totalBinCount : p.minorBinsPerMajorBin ∣ p.totalBinCount := by
  unfold Params.totalBinCount Params.minorBinsPerMajorBin
  rw [Nat.dvd_mod_iff (Nat.pow_dvd_pow 2 (Nat.le_of_lt p.bits_lt))]
  exact Nat.dvd_mul_left _ _

theorem lt_totalBinCount_iff {major minor : ℕ} (hminor : minor < 2 ^ p.bits) :
    major * 2 ^ p.bits + minor < p.totalBinCount ↔
      major < p.totalBinCount / p.minorBinsPerMajorBin := by
  obtain ⟨count, hcount⟩ := minorBinsPerMajorBin_dvd_totalBinCount (p := p)
  have hpow : 0 < 2 ^ p.bits := Nat.two_pow_pos _
  have hdiv : p.totalBinCount / p.minorBinsPerMajorBin = count := by
    rw [hcount]
    exact Nat.mul_div_cancel_left _ hpow
  have htotal : p.totalBinCount = count * 2 ^ p.bits := by
    rw [hcount, Nat.mul_comm]
    rfl
  rw [hdiv, htotal]
  constructor
  · intro hlt
    by_contra hge
    have hmul := Nat.mul_le_mul_right (2 ^ p.bits) (Nat.le_of_not_lt hge)
    omega
  · intro hlt
    have hmul := Nat.mul_le_mul_right (2 ^ p.bits) (Nat.succ_le_of_lt hlt)
    rw [Nat.succ_mul] at hmul
    omega

theorem targetBin_eq (q : Queue p α) (newActiveTime : p.Timestamp) :
    q.targetBin newActiveTime = q.targetMajorBin newActiveTime * 2 ^ p.bits +
      Radix.digit p.bits (q.targetMajorBin newActiveTime) q.activeTime.toNat := by
  unfold targetBin relocationIndex
  dsimp only
  rw [Params.toNat_digit]
  rfl

theorem targetBin_lt_iff : q.targetBin newActiveTime < p.totalBinCount ↔
    q.targetMajorBin newActiveTime < p.totalBinCount / p.minorBinsPerMajorBin := by
  rw [targetBin_eq]
  exact lt_totalBinCount_iff Radix.digit_lt

theorem rounded_le (hnew : newActiveTime < q.activeTime) :
    (newActiveTime &&& p.activeTimeMask).toNat ≤ q.activeTime.toNat := by
  rw [toNat_and_activeTimeMask, Radix.upper, Nat.one_mul]
  rw [BitVec.lt_def] at hnew
  exact Nat.le_trans (Nat.div_mul_le_self _ _) (Nat.le_of_lt hnew)

/-- The assertion on the highest differing bit holds. -/
theorem bits_lt_size (haligned : p.minorBinsPerMajorBin ∣ q.activeTime.toNat)
    (hnew : newActiveTime < q.activeTime) :
    p.bits < Nat.size ((newActiveTime &&& p.activeTimeMask) ^^^ q.activeTime).toNat := by
  by_contra hle
  rw [Nat.not_lt, Nat.size_le, BitVec.toNat_xor, Radix.xor_lt_iff, toNat_and_activeTimeMask,
    Nat.mul_div_cancel _ (Nat.two_pow_pos _), Radix.upper, Nat.one_mul] at hle
  have hactive := Nat.div_mul_cancel haligned
  have hround : newActiveTime.toNat / 2 ^ p.bits * 2 ^ p.bits ≤ newActiveTime.toNat :=
    Nat.div_mul_le_self _ _
  rw [BitVec.lt_def] at hnew
  unfold Params.minorBinsPerMajorBin at hactive
  rw [hle] at hround
  omega

theorem targetMajorBin_pos (haligned : p.minorBinsPerMajorBin ∣ q.activeTime.toNat)
    (hnew : newActiveTime < q.activeTime) : 0 < q.targetMajorBin newActiveTime :=
  Nat.div_pos (Nat.le_of_lt (bits_lt_size haligned hnew)) p.bits_pos

namespace Holds
variable {x : α} (h : Holds due l q) (hnew : newActiveTime < q.activeTime)
include h hnew

/-- An item that differs from the active time in the digits from the target bin's on is in a later
bin, and belongs there under the new time as well. -/
theorem slot_of_upper_ne (hx : x ∈ l)
    (hne : Radix.upper p.bits (q.targetMajorBin newActiveTime) (due x).toNat ≠
      Radix.upper p.bits (q.targetMajorBin newActiveTime) q.activeTime.toNat) :
    Radix.slot p.bits (newActiveTime &&& p.activeTimeMask).toNat (due x).toNat =
        q.slot (due x).toNat ∧
      q.targetBin newActiveTime < q.slot (due x).toNat := by
  have hbase : Radix.upper p.bits (q.targetMajorBin newActiveTime + 1)
      (newActiveTime &&& p.activeTimeMask).toNat =
      Radix.upper p.bits (q.targetMajorBin newActiveTime + 1) q.activeTime.toNat := by
    unfold targetMajorBin
    rw [BitVec.toNat_xor]
    exact Radix.upper_succ_eq_of_size p.bits_pos
  rw [targetBin_eq]
  exact Radix.slot_of_smaller p.bits_pos (rounded_le hnew) (BitVec.le_def.mp (h.active_le x hx))
    (targetMajorBin_pos h.aligned hnew) hbase hne

/-- The target bin is empty. -/
theorem targetBin_eq_nil : q.bins (q.targetBin newActiveTime) = [] := by
  rw [List.eq_nil_iff_forall_not_mem]
  intro x hx
  obtain ⟨hxl, hslot⟩ := h.mem_bins_iff.mp hx
  have hpos := targetMajorBin_pos h.aligned hnew
  rw [targetBin_eq] at hslot
  have hlevel : Radix.level p.bits q.activeTime.toNat (due x).toNat =
      q.targetMajorBin newActiveTime := by
    rw [← Radix.slot_div, ← slot, hslot, Nat.mul_comm, Nat.mul_add_div (Nat.two_pow_pos _),
      Nat.div_eq_of_lt Radix.digit_lt, Nat.add_zero]
  have hdigit := Radix.digit_ne (a := q.activeTime.toNat) (x := (due x).toNat) p.bits_pos
    (by rwa [hlevel])
  rw [slot, Radix.slot_eq hlevel, Nat.add_left_cancel_iff] at hslot
  rw [hlevel] at hdigit
  exact hdigit hslot

theorem setEarlierActiveTime_eq
    (hlt : q.targetMajorBin newActiveTime < p.totalBinCount / p.minorBinsPerMajorBin) :
    q.setEarlierActiveTime newActiveTime =
      (q.moveBins (q.targetBin newActiveTime) (p.totalBinCount + 1)).map
        fun q => { q with activeTime := newActiveTime &&& p.activeTimeMask } := by
  have hwidth : q.targetMajorBin newActiveTime * p.bits < max p.width 32 := by
    have hle : p.totalBinCount ≤ p.majorBinCount * p.minorBinsPerMajorBin := Nat.mod_le _ _
    have hcount : p.totalBinCount / p.minorBinsPerMajorBin ≤ p.majorBinCount :=
      Nat.div_le_of_le_mul (by rwa [Nat.mul_comm])
    have hmul := p.mul_bits_lt_width (Nat.lt_of_lt_of_le hlt hcount)
    omega
  exact if_pos ⟨hnew, bits_lt_size h.aligned hnew, hwidth, targetBin_lt_iff.mpr hlt,
    h.targetBin_eq_nil hnew⟩

/-- Without an item to be moved only the base changes. -/
theorem setEarlierActiveTime
    (hlt : q.targetMajorBin newActiveTime < p.totalBinCount / p.minorBinsPerMajorBin)
    (hne : ∀ x ∈ l, Radix.upper p.bits (q.targetMajorBin newActiveTime) (due x).toNat ≠
      Radix.upper p.bits (q.targetMajorBin newActiveTime) q.activeTime.toNat) :
    q.setEarlierActiveTime newActiveTime =
        some { q with activeTime := newActiveTime &&& p.activeTimeMask } ∧
      Holds due l { q with activeTime := newActiveTime &&& p.activeTimeMask } := by
  constructor
  · have hstop : ¬ q.firstNonemptyBin < q.targetBin newActiveTime := by
      intro hless
      have htarget : q.targetBin newActiveTime < p.totalBinCount := targetBin_lt_iff.mpr hlt
      obtain ⟨x, hx⟩ := List.exists_mem_of_ne_nil _
        (h.marked.first_ne (Nat.lt_trans hless htarget))
      obtain ⟨hxl, hslot⟩ := h.mem_bins_iff.mp hx
      have hlater := (h.slot_of_upper_ne hnew hxl (hne x hxl)).2
      omega
    rw [h.setEarlierActiveTime_eq hnew hlt, moveBins, if_neg hstop]
    rfl
  · constructor
    case aligned =>
      dsimp only
      rw [toNat_and_activeTimeMask]
      exact Nat.dvd_mul_left _ _
    case active_le =>
      intro x hx
      have hactive := BitVec.le_def.mp (h.active_le x hx)
      rw [BitVec.le_def]
      exact Nat.le_trans (rounded_le hnew) hactive
    case le_max => exact h.le_max
    case distributes =>
      exact h.distributes.congr fun x hx => (h.slot_of_upper_ne hnew hx (hne x hx)).1
    case marked => exact ⟨h.marked.marks, h.marked.inside, h.marked.first_le, h.marked.first_ne,
      h.marked.lower⟩

omit hnew in
/-- An item before the active time goes to the first major bin. -/
theorem add_earlier {x : α} (hearlier : due x < q.activeTime) (hmax : due x ≤ p.maxTimestamp)
    (hlt : q.targetMajorBin (due x) < p.totalBinCount / p.minorBinsPerMajorBin)
    (hne : ∀ y ∈ l, Radix.upper p.bits (q.targetMajorBin (due x)) (due y).toNat ≠
      Radix.upper p.bits (q.targetMajorBin (due x)) q.activeTime.toNat) :
    ∃ q', q.add due x = some q' ∧ Holds due (l ++ [x]) q' := by
  obtain ⟨hset, h'⟩ := h.setEarlierActiveTime hearlier hlt hne
  have hround : (due x &&& p.activeTimeMask).toNat =
      Radix.upper p.bits 1 (due x).toNat * 2 ^ p.bits := toNat_and_activeTimeMask _
  have hactive : due x &&& p.activeTimeMask ≤ due x := by
    rw [BitVec.le_def, hround, Radix.upper, Nat.one_mul]
    exact Nat.div_mul_le_self _ _
  have hslot : Radix.slot p.bits (due x &&& p.activeTimeMask).toNat (due x).toNat <
      p.totalBinCount := by
    have hlevel : Radix.level p.bits (due x &&& p.activeTimeMask).toNat (due x).toNat = 0 := by
      apply Radix.level_eq p.bits_pos _ (Or.inl rfl)
      rw [hround]
      unfold Radix.upper
      rw [Nat.zero_add, Nat.one_mul, Nat.mul_div_cancel _ (Nat.two_pow_pos _)]
    rw [Radix.slot_eq hlevel, lt_totalBinCount_iff Radix.digit_lt]
    omega
  have hadd : q.add due x =
      Queue.add { q with activeTime := due x &&& p.activeTimeMask } due x := by
    have hnot : ¬ due x < due x &&& p.activeTimeMask := BitVec.not_lt.mpr hactive
    unfold Queue.add
    simp only [hearlier, hnot, ↓reduceIte, hset]
  obtain ⟨q', hq', hholds, _⟩ := h'.add_of_le hactive hmax hslot
  exact ⟨q', hadd.trans hq', hholds⟩

/-- An item that agrees with the active time in those digits is moved to the target bin, which is
not marked. -/
theorem not_placed_of_moved (hx : x ∈ l)
    (heq : Radix.upper p.bits (q.targetMajorBin newActiveTime) (due x).toNat =
      Radix.upper p.bits (q.targetMajorBin newActiveTime) q.activeTime.toNat)
    (hq' : q.setEarlierActiveTime newActiveTime = some q') : ¬ Placed due q' := by
  intro hplaced
  have hpos := targetMajorBin_pos h.aligned hnew
  obtain ⟨m, hm⟩ := Nat.exists_eq_add_of_lt hpos
  rw [Nat.zero_add] at hm
  -- the first bin is before the target
  have hlevel : Radix.level p.bits q.activeTime.toNat (due x).toNat ≤ m := by
    rw [Radix.level_le_iff p.bits_pos, ← hm]
    exact heq
  have hslot : q.slot (due x).toNat < q.targetBin newActiveTime := by
    have hdigit : Radix.digit p.bits (Radix.level p.bits q.activeTime.toNat (due x).toNat)
      (due x).toNat < 2 ^ p.bits := Radix.digit_lt
    have hmul := Nat.mul_le_mul_right (2 ^ p.bits) hlevel
    rw [targetBin_eq, hm, Nat.add_one_mul, slot, Radix.slot]
    omega
  have hmem := List.ne_nil_of_mem (h.mem_slot hx)
  have hless : q.firstNonemptyBin < q.targetBin newActiveTime :=
    Nat.lt_of_le_of_lt (h.marked.first_le_of_ne hmem) hslot
  have hmark : q.nonemptyBins (q.targetBin newActiveTime) = false := by
    rw [← Bool.not_eq_true, h.marked.marks, not_not]
    exact h.targetBin_eq_nil hnew
  have hlt : q.targetMajorBin newActiveTime < p.totalBinCount / p.minorBinsPerMajorBin := by
    rw [← targetBin_lt_iff]
    unfold Queue.setEarlierActiveTime at hq'
    dsimp only at hq'
    split at hq'
    · next hcond => exact hcond.2.2.2.1
    · cases hq'
  rw [h.setEarlierActiveTime_eq hnew hlt] at hq'
  obtain ⟨q₁, hq₁, rfl⟩ := Option.map_eq_some_iff.mp hq'
  have hne := moveBins_ne_nil hq₁ hless (h.marked.first_ne (h.marked.first_lt_of_ne hmem))
  have hset := (hplaced.marked.marks _).mpr hne
  have hkept := (moveBins_target hq₁).1
  dsimp only at hset
  rw [hkept, hmark] at hset
  cases hset

end Holds

/-- `set_earlier_active_time` keeps the placement exactly where it has nothing to move. -/
theorem relocates_iff (h : Placed due q) (hnew : newActiveTime < q.activeTime) :
    Relocates due q newActiveTime ↔ NothingToMove due q newActiveTime := by
  have hholds := h.holds_items
  constructor
  · intro hr
    refine ⟨targetBin_lt_iff.mp hr.target_lt, fun x hx heq => ?_⟩
    obtain ⟨q', hq', hplaced, _⟩ := hr.placed
    exact hholds.not_placed_of_moved hnew hx heq hq' hplaced
  · rintro ⟨hlt, hne⟩
    obtain ⟨hq', hholds'⟩ := hholds.setEarlierActiveTime hnew hlt hne
    refine ⟨targetBin_lt_iff.mpr hlt, hholds.targetBin_eq_nil hnew, _, hq', hholds'.placed, ?_,
      hholds'.sameOrder_items⟩
    dsimp only
    rw [toNat_and_activeTimeMask, Radix.upper, Nat.one_mul]
    rfl

theorem relocates_iff_twoItems :
    Relocates id twoItems (0x31 : BitVec 32) ↔ NothingToMove id twoItems (0x31 : BitVec 32) :=
  relocates_iff twoItems_holds.placed (by decide)

/-- The item 0x4A is moved to a bin that is not marked. -/
theorem relocates_fails : Placed id twoItems ∧ (0x31 : BitVec 32) < twoItems.activeTime ∧
    ¬ Relocates id twoItems (0x31 : BitVec 32) := by
  refine ⟨twoItems_holds.placed, by decide, ?_⟩
  rintro ⟨_, _, q', hq', hplaced, _⟩
  refine twoItems_holds.not_placed_of_moved (x := 0x4A) (by decide) (by decide) ?_ hq' hplaced
  decide

end Queue
end Squiz.Detail.BinnedTimePriorityQueue
