import Squiz.Detail.BinnedTimePriorityQueue.Bins
import Squiz.Lib.Distribution

/-! The placement invariant of `binned_time_priority_queue`, and the lists that a placed queue
holds. -/
namespace Squiz.Detail.BinnedTimePriorityQueue
open Squiz.Lib

namespace Queue
variable {p : Params} {α : Type}

/-- The items, bin by bin. -/
def items (q : Queue p α) : List α := (List.range p.totalBinCount).flatMap q.bins

/-- What is left of a bin after an item was taken out, with the mark of an empty bin cleared. -/
def leave (q : Queue p α) (i : ℕ) (bin : List α) : Queue p α :=
  let q := { q with bins := Function.update q.bins i bin }
  if bin = [] then q.markBinEmpty i else q

/-- `nonempty_bins_` marks exactly the bins that are not empty, and `first_nonempty_bin_` is the
lowest of them. -/
structure Marked (q : Queue p α) : Prop where
  marks : ∀ i, q.nonemptyBins i = true ↔ q.bins i ≠ []
  inside : ∀ i, q.bins i ≠ [] → i < p.totalBinCount
  first_le : q.firstNonemptyBin ≤ p.totalBinCount
  first_ne : q.firstNonemptyBin < p.totalBinCount → q.bins q.firstNonemptyBin ≠ []
  lower : ∀ i < q.firstNonemptyBin, q.bins i = []

/-- Every item is in the bin that `get_bin_index` gives for it. -/
structure Placed (due : α → p.Timestamp) (q : Queue p α) : Prop where
  aligned : p.minorBinsPerMajorBin ∣ q.activeTime.toNat
  active_le : ∀ i, ∀ x ∈ q.bins i, q.activeTime ≤ due x
  place : ∀ i, ∀ x ∈ q.bins i,
    ∃ index, q.getBinIndex (due x) = some index ∧ index.linearIndex p = i
  marked : q.Marked

/-- Every item is in its bin and the bitset is exact, whatever the active time is. -/
structure Binned (due : α → p.Timestamp) (q : Queue p α) : Prop where
  place : ∀ i, ∀ x ∈ q.bins i,
    ∃ index, q.getBinIndex (due x) = some index ∧ index.linearIndex p = i
  marked : q.Marked

/-- The timestamp as a number. -/
def dueTime (due : α → p.Timestamp) (x : α) : ℕ := (due x).toNat

/-- The bin in which a time belongs. -/
def slot (q : Queue p α) (time : ℕ) : ℕ := Radix.slot p.bits q.activeTime.toNat time

/-- The queue is placed and holds the items of the list, in its order among equal timestamps. -/
structure Holds (due : α → p.Timestamp) (l : List α) (q : Queue p α) : Prop where
  aligned : p.minorBinsPerMajorBin ∣ q.activeTime.toNat
  active_le : ∀ x ∈ l, q.activeTime ≤ due x
  le_max : ∀ x ∈ l, due x ≤ p.maxTimestamp
  distributes : Distributes (dueTime due) q.slot q.bins l
  marked : q.Marked

section
variable {q : Queue p α} {i : ℕ} {x : α} {bin : List α}

@[simp] theorem leave_activeTime : (q.leave i bin).activeTime = q.activeTime := by
  unfold leave
  split <;> rfl

@[simp] theorem leave_bins : (q.leave i bin).bins = Function.update q.bins i bin := by
  unfold leave
  split <;> rfl

@[simp] theorem pushBack_activeTime : (q.pushBack i x).activeTime = q.activeTime := by
  unfold pushBack
  split <;> rfl

@[simp] theorem pushBack_bins :
    (q.pushBack i x).bins = Function.update q.bins i (q.bins i ++ [x]) := rfl

theorem countrZero_le (p : Params) (f : ℕ → Bool) : countrZero p f ≤ p.totalBinCount := by
  unfold countrZero
  cases hfind : (List.range p.totalBinCount).find? f with
  | none => exact Nat.le_refl _
  | some i =>
    obtain ⟨_, hmem, _⟩ := List.find?_range_eq_some.mp hfind
    exact Nat.le_of_lt (List.mem_range.mp hmem)

theorem countrZero_of_lt {f : ℕ → Bool} (h : countrZero p f < p.totalBinCount) :
    f (countrZero p f) = true := by
  unfold countrZero at h ⊢
  cases hfind : (List.range p.totalBinCount).find? f with
  | none =>
    rw [hfind] at h
    exact absurd h (Nat.lt_irrefl _)
  | some i => exact (List.find?_range_eq_some.mp hfind).1

theorem of_lt_countrZero {f : ℕ → Bool} (hi : i < countrZero p f) : f i = false := by
  have hle := countrZero_le p f
  unfold countrZero at hi hle
  cases hfind : (List.range p.totalBinCount).find? f with
  | none =>
    rw [hfind] at hi
    have hnot := List.find?_eq_none.mp hfind i (List.mem_range.mpr hi)
    simpa using hnot
  | some j =>
    rw [hfind] at hi
    have hnot := (List.find?_range_eq_some.mp hfind).2.2 i hi
    simpa using hnot

namespace Marked

/-- What remains to be shown where `first_nonempty_bin_` is computed from the bitset. -/
theorem of_countrZero (hmarks : ∀ i, q.nonemptyBins i = true ↔ q.bins i ≠ [])
    (hinside : ∀ i, q.bins i ≠ [] → i < p.totalBinCount)
    (hfirst : q.firstNonemptyBin = countrZero p q.nonemptyBins) : q.Marked where
  marks := hmarks
  inside := hinside
  first_le := by
    rw [hfirst]
    exact countrZero_le p _
  first_ne := by
    rw [hfirst]
    exact fun hlt => (hmarks _).mp (countrZero_of_lt hlt)
  lower := by
    rw [hfirst]
    intro i hi
    by_contra hne
    have hbit := (hmarks i).mpr hne
    rw [of_lt_countrZero hi] at hbit
    cases hbit

variable (h : q.Marked)
include h

theorem bins_eq_nil (hempty : q.firstNonemptyBin = p.totalBinCount) (i : ℕ) : q.bins i = [] := by
  by_contra hne
  have hlt := h.inside i hne
  exact hne (h.lower i (by omega))

theorem first_le_of_ne (hne : q.bins i ≠ []) : q.firstNonemptyBin ≤ i := by
  by_contra hlt
  exact hne (h.lower i (Nat.lt_of_not_le hlt))

theorem first_lt_of_ne (hne : q.bins i ≠ []) : q.firstNonemptyBin < p.totalBinCount :=
  Nat.lt_of_le_of_lt (h.first_le_of_ne hne) (h.inside i hne)

theorem pushBack (hi : i < p.totalBinCount) (x : α) : (q.pushBack i x).Marked := by
  have hmarks : ∀ j, (q.pushBack i x).nonemptyBins j = true ↔
      Function.update q.bins i (q.bins i ++ [x]) j ≠ [] := by
    intro j
    unfold Queue.pushBack markBinNonempty
    by_cases hj : j = i
    · subst hj
      by_cases hnil : q.bins j = []
      · simp [hnil]
      · simpa [hnil] using (h.marks j).mpr hnil
    · rw [Function.update_of_ne hj]
      by_cases hnil : q.bins i = []
      · simpa [hnil, hj] using h.marks j
      · simpa [hnil] using h.marks j
  have hfirst : (q.pushBack i x).firstNonemptyBin = min i q.firstNonemptyBin := by
    unfold Queue.pushBack markBinNonempty
    by_cases hnil : q.bins i = []
    · simp [hnil]
    · simpa [hnil] using h.first_le_of_ne hnil
  constructor
  case marks => exact hmarks
  case inside =>
    intro j hj
    rw [pushBack_bins] at hj
    by_cases hji : j = i
    · rwa [hji]
    · rw [Function.update_of_ne hji] at hj
      exact h.inside j hj
  case first_le =>
    rw [hfirst]
    exact Nat.le_trans (Nat.min_le_left _ _) (Nat.le_of_lt hi)
  case first_ne =>
    intro _
    rw [hfirst, pushBack_bins]
    rcases Nat.le_total i q.firstNonemptyBin with hle | hle
    · rw [Nat.min_eq_left hle, Function.update_self]
      simp
    · rw [Nat.min_eq_right hle]
      by_cases heq : q.firstNonemptyBin = i
      · rw [heq, Function.update_self]
        simp
      · rw [Function.update_of_ne heq]
        exact h.first_ne (Nat.lt_of_le_of_lt hle hi)
  case lower =>
    intro j hj
    rw [hfirst, Nat.lt_min] at hj
    rw [pushBack_bins, Function.update_of_ne (Nat.ne_of_lt hj.1)]
    exact h.lower j hj.2

theorem leave (hne : q.bins i ≠ []) (bin : List α) : (q.leave i bin).Marked := by
  have hinside : ∀ j, Function.update q.bins i bin j ≠ [] → j < p.totalBinCount := by
    intro j hj
    by_cases hji : j = i
    · rw [hji]
      exact h.inside i hne
    · rw [Function.update_of_ne hji] at hj
      exact h.inside j hj
  unfold Queue.leave
  dsimp only
  split
  · next hnil =>
    subst hnil
    have hmarks : ∀ j, Function.update q.nonemptyBins i false j = true ↔
        Function.update q.bins i [] j ≠ [] := by
      intro j
      by_cases hji : j = i
      · subst hji
        simp
      · rw [Function.update_of_ne hji, Function.update_of_ne hji]
        exact h.marks j
    unfold markBinEmpty
    by_cases hfirst : i = q.firstNonemptyBin
    · apply of_countrZero hmarks hinside
      exact if_pos hfirst
    · dsimp only
      rw [if_neg hfirst]
      have hle := h.first_le_of_ne hne
      refine ⟨hmarks, hinside, h.first_le, fun hlt => ?_, fun j hj => ?_⟩
      · dsimp only at hlt ⊢
        rw [Function.update_of_ne (Ne.symm hfirst)]
        exact h.first_ne hlt
      · dsimp only at hj ⊢
        rw [Function.update_of_ne (by omega)]
        exact h.lower j hj
  · next hnil =>
    constructor
    case marks =>
      intro j
      by_cases hji : j = i
      · subst hji
        simpa [hnil] using (h.marks j).mpr hne
      · dsimp only
        rw [Function.update_of_ne hji]
        exact h.marks j
    case inside => exact hinside
    case first_le => exact h.first_le
    case first_ne =>
      intro hlt
      dsimp only at hlt ⊢
      by_cases hfirst : q.firstNonemptyBin = i
      · rwa [hfirst, Function.update_self]
      · rw [Function.update_of_ne hfirst]
        exact h.first_ne hlt
    case lower =>
      intro j hj
      dsimp only at hj ⊢
      have hle := h.first_le_of_ne hne
      rw [Function.update_of_ne (by omega)]
      exact h.lower j hj

end Marked

theorem mem_items (h : q.Marked) : x ∈ q.items ↔ ∃ i, x ∈ q.bins i := by
  unfold items
  rw [List.mem_flatMap]
  constructor
  · rintro ⟨i, _, hx⟩
    exact ⟨i, hx⟩
  · rintro ⟨i, hx⟩
    exact ⟨i, List.mem_range.mpr (h.inside i (List.ne_nil_of_mem hx)), hx⟩

end

section
variable {q : Queue p α} {due : α → p.Timestamp} {l l' : List α} {i : ℕ} {x : α}

/-- `get_bin_index` succeeds exactly for the times from the active time to `MaxTimestamp`. -/
theorem getBinIndex_linearIndex {time : p.Timestamp} (hactive : q.activeTime ≤ time)
    (htime : time ≤ p.maxTimestamp) :
    ∃ index, q.getBinIndex time = some index ∧ index.linearIndex p = q.slot time.toNat :=
  ⟨_, getBinIndex_eq hactive htime, rfl⟩

theorem getBinIndex_some {time : p.Timestamp} {index : BinIndex}
    (h : q.getBinIndex time = some index) : q.activeTime ≤ time ∧ time ≤ p.maxTimestamp ∧
      index.linearIndex p = q.slot time.toNat := by
  have hbounds : q.activeTime ≤ time ∧ time ≤ p.maxTimestamp := by
    unfold getBinIndex at h
    dsimp only at h
    split at h
    · next hcond => exact ⟨hcond.1, hcond.2.1⟩
    · cases h
  obtain ⟨index', hindex', hlinear⟩ := getBinIndex_linearIndex hbounds.1 hbounds.2
  rw [h] at hindex'
  cases hindex'
  exact ⟨hbounds.1, hbounds.2, hlinear⟩

theorem Placed.binned (h : Placed due q) : Binned due q := ⟨h.place, h.marked⟩

/-- The bound is not later than any of the timestamps. -/
theorem Binned.lowerBound_le (h : Binned due q) (hx : x ∈ q.bins i) :
    q.earliestDueTimeLowerBound ≤ due x := by
  have hlt := h.marked.first_lt_of_ne (List.ne_nil_of_mem hx)
  have hle := h.marked.first_le_of_ne (List.ne_nil_of_mem hx)
  obtain ⟨y, hy⟩ := List.exists_mem_of_ne_nil _ (h.marked.first_ne hlt)
  obtain ⟨_, hx', rfl⟩ := h.place _ x hx
  obtain ⟨index, hindex, hfirst⟩ := h.place _ y hy
  obtain ⟨hactive, -, hslotx⟩ := getBinIndex_some hx'
  obtain ⟨hactive', hmax, hsloty⟩ := getBinIndex_some hindex
  have hlevel := p.level_lt_majorBinCount (BitVec.le_trans hactive' hmax) hmax
  have hmajor : index.linearIndex p / 2 ^ p.bits =
      Radix.level p.bits q.activeTime.toNat (due y).toNat := by
    rw [hsloty, slot, Radix.slot_div]
  have hminor : index.linearIndex p % 2 ^ p.bits =
      Radix.digit p.bits (Radix.level p.bits q.activeTime.toNat (due y).toNat) (due y).toNat := by
    rw [hsloty, slot, Radix.slot_mod]
  unfold earliestDueTimeLowerBound
  rw [if_neg (Nat.ne_of_lt hlt), ← hfirst, BitVec.le_def]
  unfold BinIndex.fromLinearIndex Params.minorBinsPerMajorBin
  rw [hmajor, hminor, getBinTime_toNat hlevel (Radix.upper_level p.bits_pos) rfl]
  rw [← hfirst, hslotx, hsloty] at hle
  rcases Nat.eq_or_lt_of_le hle with heq | hlater
  · -- both are in the first bin
    have hlevels := congrArg (· / 2 ^ p.bits) heq
    have hdigits := congrArg (· % 2 ^ p.bits) heq
    simp only [slot, Radix.slot_div, Radix.slot_mod] at hlevels hdigits
    rw [hdigits, hlevels]
    exact Radix.start_le (Radix.upper_level p.bits_pos) rfl
  · exact (Radix.slot_start p.bits_pos (BitVec.le_def.mp hactive) Radix.digit_lt hlater).1

theorem Placed.holds_items (h : Placed due q) : Holds due q.items q where
  aligned := h.aligned
  active_le := by
    intro x hx
    obtain ⟨i, hx⟩ := (mem_items h.marked).mp hx
    exact h.active_le i x hx
  le_max := by
    intro x hx
    obtain ⟨i, hx⟩ := (mem_items h.marked).mp hx
    obtain ⟨index, hindex, _⟩ := h.place i x hx
    exact (getBinIndex_some hindex).2.1
  distributes := by
    refine Distributes.flatMap_range fun i x hx => ?_
    obtain ⟨index, hindex, hlinear⟩ := h.place i x hx
    have hslot := (getBinIndex_some hindex).2.2
    exact ⟨hslot.symm.trans hlinear, h.marked.inside i (List.ne_nil_of_mem hx)⟩
  marked := h.marked

namespace Holds
variable (h : Holds due l q)
include h

theorem mem_bins_iff : x ∈ q.bins i ↔ x ∈ l ∧ q.slot (due x).toNat = i :=
  h.distributes.mem_iff

theorem mem_slot (hx : x ∈ l) : x ∈ q.bins (q.slot (due x).toNat) :=
  h.mem_bins_iff.mpr ⟨hx, rfl⟩

theorem slot_lt (hx : x ∈ l) : q.slot (due x).toNat < p.totalBinCount :=
  h.marked.inside _ (List.ne_nil_of_mem (h.mem_slot hx))

theorem placed : Placed due q where
  aligned := h.aligned
  active_le := fun _ x hx => h.active_le x (h.mem_bins_iff.mp hx).1
  place := by
    intro i x hx
    obtain ⟨hxl, hslot⟩ := h.mem_bins_iff.mp hx
    obtain ⟨index, hindex, hlinear⟩ :=
      getBinIndex_linearIndex (h.active_le x hxl) (h.le_max x hxl)
    exact ⟨index, hindex, hlinear.trans hslot⟩
  marked := h.marked

theorem sameOrder_items : SameOrder (dueTime due) q.items l :=
  h.placed.holds_items.distributes.sameOrder h.distributes

theorem congr (hl : SameOrder (dueTime due) l l') : Holds due l' q where
  aligned := h.aligned
  active_le := fun x hx => h.active_le x (hl.mem_iff.mpr hx)
  le_max := fun x hx => h.le_max x (hl.mem_iff.mpr hx)
  distributes := by
    intro i k
    rw [h.distributes i k, hl k]
  marked := h.marked

end Holds

theorem holds_iff : Holds due l q ↔ Placed due q ∧ SameOrder (dueTime due) q.items l := by
  constructor
  · intro h
    exact ⟨h.placed, h.sameOrder_items⟩
  · rintro ⟨hplaced, horder⟩
    exact hplaced.holds_items.congr horder

theorem holds_nil (due : α → p.Timestamp) {active : p.Timestamp}
    (h : p.minorBinsPerMajorBin ∣ active.toNat) :
    Holds due [] ({ activeTime := active } : Queue p α) where
  aligned := h
  active_le := by simp
  le_max := by simp
  distributes := Distributes.nil
  marked := ⟨by simp, by simp, Nat.le_refl _, fun h => absurd h (Nat.lt_irrefl _), fun _ _ => rfl⟩

end

end Queue
end Squiz.Detail.BinnedTimePriorityQueue
