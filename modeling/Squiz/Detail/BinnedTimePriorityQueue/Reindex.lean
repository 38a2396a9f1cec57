import Squiz.Detail.BinnedTimePriorityQueue.Update

/-! The reindexing of a `binned_time_priority_queue` whose items have other timestamps now. -/
namespace Squiz.Detail.BinnedTimePriorityQueue
open Squiz.Lib

/-- The items of the first bin that is not empty come first. -/
theorem flatMap_range_first {α : Type} {bins : ℕ → List α} {i n : ℕ} (hi : i < n)
    (hlow : ∀ j < i, bins j = []) :
    (List.range n).flatMap bins =
      bins i ++ (List.range n).flatMap (Function.update bins i []) := by
  induction n with
  | zero => cases hi
  | succ n ih =>
    simp only [List.range_succ, List.flatMap_append, List.flatMap_singleton]
    rcases Nat.eq_or_lt_of_le (Nat.le_of_lt_succ hi) with rfl | hlt
    · have hnil : (List.range i).flatMap bins = [] := by
        rw [List.flatMap_eq_nil_iff]
        exact fun j hj => hlow j (List.mem_range.mp hj)
      have hnil' : (List.range i).flatMap (Function.update bins i []) = [] := by
        rw [List.flatMap_eq_nil_iff]
        intro j hj
        rw [Function.update_of_ne (Nat.ne_of_lt (List.mem_range.mp hj))]
        exact hlow j (List.mem_range.mp hj)
      rw [hnil, hnil', Function.update_self, List.nil_append, List.nil_append, List.append_nil]
    · rw [ih hlt, Function.update_of_ne (Nat.ne_of_gt hlt), List.append_assoc]

namespace Queue
variable {p : Params} {α : Type}

/-- `reindex_items` leaves the same items in a queue that is placed for the new timestamps, in the
same order where both timestamps are equal. -/
def Reindexes (due newDue : α → p.Timestamp) (q : Queue p α) : Prop :=
  ∃ q', q.reindexItems newDue = some q' ∧ Placed newDue q' ∧ q'.items.Perm q.items ∧
    SameOrder (fun x => (dueTime due x, dueTime newDue x)) q'.items q.items

variable {q q' : Queue p α} {due newDue : α → p.Timestamp} {l items : List α}

/-- The number of bins that are marked. -/
def markCount (q : Queue p α) : ℕ := (List.range p.totalBinCount).countP q.nonemptyBins

theorem markCount_clear {i : ℕ} (hi : i < p.totalBinCount) (hbit : q.nonemptyBins i = true) :
    (List.range p.totalBinCount).countP (Function.update q.nonemptyBins i false) < q.markCount := by
  have hmono : ∀ bins : List ℕ, bins.countP (Function.update q.nonemptyBins i false) ≤
      bins.countP q.nonemptyBins := by
    intro bins
    apply List.countP_mono_left
    intro j _ hj
    by_cases hji : j = i
    · subst hji
      simp at hj
    · rwa [Function.update_of_ne hji] at hj
  obtain ⟨before, after, hsplit⟩ := List.append_of_mem (List.mem_range.mpr hi)
  have hbefore := hmono before
  have hafter := hmono after
  unfold markCount
  rw [hsplit, List.countP_append, List.countP_append, List.countP_cons, List.countP_cons, hbit,
    Function.update_self]
  simp
  omega

/-- The first loop takes the items out, bin by bin, without looking at their timestamps. -/
theorem Marked.drain (h : q.Marked) {rounds : ℕ} (hrounds : q.markCount < rounds)
    (allItems : List α) :
    ∃ q', q.drain rounds allItems = some (allItems ++ q.items, q') ∧ q'.Marked ∧
      q'.firstNonemptyBin = p.totalBinCount ∧ q'.activeTime = q.activeTime := by
  induction rounds generalizing q allItems with
  | zero => cases hrounds
  | succ rounds ih =>
    unfold Queue.drain
    by_cases hempty : q.firstNonemptyBin = p.totalBinCount
    · have hnil : q.items = [] := by
        unfold Queue.items
        rw [List.flatMap_eq_nil_iff]
        exact fun i _ => h.bins_eq_nil hempty i
      refine ⟨q, ?_, h, hempty, rfl⟩
      rw [if_pos hempty, hnil, List.append_nil]
    · have hlt : q.firstNonemptyBin < p.totalBinCount := Nat.lt_of_le_of_ne h.first_le hempty
      have hbit := (h.marks _).mpr (h.first_ne hlt)
      have hmarked : Marked { q with
          bins := Function.update q.bins q.firstNonemptyBin []
          nonemptyBins := Function.update q.nonemptyBins q.firstNonemptyBin false
          firstNonemptyBin :=
            countrZero p (Function.update q.nonemptyBins q.firstNonemptyBin false) } := by
        have hleave := h.leave (h.first_ne hlt) []
        unfold Queue.leave markBinEmpty at hleave
        simpa using hleave
      obtain ⟨q', hdrain, h', hfirst, hactive⟩ := ih hmarked
        (Nat.lt_of_lt_of_le (markCount_clear hlt hbit) (Nat.le_of_lt_succ hrounds))
        (allItems ++ q.bins q.firstNonemptyBin)
      refine ⟨q', ?_, h', hfirst, hactive⟩
      rw [if_neg hempty, if_pos hlt]
      dsimp only
      rw [hdrain, List.append_assoc]
      unfold Queue.items
      rw [← flatMap_range_first hlt h.lower]

/-- The second loop, with all bins inside of the array. -/
theorem Holds.addAll (h : Holds due l q) (hactive : q.activeTime = 0)
    (hmax : ∀ x ∈ items, due x ≤ p.maxTimestamp)
    (hslot : ∀ x ∈ items, Radix.slot p.bits 0 (due x).toNat < p.totalBinCount) :
    ∃ q', Queue.addAll due items q = some q' ∧ Holds due (l ++ items) q' := by
  induction items generalizing l q with
  | nil => exact ⟨q, rfl, by rwa [List.append_nil]⟩
  | cons x items ih =>
    have hle : q.activeTime ≤ due x := by
      rw [hactive, BitVec.le_def]
      exact Nat.zero_le _
    have hx : q.slot (due x).toNat < p.totalBinCount := by
      rw [slot, hactive]
      exact hslot x List.mem_cons_self
    obtain ⟨q₁, hadd, h₁, hactive₁⟩ := h.add_of_le hle (hmax x List.mem_cons_self) hx
    obtain ⟨q', hq', h'⟩ := ih h₁ (hactive₁.trans hactive)
      (fun y hy => hmax y (List.mem_cons_of_mem _ hy))
      (fun y hy => hslot y (List.mem_cons_of_mem _ hy))
    refine ⟨q', ?_, ?_⟩
    · rw [Queue.addAll, hadd]
      exact hq'
    · rwa [List.append_assoc, List.singleton_append] at h'

theorem add_activeTime_of_zero {x : α} (hactive : q.activeTime = 0)
    (h : q.add due x = some q') : q'.activeTime = 0 := by
  have hnot : ¬ due x < q.activeTime := by
    rw [hactive]
    simp
  unfold Queue.add at h
  simp only [hnot, ↓reduceIte, Option.bind_some] at h
  obtain ⟨index, _, h⟩ := Option.bind_eq_some_iff.mp h
  split at h
  · cases h
    rwa [pushBack_activeTime]
  · cases h

theorem addAll_activeTime (hactive : q.activeTime = 0) (h : q.addAll due items = some q') :
    q'.activeTime = 0 := by
  induction items generalizing q with
  | nil =>
    cases h
    exact hactive
  | cons x items ih =>
    obtain ⟨q₁, hadd, h⟩ := Option.bind_eq_some_iff.mp h
    exact ih (add_activeTime_of_zero hactive hadd) h

/-- The items are in the order of their bins before they are added again. -/
theorem Placed.reindexItems (h : Placed due q) (hmax : ∀ x ∈ q.items, newDue x ≤ p.maxTimestamp)
    (hslot : ∀ x ∈ q.items, Radix.slot p.bits 0 (newDue x).toNat < p.totalBinCount) :
    ∃ q', q.reindexItems newDue = some q' ∧ Holds newDue q.items q' := by
  have hcount : q.markCount < p.totalBinCount + 1 := by
    have hle : q.markCount ≤ (List.range p.totalBinCount).length := List.countP_le_length
    rw [List.length_range] at hle
    omega
  obtain ⟨q₁, hdrain, hmarked, hfirst, _⟩ := h.marked.drain hcount []
  have hempty : Holds newDue [] { q₁ with activeTime := 0 } := by
    constructor
    case aligned => simp
    case active_le => simp
    case le_max => simp
    case distributes =>
      have hbins : q₁.bins = fun _ => [] := funext (hmarked.bins_eq_nil hfirst)
      dsimp only
      rw [hbins]
      exact Distributes.nil
    case marked => exact ⟨hmarked.marks, hmarked.inside, hmarked.first_le, hmarked.first_ne,
      hmarked.lower⟩
  obtain ⟨q', hq', hholds⟩ := hempty.addAll rfl hmax hslot
  refine ⟨q', ?_, hholds⟩
  unfold Queue.reindexItems
  rw [hdrain]
  exact hq'

theorem reindexItems_activeTime (h : q.reindexItems newDue = some q') : q'.activeTime = 0 := by
  obtain ⟨⟨allItems, q₁⟩, _, h⟩ := Option.bind_eq_some_iff.mp h
  exact addAll_activeTime rfl h

/-- Every bin that reindexing uses is inside of the array. -/
theorem Reindexes.slot_lt (h : Reindexes due newDue q) {x : α} (hx : x ∈ q.items) :
    Radix.slot p.bits 0 (newDue x).toNat < p.totalBinCount := by
  obtain ⟨q', hq', hplaced, hperm, _⟩ := h
  have hlt := hplaced.holds_items.slot_lt (hperm.mem_iff.mpr hx)
  rw [slot, reindexItems_activeTime hq'] at hlt
  exact hlt

variable [DecidableEq α]

/-- Reindexing succeeds exactly where the array has the bins of all new timestamps. -/
theorem reindexes_iff (h : Placed due q) (hmax : ∀ x ∈ q.items, newDue x ≤ p.maxTimestamp) :
    Reindexes due newDue q ↔
      ∀ x ∈ q.items, Radix.slot p.bits 0 (newDue x).toNat < p.totalBinCount := by
  constructor
  · exact fun hreindexes x hx => hreindexes.slot_lt hx
  · intro hslot
    obtain ⟨q', hq', hholds⟩ := h.reindexItems hmax hslot
    have horder := hholds.sameOrder_items
    refine ⟨q', hq', hholds.placed, horder.perm, ?_⟩
    rintro ⟨k, k'⟩
    have hsplit : ∀ m : List α,
        m.filter (fun x => decide ((dueTime due x, dueTime newDue x) = (k, k'))) =
          (m.filter fun x => decide (dueTime newDue x = k')).filter
            fun x => decide (dueTime due x = k) := by
      intro m
      rw [List.filter_filter]
      congr 1
      funext x
      simp
    rw [hsplit, hsplit, horder k']

theorem reindexes_iff_twoItems : Reindexes id (fun _ => 7) twoItems ↔
    ∀ x ∈ twoItems.items, Radix.slot sixteenMinorBins.bits 0 7 < sixteenMinorBins.totalBinCount :=
  reindexes_iff twoItems_holds.placed fun _ _ => by decide

/-- Three major bins of `2 ^ 31` minor bins each are too many for `total_bin_count`. -/
def overflowingBins : Params where
  width := 64
  bits := 31
  maxTimestamp := 18446744073709551615
  bits_pos := by decide
  bits_lt := by decide
  maxTimestamp_pos := by decide

/-- The new timestamp belongs in the second major bin, which is outside of the array. -/
theorem reindexes_fails : ∃ q : Queue overflowingBins Unit,
    Placed (fun _ => 0) q ∧
      (∀ x ∈ q.items, (2147483648 : BitVec 64) ≤ overflowingBins.maxTimestamp) ∧
      ¬ Reindexes (fun _ => 0) (fun _ => 2147483648) q := by
  have hempty := holds_nil (p := overflowingBins) (fun _ : Unit => 0)
    (show overflowingBins.minorBinsPerMajorBin ∣ (0 : BitVec 64).toNat by decide)
  have hone := hempty.pushBack (x := ()) (by decide) (by decide) (by decide)
  refine ⟨_, hone.placed, fun _ _ => by decide, ?_⟩
  intro hreindexes
  have hmem := hone.sameOrder_items.mem_iff.mpr (List.mem_singleton.mpr rfl)
  exact absurd (hreindexes.slot_lt hmem) (by decide)

end Queue
end Squiz.Detail.BinnedTimePriorityQueue
