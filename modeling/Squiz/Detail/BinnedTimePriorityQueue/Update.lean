import Squiz.Detail.BinnedTimePriorityQueue.Placed
import Squiz.Lib.StableQueue

/-! Insertion and removal in a placed `binned_time_priority_queue`. -/
namespace Squiz.Detail.BinnedTimePriorityQueue
open Squiz.Lib

namespace Queue
variable {p : Params} {α : Type} {q q' : Queue p α} {due : α → p.Timestamp} {l : List α} {x : α}

/-- The bin of a new item is inside of the array. -/
theorem slot_lt_of_binsFit (hfit : p.BinsFit) {time : p.Timestamp}
    (hactive : q.activeTime ≤ time) (htime : time ≤ p.maxTimestamp) :
    q.slot time.toNat < p.totalBinCount := by
  have hlevel := p.level_lt_majorBinCount (BitVec.le_trans hactive htime) htime
  exact Params.linearIndex_lt hfit hlevel Radix.digit_lt

theorem Holds.pushBack (h : Holds due l q) (hactive : q.activeTime ≤ due x)
    (hmax : due x ≤ p.maxTimestamp) (hslot : q.slot (due x).toNat < p.totalBinCount) :
    Holds due (l ++ [x]) (q.pushBack (q.slot (due x).toNat) x) where
  aligned := by
    rw [pushBack_activeTime]
    exact h.aligned
  active_le := by
    rw [pushBack_activeTime]
    intro y hy
    rcases List.mem_append.mp hy with hy | hy
    · exact h.active_le y hy
    · rwa [List.mem_singleton.mp hy]
  le_max := by
    intro y hy
    rcases List.mem_append.mp hy with hy | hy
    · exact h.le_max y hy
    · rwa [List.mem_singleton.mp hy]
  distributes := by
    have hadd := h.distributes.add x
    unfold slot at hadd ⊢
    rwa [pushBack_activeTime, pushBack_bins]
  marked := h.marked.pushBack hslot x

/-- An item that is not earlier than the active time. -/
theorem Holds.add_of_le (h : Holds due l q) (hactive : q.activeTime ≤ due x)
    (hmax : due x ≤ p.maxTimestamp) (hslot : q.slot (due x).toNat < p.totalBinCount) :
    ∃ q', q.add due x = some q' ∧ Holds due (l ++ [x]) q' ∧ q'.activeTime = q.activeTime := by
  have hadd : q.add due x = some (q.pushBack (q.slot (due x).toNat) x) := by
    obtain ⟨index, hindex, hlinear⟩ := getBinIndex_linearIndex hactive hmax
    have hnot : ¬ due x < q.activeTime := BitVec.not_lt.mpr hactive
    unfold Queue.add
    simp only [hnot, ↓reduceIte, Option.bind_some, hindex,
      hlinear, hslot]
  refine ⟨_, hadd, h.pushBack hactive hmax hslot, pushBack_activeTime⟩

/-- A queue with two items, of which the one that was added first is in the second major bin. -/
def twoItems : Queue sixteenMinorBins (BitVec 32) :=
  (({ activeTime := 0x40 } : Queue sixteenMinorBins (BitVec 32)).pushBack 21 0x52).pushBack 10 0x4A

theorem twoItems_holds : Holds (p := sixteenMinorBins) id [0x52, 0x4A] twoItems := by
  have hempty := holds_nil (p := sixteenMinorBins) (id : BitVec 32 → BitVec 32)
    (show sixteenMinorBins.minorBinsPerMajorBin ∣ (0x40 : BitVec 32).toNat by decide)
  have hone := hempty.pushBack (x := 0x52) (by decide) (by decide) (by decide)
  exact hone.pushBack (x := 0x4A) (by decide) (by decide) (by decide)

variable [DecidableEq α]

theorem Holds.leave (h : Holds due l q) (hx : x ∈ l) {bin : List α}
    (hbin : (q.bins (q.slot (due x).toNat)).erase x = bin) :
    Holds due (l.erase x) (q.leave (q.slot (due x).toNat) bin) where
  aligned := by
    rw [leave_activeTime]
    exact h.aligned
  active_le := by
    rw [leave_activeTime]
    exact fun y hy => h.active_le y (List.mem_of_mem_erase hy)
  le_max := fun y hy => h.le_max y (List.mem_of_mem_erase hy)
  distributes := by
    have herase := h.distributes.erase x
    rw [dueTime, hbin] at herase
    unfold slot at herase ⊢
    rwa [leave_activeTime, leave_bins]
  marked := h.marked.leave (List.ne_nil_of_mem (h.mem_slot hx)) bin

theorem Holds.remove (h : Holds due l q) (hx : x ∈ l) :
    ∃ q', q.remove due x = some q' ∧ Holds due (l.erase x) q' ∧
      q'.activeTime = q.activeTime := by
  obtain ⟨index, hindex, hlinear⟩ := getBinIndex_linearIndex (h.active_le x hx) (h.le_max x hx)
  have hremove : q.remove due x = some
      (q.leave (q.slot (due x).toNat) ((q.bins (q.slot (due x).toNat)).erase x)) := by
    unfold Queue.remove
    simp only [Option.bind_eq_bind, hindex, Option.bind_some, hlinear]
    exact if_pos ⟨h.slot_lt hx, h.mem_slot hx⟩
  exact ⟨_, hremove, h.leave hx rfl, leave_activeTime⟩

/-- The first item of the first bin, in the first major bin, is the next one. -/
theorem Holds.popFirst (h : Holds due l q) {t : p.Timestamp}
    (hminor : q.firstNonemptyBin < p.minorBinsPerMajorBin)
    (hlt : q.firstNonemptyBin < p.totalBinCount)
    (hstart : Radix.start p.bits q.activeTime.toNat 0 q.firstNonemptyBin ≤ t.toNat) :
    ∃ x q', q.popFirst due t = some (some x, q') ∧
      StableQueue.next (dueTime due) l t.toNat = some x ∧ Holds due (l.erase x) q' ∧
      q'.activeTime = q.activeTime := by
  have hb := p.bits_pos
  have hne := h.marked.first_ne hlt
  obtain ⟨x, bin, hbin⟩ := List.exists_cons_of_ne_nil hne
  -- the times in a bin of the first major bin are all equal
  have htime : ∀ y ∈ q.bins q.firstNonemptyBin, dueTime due y =
      Radix.start p.bits q.activeTime.toNat 0 q.firstNonemptyBin := by
    intro y hy
    have hslot : q.slot (due y).toNat = q.firstNonemptyBin := (h.mem_bins_iff.mp hy).2
    have hlevel : Radix.level p.bits q.activeTime.toNat (due y).toNat = 0 := by
      rw [← Radix.slot_div]
      exact Nat.div_eq_of_lt (by rw [← slot, hslot]; exact hminor)
    have hupper := Radix.upper_level (a := q.activeTime.toNat) (x := (due y).toNat) hb
    rw [hlevel] at hupper
    have hdigit : Radix.digit p.bits 0 (due y).toNat = q.firstNonemptyBin := by
      rw [← hslot, slot, Radix.slot_eq hlevel, Nat.zero_mul, Nat.zero_add]
    rw [Radix.start_eq hupper hdigit]
    simp [dueTime]
  have hx : x ∈ q.bins q.firstNonemptyBin := by simp [hbin]
  have hxl : x ∈ l := (h.mem_bins_iff.mp hx).1
  have hslot : q.slot (due x).toNat = q.firstNonemptyBin := (h.mem_bins_iff.mp hx).2
  have hfilter : l.filter (dueTime due · = dueTime due x) = x :: bin := by
    have hfirst : q.slot (dueTime due x) = q.firstNonemptyBin := hslot
    rw [← hbin, ← hfirst]
    refine (h.distributes.bin_eq fun y hy => ?_).symm
    rw [hfirst] at hy
    rw [htime y hy, htime x hx]
  have hmin : ∀ y ∈ l, dueTime due x ≤ dueTime due y := by
    intro y hy
    by_contra hlt
    have hle : Radix.slot p.bits q.activeTime.toNat (due y).toNat ≤
        Radix.slot p.bits q.activeTime.toNat (due x).toNat :=
      Radix.slot_mono hb (BitVec.le_def.mp (h.active_le y hy)) (Nat.le_of_not_le hlt)
    have hmem : y ∈ q.bins (q.slot (due y).toNat) := h.mem_slot hy
    have hfirst := h.marked.first_le_of_ne (List.ne_nil_of_mem hmem)
    have heq : q.slot (due y).toNat = q.firstNonemptyBin := by
      unfold slot at hfirst hslot ⊢
      omega
    rw [heq] at hmem
    rw [htime y hmem, htime x hx] at hlt
    exact hlt (Nat.le_refl _)
  have hdue : due x ≤ t := by
    rw [BitVec.le_def]
    have hxt := htime x hx
    unfold dueTime at hxt
    omega
  have hpop : q.popFirst due t = some (some x, q.leave q.firstNonemptyBin bin) := by
    unfold Queue.popFirst
    simp only [hbin]
    exact if_pos ⟨hminor, hlt, hdue⟩
  have hrest : (q.bins (q.slot (due x).toNat)).erase x = bin := by
    rw [hslot, hbin, List.erase_cons_head]
  have hleave := h.leave hxl hrest
  rw [hslot] at hleave
  exact ⟨x, _, hpop, StableQueue.next_of_filter hmin hfilter (BitVec.le_def.mp hdue), hleave,
    leave_activeTime⟩

end Queue
end Squiz.Detail.BinnedTimePriorityQueue
