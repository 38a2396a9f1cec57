import Squiz.Detail.BinnedTimePriorityQueue.Update

/-! The redistribution of bins by `try_dequeue_next_due_by`, in exact arithmetic. -/
namespace Squiz.Detail.BinnedTimePriorityQueue
open Squiz.Lib

namespace Queue
variable {p : Params} {α : Type}

/-- The bin of a time while the redistribution has reached the bin `minor` of a major bin: that
holds all times that agree with its start down to this digit. -/
def groupSlot (q : Queue p α) (major minor time : ℕ) : ℕ :=
  if Radix.upper p.bits major time =
      Radix.upper p.bits (major + 1) q.activeTime.toNat * 2 ^ p.bits + minor then
    major * 2 ^ p.bits + minor
  else q.slot time

/-- The redistribution has reached the bin `minor` of a major bin. -/
structure Reached (due : α → p.Timestamp) (l : List α) (major minor : ℕ) (q : Queue p α) :
    Prop where
  minor_lt : minor < 2 ^ p.bits
  first : q.firstNonemptyBin = major * 2 ^ p.bits + minor
  first_lt : major * 2 ^ p.bits + minor < p.totalBinCount
  aligned : p.minorBinsPerMajorBin ∣ q.activeTime.toNat
  active_le : ∀ x ∈ l, q.activeTime ≤ due x
  le_max : ∀ x ∈ l, due x ≤ p.maxTimestamp
  distributes : Distributes (dueTime due) (q.groupSlot major minor) q.bins l
  marked : q.Marked

variable {q q' : Queue p α} {due : α → p.Timestamp} {l : List α} {x : α} {major minor m : ℕ}

theorem groupSlot_eq_slot (hminor : minor < 2 ^ p.bits)
    (h : major = 0 ∨ Radix.digit p.bits major q.activeTime.toNat ≠ minor) (time : ℕ) :
    q.groupSlot major minor time = q.slot time := by
  have hb := p.bits_pos
  unfold groupSlot
  split
  · next hgroup =>
    obtain ⟨hupper, hdigit⟩ := Radix.of_upper_eq hminor hgroup
    have hlevel : Radix.level p.bits q.activeTime.toNat time = major := by
      refine Radix.level_eq hb hupper (h.imp_right fun hne heq => hne ?_)
      rw [← heq, hdigit]
    rw [slot, Radix.slot_eq hlevel, hdigit]
  · rfl

/-- Of a time in the bin that the redistribution has reached. -/
theorem upper_of_groupSlot {time : ℕ} (hminor : minor < 2 ^ p.bits)
    (h : q.groupSlot major minor time = major * 2 ^ p.bits + minor) :
    Radix.upper p.bits major time =
      Radix.upper p.bits (major + 1) q.activeTime.toNat * 2 ^ p.bits + minor := by
  unfold groupSlot at h
  split at h
  · assumption
  · have hlevel : Radix.level p.bits q.activeTime.toNat time = major := by
      rw [← Radix.slot_div, ← slot, h, Nat.mul_comm, Nat.mul_add_div (Nat.two_pow_pos _),
        Nat.div_eq_of_lt hminor, Nat.add_zero]
    have hdigit : Radix.digit p.bits major time = minor := by
      rw [slot, Radix.slot_eq hlevel, Nat.add_left_cancel_iff] at h
      exact h
    have hupper := Radix.upper_level (a := q.activeTime.toNat) (x := time) p.bits_pos
    rw [hlevel] at hupper
    rw [Radix.upper_eq, hupper, hdigit]

/-- The lowest bin that is not empty is split into its digits. -/
theorem Holds.reached (h : Holds due l q) (hlt : q.firstNonemptyBin < p.totalBinCount) :
    Reached due l (q.firstNonemptyBin / 2 ^ p.bits) (q.firstNonemptyBin % 2 ^ p.bits) q := by
  have hminor : q.firstNonemptyBin % 2 ^ p.bits < 2 ^ p.bits := Nat.mod_lt _ (Nat.two_pow_pos _)
  have hfirst : q.firstNonemptyBin =
      q.firstNonemptyBin / 2 ^ p.bits * 2 ^ p.bits + q.firstNonemptyBin % 2 ^ p.bits := by
    rw [Nat.mul_comm, Nat.div_add_mod]
  refine ⟨hminor, hfirst, by omega, h.aligned, h.active_le, h.le_max, ?_, h.marked⟩
  have hne := h.marked.first_ne hlt
  obtain ⟨x, hx⟩ := List.exists_mem_of_ne_nil _ hne
  obtain ⟨hxl, hslot⟩ := h.mem_bins_iff.mp hx
  have hgroup : ∀ time, q.groupSlot (q.firstNonemptyBin / 2 ^ p.bits)
      (q.firstNonemptyBin % 2 ^ p.bits) time = q.slot time := by
    intro time
    apply groupSlot_eq_slot hminor
    rcases Nat.eq_zero_or_pos (q.firstNonemptyBin / 2 ^ p.bits) with hzero | hpos
    · exact Or.inl hzero
    · rw [← hslot, slot, Radix.slot_div] at hpos ⊢
      have hdigit := Radix.digit_ne p.bits_pos hpos
      rw [Radix.slot_mod]
      exact Or.inr (Ne.symm hdigit)
  have heq : q.groupSlot (q.firstNonemptyBin / 2 ^ p.bits) (q.firstNonemptyBin % 2 ^ p.bits) =
      q.slot := funext hgroup
  rw [heq]
  exact h.distributes

namespace Reached
variable (h : Reached due l major minor q)
include h

theorem holds (hdigit : major = 0 ∨ Radix.digit p.bits major q.activeTime.toNat ≠ minor) :
    Holds due l q where
  aligned := h.aligned
  active_le := h.active_le
  le_max := h.le_max
  distributes := h.distributes.congr fun _ _ => (groupSlot_eq_slot h.minor_lt hdigit _).symm
  marked := h.marked

theorem bin_ne_nil : q.bins (major * 2 ^ p.bits + minor) ≠ [] := by
  have hne := h.marked.first_ne (by rw [h.first]; exact h.first_lt)
  rwa [h.first] at hne

/-- The items of the bin that was reached. -/
theorem mem_bin_iff : x ∈ q.bins (major * 2 ^ p.bits + minor) ↔
    x ∈ l ∧ Radix.upper p.bits major (due x).toNat =
      Radix.upper p.bits (major + 1) q.activeTime.toNat * 2 ^ p.bits + minor := by
  rw [h.distributes.mem_iff]
  constructor
  · rintro ⟨hx, hslot⟩
    exact ⟨hx, upper_of_groupSlot h.minor_lt hslot⟩
  · rintro ⟨hx, hgroup⟩
    exact ⟨hx, if_pos hgroup⟩

/-- The other items are in later bins. -/
theorem lt_slot (hx : x ∈ l) (hgroup : Radix.upper p.bits major (due x).toNat ≠
    Radix.upper p.bits (major + 1) q.activeTime.toNat * 2 ^ p.bits + minor) :
    major * 2 ^ p.bits + minor < q.slot (due x).toNat := by
  have heq : q.groupSlot major minor (due x).toNat = q.slot (due x).toNat := if_neg hgroup
  have hmem : x ∈ q.bins (q.slot (due x).toNat) := h.distributes.mem_iff.mpr ⟨hx, heq⟩
  have hle := h.marked.first_le_of_ne (List.ne_nil_of_mem hmem)
  rw [h.first] at hle
  rcases Nat.eq_or_lt_of_le hle with hfirst | hlt
  · exact absurd (upper_of_groupSlot h.minor_lt (heq.trans hfirst.symm)) hgroup
  · exact hlt

theorem major_lt : major < p.majorBinCount := by
  have hpow : 0 < 2 ^ p.bits := Nat.two_pow_pos _
  have hle : p.totalBinCount ≤ p.majorBinCount * 2 ^ p.bits := Nat.mod_le _ _
  have hlt := h.first_lt
  by_contra hge
  have hmul : p.majorBinCount * 2 ^ p.bits ≤ major * 2 ^ p.bits :=
    Nat.mul_le_mul_right _ (Nat.le_of_not_lt hge)
  omega

theorem start_le (hx : x ∈ l) :
    Radix.start p.bits q.activeTime.toNat major minor ≤ (due x).toNat := by
  by_cases hgroup : Radix.upper p.bits major (due x).toNat =
      Radix.upper p.bits (major + 1) q.activeTime.toNat * 2 ^ p.bits + minor
  · rw [Radix.start_eq_mul, ← hgroup]
    exact Nat.div_mul_le_self _ _
  · exact (Radix.slot_start p.bits_pos (BitVec.le_def.mp (h.active_le x hx)) h.minor_lt
      (h.lt_slot hx hgroup)).1

/-- An item of the bin, as the digits that it shares with the others there. -/
theorem exists_mem : ∃ x ∈ q.bins (major * 2 ^ p.bits + minor), x ∈ l ∧
    Radix.upper p.bits (major + 1) (due x).toNat =
      Radix.upper p.bits (major + 1) q.activeTime.toNat ∧
    Radix.digit p.bits major (due x).toNat = minor := by
  obtain ⟨x, hx⟩ := List.exists_mem_of_ne_nil _ h.bin_ne_nil
  obtain ⟨hxl, hgroup⟩ := h.mem_bin_iff.mp hx
  exact ⟨x, hx, hxl, Radix.of_upper_eq h.minor_lt hgroup⟩

theorem getBinTime_eq : (q.getBinTime ⟨major, minor⟩).toNat =
    Radix.start p.bits q.activeTime.toNat major minor := by
  obtain ⟨x, _, _, hupper, hdigit⟩ := h.exists_mem
  exact getBinTime_toNat h.major_lt hupper hdigit

theorem roundActiveTime_eq : (q.roundActiveTime ⟨major, minor⟩).toNat =
    Radix.start p.bits q.activeTime.toNat major minor := by
  rw [roundActiveTime_eq_getBinTime (p.mul_bits_lt_width h.major_lt) h.minor_lt]
  exact h.getBinTime_eq

end Reached

/-- The inner loop appends an item to a bin. -/
def deposit (q : Queue p α) (i : ℕ) (x : α) : Queue p α :=
  { q with
    nonemptyBins :=
      if q.bins i = [] then Function.update q.nonemptyBins i true else q.nonemptyBins
    bins := Function.update q.bins i (q.bins i ++ [x]) }

theorem deposit_marks {i j : ℕ} (h : q.nonemptyBins j = true ↔ q.bins j ≠ []) :
    (q.deposit i x).nonemptyBins j = true ↔ (q.deposit i x).bins j ≠ [] := by
  unfold deposit
  by_cases hji : j = i
  · subst hji
    by_cases hnil : q.bins j = []
    · simp [hnil]
    · simpa [hnil] using h.mpr hnil
  · by_cases hnil : q.bins i = []
    · simpa [hnil, hji] using h
    · simpa [hnil, hji] using h

/-- The bins after the inner loop has moved the items of a list to the major bin `m`, and the first
of the bins there. -/
structure Redistributed (due : α → p.Timestamp) (m : ℕ) (source : List α) (first : ℕ)
    (q : Queue p α) (first' : ℕ) (q' : Queue p α) : Prop where
  activeTime : q'.activeTime = q.activeTime
  bins : ∀ i, q'.bins i = q.bins i ++
    source.filter fun x => m * 2 ^ p.bits + Radix.digit p.bits m (due x).toNat = i
  marks : ∀ i, (q.nonemptyBins i = true ↔ q.bins i ≠ []) →
    (q'.nonemptyBins i = true ↔ q'.bins i ≠ [])
  first_le : first' ≤ first
  le_digit : ∀ x ∈ source, first' ≤ Radix.digit p.bits m (due x).toNat
  first_eq : first' = first → q'.firstNonemptyBin = q.firstNonemptyBin
  first_lt : first' < first → q'.firstNonemptyBin = m * 2 ^ p.bits + first' ∧
    ∃ x ∈ source, Radix.digit p.bits m (due x).toNat = first'

theorem redistribute_cons (hfits : m * 2 ^ p.bits + 2 ^ p.bits ≤ p.totalBinCount)
    (source : List α) (first : ℕ) (q : Queue p α) :
    redistribute due m (x :: source) first q =
      if Radix.digit p.bits m (due x).toNat < first then
        redistribute due m source (Radix.digit p.bits m (due x).toNat)
          { q.deposit (m * 2 ^ p.bits + Radix.digit p.bits m (due x).toNat) x with
            firstNonemptyBin := m * 2 ^ p.bits + Radix.digit p.bits m (due x).toNat }
      else redistribute due m source first
        (q.deposit (m * 2 ^ p.bits + Radix.digit p.bits m (due x).toNat) x) := by
  have hdigit : Radix.digit p.bits m (due x).toNat < 2 ^ p.bits := Radix.digit_lt
  have htotal : p.totalBinCount < 2 ^ 32 := Nat.mod_lt _ (Nat.two_pow_pos 32)
  have hbase : m * p.minorBinsPerMajorBin % 2 ^ 32 = m * 2 ^ p.bits := by
    apply Nat.mod_eq_of_lt
    have hpos : 0 < 2 ^ p.bits := Nat.two_pow_pos _
    unfold Params.minorBinsPerMajorBin
    omega
  have hlt : m * 2 ^ p.bits + Radix.digit p.bits m (due x).toNat < p.totalBinCount := by omega
  rw [redistribute]
  simp only [hbase, Params.toNat_digit, hlt, ↓reduceIte, deposit]

theorem redistribute_spec (due : α → p.Timestamp)
    (hfits : m * 2 ^ p.bits + 2 ^ p.bits ≤ p.totalBinCount) (source : List α) (first : ℕ)
    (q : Queue p α) :
    ∃ first' q', redistribute due m source first q = some (first', q') ∧
      Redistributed due m source first q first' q' := by
  induction source generalizing first q with
  | nil =>
    refine ⟨first, q, rfl, ?_⟩
    constructor
    case activeTime => rfl
    case bins => simp
    case marks => exact fun _ h => h
    case first_le => exact Nat.le_refl _
    case le_digit => simp
    case first_eq => exact fun _ => rfl
    case first_lt => exact fun h => absurd h (Nat.lt_irrefl _)
  | cons x source ih =>
    rw [redistribute_cons hfits]
    -- the bins do not depend on the branch
    have hbins : ∀ i, (q.deposit (m * 2 ^ p.bits + Radix.digit p.bits m (due x).toNat) x).bins i ++
        (source.filter fun x => m * 2 ^ p.bits + Radix.digit p.bits m (due x).toNat = i) =
        q.bins i ++ (x :: source).filter
          fun x => m * 2 ^ p.bits + Radix.digit p.bits m (due x).toNat = i := by
      intro i
      unfold deposit
      dsimp only
      by_cases hi : i = m * 2 ^ p.bits + Radix.digit p.bits m (due x).toNat
      · subst hi
        simp
      · rw [Function.update_of_ne hi, List.filter_cons_of_neg]
        simpa using Ne.symm hi
    by_cases hlt : Radix.digit p.bits m (due x).toNat < first
    · rw [if_pos hlt]
      obtain ⟨first', q', hq', h⟩ := ih (Radix.digit p.bits m (due x).toNat)
        { q.deposit (m * 2 ^ p.bits + Radix.digit p.bits m (due x).toNat) x with
          firstNonemptyBin := m * 2 ^ p.bits + Radix.digit p.bits m (due x).toNat }
      have hle : first' ≤ Radix.digit p.bits m (due x).toNat := h.first_le
      refine ⟨first', q', hq', ?_⟩
      constructor
      case activeTime => exact h.activeTime
      case bins => exact fun i => (h.bins i).trans (hbins i)
      case marks => exact fun i hi => h.marks i (deposit_marks hi)
      case first_le => omega
      case le_digit =>
        intro y hy
        rcases List.mem_cons.mp hy with rfl | hy
        · exact hle
        · exact h.le_digit y hy
      case first_eq => omega
      case first_lt =>
        intro _
        rcases Nat.eq_or_lt_of_le hle with heq | hless
        · rw [heq]
          exact ⟨h.first_eq heq, x, List.mem_cons_self, rfl⟩
        · obtain ⟨hfirst, y, hy, hdigit⟩ := h.first_lt hless
          exact ⟨hfirst, y, List.mem_cons_of_mem _ hy, hdigit⟩
    · rw [if_neg hlt]
      obtain ⟨first', q', hq', h⟩ := ih first
        (q.deposit (m * 2 ^ p.bits + Radix.digit p.bits m (due x).toNat) x)
      have hle : first' ≤ first := h.first_le
      refine ⟨first', q', hq', ?_⟩
      constructor
      case activeTime => exact h.activeTime
      case bins => exact fun i => (h.bins i).trans (hbins i)
      case marks => exact fun i hi => h.marks i (deposit_marks hi)
      case first_le => exact hle
      case le_digit =>
        intro y hy
        rcases List.mem_cons.mp hy with rfl | hy
        · omega
        · exact h.le_digit y hy
      case first_eq => exact h.first_eq
      case first_lt =>
        intro hless
        obtain ⟨hfirst, y, hy, hdigit⟩ := h.first_lt hless
        exact ⟨hfirst, y, List.mem_cons_of_mem _ hy, hdigit⟩

theorem minorBinsPerMajorBin_dvd_start {a d : ℕ} :
    p.minorBinsPerMajorBin ∣ Radix.start p.bits a (m + 1) d := by
  rw [Radix.start_eq_mul, Radix.two_pow_succ_mul, ← Nat.mul_assoc]
  exact Nat.dvd_mul_left _ _

/-- The bins after a round: those of the bin that it takes the items from are in the major bin
before it. -/
def roundBins (due : α → p.Timestamp) (m source : ℕ) (q : Queue p α) (i : ℕ) : List α :=
  if i = source then []
  else q.bins i ++ (q.bins source).filter
    fun x => m * 2 ^ p.bits + Radix.digit p.bits m (due x).toNat = i

theorem digit_lt_source (minor t : ℕ) :
    m * 2 ^ p.bits + Radix.digit p.bits m t < (m + 1) * 2 ^ p.bits + minor := by
  have hdigit : Radix.digit p.bits m t < 2 ^ p.bits := Radix.digit_lt
  rw [Nat.add_one_mul]
  omega

namespace Reached
variable {first : ℕ} (h : Reached due l (m + 1) minor q)
  (hle : ∀ x ∈ q.bins ((m + 1) * 2 ^ p.bits + minor),
    first ≤ Radix.digit p.bits m (due x).toNat)

include h

include hle in
/-- The new base is the start of the bin, so the bins of the other items stay the same, and only
the first of the bins that were filled may hold items of more than one bin. -/
theorem distributes_round (hless : first < 2 ^ p.bits)
    (hactive : q'.activeTime.toNat = Radix.start p.bits q.activeTime.toNat (m + 1) minor) :
    Distributes (dueTime due) (q'.groupSlot m first)
      (q.roundBins due m ((m + 1) * 2 ^ p.bits + minor)) l := by
  have hb := p.bits_pos
  set source := (m + 1) * 2 ^ p.bits + minor with hsource
  let loc (time : ℕ) : ℕ :=
    if Radix.upper p.bits (m + 1) time =
        Radix.upper p.bits (m + 1 + 1) q.activeTime.toNat * 2 ^ p.bits + minor then
      m * 2 ^ p.bits + Radix.digit p.bits m time
    else q.slot time
  have hbase : Radix.upper p.bits (m + 1) q'.activeTime.toNat =
      Radix.upper p.bits (m + 1 + 1) q.activeTime.toNat * 2 ^ p.bits + minor := by
    rw [hactive, Radix.upper_start]
  have hsplit : Distributes (dueTime due) loc (q.roundBins due m source) l := by
    have hkeep : ∀ time, q.groupSlot (m + 1) minor time ≠ source →
        loc time = q.groupSlot (m + 1) minor time := by
      intro time hne
      by_cases hgroup : Radix.upper p.bits (m + 1) time =
          Radix.upper p.bits (m + 1 + 1) q.activeTime.toNat * 2 ^ p.bits + minor
      · exact absurd (if_pos hgroup) hne
      · rw [groupSlot, if_neg hgroup]
        exact if_neg hgroup
    have hmove : ∀ time, q.groupSlot (m + 1) minor time = source → loc time ≠ source := by
      intro time heq
      have hloc : loc time = m * 2 ^ p.bits + Radix.digit p.bits m time :=
        if_pos (upper_of_groupSlot h.minor_lt heq)
      rw [hloc]
      exact Nat.ne_of_lt (digit_lt_source minor time)
    have hbins : q.roundBins due m source = fun i => if i = source then []
        else q.bins i ++ (q.bins source).filter fun x => loc (dueTime due x) = i := by
      funext i
      unfold roundBins
      congr 2
      apply List.filter_congr
      intro x hx
      have hloc : loc (dueTime due x) = m * 2 ^ p.bits + Radix.digit p.bits m (due x).toNat :=
        if_pos (h.mem_bin_iff.mp hx).2
      rw [hloc]
    rw [hbins]
    exact h.distributes.split source hkeep hmove
  refine hsplit.congr fun x hx => ?_
  by_cases hgroup : Radix.upper p.bits (m + 1) (due x).toNat =
      Radix.upper p.bits (m + 1 + 1) q.activeTime.toNat * 2 ^ p.bits + minor
  · have hloc : loc (dueTime due x) = m * 2 ^ p.bits + Radix.digit p.bits m (due x).toNat :=
      if_pos hgroup
    have hupper : Radix.upper p.bits (m + 1) (due x).toNat =
        Radix.upper p.bits (m + 1) q'.activeTime.toNat := hgroup.trans hbase.symm
    have hdigit := hle x (h.mem_bin_iff.mpr ⟨hx, hgroup⟩)
    rw [hloc, groupSlot, dueTime]
    split
    · next heq => rw [(Radix.of_upper_eq hless heq).2]
    · next hne =>
      rw [Radix.upper_eq, hupper, Nat.add_left_cancel_iff] at hne
      have hzero : Radix.digit p.bits m q'.activeTime.toNat = 0 := by
        rw [hactive]
        exact Radix.digit_start_of_lt (Nat.lt_succ_self m)
      have hlevel : Radix.level p.bits q'.activeTime.toNat (due x).toNat = m := by
        apply Radix.level_eq hb hupper
        omega
      exact Radix.slot_eq hlevel
  · have hlater := h.lt_slot hx hgroup
    have hslot := (Radix.slot_start hb (BitVec.le_def.mp (h.active_le x hx)) h.minor_lt hlater).2
    have hloc : loc (dueTime due x) = q.slot (due x).toNat := if_neg hgroup
    rw [hloc, groupSlot, if_neg]
    · rw [slot, hactive]
      exact hslot
    · intro heq
      exact hgroup ((Radix.of_upper_eq hless heq).1.trans hbase)

include hle in
theorem marked_round (hbins : q'.bins = q.roundBins due m ((m + 1) * 2 ^ p.bits + minor))
    (hmarks : ∀ i, q'.nonemptyBins i = true ↔ q'.bins i ≠ [])
    (hfirst : q'.firstNonemptyBin = m * 2 ^ p.bits + first)
    (hmem : ∃ x ∈ q.bins ((m + 1) * 2 ^ p.bits + minor),
      Radix.digit p.bits m (due x).toNat = first) : q'.Marked := by
  obtain ⟨x, hx, hdigit⟩ := hmem
  have hlt : m * 2 ^ p.bits + first < (m + 1) * 2 ^ p.bits + minor := by
    rw [← hdigit]
    exact digit_lt_source minor _
  have hmem : ∀ i, ∀ y ∈ q'.bins i, y ∈ q.bins i ∨
      y ∈ q.bins ((m + 1) * 2 ^ p.bits + minor) ∧
        m * 2 ^ p.bits + Radix.digit p.bits m (due y).toNat = i := by
    intro i y hy
    rw [hbins] at hy
    unfold roundBins at hy
    split at hy
    · cases hy
    · rcases List.mem_append.mp hy with hy | hy
      · exact Or.inl hy
      · exact Or.inr (by simpa using hy)
  constructor
  case marks => exact hmarks
  case inside =>
    intro i hi
    obtain ⟨y, hy⟩ := List.exists_mem_of_ne_nil _ hi
    rcases hmem i y hy with hy | ⟨_, rfl⟩
    · exact h.marked.inside i (List.ne_nil_of_mem hy)
    · exact Nat.lt_trans (digit_lt_source minor _) h.first_lt
  case first_le =>
    rw [hfirst]
    exact Nat.le_of_lt (Nat.lt_trans hlt h.first_lt)
  case first_ne =>
    intro _
    rw [hfirst, hbins]
    unfold roundBins
    rw [if_neg (Nat.ne_of_lt hlt)]
    apply List.ne_nil_of_mem (a := x)
    simp [hx, hdigit]
  case lower =>
    intro i hi
    rw [hfirst] at hi
    rw [List.eq_nil_iff_forall_not_mem]
    intro y hy
    rcases hmem i y hy with hy | ⟨hsource, hi'⟩
    · rw [h.marked.lower i (by rw [h.first]; omega)] at hy
      cases hy
    · have hdigit := hle y hsource
      omega

end Reached

/-- A round of the outer loop, from any state. -/
structure Round (due : α → p.Timestamp) (m minor : ℕ) (q : Queue p α) (first : ℕ)
    (q' : Queue p α) : Prop where
  activeTime : q'.activeTime = q.roundActiveTime ⟨m + 1, minor⟩
  bins : q'.bins = q.roundBins due m ((m + 1) * 2 ^ p.bits + minor)
  marks : (∀ i, q.nonemptyBins i = true ↔ q.bins i ≠ []) →
    ∀ i, q'.nonemptyBins i = true ↔ q'.bins i ≠ []
  firstNonemptyBin : q'.firstNonemptyBin = m * 2 ^ p.bits + first
  le_digit : ∀ x ∈ q.bins ((m + 1) * 2 ^ p.bits + minor),
    first ≤ Radix.digit p.bits m (due x).toNat
  exists_digit : ∃ x ∈ q.bins ((m + 1) * 2 ^ p.bits + minor),
    Radix.digit p.bits m (due x).toNat = first

theorem redistributeRound_spec (due : α → p.Timestamp) (q : Queue p α)
    (hlt : (m + 1) * 2 ^ p.bits + minor < p.totalBinCount)
    (hne : q.bins ((m + 1) * 2 ^ p.bits + minor) ≠ []) :
    ∃ first q', q.redistributeRound due m minor = some (first, q') ∧
      Round due m minor q first q' := by
  have hfits : m * 2 ^ p.bits + 2 ^ p.bits ≤ p.totalBinCount := by
    rw [Nat.add_one_mul] at hlt
    omega
  set source := (m + 1) * 2 ^ p.bits + minor with hsource
  obtain ⟨first, q', hq', hr⟩ := redistribute_spec due hfits (q.bins source)
    p.minorBinsPerMajorBin { q with
      activeTime := q.roundActiveTime ⟨m + 1, minor⟩
      bins := Function.update q.bins source [] }
  have hround : q.redistributeRound due m minor = some (first, { q' with
      nonemptyBins := Function.update q'.nonemptyBins source false }) := by
    have hlinear : BinIndex.linearIndex p ⟨m + 1, minor⟩ = source := rfl
    unfold redistributeRound
    dsimp only
    rw [hlinear, if_pos ⟨hlt, hne⟩, hq']
    rfl
  have hbins : q'.bins = q.roundBins due m source := by
    funext i
    rw [hr.bins i]
    unfold roundBins
    dsimp only
    split
    · next hi =>
      subst hi
      rw [Function.update_self, List.nil_append, List.filter_eq_nil_iff]
      intro x _
      simpa using Nat.ne_of_lt (digit_lt_source minor _)
    · next hi => rw [Function.update_of_ne hi]
  have hless : first < p.minorBinsPerMajorBin := by
    obtain ⟨x, hx⟩ := List.exists_mem_of_ne_nil _ hne
    exact Nat.lt_of_le_of_lt (hr.le_digit x hx) Radix.digit_lt
  obtain ⟨hfirst, y, hy, hdigit⟩ := hr.first_lt hless
  refine ⟨first, _, hround, ?_⟩
  constructor
  case activeTime => exact hr.activeTime
  case bins => exact hbins
  case marks =>
    intro hmarks i
    by_cases hi : i = source
    · subst hi
      simp [hbins, roundBins]
    · dsimp only
      rw [Function.update_of_ne hi]
      apply hr.marks i
      dsimp only
      rw [Function.update_of_ne hi]
      exact hmarks i
  case firstNonemptyBin => exact hfirst
  case le_digit => exact hr.le_digit
  case exists_digit => exact ⟨y, hy, hdigit⟩

theorem Round.first_lt {first : ℕ} (h : Round due m minor q first q') : first < 2 ^ p.bits := by
  obtain ⟨x, hx, hdigit⟩ := h.exists_digit
  rw [← hdigit]
  exact Radix.digit_lt

/-- A round leaves the redistribution at the first of the bins that it filled. -/
theorem Reached.of_round {first : ℕ} (h : Reached due l (m + 1) minor q)
    (hr : Round due m minor q first q') :
    Reached due l m first q' ∧
      q'.activeTime.toNat = Radix.start p.bits q.activeTime.toNat (m + 1) minor := by
  have hactive : q'.activeTime.toNat =
      Radix.start p.bits q.activeTime.toNat (m + 1) minor := by
    rw [hr.activeTime]
    exact h.roundActiveTime_eq
  refine ⟨?_, hactive⟩
  constructor
  case minor_lt => exact hr.first_lt
  case first => exact hr.firstNonemptyBin
  case first_lt =>
    obtain ⟨x, hx, hdigit⟩ := hr.exists_digit
    rw [← hdigit]
    exact Nat.lt_trans (digit_lt_source minor _) h.first_lt
  case aligned =>
    rw [hactive]
    exact minorBinsPerMajorBin_dvd_start
  case active_le =>
    intro x hx
    rw [BitVec.le_def, hactive]
    exact h.start_le hx
  case le_max => exact h.le_max
  case distributes =>
    rw [hr.bins]
    exact h.distributes_round hr.le_digit hr.first_lt hactive
  case marked =>
    exact h.marked_round hr.le_digit hr.bins (hr.marks h.marked.marks) hr.firstNonemptyBin
      hr.exists_digit

/-- What is left of the items. -/
def remaining [DecidableEq α] (l : List α) : Option α → List α
  | none => l
  | some x => l.erase x

/-- `bin_time` is the start of the bin. -/
theorem Reached.binTime_eq (h : Reached due l m minor q)
    (hbase : 2 ^ ((m + 1) * p.bits) ∣ q.activeTime.toNat) :
    (q.activeTime + BitVec.ofNat _ (minor * 2 ^ (m * p.bits))).toNat =
      Radix.start p.bits q.activeTime.toNat m minor := by
  rw [← getBinTime_eq_add (p.mul_bits_lt_width h.major_lt) hbase, h.getBinTime_eq]

/-- The bin at the start of the base is never the one where the redistribution ends early. -/
theorem digit_ne_of_lt_start {t : ℕ} {a : ℕ} (hbase : 2 ^ ((m + 1) * p.bits) ∣ a) (hle : a ≤ t)
    (hlt : t < Radix.start p.bits a m minor) : Radix.digit p.bits m a ≠ minor := by
  have hstart : Radix.start p.bits a m 0 = a := by
    rw [Radix.start, Nat.zero_mul, Nat.add_zero, Radix.upper, Nat.div_mul_cancel hbase]
  have hdigit : Radix.digit p.bits m a = 0 := by
    rw [← hstart, Radix.digit_start (Nat.two_pow_pos _)]
  rintro rfl
  rw [hdigit, hstart] at hlt
  omega

/-- What the redistribution leaves behind: either the first bin is later than `t`, or it is in the
first major bin and not later. -/
structure Settled (t : p.Timestamp) (reached : Bool) (q : Queue p α) : Prop where
  of_true : reached = true → q.firstNonemptyBin < p.minorBinsPerMajorBin ∧
    Radix.start p.bits q.activeTime.toNat 0 q.firstNonemptyBin ≤ t.toNat
  of_false : reached = false →
    t.toNat < Radix.start p.bits q.activeTime.toNat (q.firstNonemptyBin / 2 ^ p.bits)
      (q.firstNonemptyBin % 2 ^ p.bits)

theorem Reached.first_div (h : Reached due l m minor q) :
    q.firstNonemptyBin / 2 ^ p.bits = m := by
  rw [h.first, Nat.mul_comm, Nat.mul_add_div (Nat.two_pow_pos _), Nat.div_eq_of_lt h.minor_lt,
    Nat.add_zero]

theorem Reached.first_mod (h : Reached due l m minor q) :
    q.firstNonemptyBin % 2 ^ p.bits = minor := by
  rw [h.first, Nat.mul_comm, Nat.mul_add_mod, Nat.mod_eq_of_lt h.minor_lt]

/-- The outer loop ends, with a placed queue. -/
theorem Reached.redistributeFrom {t : p.Timestamp} (h : Reached due l major minor q)
    (hstart : Radix.start p.bits q.activeTime.toNat major minor ≤ t.toNat) :
    ∃ reached q', q.redistributeFrom due p.shiftExact t major minor = some (reached, q') ∧
      Holds due l q' ∧ q'.firstNonemptyBin < p.totalBinCount ∧ Settled t reached q' := by
  induction major generalizing minor q with
  | zero =>
    have hfirst : q.firstNonemptyBin = minor := by
      rw [h.first, Nat.zero_mul, Nat.zero_add]
    refine ⟨true, q, rfl, h.holds (Or.inl rfl), by rw [h.first]; exact h.first_lt, ?_, by simp⟩
    intro _
    rw [hfirst]
    exact ⟨h.minor_lt, hstart⟩
  | succ m ih =>
    obtain ⟨first, q', hround, hr⟩ := redistributeRound_spec due q h.first_lt h.bin_ne_nil
    obtain ⟨h', hactive⟩ := h.of_round hr
    have hbase : 2 ^ ((m + 1) * p.bits) ∣ q'.activeTime.toNat := by
      rw [hr.activeTime]
      exact dvd_roundActiveTime _ _
    have hbin := h'.binTime_eq hbase
    have hle : q'.activeTime.toNat ≤ t.toNat := by rwa [hactive]
    unfold Queue.redistributeFrom
    simp only [hround, Option.bind_eq_bind, Option.bind_some, Params.shiftExact]
    by_cases hlt : t < q'.activeTime + BitVec.ofNat _ (first * 2 ^ (m * p.bits))
    · rw [if_pos hlt]
      rw [BitVec.lt_def, hbin] at hlt
      refine ⟨false, q', rfl, h'.holds (Or.inr (digit_ne_of_lt_start hbase hle hlt)), ?_, by simp,
        ?_⟩
      · rw [h'.first]
        exact h'.first_lt
      · intro _
        rwa [h'.first_div, h'.first_mod]
    · rw [if_neg hlt]
      rw [BitVec.lt_def, hbin] at hlt
      exact ih h' (Nat.le_of_not_lt hlt)

theorem Holds.getBinTime_first (h : Holds due l q) (hlt : q.firstNonemptyBin < p.totalBinCount) :
    (q.getBinTime (BinIndex.fromLinearIndex p q.firstNonemptyBin)).toNat =
      Radix.start p.bits q.activeTime.toNat (q.firstNonemptyBin / 2 ^ p.bits)
        (q.firstNonemptyBin % 2 ^ p.bits) := (h.reached hlt).getBinTime_eq

theorem Holds.eq_nil_of_first (h : Holds due l q) (hempty : q.firstNonemptyBin = p.totalBinCount) :
    l = [] := by
  rw [List.eq_nil_iff_forall_not_mem]
  intro x hx
  have hmem := h.mem_slot hx
  rw [h.marked.bins_eq_nil hempty] at hmem
  cases hmem

/-- The bound is not later than any of the timestamps. -/
theorem Holds.lowerBound_le (h : Holds due l q) (hx : x ∈ l) :
    q.earliestDueTimeLowerBound ≤ due x := h.placed.binned.lowerBound_le (h.mem_slot hx)

theorem Holds.lowerBound_nil (h : Holds due [] q) :
    q.earliestDueTimeLowerBound = p.maxTimestamp := by
  have hempty : q.firstNonemptyBin = p.totalBinCount := by
    rcases Nat.eq_or_lt_of_le h.marked.first_le with heq | hlt
    · exact heq
    · obtain ⟨x, hx⟩ := List.exists_mem_of_ne_nil _ (h.marked.first_ne hlt)
      cases (h.mem_bins_iff.mp hx).1
  exact if_pos hempty

variable [DecidableEq α]

/-- `try_dequeue_next_due_by` returns the item that is next. Where it returns `nullptr` it leaves a
bound after the time that it was given. -/
theorem Holds.tryDequeueNextDueBy (h : Holds due l q) (t : p.Timestamp) :
    ∃ r q', q.tryDequeueNextDueBy due p.shiftExact t = some (r, q') ∧
      r = StableQueue.next (dueTime due) l t.toNat ∧ Holds due (remaining l r) q' ∧
      (r = none → l ≠ [] → t < q'.earliestDueTimeLowerBound) := by
  unfold Queue.tryDequeueNextDueBy
  by_cases hempty : q.firstNonemptyBin = p.totalBinCount
  · rw [if_pos hempty]
    have hnil : l = [] := h.eq_nil_of_first hempty
    subst hnil
    exact ⟨none, q, rfl, rfl, h, fun _ hne => absurd rfl hne⟩
  · have hlt : q.firstNonemptyBin < p.totalBinCount :=
      Nat.lt_of_le_of_ne h.marked.first_le hempty
    have hbin := h.getBinTime_first hlt
    -- a bin in front that is later than `t` leaves no item that is due
    have hnone : ∀ {q' : Queue p α}, Holds due l q' → q'.firstNonemptyBin < p.totalBinCount →
        t.toNat < Radix.start p.bits q'.activeTime.toNat (q'.firstNonemptyBin / 2 ^ p.bits)
          (q'.firstNonemptyBin % 2 ^ p.bits) →
        none = StableQueue.next (dueTime due) l t.toNat ∧ t < q'.earliestDueTimeLowerBound := by
      intro q' h' hlt' hafter
      have hbound : t < q'.earliestDueTimeLowerBound := by
        unfold earliestDueTimeLowerBound
        rwa [if_neg (Nat.ne_of_lt hlt'), BitVec.lt_def, h'.getBinTime_first hlt']
      constructor
      · symm
        apply StableQueue.next_eq_none
        intro y hy
        exact Nat.lt_of_lt_of_le (BitVec.lt_def.mp hbound) (BitVec.le_def.mp (h'.lowerBound_le hy))
      · exact hbound
    rw [if_neg hempty]
    dsimp only
    rw [if_pos ⟨hlt, h.marked.first_ne hlt⟩]
    by_cases hlater : t < q.getBinTime (BinIndex.fromLinearIndex p q.firstNonemptyBin)
    · rw [if_pos hlater]
      rw [BitVec.lt_def, hbin] at hlater
      obtain ⟨hnext, hbound⟩ := hnone h hlt hlater
      exact ⟨none, q, rfl, hnext, h, fun _ _ => hbound⟩
    · rw [if_neg hlater]
      rw [BitVec.lt_def, hbin] at hlater
      obtain ⟨reached, q', hq', h', hlt', hsettled⟩ :=
        (h.reached hlt).redistributeFrom (Nat.le_of_not_lt hlater)
      have hfrom : q.redistributeFrom due p.shiftExact t
          (BinIndex.fromLinearIndex p q.firstNonemptyBin).major
          (BinIndex.fromLinearIndex p q.firstNonemptyBin).minor = some (reached, q') := hq'
      rw [hfrom]
      cases reached with
      | false =>
        obtain ⟨hnext, hbound⟩ := hnone h' hlt' (hsettled.of_false rfl)
        exact ⟨none, q', rfl, hnext, h', fun _ _ => hbound⟩
      | true =>
        obtain ⟨hminor, hstart⟩ := hsettled.of_true rfl
        obtain ⟨x, q'', hpop, hnext, h'', _⟩ := h'.popFirst hminor hlt' hstart
        exact ⟨some x, q'', hpop, hnext.symm, h'', by simp⟩

/-- From any placed state. -/
theorem dequeue_of_placed (h : Placed due q) (t : p.Timestamp) :
    ∃ r q', q.tryDequeueNextDueBy due p.shiftExact t = some (r, q') ∧
      r = StableQueue.next (dueTime due) q.items t.toNat ∧ Placed due q' ∧
      SameOrder (dueTime due) q'.items (remaining q.items r) := by
  obtain ⟨r, q', hq', hnext, hholds, _⟩ := h.holds_items.tryDequeueNextDueBy t
  exact ⟨r, q', hq', hnext, hholds.placed, hholds.sameOrder_items⟩

theorem dequeue_of_placed_twoItems : ∃ r q',
    twoItems.tryDequeueNextDueBy id sixteenMinorBins.shiftExact 0x60 = some (r, q') ∧
      r = StableQueue.next (dueTime (p := sixteenMinorBins) id) twoItems.items 0x60 ∧
      Placed id q' ∧ SameOrder (dueTime (p := sixteenMinorBins) id) q'.items
        (remaining twoItems.items r) :=
  dequeue_of_placed twoItems_holds.placed 0x60

end Queue
end Squiz.Detail.BinnedTimePriorityQueue
