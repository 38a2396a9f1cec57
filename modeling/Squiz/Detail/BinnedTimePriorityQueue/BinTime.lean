import Squiz.Detail.BinnedTimePriorityQueue.Dequeue

/-! The arithmetic of `bin_time` in the redistribution loop. -/
namespace Squiz.Detail.BinnedTimePriorityQueue
open Squiz.Lib

namespace Params
variable (p : Params)

/-- The number of values that are not negative of the type to which a `minor_bin_index_t` is
promoted, which has 32 bits. -/
def promotedLimit : ℕ := if p.minorBinIndexWidth < 32 then 2 ^ 31 else 2 ^ 32

/-- The shift of a minor bin index for a major bin is defined and does not overflow. -/
def ShiftFits (major minor : ℕ) : Prop :=
  major * p.bits < 32 ∧ minor * 2 ^ (major * p.bits) < p.promotedLimit

instance (major minor : ℕ) : Decidable (p.ShiftFits major minor) :=
  inferInstanceAs (Decidable (_ ∧ _))

variable {p} {major minor : ℕ}

theorem two_pow_le_promotedLimit : 2 ^ 31 ≤ p.promotedLimit := by
  unfold promotedLimit
  split <;> decide

theorem shiftMinor_eq (h : p.ShiftFits major minor) :
    p.shiftMinor minor (major * p.bits) = p.shiftExact minor (major * p.bits) := by
  obtain ⟨hshift, hlimit⟩ := h
  unfold promotedLimit at hlimit
  have hpos : 0 < 2 ^ (major * p.bits) := Nat.two_pow_pos _
  have hle : minor ≤ minor * 2 ^ (major * p.bits) := Nat.le_mul_of_pos_right _ hpos
  have hlt : minor * 2 ^ (major * p.bits) < 2 ^ 32 := by
    split at hlimit <;> omega
  have hminor : minor < 2 ^ 32 := by omega
  have hvalue : (BitVec.ofNat 32 minor <<< (major * p.bits)).toNat =
      minor * 2 ^ (major * p.bits) := by
    rw [BitVec.toNat_shiftLeft, BitVec.toNat_ofNat, Nat.mod_eq_of_lt hminor,
      Nat.shiftLeft_eq, Nat.mod_eq_of_lt hlt]
  have hwidth : (BitVec.ofNat 32 minor <<< (major * p.bits)).setWidth p.width =
      BitVec.ofNat p.width (minor * 2 ^ (major * p.bits)) := by
    apply BitVec.eq_of_toNat_eq
    rw [BitVec.toNat_setWidth, hvalue, BitVec.toNat_ofNat]
  unfold shiftMinor shiftExact
  dsimp only
  rw [if_pos hshift]
  split
  · next hint =>
    rw [if_pos hint] at hlimit
    have hmsb : (BitVec.ofNat 32 minor <<< (major * p.bits)).msb = false := by
      rw [BitVec.msb_eq_decide, hvalue]
      simpa using hlimit
    rw [BitVec.signExtend_eq_setWidth_of_msb_false hmsb, hwidth]
  · rw [hwidth]

/-- A minor bin index fits once the next major bin can be shifted to. -/
theorem ShiftFits.of_lt (hmajor : (major + 1) * p.bits < 32) (hminor : minor < 2 ^ p.bits) :
    p.ShiftFits major minor := by
  have hlimit := p.two_pow_le_promotedLimit
  have hpow : 2 ^ ((major + 1) * p.bits) ≤ 2 ^ 31 := Nat.pow_le_pow_right (by decide) (by omega)
  have hlt : minor * 2 ^ (major * p.bits) < 2 ^ ((major + 1) * p.bits) := by
    rw [Radix.two_pow_succ_mul, Nat.mul_comm (2 ^ (major * p.bits))]
    exact Nat.mul_lt_mul_of_pos_right hminor (Nat.two_pow_pos _)
  rw [Nat.add_one_mul] at hmajor
  exact ⟨by omega, by omega⟩

end Params

/-- A level at which the redistribution loop computes `bin_time`, with the queue there. -/
structure Level (p : Params) (α : Type) where
  targetMajor : ℕ
  firstNonemptyMinorIndex : ℕ
  queue : Queue p α

/-- The shift and the sum do not overflow, and `bin_time` is the start of the bin. -/
structure Level.Exact {p : Params} {α : Type} (r : Level p α) : Prop where
  shift : p.ShiftFits r.targetMajor r.firstNonemptyMinorIndex
  sum : r.queue.activeTime.toNat + r.firstNonemptyMinorIndex * 2 ^ (r.targetMajor * p.bits) <
    2 ^ p.width
  binTime : (p.shiftMinor r.firstNonemptyMinorIndex (r.targetMajor * p.bits)).map
      (r.queue.activeTime + ·) =
    some (r.queue.getBinTime ⟨r.targetMajor, r.firstNonemptyMinorIndex⟩)

namespace Queue
variable {p : Params} {α : Type}

/-- The levels of `redistributeFrom`, in their order. -/
def levelsFrom (due : α → p.Timestamp) (shl : ℕ → ℕ → Option p.Timestamp)
    (currentTime : p.Timestamp) : (major minor : ℕ) → Queue p α → List (Level p α)
  | 0, _, _ => []
  | targetMajor + 1, minor, q =>
    match q.redistributeRound due targetMajor minor with
    | none => []
    | some (first, q) =>
      ⟨targetMajor, first, q⟩ ::
        match shl first (targetMajor * p.bits) with
        | none => []
        | some shifted =>
          if currentTime < q.activeTime + shifted then []
          else levelsFrom due shl currentTime targetMajor first q

/-- The levels of `tryDequeueNextDueBy`. -/
def levels (q : Queue p α) (due : α → p.Timestamp) (shl : ℕ → ℕ → Option p.Timestamp)
    (currentTime : p.Timestamp) : List (Level p α) :=
  let first := q.firstNonemptyBin
  let index := BinIndex.fromLinearIndex p first
  if first < p.totalBinCount ∧ q.bins first ≠ [] ∧ ¬ currentTime < q.getBinTime index then
    q.levelsFrom due shl currentTime index.major index.minor
  else []

/-- If the items of the lowest bin that is not empty have to be redistributed, the least digit of
their timestamps in the next major bin is as it has to be. -/
def FirstRound (P : ℕ → ℕ → Prop) (q : Queue p α) (due : α → p.Timestamp)
    (currentTime : p.Timestamp) : Prop :=
  let first := q.firstNonemptyBin
  let index := BinIndex.fromLinearIndex p first
  first < p.totalBinCount → q.bins first ≠ [] → ¬ currentTime < q.getBinTime index →
    index.major ≠ 0 →
    ∀ digit ∈ ((q.bins first).map fun x => Radix.digit p.bits (index.major - 1) (due x).toNat).min?,
      P (index.major - 1) digit

instance (P : ℕ → ℕ → Prop) [∀ m d, Decidable (P m d)] (q : Queue p α) (due : α → p.Timestamp)
    (currentTime : p.Timestamp) : Decidable (q.FirstRound P due currentTime) :=
  inferInstanceAs (Decidable (_ → _ → _ → _ → _))

/-- The first shift of a call is defined and does not overflow. -/
abbrev FirstRoundFits (q : Queue p α) (due : α → p.Timestamp) (currentTime : p.Timestamp) : Prop :=
  q.FirstRound p.ShiftFits due currentTime

/-- The first shift of a call has the value that it has in exact arithmetic. -/
abbrev FirstRoundExact (q : Queue p α) (due : α → p.Timestamp) (currentTime : p.Timestamp) :
    Prop :=
  q.FirstRound (fun major minor =>
    p.shiftMinor minor (major * p.bits) = p.shiftExact minor (major * p.bits)) due currentTime

variable {q q' : Queue p α} {due : α → p.Timestamp} {currentTime : p.Timestamp}
  {m minor first : ℕ}

theorem lt_width_of_lt_total (hlt : (m + 1) * 2 ^ p.bits + minor < p.totalBinCount) :
    (m + 1) * p.bits < p.width := by
  apply p.mul_bits_lt_width
  have hpow : 0 < 2 ^ p.bits := Nat.two_pow_pos _
  have hle : p.totalBinCount ≤ p.majorBinCount * 2 ^ p.bits := Nat.mod_le _ _
  by_contra hge
  have hmul : p.majorBinCount * 2 ^ p.bits ≤ (m + 1) * 2 ^ p.bits :=
    Nat.mul_le_mul_right _ (Nat.le_of_not_lt hge)
  omega

/-- After a round from any state. -/
theorem Round.exact (hr : Round due m minor q first q')
    (hlt : (m + 1) * 2 ^ p.bits + minor < p.totalBinCount) (hfits : p.ShiftFits m first) :
    Level.Exact ⟨m, first, q'⟩ := by
  have hbase : 2 ^ ((m + 1) * p.bits) ∣ q'.activeTime.toNat := by
    rw [hr.activeTime]
    exact dvd_roundActiveTime _ _
  have hwidth : (m + 1) * p.bits < p.width := lt_width_of_lt_total hlt
  constructor
  case shift => exact hfits
  case sum =>
    dsimp only
    have hdigit : first * 2 ^ (m * p.bits) < 2 ^ ((m + 1) * p.bits) := by
      rw [Radix.two_pow_succ_mul, Nat.mul_comm (2 ^ (m * p.bits))]
      exact Nat.mul_lt_mul_of_pos_right hr.first_lt (Nat.two_pow_pos _)
    have hdvd : 2 ^ ((m + 1) * p.bits) ∣ 2 ^ p.width := Nat.pow_dvd_pow 2 (Nat.le_of_lt hwidth)
    have hroom := Nat.le_of_dvd (Nat.sub_pos_of_lt q'.activeTime.isLt) (Nat.dvd_sub hdvd hbase)
    have hactive := q'.activeTime.isLt
    omega
  case binTime =>
    have hm : m * p.bits < p.width := by
      rw [Nat.add_one_mul] at hwidth
      omega
    dsimp only
    rw [Params.shiftMinor_eq hfits, getBinTime_eq_add hm hbase]
    rfl

theorem popFirst_activeTime {r : Option α} (h : q.popFirst due currentTime = some (r, q')) :
    q'.activeTime = q.activeTime := by
  unfold popFirst at h
  dsimp only at h
  split at h
  · cases h
  · split at h
    · cases h
      split <;> rfl
    · cases h

theorem levelsFrom_of_round {shl : ℕ → ℕ → Option p.Timestamp}
    (hround : q.redistributeRound due m minor = some (first, q')) :
    q.levelsFrom due shl currentTime (m + 1) minor = ⟨m, first, q'⟩ ::
      match shl first (m * p.bits) with
      | none => []
      | some shifted =>
        if currentTime < q'.activeTime + shifted then []
        else q'.levelsFrom due shl currentTime m first := by
  rw [levelsFrom, hround]

/-- The levels after one that fits. -/
theorem mem_levelsFrom_iff {r : Level p α} (hfits : p.ShiftFits m first)
    (hround : q.redistributeRound due m minor = some (first, q')) :
    r ∈ q.levelsFrom due p.shiftMinor currentTime (m + 1) minor ↔ r = ⟨m, first, q'⟩ ∨
      ¬ currentTime < q'.activeTime + BitVec.ofNat _ (first * 2 ^ (m * p.bits)) ∧
        r ∈ q'.levelsFrom due p.shiftMinor currentTime m first := by
  rw [levelsFrom_of_round hround, Params.shiftMinor_eq hfits, List.mem_cons]
  unfold Params.shiftExact
  dsimp only
  split
  · next hlt => simp [hlt]
  · next hge => simp [hge]

theorem Round.lt_totalBinCount (hr : Round due m minor q first q')
    (hlt : (m + 1) * 2 ^ p.bits + minor < p.totalBinCount) :
    m * 2 ^ p.bits + first < p.totalBinCount := by
  obtain ⟨x, _, hdigit⟩ := hr.exists_digit
  rw [← hdigit]
  exact Nat.lt_trans (digit_lt_source minor _) hlt

/-- Below a major bin that can be shifted to, every level is exact. -/
theorem levelsFrom_exact {major : ℕ} (hshift : major * p.bits < 32)
    (hlt : major = 0 ∨ major * 2 ^ p.bits + minor < p.totalBinCount) :
    ∀ r ∈ q.levelsFrom due p.shiftMinor currentTime major minor, r.Exact := by
  induction major generalizing minor q with
  | zero => simp [levelsFrom]
  | succ m ih =>
    have hless : (m + 1) * 2 ^ p.bits + minor < p.totalBinCount := by simpa using hlt
    by_cases hne : q.bins ((m + 1) * 2 ^ p.bits + minor) = []
    · have hround : q.redistributeRound due m minor = none := by
        apply if_neg
        rintro ⟨_, hne'⟩
        exact hne' hne
      simp [levelsFrom, hround]
    · obtain ⟨first, q', hround, hr⟩ := redistributeRound_spec due q hless hne
      have hfits : p.ShiftFits m first := Params.ShiftFits.of_lt hshift hr.first_lt
      intro r hmem
      rcases (mem_levelsFrom_iff hfits hround).mp hmem with rfl | ⟨_, hmem⟩
      · exact hr.exact hless hfits
      · exact ih hfits.1 (Or.inr (hr.lt_totalBinCount hless)) r hmem

/-- The first round of a call, where there is one. -/
theorem firstRound_iff (P : ℕ → ℕ → Prop) (due : α → p.Timestamp) {m : ℕ}
    (hlt : q.firstNonemptyBin < p.totalBinCount)
    (hne : q.bins q.firstNonemptyBin ≠ [])
    (hdue : ¬ currentTime < q.getBinTime (BinIndex.fromLinearIndex p q.firstNonemptyBin))
    (hmajor : (BinIndex.fromLinearIndex p q.firstNonemptyBin).major = m + 1) :
    ∃ first q', q.redistributeRound due m (BinIndex.fromLinearIndex p q.firstNonemptyBin).minor =
        some (first, q') ∧
      Round due m (BinIndex.fromLinearIndex p q.firstNonemptyBin).minor q first q' ∧
      (m + 1) * 2 ^ p.bits + (BinIndex.fromLinearIndex p q.firstNonemptyBin).minor <
        p.totalBinCount ∧
      (q.FirstRound P due currentTime ↔ P m first) := by
  have hindex : (m + 1) * 2 ^ p.bits + (BinIndex.fromLinearIndex p q.firstNonemptyBin).minor =
      q.firstNonemptyBin := by
    rw [← hmajor, Nat.mul_comm]
    exact Nat.div_add_mod _ _
  have hlt' := hlt
  have hne' := hne
  rw [← hindex] at hlt' hne'
  obtain ⟨first, q', hround, hr⟩ := redistributeRound_spec due q hlt' hne'
  have hmin : ((q.bins q.firstNonemptyBin).map fun x =>
      Radix.digit p.bits m (due x).toNat).min? = some first := by
    rw [← hindex, List.min?_eq_some_iff]
    obtain ⟨x, hx, hdigit⟩ := hr.exists_digit
    constructor
    · exact List.mem_map.mpr ⟨x, hx, hdigit⟩
    · intro d hd
      obtain ⟨y, hy, rfl⟩ := List.mem_map.mp hd
      exact hr.le_digit y hy
  refine ⟨first, q', hround, hr, hlt', ?_⟩
  unfold FirstRound
  simp only [hlt, hne, hdue, hmajor, not_false_eq_true, ne_eq, forall_const, Nat.succ_ne_zero,
    Nat.add_sub_cancel, hmin, Option.mem_def, Option.some.injEq, forall_eq']

/-- `bin_time` is computed exactly at every level of a call if and only if the first shift fits. -/
theorem levels_exact_iff : (∀ r ∈ q.levels due p.shiftMinor currentTime, r.Exact) ↔
    q.FirstRoundFits due currentTime := by
  unfold levels
  dsimp only
  by_cases hcond : q.firstNonemptyBin < p.totalBinCount ∧ q.bins q.firstNonemptyBin ≠ [] ∧
      ¬ currentTime < q.getBinTime (BinIndex.fromLinearIndex p q.firstNonemptyBin)
  · rw [if_pos hcond]
    obtain ⟨hlt, hne, hdue⟩ := hcond
    cases hmajor : (BinIndex.fromLinearIndex p q.firstNonemptyBin).major with
    | zero => simp [levelsFrom, FirstRound, hmajor]
    | succ m =>
      obtain ⟨first, q', hround, hr, hsource, hiff⟩ :=
        firstRound_iff p.ShiftFits due hlt hne hdue hmajor
      apply Iff.trans _ hiff.symm
      constructor
      · intro hexact
        have hhead : Level.Exact (p := p) ⟨m, first, q'⟩ := by
          apply hexact
          rw [levelsFrom_of_round hround]
          exact List.mem_cons_self
        exact hhead.shift
      · intro hfits r hmem
        rcases (mem_levelsFrom_iff hfits hround).mp hmem with rfl | ⟨_, hmem⟩
        · exact hr.exact hsource hfits
        · exact levelsFrom_exact hfits.1 (Or.inr (hr.lt_totalBinCount hsource)) r hmem
  · rw [if_neg hcond]
    simp only [List.not_mem_nil, false_implies, implies_true, true_iff]
    intro hlt hne hdue
    exact absurd ⟨hlt, hne, hdue⟩ hcond

/-- Below a major bin that can be shifted to, the loop is as in exact arithmetic. -/
theorem redistributeFrom_eq {major : ℕ} (hshift : major * p.bits < 32)
    (hlt : major = 0 ∨ major * 2 ^ p.bits + minor < p.totalBinCount) :
    q.redistributeFrom due p.shiftMinor currentTime major minor =
      q.redistributeFrom due p.shiftExact currentTime major minor := by
  induction major generalizing minor q with
  | zero => rfl
  | succ m ih =>
    have hless : (m + 1) * 2 ^ p.bits + minor < p.totalBinCount := by simpa using hlt
    unfold redistributeFrom
    by_cases hne : q.bins ((m + 1) * 2 ^ p.bits + minor) = []
    · have hround : q.redistributeRound due m minor = none := by
        apply if_neg
        rintro ⟨_, hne'⟩
        exact hne' hne
      rw [hround]
      rfl
    · obtain ⟨first, q', hround, hr⟩ := redistributeRound_spec due q hless hne
      have hfits : p.ShiftFits m first := Params.ShiftFits.of_lt hshift hr.first_lt
      rw [hround]
      simp only [Option.bind_eq_bind, Option.bind_some, Params.shiftMinor_eq hfits,
        ih hfits.1 (Or.inr (hr.lt_totalBinCount hless))]

theorem FirstRoundFits.exact (h : q.FirstRoundFits due currentTime) :
    q.FirstRoundExact due currentTime := fun hlt hne hdue hmajor d hd =>
  Params.shiftMinor_eq (h hlt hne hdue hmajor d hd)

/-- A call whose first shift is exact is as in exact arithmetic. -/
theorem FirstRoundExact.tryDequeueNextDueBy_eq [DecidableEq α]
    (h : q.FirstRoundExact due currentTime) :
    q.tryDequeueNextDueBy due p.shiftMinor currentTime =
      q.tryDequeueNextDueBy due p.shiftExact currentTime := by
  unfold tryDequeueNextDueBy
  dsimp only
  by_cases hcond : q.firstNonemptyBin < p.totalBinCount ∧ q.bins q.firstNonemptyBin ≠ [] ∧
      ¬ currentTime < q.getBinTime (BinIndex.fromLinearIndex p q.firstNonemptyBin)
  · obtain ⟨hlt, hne, hdue⟩ := hcond
    have hfrom : q.redistributeFrom due p.shiftMinor currentTime
        (BinIndex.fromLinearIndex p q.firstNonemptyBin).major
        (BinIndex.fromLinearIndex p q.firstNonemptyBin).minor =
        q.redistributeFrom due p.shiftExact currentTime
          (BinIndex.fromLinearIndex p q.firstNonemptyBin).major
          (BinIndex.fromLinearIndex p q.firstNonemptyBin).minor := by
      cases hmajor : (BinIndex.fromLinearIndex p q.firstNonemptyBin).major with
      | zero => rfl
      | succ m =>
        obtain ⟨first, q', hround, hr, hsource, hiff⟩ := firstRound_iff
          (fun major minor =>
            p.shiftMinor minor (major * p.bits) = p.shiftExact minor (major * p.bits))
          due hlt hne hdue hmajor
        have hexact := hiff.mp h
        have hshift : m * p.bits < 32 := by
          by_contra hge
          unfold Params.shiftMinor Params.shiftExact at hexact
          rw [if_neg hge] at hexact
          cases hexact
        unfold redistributeFrom
        rw [hround]
        simp only [Option.bind_eq_bind, Option.bind_some, hexact,
          redistributeFrom_eq hshift (Or.inr (hr.lt_totalBinCount hsource))]
    rw [hfrom]
  · split
    · rfl
    · split
      · next hfirst =>
        have hearly : currentTime < q.getBinTime
            (BinIndex.fromLinearIndex p q.firstNonemptyBin) := by
          by_contra hdue
          exact hcond ⟨hfirst.1, hfirst.2, hdue⟩
        rw [if_pos hearly, if_pos hearly]
      · rfl

theorem round_of_some (h : q.redistributeRound due m minor = some (first, q')) :
    (m + 1) * 2 ^ p.bits + minor < p.totalBinCount ∧ Round due m minor q first q' := by
  have hcond : (m + 1) * 2 ^ p.bits + minor < p.totalBinCount ∧
      q.bins ((m + 1) * 2 ^ p.bits + minor) ≠ [] := by
    by_contra hnot
    have hnone : q.redistributeRound due m minor = none := if_neg hnot
    rw [hnone] at h
    cases h
  obtain ⟨first', q'', hround, hr⟩ := redistributeRound_spec due q hcond.1 hcond.2
  rw [h] at hround
  cases hround
  exact ⟨hcond.1, hr⟩

/-- The loop advances the active time to the start of a bin that is not later than the time that it
was given. -/
theorem redistributeFrom_activeTime {major : ℕ} {reached : Bool} (hminor : minor < 2 ^ p.bits)
    (hdue : ¬ currentTime < q.getBinTime ⟨major, minor⟩)
    (h : q.redistributeFrom due p.shiftExact currentTime major minor = some (reached, q')) :
    q'.activeTime = q.activeTime ∨ q'.activeTime ≤ currentTime := by
  induction major generalizing minor q with
  | zero =>
    cases h
    exact Or.inl rfl
  | succ m ih =>
    right
    unfold redistributeFrom at h
    obtain ⟨⟨first, q₁⟩, hround, h⟩ := Option.bind_eq_some_iff.mp h
    obtain ⟨hlt, hr⟩ := round_of_some hround
    have hwidth := lt_width_of_lt_total hlt
    have hm : m * p.bits < p.width := by
      rw [Nat.add_one_mul] at hwidth
      omega
    have hactive : q₁.activeTime ≤ currentTime := by
      rw [hr.activeTime, roundActiveTime_eq_getBinTime hwidth hminor]
      exact BitVec.not_lt.mp hdue
    have hbase : 2 ^ ((m + 1) * p.bits) ∣ q₁.activeTime.toNat := by
      rw [hr.activeTime]
      exact dvd_roundActiveTime _ _
    simp only [Params.shiftExact, Option.bind_eq_bind, Option.bind_some] at h
    split at h
    · cases h
      exact hactive
    · next hnext =>
      rw [← getBinTime_eq_add hm hbase] at hnext
      rcases ih hr.first_lt hnext h with heq | hle
      · rwa [heq]
      · exact hle

theorem tryDequeueNextDueBy_activeTime [DecidableEq α] {r : Option α}
    (h : q.tryDequeueNextDueBy due p.shiftExact currentTime = some (r, q')) :
    q'.activeTime = q.activeTime ∨ q'.activeTime ≤ currentTime := by
  unfold tryDequeueNextDueBy at h
  dsimp only at h
  split at h
  · cases h
    exact Or.inl rfl
  · split at h
    · split at h
      · cases h
        exact Or.inl rfl
      · next hdue =>
        obtain ⟨⟨reached, q₁⟩, hfrom, h⟩ := Option.bind_eq_some_iff.mp h
        have hminor : (BinIndex.fromLinearIndex p q.firstNonemptyBin).minor < 2 ^ p.bits :=
          Nat.mod_lt _ (Nat.two_pow_pos _)
        have hactive := redistributeFrom_activeTime hminor hdue hfrom
        have heq : q'.activeTime = q₁.activeTime := by
          cases reached with
          | false =>
            cases h
            rfl
          | true => exact popFirst_activeTime h
        rwa [heq]
    · cases h

end Queue
end Squiz.Detail.BinnedTimePriorityQueue
