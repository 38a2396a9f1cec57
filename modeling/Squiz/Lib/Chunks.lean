import Mathlib.Algebra.BigOperators.Intervals
import Mathlib.Data.BitVec
import Mathlib.Data.Finset.Max
import Mathlib.Tactic.Common

/-! Words whose bits, counted over all of them, are a set of natural numbers. -/
namespace Squiz.Lib.Chunks
variable {w i j n m : ℕ} {c : BitVec w} {chunks : List (BitVec w)}

/-- The bit of an index. -/
def bit (chunks : List (BitVec w)) (i : ℕ) : Bool := (chunks[i / w]?.getD 0).getLsbD (i % w)

def popcount (chunks : List (BitVec w)) : ℕ := (chunks.map fun c => c.cpop.toNat).sum

/-- The least index with its bit set, or the bound where there is none. -/
structure IsFirst (f : ℕ → Bool) (bound n : ℕ) : Prop where
  le : n ≤ bound
  lower : ∀ i < n, f i = false
  bit : n < bound → f n = true

theorem bit_cons_of_lt (hi : i < w) : bit (c :: chunks) i = c.getLsbD i := by
  unfold bit
  rw [Nat.div_eq_of_lt hi, Nat.mod_eq_of_lt hi]
  rfl

theorem bit_cons_add (hw : 0 < w) (i : ℕ) : bit (c :: chunks) (w + i) = bit chunks i := by
  unfold bit
  rw [Nat.add_div_left i hw, Nat.add_mod_left, List.getElem?_cons_succ]

theorem bit_set (hj : j < chunks.length) (c : BitVec w) (i : ℕ) :
    bit (chunks.set j c) i = if i / w = j then c.getLsbD (i % w) else bit chunks i := by
  unfold bit
  split_ifs with h
  · rw [h, List.getElem?_set_self hj]
    rfl
  · rw [List.getElem?_set_ne (Ne.symm h)]

theorem bit_replicate_zero (n i : ℕ) : bit (List.replicate n (0 : BitVec w)) i = false := by
  unfold bit
  rw [List.getElem?_replicate]
  split_ifs
  · exact BitVec.getLsbD_zero
  · exact BitVec.getLsbD_zero

/-- All words are zero where no bit is set. -/
theorem forall_eq_zero_iff (hw : 0 < w) :
    (∀ c ∈ chunks, c = 0) ↔ ∀ i, bit chunks i = false := by
  induction chunks with
  | nil =>
    simp [bit]
  | cons c chunks ih =>
    rw [List.forall_mem_cons, ih]
    constructor
    · rintro ⟨rfl, hrest⟩ i
      rcases Nat.lt_or_ge i w with hlt | hge
      · rw [bit_cons_of_lt hlt]
        exact BitVec.getLsbD_zero
      · obtain ⟨k, rfl⟩ := Nat.exists_eq_add_of_le hge
        rw [bit_cons_add hw, hrest]
    · intro hbits
      constructor
      · apply BitVec.eq_of_getLsbD_eq
        intro i hi
        have hbit := hbits i
        rw [bit_cons_of_lt hi] at hbit
        rw [hbit]
        exact BitVec.getLsbD_zero.symm
      · intro i
        rw [← bit_cons_add hw i (c := c)]
        exact hbits _

theorem cpopNatRec_eq_card (c : BitVec w) (n acc : ℕ) :
    c.cpopNatRec n acc = ((Finset.range n).filter (c.getLsbD · = true)).card + acc := by
  induction n generalizing acc with
  | zero => simp
  | succ n ih =>
    rw [BitVec.cpopNatRec_succ, ih, Finset.range_add_one, Finset.filter_insert]
    cases hbit : c.getLsbD n with
    | false => simp
    | true =>
      rw [if_pos rfl, Finset.card_insert_of_notMem (by simp)]
      simp only [Bool.toNat_true]
      omega

/-- The number of set bits. -/
theorem card_bits (hw : 0 < w) (chunks : List (BitVec w)) :
    ((Finset.range (chunks.length * w)).filter (bit chunks · = true)).card = popcount chunks := by
  induction chunks with
  | nil => simp [popcount]
  | cons c chunks ih =>
    have hsum : popcount (c :: chunks) = c.cpop.toNat + popcount chunks := by
      simp [popcount]
    have hfirst : c.cpop.toNat =
        ∑ i ∈ Finset.range w, if bit (c :: chunks) i = true then 1 else 0 := by
      rw [BitVec.toNat_cpop, cpopNatRec_eq_card, Nat.add_zero, Finset.card_filter]
      apply Finset.sum_congr rfl
      intro i hi
      rw [bit_cons_of_lt (Finset.mem_range.mp hi)]
    rw [Finset.card_filter] at ih ⊢
    rw [hsum, ← ih, hfirst, List.length_cons, Nat.add_one_mul, Nat.add_comm _ w,
      Finset.sum_range_add]
    congr 1
    apply Finset.sum_congr rfl
    intro i _
    rw [bit_cons_add hw]

/-- The trailing zeros of a word, which are all of its bits where it is zero. -/
theorem isFirst_ctz (c : BitVec w) : IsFirst c.getLsbD w c.ctz.toNat := by
  by_cases hzero : c = 0#w
  · have hctz : c.ctz.toNat = w := by
      have hrev : c.reverse = 0#w := BitVec.reverse_eq_zero_iff.mpr hzero
      rw [BitVec.ctz_eq_reverse_clz, BitVec.clz_eq_iff_eq_zero.mpr hrev]
      exact Nat.mod_eq_of_lt Nat.lt_two_pow_self
    rw [hctz]
    refine ⟨Nat.le_refl w, ?_, fun h => absurd h (Nat.lt_irrefl w)⟩
    intro i _
    rw [hzero]
    exact BitVec.getLsbD_zero
  · have hlt : c.ctz.toNat < w := by
      have hlt := BitVec.ctz_lt_iff_ne_zero.mpr hzero
      rw [BitVec.lt_def] at hlt
      simpa using hlt
    exact ⟨Nat.le_of_lt hlt, fun i hi => BitVec.getLsbD_false_of_lt_ctz hi,
      fun _ => BitVec.getLsbD_true_ctz_of_ne_zero hzero⟩

theorem IsFirst.congr {f g : ℕ → Bool} (h : IsFirst f n m) (hfg : ∀ i < n, g i = f i) :
    IsFirst g n m where
  le := h.le
  lower i hi := by
    rw [hfg i (Nat.lt_of_lt_of_le hi h.le)]
    exact h.lower i hi
  bit hlt := by
    rw [hfg m hlt]
    exact h.bit hlt

/-- Of the bits of a set. -/
theorem IsFirst.eq_min {f : ℕ → Bool} {s : Finset ℕ} (h : IsFirst f n m)
    (hf : ∀ i, f i = decide (i ∈ s)) (hs : ∀ i ∈ s, i < n) :
    m = if hne : s.Nonempty then s.min' hne else n := by
  split_ifs with hne
  · apply Nat.le_antisymm
    · by_contra hlt
      have hbit := h.lower _ (Nat.lt_of_not_le hlt)
      rw [hf] at hbit
      exact of_decide_eq_false hbit (s.min'_mem hne)
    · apply s.min'_le
      have hlt : m < n := by
        by_contra hge
        obtain ⟨x, hx⟩ := hne
        have hbit := h.lower x (Nat.lt_of_lt_of_le (hs x hx) (Nat.le_of_not_lt hge))
        rw [hf] at hbit
        exact of_decide_eq_false hbit hx
      have hbit := h.bit hlt
      rw [hf] at hbit
      exact of_decide_eq_true hbit
  · by_contra hne'
    have hbit := h.bit (Nat.lt_of_le_of_ne h.le hne')
    rw [hf] at hbit
    exact hne ⟨m, of_decide_eq_true hbit⟩

end Squiz.Lib.Chunks
