import Squiz.Lib.Chunks
import Squiz.Lib.Promotion
import Squiz.Lib.System

/-! `bitset`, whose last chunk is used in part only where the size is not a multiple of its
bits. -/
namespace Squiz.Detail
open Squiz.Lib Promotion Chunks

namespace Bitset

/-- `std::numeric_limits<chunk_type>::digits` -/
def chunkBits (size : ℕ) : ℕ :=
  if size ≤ 8 then 8 else if size ≤ 16 then 16 else if size ≤ 32 then 32 else 64

abbrev Chunk (size : ℕ) : Type := BitVec (chunkBits size)

def chunkCount (size : ℕ) : ℕ := (size + (chunkBits size - 1)) / chunkBits size

def wholeChunkCount (size : ℕ) : ℕ := size / chunkBits size

def partialChunkBits (size : ℕ) : ℕ := size % chunkBits size

/-- The shift is by less than the bits of a chunk. -/
def lastChunkMask (size : ℕ) : Chunk size :=
  convert _ (promote (1 : Chunk size) <<< partialChunkBits size - 1)

def allOnesChunk (size : ℕ) : Chunk size := convert _ (~~~promote (0 : Chunk size))

end Bitset

open Bitset

/-- The template argument `Count` is `size`. -/
structure Bitset (size : ℕ) where
  chunks : List (Chunk size)
  length_chunks : chunks.length = chunkCount size

inductive BitsetAction (size : ℕ) where
  | set (index : Fin size) (value : Bool)
  | resetAt (index : Fin size)
  | reset
  | setAll (value : Bool)

/-! An operation is `none` where it accesses a chunk outside of the array or shifts by too many
bits. -/
namespace Bitset
variable {size : ℕ}

/-- `chunks_{}` -/
def empty (size : ℕ) : Bitset size :=
  ⟨List.replicate (chunkCount size) 0, List.length_replicate⟩

def setChunk (b : Bitset size) (i : ℕ) (chunk : Chunk size) : Option (Bitset size) :=
  if i < b.chunks.length then
    some ⟨b.chunks.set i chunk, by rw [List.length_set, b.length_chunks]⟩
  else none

/-- `reset()` -/
def reset (b : Bitset size) : Bitset size :=
  ⟨b.chunks.map fun _ => 0, by rw [List.length_map, b.length_chunks]⟩

/-- `chunk_type(1) << bit_idx`, converted. -/
def bitMask (size bitIdx : ℕ) : Option (Chunk size) :=
  (shiftLeft (promote (1 : Chunk size)) bitIdx).map (convert _)

/-- `reset(index)` -/
def resetAt (b : Bitset size) (index : ℕ) : Option (Bitset size) :=
  let chunkIdx := index / chunkBits size
  let bitIdx := index % chunkBits size
  (bitMask size bitIdx).bind fun mask =>
  b.chunks[chunkIdx]?.bind fun chunk =>
  b.setChunk chunkIdx (convert _ (promote chunk &&& ~~~promote mask))

/-- The loop of `set_all` over the whole chunks before `n`. -/
def setWholeChunks (b : Bitset size) : ℕ → Option (Bitset size)
  | 0 => some b
  | n + 1 => (b.setWholeChunks n).bind fun b => b.setChunk n (allOnesChunk size)

def setAll (b : Bitset size) (value : Bool) : Option (Bitset size) :=
  if value then
    (b.setWholeChunks (wholeChunkCount size)).bind fun b =>
    if wholeChunkCount size ≠ chunkCount size then
      b.setChunk (b.chunks.length - 1) (lastChunkMask size)
    else some b
  else some b.reset

def set (b : Bitset size) (index : ℕ) (value : Bool) : Option (Bitset size) :=
  let chunkIdx := index / chunkBits size
  let bitIdx := index % chunkBits size
  (bitMask size bitIdx).bind fun mask =>
  let bitValue := if value then mask else 0
  b.chunks[chunkIdx]?.bind fun chunk =>
  b.setChunk chunkIdx (convert _ ((promote chunk &&& ~~~promote mask) ||| promote bitValue))

/-- `operator[]` -/
def get (b : Bitset size) (index : ℕ) : Option Bool :=
  b.chunks[index / chunkBits size]?.bind fun chunk =>
  (shiftRight (promote chunk) (index % chunkBits size)).map fun shifted => shifted &&& 1 ≠ 0

def all (b : Bitset size) : Bool :=
  (b.chunks.take (wholeChunkCount size)).all (· = allOnesChunk size) &&
    (wholeChunkCount size = chunkCount size || b.chunks.getLast? = some (lastChunkMask size))

def none (b : Bitset size) : Bool := b.chunks.all (· = 0)

def any (b : Bitset size) : Bool := !b.none

def count (b : Bitset size) : ℕ := popcount b.chunks

/-- What `countr_zero` returns for the last chunk. -/
def countrZeroLast (size : ℕ) (chunk : Chunk size) : ℕ :=
  if wholeChunkCount size ≠ chunkCount size then
    (convert _ (promote chunk ||| ~~~promote (lastChunkMask size)) : Chunk size).ctz.toNat
  else chunk.ctz.toNat

/-- `countr_zero` from a chunk on. -/
def countrZeroFrom (size i : ℕ) : List (Chunk size) → ℕ
  | [] => 0
  | [chunk] => i * chunkBits size + countrZeroLast size chunk
  | chunk :: next :: rest =>
    if chunk ≠ 0 then i * chunkBits size + chunk.ctz.toNat
    else countrZeroFrom size (i + 1) (next :: rest)

def countrZero (b : Bitset size) : ℕ := countrZeroFrom size 0 b.chunks

def step (b : Bitset size) : BitsetAction size → Option (Bitset size)
  | .set index value => b.set index value
  | .resetAt index => b.resetAt index
  | .reset => some b.reset
  | .setAll value => b.setAll value

end Bitset

/-- What an action does to the set of indices. -/
def BitsetAction.apply {size : ℕ} (s : Finset ℕ) : BitsetAction size → Finset ℕ
  | .set index value => if value then insert ↑index s else s.erase index
  | .resetAt index => s.erase index
  | .reset => ∅
  | .setAll value => if value then Finset.range size else ∅

/-- A `bitset<Count>` from its construction on. -/
def bitset (size : ℕ) : System (Bitset size) (BitsetAction size) where
  init := .empty size
  step := Bitset.step

namespace Bitset
variable {size : ℕ} {b : Bitset size} {s : Finset ℕ} {i j k n : ℕ}

theorem chunkBits_pos (size : ℕ) : 0 < chunkBits size := by
  unfold chunkBits
  split_ifs <;> decide

theorem mod_lt_chunkBits (size i : ℕ) : i % chunkBits size < chunkBits size :=
  Nat.mod_lt i (chunkBits_pos size)

/-- The last chunk is the whole of it or the rest. -/
theorem chunkCount_eq (size : ℕ) :
    size = wholeChunkCount size * chunkBits size + partialChunkBits size ∧
      (partialChunkBits size = 0 ∧ chunkCount size = wholeChunkCount size ∨
        0 < partialChunkBits size ∧ chunkCount size = wholeChunkCount size + 1) := by
  have hw := chunkBits_pos size
  have hlt := mod_lt_chunkBits size size
  have hdiv := Nat.div_add_mod size (chunkBits size)
  have hcount : size + (chunkBits size - 1) =
      chunkBits size * (size / chunkBits size) +
        (size % chunkBits size + (chunkBits size - 1)) := by omega
  unfold wholeChunkCount partialChunkBits chunkCount
  constructor
  · rw [Nat.mul_comm]
    omega
  · rw [hcount, Nat.mul_add_div hw]
    rcases Nat.eq_zero_or_pos (size % chunkBits size) with hzero | hpos
    · left
      have hnone : (size % chunkBits size + (chunkBits size - 1)) / chunkBits size = 0 :=
        Nat.div_eq_of_lt (by omega)
      rw [hnone]
      exact ⟨hzero, rfl⟩
    · right
      refine ⟨hpos, ?_⟩
      congr 1
      rw [Nat.div_eq_iff hw]
      omega

theorem div_lt_chunkCount (hi : i < size) : i / chunkBits size < chunkCount size := by
  have hw := chunkBits_pos size
  obtain ⟨hcount, hlast⟩ := chunkCount_eq size
  rw [Nat.div_lt_iff_lt_mul hw]
  rcases hlast with ⟨hzero, hchunks⟩ | ⟨-, hchunks⟩
  · rw [hchunks]
    omega
  · have hlt := mod_lt_chunkBits size size
    rw [hchunks, Nat.add_one_mul]
    unfold partialChunkBits at hcount
    omega

theorem getLsbD_allOnesChunk (hk : k < chunkBits size) :
    (allOnesChunk size).getLsbD k = true := by
  unfold allOnesChunk
  rw [convert_not_promote, BitVec.getLsbD_not, decide_eq_true hk]
  simp

theorem getLsbD_lastChunkMask (hk : k < chunkBits size) :
    (lastChunkMask size).getLsbD k = decide (k < partialChunkBits size) := by
  have hw := chunkBits_pos size
  have hle : chunkBits size ≤ promotedWidth (chunkBits size) := le_promotedWidth
  have hlt : partialChunkBits size < chunkBits size := mod_lt_chunkBits size size
  have hpow : 2 ^ partialChunkBits size < 2 ^ promotedWidth (chunkBits size) :=
    Nat.pow_lt_pow_right (by decide) (by omega)
  have hpos : 0 < 2 ^ partialChunkBits size := Nat.two_pow_pos _
  have hone : (1 : BitVec (promotedWidth (chunkBits size))).toNat = 1 :=
    Nat.mod_eq_of_lt (Nat.one_lt_two_pow (by omega))
  have hpromote : (promote (1 : Chunk size)).toNat = 1 := by
    rw [toNat_promote]
    exact Nat.mod_eq_of_lt (Nat.one_lt_two_pow (by omega))
  have hmask : (promote (1 : Chunk size) <<< partialChunkBits size - 1).toNat =
      2 ^ partialChunkBits size - 1 := by
    rw [BitVec.toNat_sub, BitVec.toNat_shiftLeft, hpromote, hone, Nat.one_shiftLeft,
      Nat.mod_eq_of_lt hpow]
    have hsum : 2 ^ promotedWidth (chunkBits size) - 1 + 2 ^ partialChunkBits size =
        2 ^ partialChunkBits size - 1 + 2 ^ promotedWidth (chunkBits size) := by omega
    rw [hsum, Nat.add_mod_right, Nat.mod_eq_of_lt (by omega)]
  unfold lastChunkMask
  rw [getLsbD_convert hk, BitVec.getLsbD, hmask, Nat.testBit_two_pow_sub_one]

/-- The mask of one bit. -/
theorem bitMask_eq (hk : k < chunkBits size) : ∃ mask, bitMask size k = some mask ∧
    ∀ i < chunkBits size, mask.getLsbD i = decide (i = k) := by
  have hle : chunkBits size ≤ promotedWidth (chunkBits size) := le_promotedWidth
  have hpromote : promote (1 : Chunk size) = 1#_ := by
    apply BitVec.eq_of_toNat_eq
    rw [toNat_promote]
    exact (Nat.mod_eq_of_lt (Nat.one_lt_two_pow (by omega))).trans
      (Nat.mod_eq_of_lt (Nat.one_lt_two_pow (by omega))).symm
  refine ⟨convert _ (promote (1 : Chunk size) <<< k), ?_, ?_⟩
  · unfold bitMask
    rw [shiftLeft_eq hk, Option.map_some]
  · intro i hi
    rw [getLsbD_convert hi, hpromote, BitVec.getLsbD_shiftLeft, BitVec.getLsbD_one,
      decide_eq_true (by omega : i < promotedWidth (chunkBits size)), Bool.true_and,
      Bool.eq_iff_iff]
    simp only [Bool.and_eq_true, Bool.not_eq_true', decide_eq_false_iff_not, decide_eq_true_eq]
    omega

/-! The operations on the bits. -/

theorem setChunk_eq (hj : j < chunkCount size) (b : Bitset size) (chunk : Chunk size) :
    ∃ b', b.setChunk j chunk = some b' ∧ ∀ i, bit b'.chunks i =
      if i / chunkBits size = j then chunk.getLsbD (i % chunkBits size) else bit b.chunks i := by
  have hlt : j < b.chunks.length := by rwa [b.length_chunks]
  refine ⟨_, if_pos hlt, ?_⟩
  exact bit_set hlt chunk

theorem exists_chunk (hj : j < chunkCount size) (b : Bitset size) :
    ∃ chunk, b.chunks[j]? = some chunk ∧
      ∀ i, i / chunkBits size = j → bit b.chunks i = chunk.getLsbD (i % chunkBits size) := by
  have hlt : j < b.chunks.length := by rwa [b.length_chunks]
  refine ⟨_, List.getElem?_eq_getElem hlt, ?_⟩
  intro i hi
  unfold bit
  rw [hi, List.getElem?_eq_getElem hlt, Option.getD_some]

/-- `set` changes one bit. -/
theorem set_eq (hi : i < size) (b : Bitset size) (value : Bool) :
    ∃ b', b.set i value = some b' ∧
      ∀ j, bit b'.chunks j = if j = i then value else bit b.chunks j := by
  obtain ⟨mask, hmask, hmaskBits⟩ := bitMask_eq (mod_lt_chunkBits size i)
  obtain ⟨chunk, hchunk, hchunkBits⟩ := b.exists_chunk (div_lt_chunkCount hi)
  obtain ⟨b', hb', hbits⟩ := b.setChunk_eq (div_lt_chunkCount hi) (convert _
    ((promote chunk &&& ~~~promote mask) ||| promote (if value then mask else 0)))
  refine ⟨b', ?_, ?_⟩
  · unfold set
    simp only [hmask, hchunk, Option.bind_some]
    exact hb'
  · intro j
    have hk := mod_lt_chunkBits size j
    have hle : chunkBits size ≤ promotedWidth (chunkBits size) := le_promotedWidth
    have hsame : j = i ↔ j / chunkBits size = i / chunkBits size ∧
        j % chunkBits size = i % chunkBits size := by
      constructor
      · rintro rfl
        exact ⟨rfl, rfl⟩
      · rintro ⟨hdiv, hmod⟩
        rw [← Nat.div_add_mod j (chunkBits size), ← Nat.div_add_mod i (chunkBits size), hdiv, hmod]
    rw [hbits]
    by_cases hdiv : j / chunkBits size = i / chunkBits size
    · rw [if_pos hdiv, getLsbD_convert hk, BitVec.getLsbD_or, BitVec.getLsbD_and,
        BitVec.getLsbD_not,
        getLsbD_promote hk, getLsbD_promote hk, getLsbD_promote hk, hmaskBits _ hk,
        hchunkBits j hdiv, decide_eq_true (by omega : j % chunkBits size < promotedWidth _)]
      by_cases hmod : j % chunkBits size = i % chunkBits size
      · rw [if_pos (hsame.mpr ⟨hdiv, hmod⟩), hmod]
        have hbit := hmaskBits _ (mod_lt_chunkBits size i)
        cases value with
        | true => simp [hbit]
        | false => simp
      · rw [if_neg fun h => hmod (hsame.mp h).2]
        cases value with
        | true => simp [hmaskBits _ hk, hmod]
        | false => simp [hmod]
    · rw [if_neg hdiv, if_neg fun h => hdiv (hsame.mp h).1]

/-- `reset(index)` is `set(index, false)`. -/
theorem resetAt_eq (b : Bitset size) (i : ℕ) : b.resetAt i = b.set i false := by
  have hzero : promote (0 : Chunk size) = 0 := by
    apply BitVec.eq_of_toNat_eq
    rw [toNat_promote]
    rfl
  have hor : ∀ x : BitVec (promotedWidth (chunkBits size)), x ||| 0 = x := fun _ => BitVec.or_zero
  unfold resetAt set
  simp only [Bool.false_eq_true, if_false, hzero, hor]

theorem bit_reset (b : Bitset size) (i : ℕ) : bit b.reset.chunks i = false := by
  have hzero : ∀ chunk ∈ b.reset.chunks, chunk = 0 := by
    intro chunk hchunk
    obtain ⟨_, -, rfl⟩ := List.mem_map.mp hchunk
    rfl
  exact (forall_eq_zero_iff (chunkBits_pos size)).mp hzero i

theorem setWholeChunks_eq (hn : n ≤ chunkCount size) (b : Bitset size) :
    ∃ b', b.setWholeChunks n = some b' ∧
      ∀ i, bit b'.chunks i = if i / chunkBits size < n then true else bit b.chunks i := by
  induction n with
  | zero => exact ⟨b, rfl, fun i => by simp⟩
  | succ n ih =>
    obtain ⟨b', hb', hbits⟩ := ih (Nat.le_of_succ_le hn)
    obtain ⟨b'', hb'', hbits'⟩ := b'.setChunk_eq hn (allOnesChunk size)
    refine ⟨b'', ?_, ?_⟩
    · simp only [setWholeChunks, hb', Option.bind_some]
      exact hb''
    · intro i
      rw [hbits', hbits, getLsbD_allOnesChunk (mod_lt_chunkBits size i)]
      split_ifs <;> first | rfl | omega

/-- `set_all` leaves the bits from the size on clear. -/
theorem setAll_true_eq (b : Bitset size) (hunused : ∀ i, size ≤ i → bit b.chunks i = false) :
    ∃ b', b.setAll true = some b' ∧ ∀ i, bit b'.chunks i = decide (i < size) := by
  have hw := chunkBits_pos size
  obtain ⟨hsize, hlast⟩ := chunkCount_eq size
  obtain ⟨b', hb', hbits⟩ := b.setWholeChunks_eq (n := wholeChunkCount size) (by omega)
  -- a bit of the chunks before the last one that is used in part
  have hwhole : ∀ i, i / chunkBits size < wholeChunkCount size ↔
      i < wholeChunkCount size * chunkBits size := fun i => Nat.div_lt_iff_lt_mul hw
  unfold setAll
  rw [if_pos rfl, hb', Option.bind_some]
  rcases hlast with ⟨hzero, hchunks⟩ | ⟨hpos, hchunks⟩
  · rw [if_neg (not_not.mpr hchunks.symm)]
    refine ⟨b', rfl, ?_⟩
    intro i
    rw [hbits]
    split_ifs with hi
    · rw [hwhole] at hi
      exact (decide_eq_true (by omega)).symm
    · rw [hwhole] at hi
      rw [hunused i (by omega)]
      exact (decide_eq_false (by omega)).symm
  · rw [if_pos (by omega)]
    have hback : b'.chunks.length - 1 = wholeChunkCount size := by
      rw [b'.length_chunks, hchunks, Nat.add_sub_cancel]
    rw [hback]
    obtain ⟨b'', hb'', hbits'⟩ :=
      b'.setChunk_eq (j := wholeChunkCount size) (by omega) (lastChunkMask size)
    refine ⟨b'', hb'', ?_⟩
    intro i
    have hdiv := Nat.div_add_mod' i (chunkBits size)
    rw [hbits', hbits]
    by_cases hi : i / chunkBits size = wholeChunkCount size
    · rw [if_pos hi, getLsbD_lastChunkMask (mod_lt_chunkBits size i)]
      rw [hi] at hdiv
      congr 1
      exact propext (by omega)
    · rw [if_neg hi]
      split_ifs with hlt
      · rw [hwhole] at hlt
        exact (decide_eq_true (by omega)).symm
      · have hge : (wholeChunkCount size + 1) * chunkBits size ≤ i := by
          rw [← Nat.le_div_iff_mul_le hw]
          omega
        have hpartial : partialChunkBits size < chunkBits size := mod_lt_chunkBits size size
        rw [Nat.add_one_mul] at hge
        rw [hunused i (by omega)]
        exact (decide_eq_false (by omega)).symm

/-! The set that a bitset represents, and what its functions return for it. -/

/-- The bits are those of the indices in the set. -/
structure Represents (b : Bitset size) (s : Finset ℕ) : Prop where
  lt : ∀ i ∈ s, i < size
  bit_eq : ∀ i, bit b.chunks i = decide (i ∈ s)

theorem Represents.step (h : b.Represents s) (a : BitsetAction size) :
    ∃ b', b.step a = some b' ∧ b'.Represents (a.apply s) := by
  cases a with
  | set i value =>
    obtain ⟨b', hb', hbits⟩ := b.set_eq i.isLt value
    refine ⟨b', hb', ?_, ?_⟩
    · intro j hj
      cases value with
      | true =>
        rcases Finset.mem_insert.mp hj with rfl | hj
        · exact i.isLt
        · exact h.lt j hj
      | false => exact h.lt j (Finset.mem_of_mem_erase hj)
    · intro j
      rw [hbits, h.bit_eq]
      cases value <;> by_cases hj : j = i <;> simp [BitsetAction.apply, hj]
  | resetAt i =>
    obtain ⟨b', hb', hbits⟩ := b.set_eq i.isLt false
    refine ⟨b', (b.resetAt_eq i).trans hb', fun j hj => h.lt j (Finset.mem_of_mem_erase hj), ?_⟩
    intro j
    rw [hbits, h.bit_eq]
    by_cases hj : j = i <;> simp [BitsetAction.apply, hj]
  | reset =>
    refine ⟨b.reset, rfl, fun j hj => absurd hj (Finset.notMem_empty j), ?_⟩
    intro j
    rw [bit_reset]
    simp [BitsetAction.apply]
  | setAll value =>
    cases value with
    | true =>
      have hunused : ∀ i, size ≤ i → bit b.chunks i = false := by
        intro i hi
        rw [h.bit_eq]
        exact decide_eq_false fun hmem => absurd (h.lt i hmem) (Nat.not_lt.mpr hi)
      obtain ⟨b', hb', hbits⟩ := b.setAll_true_eq hunused
      refine ⟨b', hb', fun j hj => Finset.mem_range.mp hj, ?_⟩
      intro j
      rw [hbits]
      simp [BitsetAction.apply]
    | false =>
      refine ⟨b.reset, rfl, fun j hj => absurd hj (Finset.notMem_empty j), ?_⟩
      intro j
      rw [bit_reset]
      simp [BitsetAction.apply]

theorem Represents.empty (size : ℕ) : (Bitset.empty size).Represents ∅ where
  lt _ hi := absurd hi (Finset.notMem_empty _)
  bit_eq i := by
    unfold Bitset.empty
    rw [bit_replicate_zero]
    simp

theorem get_eq (hi : i < size) (b : Bitset size) : b.get i = some (bit b.chunks i) := by
  obtain ⟨chunk, hchunk, hbits⟩ := b.exists_chunk (div_lt_chunkCount hi)
  have hk := mod_lt_chunkBits size i
  have hand : ∀ x : BitVec (promotedWidth (chunkBits size)),
      decide (x &&& 1 ≠ 0) = x.getLsbD 0 := by
    intro x
    have hone : x &&& 1 = (BitVec.ofBool (x.getLsbD 0)).setWidth _ :=
      BitVec.and_one_eq_setWidth_ofBool_getLsbD
    have hpos : 0 < promotedWidth (chunkBits size) :=
      Nat.lt_of_lt_of_le (chunkBits_pos size) le_promotedWidth
    rw [hone]
    cases x.getLsbD 0 with
    | true =>
      apply decide_eq_true
      intro hzero
      have hbit := congrArg (·.getLsbD 0) hzero
      simp [hpos] at hbit
    | false => simp
  unfold get
  rw [hchunk, Option.bind_some, shiftRight_eq hk, Option.map_some, hand, BitVec.getLsbD_ushiftRight,
    Nat.add_zero, getLsbD_promote hk, hbits i rfl]

/-- A chunk is determined by its bits. -/
theorem chunk_eq_iff {chunk other : Chunk size} (hchunk : b.chunks[j]? = some chunk) :
    chunk = other ↔
      ∀ k < chunkBits size, bit b.chunks (j * chunkBits size + k) = other.getLsbD k := by
  have hw := chunkBits_pos size
  have hbit : ∀ k < chunkBits size, bit b.chunks (j * chunkBits size + k) = chunk.getLsbD k := by
    intro k hk
    unfold bit
    rw [Nat.mul_comm, Nat.mul_add_div hw, Nat.div_eq_of_lt hk, Nat.add_zero, Nat.mul_add_mod,
      Nat.mod_eq_of_lt hk, hchunk, Option.getD_some]
  constructor
  · rintro rfl
    exact hbit
  · intro hother
    apply BitVec.eq_of_getLsbD_eq
    intro k hk
    rw [← hbit k hk, hother k hk]

/-- All whole chunks are ones exactly where all of their bits are set. -/
theorem take_all_iff (hn : n ≤ chunkCount size) (b : Bitset size) :
    (b.chunks.take n).all (· = allOnesChunk size) = true ↔
      ∀ i < n * chunkBits size, bit b.chunks i = true := by
  have hw := chunkBits_pos size
  rw [List.all_eq_true]
  constructor
  · intro hall i hi
    have hlt : i / chunkBits size < n := (Nat.div_lt_iff_lt_mul hw).mpr hi
    obtain ⟨chunk, hchunk, hbits⟩ := b.exists_chunk (Nat.lt_of_lt_of_le hlt hn)
    have hmem : chunk ∈ b.chunks.take n := by
      rw [List.mem_iff_getElem?]
      exact ⟨_, by rw [List.getElem?_take_of_lt hlt, hchunk]⟩
    rw [hbits i rfl, of_decide_eq_true (hall chunk hmem)]
    exact getLsbD_allOnesChunk (mod_lt_chunkBits size i)
  · intro hbits chunk hchunk
    obtain ⟨j, hj⟩ := List.mem_iff_getElem?.mp hchunk
    rw [List.getElem?_take] at hj
    split_ifs at hj with hlt
    apply decide_eq_true
    apply (chunk_eq_iff hj).mpr
    intro k hk
    rw [getLsbD_allOnesChunk hk]
    apply hbits
    have hmul := Nat.mul_le_mul_right (chunkBits size) hlt
    rw [Nat.succ_mul] at hmul
    omega

theorem all_iff (b : Bitset size) (hunused : ∀ i, size ≤ i → bit b.chunks i = false) :
    b.all = true ↔ ∀ i < size, bit b.chunks i = true := by
  have hw := chunkBits_pos size
  obtain ⟨hsize, hlast⟩ := chunkCount_eq size
  have hwhole := b.take_all_iff (n := wholeChunkCount size) (by omega)
  unfold all
  rw [Bool.and_eq_true, hwhole]
  rcases hlast with ⟨hzero, hchunks⟩ | ⟨hpos, hchunks⟩
  · have hsizes : size = wholeChunkCount size * chunkBits size := by omega
    rw [hchunks, ← hsizes]
    simp
  · obtain ⟨chunk, hchunk, -⟩ := b.exists_chunk (j := wholeChunkCount size) (by omega)
    have hback : b.chunks.getLast? = some chunk := by
      rw [List.getLast?_eq_getElem?, b.length_chunks, hchunks, Nat.add_sub_cancel, hchunk]
    have hne : wholeChunkCount size ≠ chunkCount size := by omega
    rw [hback, Bool.or_eq_true, decide_eq_true_eq, decide_eq_true_eq, Option.some.injEq,
      or_iff_right hne, chunk_eq_iff hchunk]
    constructor
    · rintro ⟨hbits, hrest⟩ i hi
      by_cases hlt : i < wholeChunkCount size * chunkBits size
      · exact hbits i hlt
      · obtain ⟨k, rfl⟩ := Nat.exists_eq_add_of_le (Nat.le_of_not_lt hlt)
        have hpartial : partialChunkBits size < chunkBits size := mod_lt_chunkBits size size
        have hk : k < chunkBits size := by omega
        rw [hrest k hk, getLsbD_lastChunkMask hk]
        exact decide_eq_true (by omega)
    · intro hbits
      refine ⟨fun i hi => hbits i (by omega), ?_⟩
      intro k hk
      rw [getLsbD_lastChunkMask hk]
      by_cases hlt : k < partialChunkBits size
      · rw [hbits _ (by omega), decide_eq_true hlt]
      · rw [hunused _ (by omega), decide_eq_false hlt]

theorem none_iff (b : Bitset size) : b.none = true ↔ ∀ i, bit b.chunks i = false := by
  unfold Bitset.none
  rw [List.all_eq_true, ← forall_eq_zero_iff (chunkBits_pos size)]
  simp only [decide_eq_true_eq]

/-- The bits of the last chunk that are in use. -/
def lastChunkBits (size : ℕ) : ℕ :=
  if wholeChunkCount size ≠ chunkCount size then partialChunkBits size else chunkBits size

theorem countrZeroLast_isFirst (chunk : Chunk size) :
    IsFirst chunk.getLsbD (lastChunkBits size) (countrZeroLast size chunk) := by
  unfold lastChunkBits countrZeroLast
  split_ifs with hpartial
  · have hlt : partialChunkBits size < chunkBits size := mod_lt_chunkBits size size
    have hle : chunkBits size ≤ promotedWidth (chunkBits size) := le_promotedWidth
    have hbits : ∀ k < chunkBits size,
        (convert _ (promote chunk ||| ~~~promote (lastChunkMask size)) : Chunk size).getLsbD k =
          (chunk.getLsbD k || decide (partialChunkBits size ≤ k)) := by
      intro k hk
      rw [getLsbD_convert hk, BitVec.getLsbD_or, BitVec.getLsbD_not, getLsbD_promote hk,
        getLsbD_promote hk, getLsbD_lastChunkMask hk, decide_eq_true (by omega), Bool.true_and,
        ← decide_not, decide_eq_decide.mpr Nat.not_lt]
    have hfirst := isFirst_ctz
      (convert _ (promote chunk ||| ~~~promote (lastChunkMask size)) : Chunk size)
    generalize (convert _ (promote chunk ||| ~~~promote (lastChunkMask size)) : Chunk size) = x
      at hbits hfirst
    -- the first of the unused bits is set
    have hctz : x.ctz.toNat ≤ partialChunkBits size := by
      by_contra hgt
      have hbit := hfirst.lower (partialChunkBits size) (by omega)
      rw [hbits _ hlt] at hbit
      simp at hbit
    refine ⟨hctz, ?_, ?_⟩
    · intro i hi
      have hbit := hfirst.lower i hi
      rw [hbits i (by omega)] at hbit
      exact (Bool.or_eq_false_iff.mp hbit).1
    · intro hi
      have hbit := hfirst.bit (by omega)
      rw [hbits _ (by omega), decide_eq_false (by omega), Bool.or_false] at hbit
      exact hbit
  · exact isFirst_ctz chunk

/-- From a chunk on, the loop returns the first bit that is set. -/
theorem countrZeroFrom_isFirst (i : ℕ) (chunks : List (Chunk size)) (hne : chunks ≠ []) :
    ∃ r, countrZeroFrom size i chunks = i * chunkBits size + r ∧
      IsFirst (bit chunks) ((chunks.length - 1) * chunkBits size + lastChunkBits size) r := by
  have hw := chunkBits_pos size
  have hlast : lastChunkBits size ≤ chunkBits size := by
    unfold lastChunkBits
    split_ifs
    · exact Nat.le_of_lt (mod_lt_chunkBits size size)
    · exact Nat.le_refl _
  induction chunks generalizing i with
  | nil => exact absurd rfl hne
  | cons chunk chunks ih =>
    cases chunks with
    | nil =>
      refine ⟨_, rfl, ?_⟩
      rw [List.length_singleton, Nat.sub_self, Nat.zero_mul, Nat.zero_add]
      apply (countrZeroLast_isFirst chunk).congr
      intro k hk
      exact bit_cons_of_lt (by omega)
    | cons next rest =>
      have hfirst := isFirst_ctz chunk
      have hlength : (chunk :: next :: rest).length - 1 = (next :: rest).length - 1 + 1 := rfl
      rw [hlength, Nat.add_one_mul]
      unfold countrZeroFrom
      split_ifs with hzero
      · have hlt : chunk.ctz.toNat < chunkBits size := by
          by_contra hge
          apply hzero
          apply BitVec.eq_of_getLsbD_eq
          intro k hk
          rw [hfirst.lower k (by omega)]
          exact BitVec.getLsbD_zero.symm
        refine ⟨_, rfl, by omega, ?_, ?_⟩
        · intro k hk
          rw [bit_cons_of_lt (by omega)]
          exact hfirst.lower k hk
        · intro _
          rw [bit_cons_of_lt hlt]
          exact hfirst.bit hlt
      · obtain ⟨r, hr, hrest⟩ := ih (i + 1) (List.cons_ne_nil _ _)
        have hchunk : chunk = 0 := not_not.mp hzero
        refine ⟨chunkBits size + r, ?_, ?_, ?_, ?_⟩
        · rw [hr, Nat.add_one_mul, Nat.add_assoc]
        · have hle := hrest.le
          omega
        · intro k hk
          rcases Nat.lt_or_ge k (chunkBits size) with hlt | hge
          · rw [bit_cons_of_lt hlt, hchunk]
            exact BitVec.getLsbD_zero
          · obtain ⟨l, rfl⟩ := Nat.exists_eq_add_of_le hge
            rw [bit_cons_add hw]
            exact hrest.lower l (by omega)
        · intro hlt
          rw [bit_cons_add hw]
          exact hrest.bit (by omega)

theorem countrZero_isFirst (b : Bitset size) : IsFirst (bit b.chunks) size b.countrZero := by
  obtain ⟨hsize, hlast⟩ := chunkCount_eq size
  have hlength := b.length_chunks
  by_cases hnil : b.chunks = []
  · rw [hnil, List.length_nil] at hlength
    have hzero : size = 0 := by
      by_contra hne
      have hlt := div_lt_chunkCount (Nat.pos_of_ne_zero hne)
      rw [← hlength] at hlt
      exact Nat.not_lt_zero _ hlt
    unfold countrZero
    rw [hnil]
    exact ⟨Nat.zero_le _, fun i hi => absurd hi (Nat.not_lt_zero i),
      fun hlt => absurd hlt (by omega)⟩
  · obtain ⟨r, hr, hfirst⟩ := countrZeroFrom_isFirst 0 b.chunks hnil
    have hpos : 0 < b.chunks.length := List.length_pos_of_ne_nil hnil
    have hbound : (b.chunks.length - 1) * chunkBits size + lastChunkBits size = size := by
      rw [hlength] at hpos ⊢
      unfold lastChunkBits
      rcases hlast with ⟨hzero, hchunks⟩ | ⟨-, hchunks⟩
      · rw [if_neg (by omega), ← Nat.succ_mul, Nat.succ_eq_add_one, Nat.sub_add_cancel hpos,
          hchunks]
        omega
      · rw [if_pos (by omega), hchunks, Nat.add_sub_cancel]
        exact hsize.symm
    rw [hbound] at hfirst
    unfold countrZero
    rw [hr, Nat.zero_mul, Nat.zero_add]
    exact hfirst

/-- What the member functions return for a set. -/
structure Agrees (b : Bitset size) (s : Finset ℕ) : Prop where
  get : ∀ i < size, b.get i = some (decide (i ∈ s))
  unused : ∀ i, size ≤ i → bit b.chunks i = false
  count : b.count = s.card
  all : b.all = decide (s = Finset.range size)
  none : b.none = decide (s = ∅)
  any : b.any = decide s.Nonempty
  countrZero : b.countrZero = if h : s.Nonempty then s.min' h else size

theorem Represents.agrees (h : b.Represents s) : b.Agrees s := by
  have hw := chunkBits_pos size
  have hunused : ∀ i, size ≤ i → bit b.chunks i = false := by
    intro i hi
    rw [h.bit_eq]
    exact decide_eq_false fun hmem => absurd (h.lt i hmem) (Nat.not_lt.mpr hi)
  have hempty : b.none = decide (s = ∅) := by
    rw [Bool.eq_iff_iff, none_iff, decide_eq_true_eq, Finset.eq_empty_iff_forall_notMem]
    simp only [h.bit_eq, decide_eq_false_iff_not]
  constructor
  case get =>
    intro i hi
    rw [get_eq hi, h.bit_eq]
  case unused => exact hunused
  case count =>
    unfold Bitset.count
    rw [← card_bits hw]
    congr 1
    ext i
    simp only [Finset.mem_filter, Finset.mem_range, h.bit_eq, decide_eq_true_eq]
    constructor
    · rintro ⟨-, hi⟩
      exact hi
    · intro hi
      refine ⟨?_, hi⟩
      rw [← Nat.div_lt_iff_lt_mul hw, b.length_chunks]
      exact div_lt_chunkCount (h.lt i hi)
  case all =>
    rw [Bool.eq_iff_iff, b.all_iff hunused, decide_eq_true_eq]
    simp only [h.bit_eq, decide_eq_true_eq]
    constructor
    · intro hall
      ext i
      rw [Finset.mem_range]
      exact ⟨h.lt i, hall i⟩
    · rintro rfl i hi
      exact Finset.mem_range.mpr hi
  case none => exact hempty
  case any =>
    unfold any
    rw [hempty, ← decide_not]
    exact decide_eq_decide.mpr Finset.nonempty_iff_ne_empty.symm
  case countrZero => exact b.countrZero_isFirst.eq_min h.bit_eq h.lt

/-- Every sequence of operations on a `bitset` is defined and leaves it in agreement with the set of
indices that the operations leave. -/
theorem refines_set (size : ℕ) (actions : List (BitsetAction size)) :
    ∃ b, (bitset size).run (.empty size) actions = some b ∧
      b.Agrees (actions.foldl BitsetAction.apply ∅) := by
  obtain ⟨b, hb, hrep⟩ := System.run_refines (S := bitset size) Represents BitsetAction.apply
    (fun _ _ a h => h.step a) (Represents.empty size) actions
  exact ⟨b, hb, hrep.agrees⟩

end Bitset
end Squiz.Detail
