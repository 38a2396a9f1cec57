import Squiz.Detail.IntegerOps
import Mathlib.Data.Nat.Size
import Mathlib.Logic.Function.Basic

/-! The bins of `binned_time_priority_queue`, each as the list of its items, and what its operations
do to them. -/
namespace Squiz.Detail.BinnedTimePriorityQueue

/-- The template arguments. -/
structure Params where
  /-- of `Timestamp`. It fits a type that is narrower than `int` as well, for which
  `set_earlier_active_time` does not compile as `std::bit_width` is not defined for `int`. -/
  width : ℕ
  /-- `bits_per_major_bin`: there are `2 ^ bits` minor bins in a major bin. -/
  bits : ℕ
  maxTimestamp : BitVec width
  bits_pos : 0 < bits
  bits_lt : bits < 32
  maxTimestamp_pos : 0 < maxTimestamp

namespace Params
variable (p : Params)

abbrev Timestamp : Type := BitVec p.width

def minorBinsPerMajorBin : ℕ := 2 ^ p.bits

/-- Width of `minor_bin_index_t`. -/
def minorBinIndexWidth : ℕ := smallestUnsignedIntegerFor p.minorBinsPerMajorBin

/-- Converted to `Timestamp`. -/
def minorIndexMask : p.Timestamp := BitVec.ofNat _ (p.minorBinsPerMajorBin - 1)

def activeTimeMask : p.Timestamp := ~~~p.minorIndexMask

def majorBinCount : ℕ := (Nat.size p.maxTimestamp.toNat + (p.bits - 1)) / p.bits

/-- The product is a `std::uint32_t`. -/
def totalBinCount : ℕ := p.majorBinCount * p.minorBinsPerMajorBin % 2 ^ 32

/-- The conversion to `Timestamp` of `minor << shift` for a `minor_bin_index_t`, which has been
promoted to a type of 32 bits, to `int` where it is narrower. A shift by 32 or more is undefined. -/
def shiftMinor (minor shift : ℕ) : Option p.Timestamp :=
  if shift < 32 then
    let shifted : BitVec 32 := BitVec.ofNat 32 minor <<< shift
    some (if p.minorBinIndexWidth < 32 then shifted.signExtend p.width
      else shifted.setWidth p.width)
  else none

/-- In exact arithmetic. -/
def shiftExact (minor shift : ℕ) : Option p.Timestamp := some (BitVec.ofNat _ (minor * 2 ^ shift))

end Params

/-- The instantiation of the class comment, with a `Timestamp` of the width of `int`. -/
def sixteenMinorBins : Params where
  width := 32
  bits := 4
  maxTimestamp := 65535
  bits_pos := by decide
  bits_lt := by decide
  maxTimestamp_pos := by decide

structure BinIndex where
  major : ℕ
  minor : ℕ

def BinIndex.fromLinearIndex (p : Params) (linearIndex : ℕ) : BinIndex :=
  ⟨linearIndex / p.minorBinsPerMajorBin, linearIndex % p.minorBinsPerMajorBin⟩

def BinIndex.linearIndex (p : Params) (index : BinIndex) : ℕ :=
  index.major * p.minorBinsPerMajorBin + index.minor

structure Queue (p : Params) (α : Type) where
  activeTime : p.Timestamp := 0
  firstNonemptyBin : ℕ := p.totalBinCount
  nonemptyBins : ℕ → Bool := fun _ => false
  /-- The array ends after `total_bin_count` lists. -/
  bins : ℕ → List α := fun _ => []

/-! An operation is `none` where an assertion fails or the behaviour is undefined: an index outside
of `bins_`, a shift by too many bits, or the removal of an item from a list that it is not in. -/
namespace Queue
variable {p : Params} {α : Type} (q : Queue p α)

def empty : Bool := q.firstNonemptyBin = p.totalBinCount

/-- `nonempty_bins_.countr_zero()` -/
def countrZero (p : Params) (nonemptyBins : ℕ → Bool) : ℕ :=
  ((List.range p.totalBinCount).find? nonemptyBins).getD p.totalBinCount

/-- `diff` has fewer bits than `Timestamp`, so the shift is defined. -/
def getBinIndex (time : p.Timestamp) : Option BinIndex :=
  let diff := time ^^^ q.activeTime
  let diffBits := max (Nat.size diff.toNat) 1 - 1
  let majorBinIndex := diffBits / p.bits
  let binShift := majorBinIndex * p.bits
  let minorBinIndex := ((time >>> binShift) &&& p.minorIndexMask).toNat
  if q.activeTime ≤ time ∧ time ≤ p.maxTimestamp ∧ majorBinIndex < p.majorBinCount then
    some ⟨majorBinIndex, minorBinIndex⟩
  else none

def getBinTime (index : BinIndex) : p.Timestamp :=
  let binDuration := (1 : p.Timestamp) <<< (index.major * p.bits)
  let timeMaskLowBits := (binDuration <<< p.bits) - 1
  let timeMaskHighBits := ~~~timeMaskLowBits
  (q.activeTime &&& timeMaskHighBits) + binDuration * BitVec.ofNat _ index.minor

def markBinEmpty (linearBinIndex : ℕ) : Queue p α :=
  let nonemptyBins := Function.update q.nonemptyBins linearBinIndex false
  { q with
    nonemptyBins := nonemptyBins
    firstNonemptyBin :=
      if linearBinIndex = q.firstNonemptyBin then countrZero p nonemptyBins
      else q.firstNonemptyBin }

def markBinNonempty (linearBinIndex : ℕ) : Queue p α :=
  { q with
    nonemptyBins := Function.update q.nonemptyBins linearBinIndex true
    firstNonemptyBin := min linearBinIndex q.firstNonemptyBin }

/-- The index of the bin to which `set_earlier_active_time` moves the items of the bins before it,
for a new time that is rounded already. -/
def relocationIndex (newActiveTime : p.Timestamp) : BinIndex :=
  let highestDifferingBit := Nat.size (newActiveTime ^^^ q.activeTime).toNat
  let targetMajorBin := highestDifferingBit / p.bits
  ⟨targetMajorBin, ((q.activeTime >>> (targetMajorBin * p.bits)) &&& p.minorIndexMask).toNat⟩

/-- The loop of `set_earlier_active_time`. Every round clears a bit of `nonempty_bins_`, so there
are no more rounds than bins. -/
def moveBins (target : ℕ) : ℕ → Queue p α → Option (Queue p α)
  | 0, _ => none
  | rounds + 1, q =>
    if q.firstNonemptyBin < target then
      let source := q.firstNonemptyBin
      let moved := q.bins target ++ q.bins source
      let nonemptyBins := Function.update q.nonemptyBins source false
      moveBins target rounds { q with
        bins := Function.update (Function.update q.bins target moved) source []
        nonemptyBins := nonemptyBins
        firstNonemptyBin := countrZero p nonemptyBins }
    else some q

def setEarlierActiveTime (newActiveTime : p.Timestamp) : Option (Queue p α) :=
  let rounded := newActiveTime &&& p.activeTimeMask
  let index := q.relocationIndex rounded
  let target := index.linearIndex p
  if newActiveTime < q.activeTime ∧
      p.bits < Nat.size (rounded ^^^ q.activeTime).toNat ∧
      index.major * p.bits < max p.width 32 ∧ target < p.totalBinCount ∧ q.bins target = [] then
    (q.moveBins target (p.totalBinCount + 1)).map fun q => { q with activeTime := rounded }
  else none

variable (due : α → p.Timestamp)

/-- The end of `add`, with the bin known. -/
def pushBack (linearIndex : ℕ) (item : α) : Queue p α :=
  let marked := if q.bins linearIndex = [] then q.markBinNonempty linearIndex else q
  { marked with
    bins := Function.update q.bins linearIndex (q.bins linearIndex ++ [item]) }

def add (item : α) : Option (Queue p α) :=
  let time := due item
  (if time < q.activeTime then q.setEarlierActiveTime time else some q).bind fun q =>
    (q.getBinIndex time).bind fun index =>
      if index.linearIndex p < p.totalBinCount then some (q.pushBack (index.linearIndex p) item)
      else none

variable [DecidableEq α]

def remove (item : α) : Option (Queue p α) := do
  let index ← q.getBinIndex (due item)
  let linearIndex := index.linearIndex p
  if linearIndex < p.totalBinCount ∧ item ∈ q.bins linearIndex then
    let bin := (q.bins linearIndex).erase item
    let q := { q with bins := Function.update q.bins linearIndex bin }
    some (if bin = [] then q.markBinEmpty linearIndex else q)
  else none

/-- The inner loop of `try_dequeue_next_due_by`, over the items of the source bin, with
`first_nonempty_minor_index`. -/
def redistribute (due : α → p.Timestamp) (targetMajor : ℕ) :
    List α → ℕ → Queue p α → Option (ℕ × Queue p α)
  | [], firstNonemptyMinorIndex, q => some (firstNonemptyMinorIndex, q)
  | item :: source, firstNonemptyMinorIndex, q =>
    let targetShift := targetMajor * p.bits
    let targetBinBase := targetMajor * p.minorBinsPerMajorBin % 2 ^ 32
    let targetMinorIndex := ((due item >>> targetShift) &&& p.minorIndexMask).toNat
    let targetLinearIndex := targetBinBase + targetMinorIndex
    let q' := { q with
      nonemptyBins :=
        if q.bins targetLinearIndex = [] then
          Function.update q.nonemptyBins targetLinearIndex true
        else q.nonemptyBins
      bins := Function.update q.bins targetLinearIndex (q.bins targetLinearIndex ++ [item]) }
    if targetLinearIndex < p.totalBinCount then
      if targetMinorIndex < firstNonemptyMinorIndex then
        redistribute due targetMajor source targetMinorIndex
          { q' with firstNonemptyBin := targetLinearIndex }
      else redistribute due targetMajor source firstNonemptyMinorIndex q'
    else none

/-- `active_time_` at the start of a round of the outer loop. -/
def roundActiveTime (sourceIndex : BinIndex) : p.Timestamp :=
  let sourceShift := sourceIndex.major * p.bits
  let activeTimeMask : p.Timestamp := p.activeTimeMask <<< sourceShift
  (q.activeTime &&& activeTimeMask) ||| (BitVec.ofNat _ sourceIndex.minor <<< sourceShift)

/-- A round of the outer loop up to where it computes `bin_time`, with
`first_nonempty_minor_index`. The items of the source bin go to other bins, so it is empty from the
start. -/
def redistributeRound (due : α → p.Timestamp) (targetMajor minor : ℕ) :
    Option (ℕ × Queue p α) :=
  let sourceIndex : BinIndex := ⟨targetMajor + 1, minor⟩
  let source := sourceIndex.linearIndex p
  if source < p.totalBinCount ∧ q.bins source ≠ [] then
    (redistribute due targetMajor (q.bins source) p.minorBinsPerMajorBin
      { q with
        activeTime := q.roundActiveTime sourceIndex
        bins := Function.update q.bins source [] }).map fun (first, q) =>
      (first, { q with nonemptyBins := Function.update q.nonemptyBins source false })
  else none

/-- The outer loop of `try_dequeue_next_due_by`, from the source index on. It ends with `false`
where the function returns `nullptr`. The minor index is shifted by `shl`. -/
def redistributeFrom (due : α → p.Timestamp) (shl : ℕ → ℕ → Option p.Timestamp)
    (currentTime : p.Timestamp) : (major minor : ℕ) → Queue p α → Option (Bool × Queue p α)
  | 0, _, q => some (true, q)
  | targetMajor + 1, minor, q => do
    let (first, q) ← q.redistributeRound due targetMajor minor
    let shifted ← shl first (targetMajor * p.bits)
    if currentTime < q.activeTime + shifted then some (false, q)
    else redistributeFrom due shl currentTime targetMajor first q

/-- The end of `try_dequeue_next_due_by`, which returns the first item of the first bin. -/
def popFirst (currentTime : p.Timestamp) : Option (Option α × Queue p α) :=
  let first := q.firstNonemptyBin
  match q.bins first with
  | [] => none
  | item :: bin =>
    if first < p.minorBinsPerMajorBin ∧ first < p.totalBinCount ∧ due item ≤ currentTime then
      let q := { q with bins := Function.update q.bins first bin }
      some (some item, if bin = [] then q.markBinEmpty first else q)
    else none

def tryDequeueNextDueBy (shl : ℕ → ℕ → Option p.Timestamp) (currentTime : p.Timestamp) :
    Option (Option α × Queue p α) :=
  let first := q.firstNonemptyBin
  if first = p.totalBinCount then some (none, q)
  else
    let index := BinIndex.fromLinearIndex p first
    if first < p.totalBinCount ∧ q.bins first ≠ [] then
      if currentTime < q.getBinTime index then some (none, q)
      else do
        let (reached, q) ← q.redistributeFrom due shl currentTime index.major index.minor
        if reached then q.popFirst due currentTime else some (none, q)
    else none

def earliestDueTimeLowerBound : p.Timestamp :=
  if q.firstNonemptyBin = p.totalBinCount then p.maxTimestamp
  else q.getBinTime (BinIndex.fromLinearIndex p q.firstNonemptyBin)

/-- The first loop of `reindex_items`. Every round clears a bit of `nonempty_bins_`, so there are no
more rounds than bins. -/
def drain : ℕ → List α → Queue p α → Option (List α × Queue p α)
  | 0, _, _ => none
  | rounds + 1, allItems, q =>
    let first := q.firstNonemptyBin
    if first = p.totalBinCount then some (allItems, q)
    else if first < p.totalBinCount then
      let nonemptyBins := Function.update q.nonemptyBins first false
      drain rounds (allItems ++ q.bins first) { q with
        bins := Function.update q.bins first []
        nonemptyBins := nonemptyBins
        firstNonemptyBin := countrZero p nonemptyBins }
    else none

/-- The second loop of `reindex_items`. -/
def addAll (due : α → p.Timestamp) : List α → Queue p α → Option (Queue p α)
  | [], q => some q
  | item :: items, q => (q.add due item).bind (addAll due items)

def reindexItems : Option (Queue p α) :=
  (drain (p.totalBinCount + 1) [] q).bind fun (allItems, q) =>
    addAll due allItems { q with activeTime := 0 }

end Queue
end Squiz.Detail.BinnedTimePriorityQueue
