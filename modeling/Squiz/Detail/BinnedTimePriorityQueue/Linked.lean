import Squiz.Detail.BinnedTimePriorityQueue.Runs
import Squiz.Detail.Bitset
import Squiz.Detail.IntrusiveLists
import Squiz.Lib.Yields

/-! `binned_time_priority_queue` over its `bitset` and its `intrusive_list`s, through the pointers
of the items. It does what the queue of plain lists and marks does. -/
namespace Squiz.Detail.BinnedTimePriorityQueue
open Squiz.Lib

/-- The lists that the operations work on. -/
inductive ListName where
  /-- of the array `bins_` -/
  | bin (i : ℕ)
  /-- the variable of `reindex_items` -/
  | allItems
  deriving DecidableEq

structure LinkedQueue (p : Params) (α : Type) where
  activeTime : p.Timestamp := 0
  firstNonemptyBin : ℕ := p.totalBinCount
  nonemptyBins : Bitset p.totalBinCount := .empty _
  lists : IntrusiveLists ListName α := {
    lists := fun
      | .bin i => if i < p.totalBinCount then some {} else none
      | .allItems => none }

/-! As for the queue of plain lists, an operation is `none` where an assertion fails or the
behaviour is undefined. The loops over items take the number of rounds that they may make. -/
namespace LinkedQueue
variable {p : Params} {α : Type}

section
variable (c : LinkedQueue p α)

/-- With the same active time, from which the bins and their times are computed. -/
def base : Queue p α := { activeTime := c.activeTime }

def empty (name : ListName) : Option Bool := (c.lists.lists name).map IntrusiveList.empty

/-- `nonempty_bins_.set(i, value)` -/
def set (i : ℕ) (value : Bool) : Option (LinkedQueue p α) :=
  (c.nonemptyBins.set i value).map fun nonemptyBins => { c with nonemptyBins := nonemptyBins }

/-- `nonempty_bins_.reset(i)` -/
def reset (i : ℕ) : Option (LinkedQueue p α) :=
  (c.nonemptyBins.resetAt i).map fun nonemptyBins => { c with nonemptyBins := nonemptyBins }

/-- `first_nonempty_bin_ = nonempty_bins_.countr_zero()` -/
def findFirst : LinkedQueue p α := { c with firstNonemptyBin := c.nonemptyBins.countrZero }

def markBinEmpty (linearBinIndex : ℕ) : Option (LinkedQueue p α) :=
  (c.reset linearBinIndex).map fun c =>
    if linearBinIndex = c.firstNonemptyBin then c.findFirst else c

def markBinNonempty (linearBinIndex : ℕ) : Option (LinkedQueue p α) :=
  (c.set linearBinIndex true).map fun c =>
    { c with firstNonemptyBin := min linearBinIndex c.firstNonemptyBin }

/-- What follows the removal of an item from a bin. -/
def leave (linearBinIndex : ℕ) : Option (LinkedQueue p α) :=
  (c.empty (.bin linearBinIndex)).bind fun nowEmpty =>
  if nowEmpty then c.markBinEmpty linearBinIndex else some c

variable [DecidableEq α]

def apply (op : ListOp ListName α) : Option (LinkedQueue p α) :=
  (c.lists.step op).map fun (_, lists) => { c with lists := lists }

def popFront (name : ListName) : Option (α × LinkedQueue p α) :=
  (c.lists.step (.popFront name)).bind fun (item, lists) =>
    item.map fun item => (item, { c with lists := lists })

/-- The loop of `set_earlier_active_time`. -/
def moveBins (target : ℕ) : ℕ → LinkedQueue p α → Option (LinkedQueue p α)
  | 0, _ => none
  | rounds + 1, c =>
    if c.firstNonemptyBin < target then
      let source := c.firstNonemptyBin
      (c.apply (.append (.bin target) (.bin source))).bind fun c =>
      (c.reset source).bind fun c => moveBins target rounds c.findFirst
    else some c

def setEarlierActiveTime (newActiveTime : p.Timestamp) : Option (LinkedQueue p α) :=
  let rounded := newActiveTime &&& p.activeTimeMask
  let index := c.base.relocationIndex rounded
  let target := index.linearIndex p
  (c.empty (.bin target)).bind fun targetEmpty =>
  if newActiveTime < c.activeTime ∧ p.bits < Nat.size (rounded ^^^ c.activeTime).toNat ∧
      index.major * p.bits < max p.width 32 ∧ targetEmpty then
    (c.moveBins target (p.totalBinCount + 1)).map fun c => { c with activeTime := rounded }
  else none

/-- The end of `add`, with the bin known. -/
def pushBack (linearIndex : ℕ) (item : α) : Option (LinkedQueue p α) :=
  (c.empty (.bin linearIndex)).bind fun wasEmpty =>
  (if wasEmpty then c.markBinNonempty linearIndex else some c).bind fun c =>
  c.apply (.pushBack (.bin linearIndex) item)

variable (due : α → p.Timestamp)

def add (item : α) : Option (LinkedQueue p α) :=
  let time := due item
  (if time < c.activeTime then c.setEarlierActiveTime time else some c).bind fun c =>
  (c.base.getBinIndex time).bind fun index => c.pushBack (index.linearIndex p) item

def remove (item : α) : Option (LinkedQueue p α) :=
  (c.base.getBinIndex (due item)).bind fun index =>
  let linearIndex := index.linearIndex p
  (c.apply (.remove (.bin linearIndex) item)).bind fun c => c.leave linearIndex

/-- A round of the inner loop of `try_dequeue_next_due_by` for an item that was taken out of the
source bin. -/
def place (targetMajor firstNonemptyMinorIndex : ℕ) (item : α) : Option (ℕ × LinkedQueue p α) :=
  let targetShift := targetMajor * p.bits
  let targetBinBase := targetMajor * p.minorBinsPerMajorBin % 2 ^ 32
  let targetMinorIndex := ((due item >>> targetShift) &&& p.minorIndexMask).toNat
  let targetLinearIndex := targetBinBase + targetMinorIndex
  (c.empty (.bin targetLinearIndex)).bind fun targetEmpty =>
  ((if targetEmpty then c.set targetLinearIndex true else some c).bind fun c =>
    c.apply (.pushBack (.bin targetLinearIndex) item)).map fun c =>
  if targetMinorIndex < firstNonemptyMinorIndex then
    (targetMinorIndex, { c with firstNonemptyBin := targetLinearIndex })
  else (firstNonemptyMinorIndex, c)

/-- The inner loop of `try_dequeue_next_due_by`. -/
def redistribute (due : α → p.Timestamp) (source targetMajor : ℕ) :
    ℕ → ℕ → LinkedQueue p α → Option (ℕ × LinkedQueue p α)
  | 0, _, _ => none
  | rounds + 1, firstNonemptyMinorIndex, c =>
    (c.empty (.bin source)).bind fun sourceEmpty =>
    if sourceEmpty then some (firstNonemptyMinorIndex, c)
    else
      (c.popFront (.bin source)).bind fun (item, c) =>
      (c.place due targetMajor firstNonemptyMinorIndex item).bind fun (first, c) =>
      redistribute due source targetMajor rounds first c

/-- A round of the outer loop up to where it computes `bin_time`. -/
def redistributeRound (rounds targetMajor minor : ℕ) : Option (ℕ × LinkedQueue p α) :=
  let sourceIndex : BinIndex := ⟨targetMajor + 1, minor⟩
  let source := sourceIndex.linearIndex p
  (c.empty (.bin source)).bind fun sourceEmpty =>
  if sourceEmpty then none
  else
    (redistribute due source targetMajor rounds p.minorBinsPerMajorBin
      { c with activeTime := c.base.roundActiveTime sourceIndex }).bind fun (first, c) =>
    (c.reset source).map fun c => (first, c)

/-- The outer loop of `try_dequeue_next_due_by`. -/
def redistributeFrom (due : α → p.Timestamp) (rounds : ℕ) (shl : ℕ → ℕ → Option p.Timestamp)
    (currentTime : p.Timestamp) :
    (major minor : ℕ) → LinkedQueue p α → Option (Bool × LinkedQueue p α)
  | 0, _, c => some (true, c)
  | targetMajor + 1, minor, c =>
    (c.redistributeRound due rounds targetMajor minor).bind fun (first, c) =>
    (shl first (targetMajor * p.bits)).bind fun shifted =>
    if currentTime < c.activeTime + shifted then some (false, c)
    else redistributeFrom due rounds shl currentTime targetMajor first c

/-- The end of `try_dequeue_next_due_by`. -/
def popFirst (currentTime : p.Timestamp) : Option (Option α × LinkedQueue p α) :=
  let first := c.firstNonemptyBin
  if first < p.minorBinsPerMajorBin then
    (c.popFront (.bin first)).bind fun (item, c) =>
    (c.leave first).bind fun c =>
    if due item ≤ currentTime then some (some item, c) else none
  else none

def tryDequeueNextDueBy (rounds : ℕ) (shl : ℕ → ℕ → Option p.Timestamp)
    (currentTime : p.Timestamp) : Option (Option α × LinkedQueue p α) :=
  let first := c.firstNonemptyBin
  if first = p.totalBinCount then some (none, c)
  else
    (c.empty (.bin first)).bind fun firstEmpty =>
    let index := BinIndex.fromLinearIndex p first
    if firstEmpty then none
    else if currentTime < c.base.getBinTime index then some (none, c)
    else
      (redistributeFrom due rounds shl currentTime index.major index.minor c).bind
        fun (reached, c) => if reached then c.popFirst due currentTime else some (none, c)

/-- The first loop of `reindex_items`. -/
def drain : ℕ → LinkedQueue p α → Option (LinkedQueue p α)
  | 0, _ => none
  | rounds + 1, c =>
    let first := c.firstNonemptyBin
    if first = p.totalBinCount then some c
    else
      (c.apply (.append .allItems (.bin first))).bind fun c =>
      (c.set first false).bind fun c => drain rounds c.findFirst

/-- The second loop of `reindex_items`. -/
def addAll (due : α → p.Timestamp) : ℕ → LinkedQueue p α → Option (LinkedQueue p α)
  | 0, _ => none
  | rounds + 1, c =>
    (c.empty .allItems).bind fun allAdded =>
    if allAdded then some c
    else
      (c.popFront .allItems).bind fun (item, c) =>
      (c.add due item).bind fun c => addAll due rounds c

def reindexItems (rounds : ℕ) : Option (LinkedQueue p α) :=
  (c.apply (.construct .allItems)).bind fun c =>
  (drain (p.totalBinCount + 1) c).bind fun c =>
  (addAll due rounds { c with activeTime := 0 }).bind fun c => c.apply (.destroy .allItems)

end

/-! The queue of plain lists and marks that it represents. -/

/-- The sequences of the lists. -/
def sequences (q : Queue p α) (allItems : Option (List α)) : Sequences ListName α
  | .bin i => if i < p.totalBinCount then some (q.bins i) else none
  | .allItems => allItems

/-- The marked bins of the array. -/
def marked (q : Queue p α) : Finset ℕ :=
  (Finset.range p.totalBinCount).filter fun i => q.nonemptyBins i = true

/-- All items of the lists are among `queued`. -/
def Within (s : Sequences ListName α) (queued : Finset α) : Prop :=
  ∀ name items, s name = some items → ∀ x ∈ items, x ∈ queued

/-- The lists and the bits are those of the queue, and all of the items are among `queued`. -/
structure Represents (c : LinkedQueue p α) (q : Queue p α) (allItems : Option (List α))
    (queued : Finset α) : Prop where
  activeTime : c.activeTime = q.activeTime
  firstNonemptyBin : c.firstNonemptyBin = q.firstNonemptyBin
  nonemptyBins : c.nonemptyBins.Represents (marked q)
  lists : c.lists.Represents (sequences q allItems)
  within : Within (sequences q allItems) queued

section
variable {q : Queue p α} {allItems : Option (List α)} {i : ℕ}

theorem sequences_bin (hi : i < p.totalBinCount) :
    sequences q allItems (.bin i) = some (q.bins i) := if_pos hi

theorem sequences_allItems (q : Queue p α) :
    sequences q allItems .allItems = allItems := rfl

theorem update_sequences_bin (hi : i < p.totalBinCount) (bin : List α) :
    Function.update (sequences q allItems) (.bin i) (some bin) =
      sequences { q with bins := Function.update q.bins i bin } allItems := by
  funext name
  cases name with
  | bin j =>
    by_cases hj : j = i
    · subst hj
      simp [sequences, hi]
    · simp [sequences, hj]
  | allItems => simp [sequences]

theorem update_sequences_allItems (items : Option (List α)) :
    Function.update (sequences q allItems) .allItems items = sequences q items := by
  funext name
  cases name with
  | bin j => simp [sequences]
  | allItems => simp [sequences]

theorem marked_update (hi : i < p.totalBinCount) (value : Bool) :
    marked { q with nonemptyBins := Function.update q.nonemptyBins i value } =
      if value then insert i (marked q) else (marked q).erase i := by
  ext j
  by_cases hj : j = i
  · subst hj
    cases value <;> simp [marked, hi]
  · cases value <;> simp [marked, hj]

theorem Within.update {s : Sequences ListName α} {queued : Finset α} {name : ListName}
    {items : List α} (h : Within s queued) (hitems : ∀ x ∈ items, x ∈ queued) :
    Within (Function.update s name (some items)) queued := by
  intro name' items' hname'
  rw [Function.update_apply] at hname'
  split_ifs at hname'
  · cases hname'
    exact hitems
  · exact h name' items' hname'

end

namespace Represents
variable {c : LinkedQueue p α} {q q' : Queue p α} {allItems : Option (List α)} {queued : Finset α}
  {name : ListName} {items : List α} {i : ℕ} {x : α}

theorem init : ({} : LinkedQueue p α).Represents {} none ∅ := by
  have hnil : ∀ name items, sequences ({} : Queue p α) none name = some items → items = [] := by
    intro name items hname
    cases name with
    | bin i =>
      obtain ⟨-, hbin⟩ := Option.ite_none_right_eq_some.mp hname
      exact (Option.some.inj hbin).symm
    | allItems => cases hname
  refine ⟨rfl, rfl, ?_, ⟨?_, ?_⟩, ?_⟩
  · have hmarked : marked ({} : Queue p α) = ∅ := by simp [marked]
    rw [hmarked]
    exact Bitset.Represents.empty _
  · intro name
    cases name with
    | bin i =>
      by_cases hi : i < p.totalBinCount
      · simpa [sequences, hi] using IntrusiveList.holds_nil
      · simp [sequences, hi]
    | allItems => exact Option.Rel.none
  · intro name _ items _ hname _ _ x hx
    rw [hnil name items hname] at hx
    cases hx
  · intro name items hname x hx
    rw [hnil name items hname] at hx
    cases hx

variable (h : c.Represents q allItems queued)
include h

theorem empty_eq (hname : sequences q allItems name = some items) :
    c.empty name = some items.isEmpty := by
  obtain ⟨l, hl, hholds⟩ := h.lists.of_some hname
  unfold LinkedQueue.empty
  rw [hl, Option.map_some, hholds.empty_eq]

theorem empty_bin (hi : i < p.totalBinCount) : c.empty (.bin i) = some (q.bins i).isEmpty :=
  h.empty_eq (sequences_bin hi)

theorem nodup (hname : sequences q allItems name = some items) : items.Nodup := by
  obtain ⟨l, hl, hholds⟩ := h.lists.of_some hname
  exact hholds.forward.nodup

theorem mono {queued' : Finset α} (hsub : queued ⊆ queued') :
    c.Represents q allItems queued' where
  activeTime := h.activeTime
  firstNonemptyBin := h.firstNonemptyBin
  nonemptyBins := h.nonemptyBins
  lists := h.lists
  within name items hname x hx := hsub (h.within name items hname x hx)

/-! The bits. -/

theorem countrZero_eq : c.nonemptyBins.countrZero = Queue.countrZero p q.nonemptyBins := by
  have hfirst : Chunks.IsFirst (fun i => decide (i ∈ marked q)) p.totalBinCount
      (Queue.countrZero p q.nonemptyBins) := by
    refine ⟨Queue.countrZero_le p _, ?_, ?_⟩
    · intro i hi
      simp [marked, Queue.of_lt_countrZero hi]
    · intro hlt
      simp [marked, hlt, Queue.countrZero_of_lt hlt]
  rw [hfirst.eq_min (fun _ => rfl) h.nonemptyBins.lt]
  exact h.nonemptyBins.agrees.countrZero

theorem findFirst : c.findFirst.Represents
    { q with firstNonemptyBin := Queue.countrZero p q.nonemptyBins } allItems queued where
  activeTime := h.activeTime
  firstNonemptyBin := h.countrZero_eq
  nonemptyBins := h.nonemptyBins
  lists := h.lists
  within := h.within

theorem withFirst (first : ℕ) : ({ c with firstNonemptyBin := first } : LinkedQueue p α).Represents
    { q with firstNonemptyBin := first } allItems queued where
  activeTime := h.activeTime
  firstNonemptyBin := rfl
  nonemptyBins := h.nonemptyBins
  lists := h.lists
  within := h.within

theorem withActiveTime (time : p.Timestamp) :
    ({ c with activeTime := time } : LinkedQueue p α).Represents
      { q with activeTime := time } allItems queued where
  activeTime := rfl
  firstNonemptyBin := h.firstNonemptyBin
  nonemptyBins := h.nonemptyBins
  lists := h.lists
  within := h.within

/-- An action on the bits that sets or clears one of them. -/
theorem withBits (hi : i < p.totalBinCount) (value : Bool) {a : BitsetAction p.totalBinCount}
    (ha : a.apply (marked q) = if value then insert i (marked q) else (marked q).erase i) :
    Yields (c.nonemptyBins.step a) fun nonemptyBins =>
      ({ c with nonemptyBins := nonemptyBins } : LinkedQueue p α).Represents
        { q with nonemptyBins := Function.update q.nonemptyBins i value } allItems queued := by
  obtain ⟨b, hb, hrep⟩ := h.nonemptyBins.step a
  rw [ha, ← marked_update hi] at hrep
  exact ⟨b, hb, h.activeTime, h.firstNonemptyBin, hrep, h.lists, h.within⟩

theorem set (hi : i < p.totalBinCount) (value : Bool) :
    Yields (c.set i value) (·.Represents
      { q with nonemptyBins := Function.update q.nonemptyBins i value } allItems queued) :=
  (h.withBits hi value (a := .set ⟨i, hi⟩ value) rfl).map fun _ hc => hc

theorem reset (hi : i < p.totalBinCount) :
    Yields (c.reset i) (·.Represents
      { q with nonemptyBins := Function.update q.nonemptyBins i false } allItems queued) :=
  (h.withBits hi false (a := .resetAt ⟨i, hi⟩) rfl).map fun _ hc => hc

theorem markBinEmpty (hi : i < p.totalBinCount) :
    Yields (c.markBinEmpty i) (·.Represents (q.markBinEmpty i) allItems queued) := by
  refine (h.reset hi).map fun c' hc => ?_
  unfold Queue.markBinEmpty
  rw [hc.firstNonemptyBin]
  dsimp only
  split_ifs
  · exact hc.findFirst
  · exact hc

theorem markBinNonempty (hi : i < p.totalBinCount) :
    Yields (c.markBinNonempty i) (·.Represents (q.markBinNonempty i) allItems queued) := by
  refine (h.set hi true).map fun c' hc => ?_
  rw [hc.firstNonemptyBin]
  exact hc.withFirst _

theorem getBinIndex_eq (time : p.Timestamp) : c.base.getBinIndex time = q.getBinIndex time := by
  unfold Queue.getBinIndex LinkedQueue.base
  rw [h.activeTime]

theorem leave {queue : Queue p α} {bin : List α} (hi : i < p.totalBinCount)
    (hq : q = { queue with bins := Function.update queue.bins i bin }) :
    Yields (c.leave i) (·.Represents (queue.leave i bin) allItems queued) := by
  subst hq
  have hbin : c.empty (.bin i) = some bin.isEmpty := by
    rw [h.empty_bin hi]
    dsimp only
    rw [Function.update_self]
  unfold LinkedQueue.leave Queue.leave
  rw [hbin, Option.bind_some]
  dsimp only
  by_cases hempty : bin = []
  · rw [hempty, if_pos rfl, if_pos List.isEmpty_nil]
    subst hempty
    exact h.markBinEmpty hi
  · rw [if_neg hempty, if_neg (mt List.isEmpty_iff.mp hempty)]
    exact yields_some.mpr h

/-! The lists. -/

variable [DecidableEq α]

theorem length_le (hname : sequences q allItems name = some items) :
    items.length ≤ queued.card := by
  rw [← List.toFinset_card_of_nodup (h.nodup hname)]
  apply Finset.card_le_card
  intro x hx
  exact h.within name items hname x (List.mem_toFinset.mp hx)

/-- An operation on the lists. -/
theorem step (op : ListOp ListName α) (bins : ℕ → List α) (queued' : Finset α)
    {allItems' : Option (List α)} (hop : op.Allowed (sequences q allItems))
    (hrelease : op.ReleasesEmpty (sequences q allItems))
    (hafter : op.after (sequences q allItems) = sequences { q with bins := bins } allItems')
    (hwithin : Within (op.after (sequences q allItems)) queued') :
    Yields (c.lists.step op) fun r => r.1 = op.returned (sequences q allItems) ∧
      ({ c with lists := r.2 } : LinkedQueue p α).Represents
        { q with bins := bins } allItems' queued' := by
  obtain ⟨r, t, hstep, hcorrect⟩ := h.lists.executes hop hrelease
  refine ⟨(r, t), hstep, hcorrect.returned, h.activeTime, h.firstNonemptyBin, h.nonemptyBins, ?_,
    ?_⟩
  · rw [← hafter]
    exact hcorrect.represents
  · rw [← hafter]
    exact hwithin

/-- What an operation leaves that takes an item out of its list. -/
theorem within_erase (hname : sequences q allItems name = some items) (hx : x ∈ items)
    {rest : List α} (hsub : ∀ y ∈ rest, y ∈ items) (hnot : x ∉ rest) :
    Within (Function.update (sequences q allItems) name (some rest)) (queued.erase x) := by
  intro name' items' hname' y hy
  rw [Function.update_apply] at hname'
  split_ifs at hname' with heq
  · cases hname'
    exact Finset.mem_erase.mpr
      ⟨ne_of_mem_of_not_mem hy hnot, h.within name items hname y (hsub y hy)⟩
  · refine Finset.mem_erase.mpr ⟨?_, h.within name' items' hname' y hy⟩
    rintro rfl
    exact h.lists.disjoint name' name items' items hname' hname heq y hy hx

theorem pushItem (hi : i < p.totalBinCount) (hx : x ∉ queued) :
    Yields (c.apply (.pushBack (.bin i) x)) (·.Represents
      { q with bins := Function.update q.bins i (q.bins i ++ [x]) } allItems
      (insert x queued)) := by
  have hbin : sequences q allItems (.bin i) = some (q.bins i) := sequences_bin hi
  have hafter : (ListOp.pushBack (.bin i) x).after (sequences q allItems) =
      Function.update (sequences q allItems) (.bin i) (some (q.bins i ++ [x])) := by
    rw [ListOp.after, hbin]
    rfl
  have hop : (ListOp.pushBack (.bin i) x).Allowed (sequences q allItems) :=
    ⟨⟨_, hbin⟩, fun name items hname hmem => hx (h.within name items hname x hmem)⟩
  refine (h.step (.pushBack (.bin i) x) _ _ hop (fun _ heq => by cases heq)
    (hafter.trans (update_sequences_bin hi _)) ?_).map fun _ hr => hr.2
  rw [hafter]
  refine Within.update (fun name items hname y hy => ?_) fun y hy => ?_
  · exact Finset.mem_insert_of_mem (h.within name items hname y hy)
  · rcases List.mem_append.mp hy with hy | hy
    · exact Finset.mem_insert_of_mem (h.within _ _ hbin y hy)
    · rw [List.mem_singleton.mp hy]
      exact Finset.mem_insert_self x queued

theorem removeItem (hi : i < p.totalBinCount) (hx : x ∈ q.bins i) :
    Yields (c.apply (.remove (.bin i) x)) (·.Represents
      { q with bins := Function.update q.bins i ((q.bins i).erase x) } allItems
      (queued.erase x)) := by
  have hbin : sequences q allItems (.bin i) = some (q.bins i) := sequences_bin hi
  have hafter : (ListOp.remove (.bin i) x).after (sequences q allItems) =
      Function.update (sequences q allItems) (.bin i) (some ((q.bins i).erase x)) := by
    rw [ListOp.after, hbin]
    rfl
  have hop : (ListOp.remove (.bin i) x).Allowed (sequences q allItems) := ⟨_, hbin, hx⟩
  refine (h.step (.remove (.bin i) x) _ _ hop (fun _ heq => by cases heq)
    (hafter.trans (update_sequences_bin hi _)) ?_).map fun _ hr => hr.2
  rw [hafter]
  exact h.within_erase hbin hx (fun _ hy => List.mem_of_mem_erase hy)
    (h.nodup hbin).not_mem_erase

/-- The first item of a list is taken out of it. -/
theorem popItem {rest : List α} (bins : ℕ → List α) {allItems' : Option (List α)}
    (hname : sequences q allItems name = some (x :: rest))
    (hafter : Function.update (sequences q allItems) name (some rest) =
      sequences { q with bins := bins } allItems') :
    Yields (c.popFront name) fun r => r.1 = x ∧
      r.2.Represents { q with bins := bins } allItems' (queued.erase x) := by
  have hpop : (ListOp.popFront name).after (sequences q allItems) =
      Function.update (sequences q allItems) name (some rest) := by
    rw [ListOp.after, hname]
    rfl
  have hnodup := h.nodup hname
  have hop : (ListOp.popFront name).Allowed (sequences q allItems) :=
    ⟨_, hname, List.cons_ne_nil _ _⟩
  refine (h.step (.popFront name) bins (queued.erase x) hop (fun _ heq => by cases heq)
    (hpop.trans hafter) ?_).bind ?_
  · rw [hpop]
    exact h.within_erase hname List.mem_cons_self (fun _ hy => List.mem_cons_of_mem _ hy)
      (List.nodup_cons.mp hnodup).1
  · rintro ⟨r, lists⟩ ⟨hr, hrep⟩
    have hx : r = some x := by
      dsimp only at hr
      rw [hr, ListOp.returned, hname]
      rfl
    dsimp only
    rw [hx, Option.map_some, yields_some]
    exact ⟨rfl, hrep⟩

theorem popBin {rest : List α} (hi : i < p.totalBinCount) (hbin : q.bins i = x :: rest) :
    Yields (c.popFront (.bin i)) fun r => r.1 = x ∧
      r.2.Represents { q with bins := Function.update q.bins i rest } allItems (queued.erase x) :=
  h.popItem _ ((sequences_bin hi).trans (congrArg some hbin)) (update_sequences_bin hi rest)

/-- The items of a bin are appended to another list. -/
theorem append {target : List α} (bins : ℕ → List α) {allItems' : Option (List α)}
    (hi : i < p.totalBinCount) (hne : name ≠ .bin i)
    (hname : sequences q allItems name = some target)
    (hafter : Function.update (Function.update (sequences q allItems) (.bin i) (some [])) name
      (some (target ++ q.bins i)) = sequences { q with bins := bins } allItems') :
    Yields (c.apply (.append name (.bin i))) (·.Represents
      { q with bins := bins } allItems' queued) := by
  have hbin : sequences q allItems (.bin i) = some (q.bins i) := sequences_bin hi
  have hop : (ListOp.append name (.bin i)).Allowed (sequences q allItems) :=
    ⟨⟨_, hname⟩, _, hbin⟩
  have hjoin : (ListOp.append name (.bin i)).after (sequences q allItems) =
      Function.update (Function.update (sequences q allItems) (.bin i) (some [])) name
        (some (target ++ q.bins i)) := by
    rw [ListOp.after, ListOp.join, Function.update_of_ne hne, hname, hbin]
    rfl
  refine (h.step (.append name (.bin i)) bins queued hop (fun _ heq => by cases heq)
    (hjoin.trans hafter) ?_).map fun _ hr => hr.2
  rw [hjoin]
  refine Within.update (Within.update h.within fun y hy => by cases hy) fun y hy => ?_
  rcases List.mem_append.mp hy with hy | hy
  · exact h.within name target hname y hy
  · exact h.within _ _ hbin y hy

theorem appendBin {j : ℕ} (hi : i < p.totalBinCount) (hj : j < p.totalBinCount) (hne : j ≠ i) :
    Yields (c.apply (.append (.bin j) (.bin i))) (·.Represents
      { q with bins := Function.update (Function.update q.bins j (q.bins j ++ q.bins i)) i [] }
      allItems queued) := by
  have hnames : ListName.bin j ≠ .bin i := fun heq => hne (ListName.bin.inj heq)
  refine h.append _ hi hnames (sequences_bin hj) ?_
  rw [Function.update_comm hnames.symm, update_sequences_bin hj, update_sequences_bin hi]

theorem appendAll (hi : i < p.totalBinCount) (hitems : allItems = some items) :
    Yields (c.apply (.append .allItems (.bin i))) (·.Represents
      { q with bins := Function.update q.bins i [] } (some (items ++ q.bins i)) queued) := by
  refine h.append _ hi (fun heq => by cases heq) hitems ?_
  rw [update_sequences_bin hi, update_sequences_allItems]

theorem popAll {rest : List α} (hitems : allItems = some (x :: rest)) :
    Yields (c.popFront .allItems) fun r => r.1 = x ∧
      r.2.Represents q (some rest) (queued.erase x) :=
  h.popItem q.bins hitems (update_sequences_allItems _)

theorem construct (hitems : allItems = none) :
    Yields (c.apply (.construct .allItems)) (·.Represents q (some []) queued) := by
  refine (h.step (.construct .allItems) q.bins queued hitems (fun _ heq => by cases heq)
    (update_sequences_allItems _) ?_).map fun _ hr => hr.2
  exact Within.update h.within fun y hy => by cases hy

theorem destroy (hitems : allItems = some []) :
    Yields (c.apply (.destroy .allItems)) (·.Represents q none queued) := by
  refine (h.step (.destroy .allItems) q.bins queued hitems (fun _ heq => by cases heq)
    (update_sequences_allItems _) ?_).map fun _ hr => hr.2
  intro name' items' hname'
  rw [ListOp.after, Function.update_apply] at hname'
  split_ifs at hname'
  exact h.within name' items' hname'

/-! The operations. -/

theorem moveBins {target : ℕ} (htarget : target < p.totalBinCount) {rounds : ℕ}
    (hq : q.moveBins target rounds = some q') :
    Yields (c.moveBins target rounds) (·.Represents q' allItems queued) := by
  induction rounds generalizing c q with
  | zero => cases hq
  | succ rounds ih =>
    unfold Queue.moveBins at hq
    unfold LinkedQueue.moveBins
    rw [h.firstNonemptyBin]
    split_ifs at hq ⊢ with hlt
    · have hsource : q.firstNonemptyBin < p.totalBinCount := Nat.lt_trans hlt htarget
      refine (h.appendBin hsource htarget (Nat.ne_of_gt hlt)).bind fun c' hc => ?_
      refine (hc.reset hsource).bind fun c' hc => ?_
      exact ih hc.findFirst hq
    · cases hq
      exact yields_some.mpr h

theorem setEarlierActiveTime {time : p.Timestamp}
    (hq : q.setEarlierActiveTime time = some q') :
    Yields (c.setEarlierActiveTime time) (·.Represents q' allItems queued) := by
  unfold Queue.setEarlierActiveTime at hq
  dsimp only at hq
  split_ifs at hq with hcond
  obtain ⟨hlt, hdiffer, hshift, htarget, hempty⟩ := hcond
  obtain ⟨moved, hmoved, rfl⟩ := Option.map_eq_some_iff.mp hq
  have hbase : c.base.relocationIndex (time &&& p.activeTimeMask) =
      q.relocationIndex (time &&& p.activeTimeMask) := by
    unfold Queue.relocationIndex LinkedQueue.base
    rw [h.activeTime]
  unfold LinkedQueue.setEarlierActiveTime
  dsimp only
  rw [hbase, h.empty_bin htarget, Option.bind_some, h.activeTime, hempty, if_pos]
  · exact (h.moveBins htarget hmoved).map fun c' hc => hc.withActiveTime _
  · exact ⟨hlt, hdiffer, hshift, rfl⟩

theorem pushBack (hi : i < p.totalBinCount) (hx : x ∉ queued) :
    Yields (c.pushBack i x) (·.Represents (q.pushBack i x) allItems (insert x queued)) := by
  unfold LinkedQueue.pushBack Queue.pushBack
  rw [h.empty_bin hi, Option.bind_some]
  by_cases hempty : q.bins i = []
  · rw [hempty, if_pos rfl, if_pos List.isEmpty_nil]
    refine (h.markBinNonempty hi).bind fun c' hc => ?_
    have hpush := hc.pushItem hi hx
    rw [show (q.markBinNonempty i).bins i = [] from hempty] at hpush
    exact hpush
  · rw [if_neg hempty, if_neg (mt List.isEmpty_iff.mp hempty), Option.bind_some]
    exact h.pushItem hi hx

theorem add {due : α → p.Timestamp} (hx : x ∉ queued) (hq : q.add due x = some q') :
    Yields (c.add due x) (·.Represents q' allItems (insert x queued)) := by
  obtain ⟨moved, hmoved, hrest⟩ := Option.bind_eq_some_iff.mp hq
  obtain ⟨index, hindex, hpush⟩ := Option.bind_eq_some_iff.mp hrest
  split_ifs at hpush with hi
  cases hpush
  have hmove : Yields (if due x < c.activeTime then c.setEarlierActiveTime (due x) else some c)
      (·.Represents moved allItems queued) := by
    rw [h.activeTime]
    split_ifs at hmoved ⊢
    · exact h.setEarlierActiveTime hmoved
    · cases hmoved
      exact yields_some.mpr h
  refine hmove.bind fun c' hc => ?_
  rw [hc.getBinIndex_eq, hindex, Option.bind_some]
  exact hc.pushBack hi hx

theorem remove {due : α → p.Timestamp} (hq : q.remove due x = some q') :
    Yields (c.remove due x) (·.Represents q' allItems (queued.erase x)) := by
  obtain ⟨index, hindex, hrest⟩ := Option.bind_eq_some_iff.mp hq
  dsimp only at hrest
  split at hrest
  · next hcond =>
    cases hrest
    unfold LinkedQueue.remove
    rw [h.getBinIndex_eq, hindex, Option.bind_some]
    exact (h.removeItem hcond.1 hcond.2).bind fun c' hc => hc.leave hcond.1 rfl
  · cases hrest

end Represents

/-! `try_dequeue_next_due_by`. -/

/-- The items after one of them was returned. -/
def remaining [DecidableEq α] (queued : Finset α) : Option α → Finset α
  | none => queued
  | some x => queued.erase x

/-- The queue after a round of the inner loop has put an item into its target bin. -/
def placed (q : Queue p α) (target : ℕ) (item : α) : Queue p α :=
  { q with
    nonemptyBins :=
      if q.bins target = [] then Function.update q.nonemptyBins target true else q.nonemptyBins
    bins := Function.update q.bins target (q.bins target ++ [item]) }

theorem redistribute_cons_placed (due : α → p.Timestamp) {targetMajor first target minor : ℕ}
    {x : α} {items : List α} (q : Queue p α)
    (hminor : minor = ((due x >>> (targetMajor * p.bits)) &&& p.minorIndexMask).toNat)
    (htarget : target = targetMajor * p.minorBinsPerMajorBin % 2 ^ 32 + minor) :
    Queue.redistribute due targetMajor (x :: items) first q =
      if target < p.totalBinCount then
        if minor < first then
          Queue.redistribute due targetMajor items minor
            { placed q target x with firstNonemptyBin := target }
        else Queue.redistribute due targetMajor items first (placed q target x)
      else none := by
  subst htarget hminor
  rfl

theorem placed_update (q : Queue p α) {source target : ℕ} (hne : target ≠ source) (item : α)
    (rest : List α) :
    placed { q with bins := Function.update q.bins source rest } target item =
      { placed q target item with
        bins := Function.update (placed q target item).bins source rest } := by
  unfold placed
  simp only [Function.update_of_ne hne, Function.update_comm hne]

namespace Represents
variable [DecidableEq α] {c : LinkedQueue p α} {q q' : Queue p α} {allItems : Option (List α)}
  {queued : Finset α} {due : α → p.Timestamp} {source targetMajor first first' rounds : ℕ} {x : α}

/-- A round of the inner loop. -/
theorem place (h : c.Represents q allItems queued) {target minor : ℕ} (hx : x ∉ queued)
    (hminor : minor = ((due x >>> (targetMajor * p.bits)) &&& p.minorIndexMask).toNat)
    (htarget : target = targetMajor * p.minorBinsPerMajorBin % 2 ^ 32 + minor)
    (hlt : target < p.totalBinCount) :
    Yields (c.place due targetMajor first x) fun r =>
      (minor < first → r.1 = minor ∧ r.2.Represents
        { placed q target x with firstNonemptyBin := target } allItems (insert x queued)) ∧
      (¬ minor < first → r.1 = first ∧
        r.2.Represents (placed q target x) allItems (insert x queued)) := by
  have hpush : Yields ((if (q.bins target).isEmpty then c.set target true else some c).bind fun c =>
      c.apply (.pushBack (.bin target) x))
      (·.Represents (placed q target x) allItems (insert x queued)) := by
    unfold placed
    by_cases hempty : q.bins target = []
    · rw [if_pos hempty, if_pos (List.isEmpty_iff.mpr hempty)]
      exact (h.set hlt true).bind fun c' hc => hc.pushItem hlt hx
    · rw [if_neg hempty, if_neg (mt List.isEmpty_iff.mp hempty), Option.bind_some]
      exact h.pushItem hlt hx
  unfold LinkedQueue.place
  dsimp only
  rw [← hminor, ← htarget, h.empty_bin hlt, Option.bind_some]
  refine hpush.map fun c' hc => ?_
  split_ifs with hfirst
  · exact ⟨fun _ => ⟨rfl, hc.withFirst target⟩, fun hnot => absurd hfirst hnot⟩
  · exact ⟨fun hlt => absurd hlt hfirst, fun _ => ⟨rfl, hc⟩⟩

/-- The inner loop, with the items that are left in the source bin. -/
theorem redistribute {items : List α}
    (h : c.Represents { q with bins := Function.update q.bins source items } allItems queued)
    (hsource : source < p.totalBinCount) (hempty : q.bins source = [])
    (hne : ∀ time : p.Timestamp, targetMajor * p.minorBinsPerMajorBin % 2 ^ 32 +
      (time &&& p.minorIndexMask).toNat ≠ source)
    (hrounds : items.length < rounds)
    (hq : Queue.redistribute due targetMajor items first q = some (first', q')) :
    Yields (LinkedQueue.redistribute due source targetMajor rounds first c) fun r =>
      r.1 = first' ∧ r.2.Represents q' allItems queued := by
  induction items generalizing c q first rounds with
  | nil =>
    obtain ⟨rounds, rfl⟩ := Nat.exists_eq_add_one.mpr (Nat.zero_lt_of_lt hrounds)
    cases hq
    rw [← hempty, Function.update_eq_self] at h
    unfold LinkedQueue.redistribute
    rw [h.empty_bin hsource, hempty, Option.bind_some]
    exact yields_some.mpr ⟨rfl, h⟩
  | cons x items ih =>
    obtain ⟨rounds, rfl⟩ := Nat.exists_eq_add_one.mpr (Nat.zero_lt_of_lt hrounds)
    have hbin : Function.update q.bins source (x :: items) source = x :: items :=
      Function.update_self ..
    unfold LinkedQueue.redistribute
    rw [h.empty_bin hsource]
    dsimp only
    rw [hbin, Option.bind_some, if_neg (by simp)]
    have hqueued : x ∈ queued := by
      apply h.within (.bin source) _ (sequences_bin hsource)
      dsimp only
      rw [hbin]
      exact List.mem_cons_self
    obtain ⟨minor, hminor⟩ :
        ∃ minor, minor = ((due x >>> (targetMajor * p.bits)) &&& p.minorIndexMask).toNat :=
      ⟨_, rfl⟩
    obtain ⟨target, htarget⟩ :
        ∃ target, target = targetMajor * p.minorBinsPerMajorBin % 2 ^ 32 + minor := ⟨_, rfl⟩
    have hother : target ≠ source := by
      rw [htarget, hminor]
      exact hne _
    have hempty' : (placed q target x).bins source = [] :=
      (Function.update_of_ne hother.symm _ _).trans hempty
    rw [redistribute_cons_placed due q hminor htarget] at hq
    split at hq
    swap
    · cases hq
    next hlt =>
    refine (h.popBin hsource hbin).bind fun r hr => ?_
    obtain ⟨item, c'⟩ := r
    obtain ⟨hitem, hc⟩ := hr
    dsimp only at hitem hc ⊢
    rw [Function.update_idem] at hc
    rw [hitem]
    refine (hc.place (Finset.notMem_erase x queued) hminor htarget hlt).bind fun r hr => ?_
    rw [placed_update q hother, Finset.insert_erase hqueued] at hr
    obtain ⟨first'', c''⟩ := r
    have hlength : items.length < rounds := Nat.lt_of_succ_lt_succ hrounds
    split at hq
    · next hfirst =>
      obtain ⟨heq, hrep⟩ := hr.1 hfirst
      dsimp only at heq hrep ⊢
      rw [heq]
      exact ih (q := { placed q target x with firstNonemptyBin := target }) hrep hempty' hlength hq
    · next hfirst =>
      obtain ⟨heq, hrep⟩ := hr.2 hfirst
      dsimp only at heq hrep ⊢
      rw [heq]
      exact ih hrep hempty' hlength hq

theorem target_ne_source {minor : ℕ}
    (hsource : (BinIndex.mk (targetMajor + 1) minor).linearIndex p < p.totalBinCount)
    (time : p.Timestamp) :
    targetMajor * p.minorBinsPerMajorBin % 2 ^ 32 + (time &&& p.minorIndexMask).toNat ≠
      (BinIndex.mk (targetMajor + 1) minor).linearIndex p := by
  have htotal : p.totalBinCount < 2 ^ 32 := Nat.mod_lt _ (by decide)
  have hmask : (time &&& p.minorIndexMask).toNat < p.minorBinsPerMajorBin := by
    rw [p.toNat_and_minorIndexMask]
    exact Nat.mod_lt _ (Nat.two_pow_pos _)
  unfold BinIndex.linearIndex at hsource ⊢
  rw [Nat.add_one_mul] at hsource ⊢
  rw [Nat.mod_eq_of_lt (by omega)]
  omega

/-- A round of the outer loop. -/
theorem redistributeRound (h : c.Represents q allItems queued) {minor : ℕ}
    (hrounds : queued.card < rounds)
    (hq : q.redistributeRound due targetMajor minor = some (first, q')) :
    Yields (c.redistributeRound due rounds targetMajor minor) fun r =>
      r.1 = first ∧ r.2.Represents q' allItems queued := by
  unfold Queue.redistributeRound at hq
  dsimp only at hq
  split at hq
  swap
  · cases hq
  next hcond =>
  obtain ⟨hsource, hne⟩ := hcond
  obtain ⟨⟨first', spread⟩, hspread, heq⟩ := Option.map_eq_some_iff.mp hq
  cases heq
  have htime : c.base.roundActiveTime ⟨targetMajor + 1, minor⟩ =
      q.roundActiveTime ⟨targetMajor + 1, minor⟩ := by
    unfold Queue.roundActiveTime LinkedQueue.base
    rw [h.activeTime]
  unfold LinkedQueue.redistributeRound
  dsimp only
  rw [h.empty_bin hsource, Option.bind_some, if_neg (mt List.isEmpty_iff.mp hne), htime]
  have hstart := h.withActiveTime (q.roundActiveTime ⟨targetMajor + 1, minor⟩)
  have hlength := h.length_le (sequences_bin hsource)
  generalize hindex : (BinIndex.mk (targetMajor + 1) minor).linearIndex p = source at *
  generalize q.roundActiveTime ⟨targetMajor + 1, minor⟩ = time at *
  let cleared : Queue p α :=
    { q with activeTime := time, bins := Function.update q.bins source [] }
  have hitems : { cleared with bins := Function.update cleared.bins source (q.bins source) } =
      { q with activeTime := time } := by
    simp only [cleared, Function.update_idem, Function.update_eq_self]
  rw [← hitems] at hstart
  refine (hstart.redistribute hsource (Function.update_self ..)
    (hindex ▸ target_ne_source (hindex ▸ hsource)) (Nat.lt_of_le_of_lt hlength hrounds)
    hspread).bind fun r hr => ?_
  obtain ⟨_, c'⟩ := r
  obtain ⟨rfl, hrep⟩ := hr
  exact (hrep.reset hsource).map fun c'' hc => ⟨rfl, hc⟩

/-- The outer loop. -/
theorem redistributeFrom (h : c.Represents q allItems queued) {major minor : ℕ} {reached : Bool}
    {shl : ℕ → ℕ → Option p.Timestamp} {currentTime : p.Timestamp} (hrounds : queued.card < rounds)
    (hq : q.redistributeFrom due shl currentTime major minor = some (reached, q')) :
    Yields (LinkedQueue.redistributeFrom due rounds shl currentTime major minor c) fun r =>
      r.1 = reached ∧ r.2.Represents q' allItems queued := by
  induction major generalizing c q minor with
  | zero =>
    cases hq
    exact yields_some.mpr ⟨rfl, h⟩
  | succ targetMajor ih =>
    obtain ⟨⟨first, spread⟩, hround, hrest⟩ := Option.bind_eq_some_iff.mp hq
    obtain ⟨shifted, hshifted, hrest⟩ := Option.bind_eq_some_iff.mp hrest
    unfold LinkedQueue.redistributeFrom
    refine (h.redistributeRound hrounds hround).bind fun r hr => ?_
    obtain ⟨_, c'⟩ := r
    obtain ⟨rfl, hrep⟩ := hr
    dsimp only at hshifted hrep ⊢
    rw [hshifted, Option.bind_some, hrep.activeTime]
    split_ifs at hrest ⊢
    · cases hrest
      exact yields_some.mpr ⟨rfl, hrep⟩
    · exact ih hrep hrest

theorem popFirst (h : c.Represents q allItems queued) {currentTime : p.Timestamp} {r : Option α}
    (hq : q.popFirst due currentTime = some (r, q')) :
    Yields (c.popFirst due currentTime) fun s =>
      s.1 = r ∧ s.2.Represents q' allItems (remaining queued r) := by
  unfold Queue.popFirst at hq
  dsimp only at hq
  split at hq
  · cases hq
  next item bin hbin =>
  split at hq
  swap
  · cases hq
  next hcond =>
  obtain ⟨hminor, hlt, hdue⟩ := hcond
  cases hq
  unfold LinkedQueue.popFirst
  dsimp only
  rw [h.firstNonemptyBin, if_pos hminor]
  refine (h.popBin hlt hbin).bind fun s hs => ?_
  obtain ⟨_, c'⟩ := s
  obtain ⟨rfl, hrep⟩ := hs
  refine (hrep.leave hlt rfl).bind fun c'' hc => ?_
  dsimp only
  rw [if_pos hdue]
  exact yields_some.mpr ⟨rfl, hc⟩

theorem tryDequeueNextDueBy (h : c.Represents q allItems queued)
    {shl : ℕ → ℕ → Option p.Timestamp} {currentTime : p.Timestamp} {r : Option α}
    (hrounds : queued.card < rounds)
    (hq : q.tryDequeueNextDueBy due shl currentTime = some (r, q')) :
    Yields (c.tryDequeueNextDueBy due rounds shl currentTime) fun s =>
      s.1 = r ∧ s.2.Represents q' allItems (remaining queued r) := by
  have htime : ∀ index, c.base.getBinTime index = q.getBinTime index := by
    intro index
    unfold Queue.getBinTime LinkedQueue.base
    rw [h.activeTime]
  unfold Queue.tryDequeueNextDueBy at hq
  unfold LinkedQueue.tryDequeueNextDueBy
  dsimp only at hq ⊢
  rw [h.firstNonemptyBin, htime]
  by_cases hfirst : q.firstNonemptyBin = p.totalBinCount
  · rw [if_pos hfirst] at hq ⊢
    cases hq
    exact yields_some.mpr ⟨rfl, h⟩
  rw [if_neg hfirst] at hq ⊢
  split at hq
  swap
  · cases hq
  next hcond =>
  rw [h.empty_bin hcond.1, Option.bind_some, if_neg (mt List.isEmpty_iff.mp hcond.2)]
  split at hq
  · next hlater =>
    cases hq
    rw [if_pos hlater]
    exact yields_some.mpr ⟨rfl, h⟩
  · next hlater =>
    rw [if_neg hlater]
    obtain ⟨⟨reached, spread⟩, hspread, hrest⟩ := Option.bind_eq_some_iff.mp hq
    refine (h.redistributeFrom hrounds hspread).bind fun s hs => ?_
    obtain ⟨_, c'⟩ := s
    obtain ⟨rfl, hrep⟩ := hs
    dsimp only at hrep hrest ⊢
    split_ifs at hrest ⊢
    · exact hrep.popFirst hrest
    · cases hrest
      exact yields_some.mpr ⟨rfl, hrep⟩

/-! `reindex_items`. -/

theorem drain (h : c.Represents q allItems queued) {items items' : List α}
    (hitems : allItems = some items) (hq : Queue.drain rounds items q = some (items', q')) :
    Yields (LinkedQueue.drain rounds c) (·.Represents q' (some items') queued) := by
  induction rounds generalizing c q allItems items with
  | zero => cases hq
  | succ rounds ih =>
    unfold Queue.drain at hq
    unfold LinkedQueue.drain
    dsimp only at hq ⊢
    rw [h.firstNonemptyBin]
    split_ifs at hq ⊢ with hfirst hlt
    · cases hq
      rw [← hitems]
      exact yields_some.mpr h
    · refine (h.appendAll hlt hitems).bind fun c' hc => ?_
      exact (hc.set hlt false).bind fun c'' hc' => ih hc'.findFirst rfl hq

theorem addAll {items : List α} (h : c.Represents q (some items) queued)
    (hrounds : items.length < rounds) (hq : Queue.addAll due items q = some q') :
    Yields (LinkedQueue.addAll due rounds c) (·.Represents q' (some []) queued) := by
  induction items generalizing c q rounds with
  | nil =>
    obtain ⟨rounds, rfl⟩ := Nat.exists_eq_add_one.mpr (Nat.zero_lt_of_lt hrounds)
    cases hq
    unfold LinkedQueue.addAll
    rw [h.empty_eq rfl, Option.bind_some]
    exact yields_some.mpr h
  | cons x items ih =>
    obtain ⟨rounds, rfl⟩ := Nat.exists_eq_add_one.mpr (Nat.zero_lt_of_lt hrounds)
    obtain ⟨added, hadded, hrest⟩ := Option.bind_eq_some_iff.mp hq
    have hqueued : x ∈ queued := h.within .allItems _ rfl x List.mem_cons_self
    unfold LinkedQueue.addAll
    rw [h.empty_eq rfl, Option.bind_some, if_neg (by simp)]
    refine (h.popAll rfl).bind fun r hr => ?_
    obtain ⟨_, c'⟩ := r
    obtain ⟨rfl, hrep⟩ := hr
    refine (hrep.add (Finset.notMem_erase _ _) hadded).bind fun c'' hc => ?_
    rw [Finset.insert_erase hqueued] at hc
    exact ih hc (Nat.lt_of_succ_lt_succ hrounds) hrest

theorem reindexItems (h : c.Represents q none queued) (hrounds : queued.card < rounds)
    (hq : q.reindexItems due = some q') :
    Yields (c.reindexItems due rounds) (·.Represents q' none queued) := by
  obtain ⟨⟨items, drained⟩, hdrain, hadd⟩ := Option.bind_eq_some_iff.mp hq
  refine (h.construct rfl).bind fun c' hc => ?_
  refine (hc.drain rfl hdrain).bind fun c' hc => ?_
  have hlength : items.length ≤ queued.card := hc.length_le (sequences_allItems _)
  refine ((hc.withActiveTime 0).addAll (Nat.lt_of_le_of_lt hlength hrounds) hadd).bind ?_
  exact fun c' hc => hc.destroy rfl

end Represents
end LinkedQueue

/-! Runs. -/

structure LinkedRun (p : Params) (α : Type) where
  due : α → p.Timestamp
  queue : LinkedQueue p α := {}
  /-- the items that were added, one more than which no loop over items makes rounds -/
  added : ℕ := 0
  /-- what the calls of `try_dequeue_next_due_by` returned -/
  returned : List (Option α) := []

namespace LinkedRun
variable {p : Params} {α : Type} [DecidableEq α]

def step (s : LinkedRun p α) : Action p α → Option (LinkedRun p α)
  | .add item time =>
    let due := Function.update s.due item time
    (s.queue.add due item).map fun queue =>
      { s with due := due, queue := queue, added := s.added + 1 }
  | .remove item => (s.queue.remove s.due item).map fun queue => { s with queue := queue }
  | .tryDequeueNextDueBy currentTime =>
    (s.queue.tryDequeueNextDueBy s.due (s.added + 1) p.shiftMinor currentTime).map
      fun (item, queue) => { s with queue := queue, returned := s.returned ++ [item] }
  | .reindexItems due =>
    (s.queue.reindexItems due (s.added + 1)).map fun queue =>
      { s with due := due, queue := queue }

end LinkedRun

/-- Runs without a failed assertion and without undefined behaviour. -/
def linkedRuns (p : Params) (α : Type) [DecidableEq α] : System (LinkedRun p α) (Action p α) where
  init := { due := fun _ => 0 }
  step := LinkedRun.step

namespace LinkedRun
variable {p : Params} {α : Type} [DecidableEq α] {s s' : Run p α} {r : LinkedRun p α}
  {a : Action p α}

/-- The two runs are at the same point. -/
structure Follows (s : Run p α) (r : LinkedRun p α) : Prop where
  due : r.due = s.due
  queue : r.queue.Represents s.queue none s.queued.toFinset
  queued_le : s.queued.length ≤ r.added
  returned : r.returned = s.answers.map Prod.fst

theorem Follows.init : Follows (runs p α).init (linkedRuns p α).init where
  due := rfl
  queue := .init
  queued_le := Nat.le_refl 0
  returned := rfl

theorem Follows.card_lt (h : Follows s r) : s.queued.toFinset.card < r.added + 1 :=
  Nat.lt_succ_of_le (Nat.le_trans s.queued.toFinset_card_le h.queued_le)

theorem erase_toFinset_subset (l : List α) (x : α) : l.toFinset.erase x ⊆ (l.erase x).toFinset := by
  intro y hy
  obtain ⟨hne, hmem⟩ := Finset.mem_erase.mp hy
  exact List.mem_toFinset.mpr ((List.mem_erase_of_ne hne).mpr (List.mem_toFinset.mp hmem))

theorem remaining_toFinset_subset (l : List α) (x : Option α) :
    LinkedQueue.remaining l.toFinset x ⊆ (Queue.remaining l x).toFinset := by
  cases x with
  | none => exact Finset.Subset.refl _
  | some x => exact erase_toFinset_subset l x

theorem remaining_length_le (l : List α) (x : Option α) :
    (Queue.remaining l x).length ≤ l.length := by
  cases x with
  | none => exact Nat.le_refl _
  | some x => exact List.length_erase_le

theorem Follows.add (h : Follows s r) {x : α} {time : p.Timestamp} (hx : x ∉ s.queued)
    (hfault : (s.add x time).fault = false) :
    Yields (r.step (.add x time)) (Follows (s.add x time)) := by
  unfold Run.add at hfault ⊢
  dsimp only at hfault ⊢
  cases hadd : s.queue.add (Function.update s.due x time) x with
  | none =>
    rw [hadd] at hfault
    cases hfault
  | some queue =>
    have hqueued : x ∉ s.queued.toFinset := mt List.mem_toFinset.mp hx
    unfold LinkedRun.step
    dsimp only
    rw [h.due]
    refine (h.queue.add hqueued hadd).map fun c hc => ⟨rfl, ?_, ?_, h.returned⟩
    · apply hc.mono
      simp
    · simpa using h.queued_le

theorem Follows.remove (h : Follows s r) {x : α} (hfault : (s.remove x).fault = false) :
    Yields (r.step (.remove x)) (Follows (s.remove x)) := by
  unfold Run.remove at hfault ⊢
  cases hremove : s.queue.remove s.due x with
  | none =>
    rw [hremove] at hfault
    cases hfault
  | some queue =>
    unfold LinkedRun.step
    dsimp only
    rw [h.due]
    refine (h.queue.remove hremove).map fun c hc => ⟨rfl, ?_, ?_, h.returned⟩
    · exact hc.mono (erase_toFinset_subset _ _)
    · exact Nat.le_trans List.length_erase_le h.queued_le

theorem Follows.tryDequeueNextDueBy (h : Follows s r) {t : p.Timestamp}
    (hfault : (s.tryDequeueNextDueBy t).fault = false) :
    Yields (r.step (.tryDequeueNextDueBy t)) (Follows (s.tryDequeueNextDueBy t)) := by
  unfold Run.tryDequeueNextDueBy at hfault ⊢
  dsimp only at hfault ⊢
  cases hdequeue : s.queue.tryDequeueNextDueBy s.due p.shiftMinor t with
  | none =>
    rw [hdequeue] at hfault
    cases hfault
  | some result =>
    obtain ⟨item, queue⟩ := result
    unfold LinkedRun.step
    dsimp only
    rw [h.due]
    refine (h.queue.tryDequeueNextDueBy h.card_lt hdequeue).map fun r hr => ?_
    obtain ⟨_, c⟩ := r
    obtain ⟨rfl, hc⟩ := hr
    refine ⟨rfl, hc.mono (remaining_toFinset_subset _ _), ?_, ?_⟩
    · exact Nat.le_trans (remaining_length_le _ _) h.queued_le
    · rw [h.returned, List.map_append, List.map_singleton]

theorem Follows.reindexItems (h : Follows s r) {due : α → p.Timestamp}
    (hfault : (s.reindexItems due).fault = false) :
    Yields (r.step (.reindexItems due)) (Follows (s.reindexItems due)) := by
  unfold Run.reindexItems at hfault ⊢
  cases hreindex : s.queue.reindexItems due with
  | none =>
    rw [hreindex] at hfault
    cases hfault
  | some queue =>
    exact (h.queue.reindexItems h.card_lt hreindex).map fun c hc =>
      ⟨rfl, hc, h.queued_le, h.returned⟩

theorem Follows.step (h : Follows s r) (hstep : s.step a = some s') (hfault : s'.fault = false) :
    Yields (r.step a) (Follows s') := by
  obtain ⟨x, time, rfl, hx, -, rfl⟩ | ⟨x, rfl, -, rfl⟩ | ⟨t, rfl, rfl⟩ | ⟨due, rfl, -, rfl⟩ :=
    Run.step_cases hstep
  · exact h.add hx hfault
  · exact h.remove hfault
  · exact h.tryDequeueNextDueBy hfault
  · exact h.reindexItems hfault

theorem fault_of_step (hstep : s.step a = some s') : s.fault = false := by
  unfold Run.step at hstep
  split at hstep
  · cases hstep
  · next hfault => exact Bool.eq_false_iff.mpr hfault

theorem fault_of_run {as : List (Action p α)} (hrun : (runs p α).run s as = some s')
    (hfault : s'.fault = false) : s.fault = false := by
  cases as with
  | nil =>
    cases hrun
    exact hfault
  | cons a as =>
    obtain ⟨t, ht, -⟩ := Option.bind_eq_some_iff.mp hrun
    exact fault_of_step ht

/-- Every run of the queue of lists and marks without a fault is one of the linked queue, in which
`try_dequeue_next_due_by` returns the same. -/
theorem follows_run (h : Follows s r) {as : List (Action p α)}
    (hrun : (runs p α).run s as = some s') (hfault : s'.fault = false) :
    Yields ((linkedRuns p α).run r as) (Follows s') := by
  induction as generalizing s r with
  | nil =>
    cases hrun
    exact yields_some.mpr h
  | cons a as ih =>
    obtain ⟨t, ht, hrest⟩ := Option.bind_eq_some_iff.mp hrun
    have hstep := h.step ht (fault_of_run hrest hfault)
    exact hstep.bind fun r' hr => ih hr hrest

/-- In the runs in which the queue refines a stable priority queue, so does the linked queue. -/
theorem returned_eq_of_refining {as : List (Action p α)}
    (hrun : (runs p α).exec Run.Refining (runs p α).init as = some s) :
    ∃ r, (linkedRuns p α).run (linkedRuns p α).init as = some r ∧
      r.returned = s.answers.map Prod.snd := by
  have hinv : s.RefinesInv := (System.Reaches.init.exec hrun).invariant Run.RefinesInv.init
    fun _ _ _ h hok ht => h.step hok ht
  obtain ⟨r, hr, hfollows⟩ := follows_run Follows.init (System.run_of_exec hrun) hinv.fault
  refine ⟨r, hr, ?_⟩
  rw [hfollows.returned]
  exact List.map_congr_left hinv.answers

/-- Three items, of which one is removed. -/
example : ((linkedRuns sixteenMinorBins (BitVec 32)).run (linkedRuns _ _).init
    [.add 0x45 0x45, .add 0x46 0x46, .tryDequeueNextDueBy 0x45, .remove 0x46,
      .add 0x52 0x52, .tryDequeueNextDueBy 0x60]).map LinkedRun.returned =
    some [some 0x45, some 0x52] := by
  decide +kernel

end LinkedRun
end Squiz.Detail.BinnedTimePriorityQueue
