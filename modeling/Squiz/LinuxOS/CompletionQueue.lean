import Squiz.Lib.Ring
import Squiz.Lib.System
import Squiz.LinuxOS.SubmissionQueue

/-! The completion queue of `io_uring`, the kernel that fills it and the thread that visits its
entries. -/
namespace Squiz.LinuxOS.IoUring
open Squiz.Lib Squiz.Lib.Ring

/-- The view reads the entries of the queue, which are passed to its functions. -/
structure CompletionQueueView where
  mask : Position
  head : Position
  count : Position

namespace CompletionQueueView
variable {α : Type*}

def size (v : CompletionQueueView) : Position := v.count

/-- `operator[]`, which asserts that the index is in the view. -/
def get (v : CompletionQueueView) (entries : ℕ → α) (index : Position) : Option α :=
  if index < v.size then some (entries ((v.head + index) &&& v.mask).toNat) else none

structure Iterator where
  mask : Position
  index : Position

namespace Iterator

/-- `operator*` -/
def deref (it : Iterator) (entries : ℕ → α) : α := entries (it.index &&& it.mask).toNat

/-- `operator++` -/
def next (it : Iterator) : Iterator := { it with index := it.index + 1 }

/-- `operator==` -/
def Equal (a b : Iterator) : Prop := a.index = b.index

instance (a b : Iterator) : Decidable (a.Equal b) := inferInstanceAs (Decidable (_ = _))

end Iterator

/-- `begin()` -/
def first (v : CompletionQueueView) : Iterator := ⟨v.mask, v.head⟩

/-- `end()` -/
def last (v : CompletionQueueView) : Iterator := ⟨v.mask, v.head + v.count⟩

end CompletionQueueView

structure CompletionQueue (α : Type*) where
  /-- `cq_entry_count_` -/
  cqEntryCount : Position
  cqMask : Position
  /-- `*cq_head_`, read by the kernel -/
  cqHead : Position
  /-- `*cq_tail_`, written by the kernel -/
  cqTail : Position
  /-- The array ends after `cqEntryCount` entries. -/
  cqEntries : ℕ → α

namespace CompletionQueue
variable {α : Type*} (q : CompletionQueue α)

def completionQueueSize : Position := q.cqEntryCount

def completionQueueAvailable : Position := q.cqTail - q.cqHead

/-- It is `none` where the assertion fails. -/
def completionQueueAdvance (count : Position) : Option (CompletionQueue α) :=
  if 0 < count then
    if count ≤ q.completionQueueAvailable then some { q with cqHead := q.cqHead + count } else none
  else some q

def getCompletionEntries : CompletionQueueView := ⟨q.cqMask, q.cqHead, q.cqTail - q.cqHead⟩

/-- The kernel writes the entry of its tail. -/
def kernelWrite (entry : α) : CompletionQueue α :=
  { q with
    cqEntries := Function.update q.cqEntries (q.cqTail.toNat % q.cqEntryCount.toNat) entry }

end CompletionQueue

/-- Where the iteration of a view has got to. -/
inductive Cursor where
  | iterator (it : CompletionQueueView.Iterator)
  | index (i : Position)

structure Round where
  view : CompletionQueueView
  cursor : Cursor
  /-- how many entries were published when the view was taken -/
  published : ℕ

/-- The loop over the view has ended. -/
def Round.Finished (r : Round) : Prop :=
  match r.cursor with
  | .iterator it => it.Equal r.view.last
  | .index i => ¬ i < r.view.size

instance (r : Round) : Decidable r.Finished := by
  unfold Round.Finished
  split <;> infer_instance

inductive CompletionAction (α : Type*) where
  /-- the kernel writes an entry, while fewer than `cq_entry_count_` are unconsumed -/
  | kernelWrite (entry : α)
  /-- the kernel publishes its tail -/
  | kernelPublish
  | getCompletionEntries (byIterator : Bool)
  | visit
  /-- `completion_queue_advance(view.size())` -/
  | advance

/-- A run over the queue, with what it did so far. -/
structure CompletionRun (α : Type*) where
  queue : CompletionQueue α
  /-- the entry that is written and not published yet -/
  writing : Option α := none
  round : Option Round := none
  produced : List α := []
  visited : List α := []
  /-- how many entries the kernel was told are consumed -/
  advanced : ℕ := 0

namespace CompletionRun
variable {α : Type*}

def step (s : CompletionRun α) : CompletionAction α → Option (CompletionRun α)
  | .kernelWrite entry =>
    if s.writing.isNone ∧ s.queue.completionQueueAvailable < s.queue.cqEntryCount then
      some { s with queue := s.queue.kernelWrite entry, writing := some entry }
    else none
  | .kernelPublish =>
    s.writing.map fun entry =>
      { s with
        queue := { s.queue with cqTail := s.queue.cqTail + 1 }
        writing := none
        produced := s.produced ++ [entry] }
  | .getCompletionEntries byIterator =>
    if s.round.isNone then
      let view := s.queue.getCompletionEntries
      some { s with
        round := some ⟨view, if byIterator then .iterator view.first else .index 0,
          s.produced.length⟩ }
    else none
  | .visit =>
    s.round.bind fun r =>
      if r.Finished then none
      else
        match r.cursor with
        | .iterator it =>
          some { s with
            visited := s.visited ++ [it.deref s.queue.cqEntries]
            round := some { r with cursor := .iterator it.next } }
        | .index i =>
          (r.view.get s.queue.cqEntries i).map fun entry =>
            { s with
              visited := s.visited ++ [entry]
              round := some { r with cursor := .index (i + 1) } }
  | .advance =>
    s.round.bind fun r =>
      if r.Finished then
        (s.queue.completionQueueAdvance r.view.size).map fun queue =>
          { s with queue := queue, round := none, advanced := s.advanced + r.view.size.toNat }
      else none

end CompletionRun

/-- A ring of `2 ^ k` entries after construction, over memory with any contents. -/
def completionRing {α : Type*} (k : ℕ) (entries : ℕ → α) :
    System (CompletionRun α) (CompletionAction α) where
  init :=
    { queue :=
        { cqEntryCount := BitVec.ofNat 32 (2 ^ k)
          cqMask := BitVec.ofNat 32 (2 ^ k - 1)
          cqHead := 0
          cqTail := 0
          cqEntries := entries } }
  step := CompletionRun.step

namespace CompletionQueueView
variable {α : Type*}

/-- The iterator reaches the end after as many steps as the view has entries, and visits those of
`operator[]` on the way. -/
structure Iterates (v : CompletionQueueView) (entries : ℕ → α) : Prop where
  not_last : ∀ n < v.size.toNat, ¬ (Iterator.next^[n] v.first).Equal v.last
  last : (Iterator.next^[v.size.toNat] v.first).Equal v.last
  deref : ∀ n < v.size.toNat,
    v.get entries (BitVec.ofNat 32 n) = some ((Iterator.next^[n] v.first).deref entries)

end CompletionQueueView

/-- What a run promises of the ring. -/
structure CompletionRun.Exact {α : Type*} (s : CompletionRun α) : Prop where
  in_order : s.visited <+: s.produced
  /-- between rounds only the entries still in the ring are not visited -/
  all_visited : s.round = none →
    s.visited.length + s.queue.completionQueueAvailable.toNat = s.produced.length
  /-- a round visits all entries that were published before it -/
  round_visits : ∀ r, s.round = some r → r.Finished → s.visited.length = r.published
  size_le : ∀ r, s.round = some r → r.view.size ≤ s.queue.completionQueueSize
  not_overwritten : ∀ r, s.round = some r → ∀ entry t, s.step (.kernelWrite entry) = some t →
    ∀ i, r.view.get t.queue.cqEntries i = r.view.get s.queue.cqEntries i
  iterates : ∀ r, s.round = some r → r.view.Iterates s.queue.cqEntries
  /-- the assertion of `completion_queue_advance` holds -/
  advances : ∀ r, s.round = some r → r.Finished → (s.step .advance).isSome

namespace CompletionQueueView
variable {α : Type*} {n a p : ℕ}

theorem iterate_next (v : CompletionQueueView) (n : ℕ) :
    Iterator.next^[n] v.first = ⟨v.mask, v.head + BitVec.ofNat 32 n⟩ := by
  induction n with
  | zero =>
    show v.first = _
    rw [first, BitVec.add_zero]
  | succ n ih =>
    rw [Function.iterate_succ_apply', ih, Iterator.next, BitVec.add_assoc, ofNat_succ]

/-- The wrapping index is at the end after `size()` steps and not before. -/
theorem iterates (v : CompletionQueueView) (entries : ℕ → α) : v.Iterates entries := by
  have hsize : BitVec.ofNat 32 v.size.toNat = v.count := by
    rw [BitVec.ofNat_toNat, BitVec.setWidth_eq, size]
  constructor
  case not_last =>
    intro n hn heq
    rw [iterate_next] at heq
    unfold Iterator.Equal last at heq
    have hcount : BitVec.ofNat 32 n = v.count := (BitVec.add_right_inj _).mp heq
    have htoNat := congrArg BitVec.toNat hcount
    have hlt := v.count.isLt
    unfold size at hn
    rw [BitVec.toNat_ofNat, Nat.mod_eq_of_lt (by omega)] at htoNat
    omega
  case last =>
    rw [iterate_next, hsize]
    rfl
  case deref =>
    intro n hn
    have hlt := v.count.isLt
    have hn' : n < v.count.toNat := hn
    rw [iterate_next]
    apply if_pos
    rw [BitVec.lt_def, BitVec.toNat_ofNat, Nat.mod_eq_of_lt (by omega)]
    exact hn

end CompletionQueueView

/-! Every run keeps the positions and the window of entries that are published or visited. -/

namespace CompletionRun
variable {α : Type*} {k : ℕ} {s t : CompletionRun α} {r : Round}

/-- The view of a round, and how far the iteration is. -/
structure RoundInv (k : ℕ) (s : CompletionRun α) (r : Round) : Prop where
  advanced_le : s.advanced ≤ s.visited.length
  visited_le : s.visited.length ≤ r.published
  published_le : r.published ≤ s.produced.length
  view : r.view = ⟨BitVec.ofNat 32 (2 ^ k - 1), BitVec.ofNat 32 s.advanced,
    BitVec.ofNat 32 (r.published - s.advanced)⟩
  cursor : r.cursor = .iterator ⟨BitVec.ofNat 32 (2 ^ k - 1), BitVec.ofNat 32 s.visited.length⟩ ∨
    r.cursor = .index (BitVec.ofNat 32 (s.visited.length - s.advanced))

/-- Positions count what was produced and what was handed back; the window between them has at most
`2 ^ k` entries, each in the slot of its position. -/
structure Inv (k : ℕ) (s : CompletionRun α) : Prop where
  entryCount : s.queue.cqEntryCount = BitVec.ofNat 32 (2 ^ k)
  mask : s.queue.cqMask = BitVec.ofNat 32 (2 ^ k - 1)
  head : s.queue.cqHead = BitVec.ofNat 32 s.advanced
  tail : s.queue.cqTail = BitVec.ofNat 32 s.produced.length
  advanced_le : s.advanced ≤ s.produced.length
  window : s.produced.length ≤ s.advanced + 2 ^ k
  writing : ∀ entry, s.writing = some entry → s.produced.length < s.advanced + 2 ^ k ∧
    s.queue.cqEntries (s.produced.length % 2 ^ k) = entry
  held : ∀ i entry, s.advanced ≤ i → s.produced[i]? = some entry →
    s.queue.cqEntries (i % 2 ^ k) = entry
  in_order : s.visited <+: s.produced
  idle : s.round = none → s.visited.length = s.advanced
  round : ∀ r, s.round = some r → RoundInv k s r

theorem two_pow_le (hk : k ≤ 31) : 2 ^ k ≤ 2 ^ 31 := Nat.pow_le_pow_right (by decide) hk

namespace Inv

theorem available (hk : k ≤ 31) (h : Inv k s) :
    s.queue.completionQueueAvailable.toNat = s.produced.length - s.advanced := by
  have hpow := two_pow_le hk
  have hwindow := h.window
  unfold CompletionQueue.completionQueueAvailable
  rw [h.tail, h.head]
  exact toNat_ofNat_sub h.advanced_le (by omega)

theorem entryCount_toNat (hk : k ≤ 31) (h : Inv k s) : s.queue.cqEntryCount.toNat = 2 ^ k := by
  have hpow := two_pow_le hk
  rw [h.entryCount, BitVec.toNat_ofNat, Nat.mod_eq_of_lt (by omega)]

theorem slot_eq (hk : k ≤ 31) (h : Inv k s) :
    s.queue.cqTail.toNat % s.queue.cqEntryCount.toNat = s.produced.length % 2 ^ k := by
  rw [h.entryCount_toNat hk, h.tail, toNat_mod_two_pow (by omega)]

theorem size_toNat (hk : k ≤ 31) (h : Inv k s) (hr : s.round = some r) :
    r.view.size.toNat = r.published - s.advanced := by
  have hpow := two_pow_le hk
  have hwindow := h.window
  have hround := h.round r hr
  have hpublished := hround.published_le
  unfold CompletionQueueView.size
  rw [hround.view, BitVec.toNat_ofNat, Nat.mod_eq_of_lt (by omega)]

/-- The loop ends once all entries of the view are visited. -/
theorem finished_iff (hk : k ≤ 31) (h : Inv k s) (hr : s.round = some r) :
    r.Finished ↔ s.visited.length = r.published := by
  have hpow := two_pow_le hk
  have hwindow := h.window
  have hround := h.round r hr
  have hadvanced := hround.advanced_le
  have hvisited := hround.visited_le
  have hpublished := hround.published_le
  have hsize := h.size_toNat hk hr
  unfold Round.Finished
  rcases hround.cursor with hcursor | hcursor
  · have hlast : r.view.last.index = BitVec.ofNat 32 r.published := by
      rw [CompletionQueueView.last, hround.view]
      simp only
      rw [← BitVec.ofNat_add]
      congr 1
      omega
    rw [hcursor]
    simp only [CompletionQueueView.Iterator.Equal, hlast]
    rw [eq_comm, ofNat_eq_iff hvisited (by omega), eq_comm]
  · rw [hcursor]
    simp only [BitVec.lt_def, hsize, BitVec.toNat_ofNat]
    rw [Nat.mod_eq_of_lt (by omega)]
    omega

/-- The entry in the slot of a position of the view. -/
theorem entry_eq (hk : k ≤ 31) (h : Inv k s) {i : ℕ} {entry : α} (hi : s.advanced ≤ i)
    (hentry : s.produced[i]? = some entry) : s.queue.cqEntries
      (BitVec.ofNat 32 i &&& BitVec.ofNat 32 (2 ^ k - 1)).toNat = entry := by
  rw [toNat_and_mask (by omega)]
  exact h.held i entry hi hentry

theorem init (k : ℕ) (entries : ℕ → α) : Inv k (completionRing k entries).init where
  entryCount := rfl
  mask := rfl
  head := rfl
  tail := rfl
  advanced_le := Nat.le_refl _
  window := Nat.zero_le _
  writing _ hwriting := nomatch hwriting
  held _ _ _ hentry := nomatch hentry
  in_order := List.prefix_refl _
  idle _ := rfl
  round _ hr := nomatch hr

theorem kernelWrite (hk : k ≤ 31) (h : Inv k s) {entry : α}
    (ht : s.step (.kernelWrite entry) = some t) : Inv k t := by
  simp only [CompletionRun.step] at ht
  split_ifs at ht with hen
  cases ht
  have hroom : s.produced.length < s.advanced + 2 ^ k := by
    have hlt := BitVec.lt_def.mp hen.2
    rw [h.available hk, h.entryCount_toNat hk] at hlt
    omega
  exact { h with
    writing := by
      intro entry' hwriting
      cases hwriting
      refine ⟨hroom, ?_⟩
      simp only [CompletionQueue.kernelWrite, h.slot_eq hk, Function.update_self]
    held := by
      intro i entry' hi hentry
      have hadvanced : s.advanced ≤ i := hi
      have hlt : i < s.produced.length := (List.getElem?_eq_some_iff.mp hentry).1
      simp only [CompletionQueue.kernelWrite, h.slot_eq hk]
      rw [Function.update_of_ne (mod_ne_mod hlt (by omega))]
      exact h.held i entry' hi hentry
    round := fun r hr => { h.round r hr with } }

theorem kernelPublish (h : Inv k s) (ht : s.step .kernelPublish = some t) : Inv k t := by
  simp only [CompletionRun.step] at ht
  obtain ⟨entry, hwriting, rfl⟩ := Option.map_eq_some_iff.mp ht
  obtain ⟨hroom, hslot⟩ := h.writing entry hwriting
  have hlength : (s.produced ++ [entry]).length = s.produced.length + 1 := by simp
  exact { h with
    tail := by
      rw [hlength, ← ofNat_succ, ← h.tail]
    advanced_le := by
      have hle := h.advanced_le
      simp only [hlength]
      omega
    window := by
      simp only [hlength]
      omega
    writing := fun _ hnone => nomatch hnone
    held := by
      intro i entry' hi hentry
      rw [List.getElem?_append] at hentry
      split_ifs at hentry with hlt
      · exact h.held i entry' hi hentry
      · have hi' : i < s.produced.length + 1 := by
          have hbound := (List.getElem?_eq_some_iff.mp hentry).1
          rw [List.length_singleton] at hbound
          omega
        have heq : i = s.produced.length := by omega
        subst heq
        rw [Nat.sub_self, List.getElem?_cons_zero, Option.some.injEq] at hentry
        rw [← hentry]
        exact hslot
    in_order := h.in_order.trans (List.prefix_append _ _)
    round := by
      intro r hr
      have hround := h.round r hr
      have hpublished := hround.published_le
      exact { hround with
        published_le := by
          simp only [hlength]
          omega } }

/-- The view holds what is published and not handed back. -/
theorem getCompletionEntries_eq (hk : k ≤ 31) (h : Inv k s) : s.queue.getCompletionEntries =
    ⟨BitVec.ofNat 32 (2 ^ k - 1), BitVec.ofNat 32 s.advanced,
      BitVec.ofNat 32 (s.produced.length - s.advanced)⟩ := by
  have hcount : s.queue.cqTail - s.queue.cqHead =
      BitVec.ofNat 32 (s.produced.length - s.advanced) := by
    apply BitVec.eq_of_toNat_eq
    have havailable := h.available hk
    have hpow := two_pow_le hk
    have hwindow := h.window
    unfold CompletionQueue.completionQueueAvailable at havailable
    rw [havailable, BitVec.toNat_ofNat, Nat.mod_eq_of_lt (by omega)]
  rw [CompletionQueue.getCompletionEntries, hcount, h.mask, h.head]

theorem getCompletionEntries (hk : k ≤ 31) (h : Inv k s) {byIterator : Bool}
    (ht : s.step (.getCompletionEntries byIterator) = some t) : Inv k t := by
  simp only [CompletionRun.step] at ht
  by_cases hen : s.round.isNone = true
  · rw [if_pos hen] at ht
    cases ht
    have hidle := h.idle (Option.isNone_iff_eq_none.mp hen)
    have hview := h.getCompletionEntries_eq hk
    exact { h with
      idle := fun hnone => nomatch hnone
      round := by
        intro r hr
        cases hr
        refine ⟨Nat.le_of_eq hidle.symm, ?_, Nat.le_refl _, hview, ?_⟩
        · simp only [hidle]
          exact h.advanced_le
        · cases byIterator with
          | true =>
            left
            simp only [if_true, CompletionQueueView.first, hview, hidle]
          | false =>
            right
            simp only [Bool.false_eq_true, if_false, hidle, Nat.sub_self]
            rfl }
  · rw [if_neg hen] at ht
    cases ht

/-- A visit appends the next entry that was produced. -/
theorem visited_append (h : Inv k s) (hr : s.round = some r) {entry : α}
    (hlt : s.visited.length < r.published)
    (hentry : s.produced[s.visited.length]? = some entry) {cursor : Cursor}
    (hcursor : cursor = .iterator ⟨BitVec.ofNat 32 (2 ^ k - 1),
        BitVec.ofNat 32 (s.visited.length + 1)⟩ ∨
      cursor = .index (BitVec.ofNat 32 (s.visited.length + 1 - s.advanced))) :
    Inv k { s with
      visited := s.visited ++ [entry], round := some { r with cursor := cursor } } := by
  have hround := h.round r hr
  have hlength : (s.visited ++ [entry]).length = s.visited.length + 1 := by simp
  exact { h with
    in_order := by
      obtain ⟨rest, hrest⟩ := h.in_order
      rw [← hrest, List.getElem?_append_right (Nat.le_refl _), Nat.sub_self] at hentry
      obtain ⟨rest, rfl⟩ : ∃ rest', rest = entry :: rest' := by
        cases rest with
        | nil => cases hentry
        | cons x rest =>
          cases hentry
          exact ⟨rest, rfl⟩
      refine ⟨rest, ?_⟩
      rw [← hrest, List.append_assoc, List.singleton_append]
    idle := fun hnone => nomatch hnone
    round := by
      intro r' hr'
      cases hr'
      have hadvanced := hround.advanced_le
      refine ⟨?_, ?_, hround.published_le, hround.view, ?_⟩
      · simp only [hlength]
        omega
      · simp only [hlength]
        omega
      · simp only [hlength]
        exact hcursor }

theorem visit (hk : k ≤ 31) (h : Inv k s) (ht : s.step .visit = some t) : Inv k t := by
  simp only [CompletionRun.step] at ht
  obtain ⟨r, hr, ht⟩ := Option.bind_eq_some_iff.mp ht
  split_ifs at ht with hfinished
  have hround := h.round r hr
  have hadvanced := hround.advanced_le
  have hpublished := hround.published_le
  have hlt : s.visited.length < r.published := by
    rw [h.finished_iff hk hr] at hfinished
    have hle := hround.visited_le
    omega
  have hentry : s.produced[s.visited.length]? = some s.produced[s.visited.length] :=
    List.getElem?_eq_getElem (by omega)
  have hslot := h.entry_eq hk hadvanced hentry
  rcases hround.cursor with hcursor | hcursor
  · rw [hcursor] at ht
    cases ht
    simp only [CompletionQueueView.Iterator.deref, CompletionQueueView.Iterator.next, hslot,
      ofNat_succ]
    exact h.visited_append hr hlt hentry (Or.inl rfl)
  · rw [hcursor] at ht
    obtain ⟨entry, hget, rfl⟩ := Option.map_eq_some_iff.mp ht
    have hposition : s.advanced + (s.visited.length - s.advanced) = s.visited.length := by omega
    unfold CompletionQueueView.get at hget
    split_ifs at hget
    cases hget
    simp only [hround.view, ← BitVec.ofNat_add, hposition, hslot, ofNat_succ]
    have hnext : s.visited.length - s.advanced + 1 = s.visited.length + 1 - s.advanced := by omega
    have happend := h.visited_append hr hlt hentry (Or.inr rfl)
    rw [hnext]
    simpa only [hround.view] using happend

/-- The advance is within the entries that are available. -/
theorem advance_eq (hk : k ≤ 31) (h : Inv k s) (hr : s.round = some r) :
    s.queue.completionQueueAdvance r.view.size =
      some { s.queue with cqHead := BitVec.ofNat 32 r.published } := by
  have hround := h.round r hr
  have hadvanced := hround.advanced_le
  have hvisited := hround.visited_le
  have hpublished := hround.published_le
  have hsize := h.size_toNat hk hr
  have havailable := h.available hk
  have hhead : s.queue.cqHead + r.view.size = BitVec.ofNat 32 r.published := by
    unfold CompletionQueueView.size
    rw [h.head, hround.view]
    simp only
    rw [← BitVec.ofNat_add]
    congr 1
    omega
  unfold CompletionQueue.completionQueueAdvance
  by_cases hpos : 0 < r.view.size
  · have hle : r.view.size ≤ s.queue.completionQueueAvailable := by
      rw [BitVec.le_def]
      omega
    rw [if_pos hpos, if_pos hle, hhead]
  · have hzero : r.published = s.advanced := by
      have hnot : ¬ 0 < r.view.size.toNat := fun hlt => hpos (BitVec.lt_def.mpr hlt)
      omega
    rw [if_neg hpos, hzero, ← h.head]

theorem advance (hk : k ≤ 31) (h : Inv k s) (ht : s.step .advance = some t) : Inv k t := by
  simp only [CompletionRun.step] at ht
  obtain ⟨r, hr, ht⟩ := Option.bind_eq_some_iff.mp ht
  split_ifs at ht with hfinished
  rw [h.advance_eq hk hr] at ht
  cases ht
  rw [h.finished_iff hk hr] at hfinished
  have hround := h.round r hr
  have hadvanced := hround.advanced_le
  have hpublished := hround.published_le
  have hsum : s.advanced + r.view.size.toNat = r.published := by
    rw [h.size_toNat hk hr]
    omega
  have hwindow := h.window
  exact { h with
    head := by simp only [hsum]
    advanced_le := by
      simp only [hsum]
      exact hpublished
    window := by
      simp only [hsum]
      omega
    writing := by
      intro entry hwriting
      obtain ⟨hroom, hslot⟩ := h.writing entry hwriting
      simp only [hsum]
      exact ⟨by omega, hslot⟩
    held := by
      intro i entry hi hentry
      simp only [hsum] at hi
      exact h.held i entry (by omega) hentry
    idle := by
      intro _
      simp only [hsum]
      exact hfinished
    round := fun _ hnone => nomatch hnone }

theorem step (hk : k ≤ 31) (h : Inv k s) {a : CompletionAction α} (ht : s.step a = some t) :
    Inv k t := by
  cases a with
  | kernelWrite entry => exact h.kernelWrite hk ht
  | kernelPublish => exact h.kernelPublish ht
  | getCompletionEntries byIterator => exact h.getCompletionEntries hk ht
  | visit => exact h.visit hk ht
  | advance => exact h.advance hk ht

/-- The kernel writes no slot of a view that was not handed back. -/
theorem get_kernelWrite (hk : k ≤ 31) (h : Inv k s) (hr : s.round = some r) {entry : α}
    (ht : s.step (.kernelWrite entry) = some t) (i : Position) :
    r.view.get t.queue.cqEntries i = r.view.get s.queue.cqEntries i := by
  simp only [CompletionRun.step] at ht
  split_ifs at ht with hen
  cases ht
  have hlt := BitVec.lt_def.mp hen.2
  rw [h.available hk, h.entryCount_toNat hk] at hlt
  have hsize := h.size_toNat hk hr
  have hround := h.round r hr
  have hpublished := hround.published_le
  unfold CompletionQueueView.get
  split_ifs with hi
  · have hi' := BitVec.lt_def.mp hi
    have hindex : r.view.head + i = BitVec.ofNat 32 (s.advanced + i.toNat) := by
      rw [hround.view, BitVec.ofNat_add, BitVec.ofNat_toNat, BitVec.setWidth_eq]
    have hmask : r.view.mask = BitVec.ofNat 32 (2 ^ k - 1) := by rw [hround.view]
    rw [hindex, hmask, toNat_and_mask (by omega)]
    simp only [CompletionQueue.kernelWrite, h.slot_eq hk]
    rw [Function.update_of_ne (mod_ne_mod (by omega) (by omega))]
  · rfl

theorem exact (hk : k ≤ 31) (h : Inv k s) : s.Exact where
  in_order := h.in_order
  all_visited hnone := by
    have hle := h.advanced_le
    rw [h.available hk, h.idle hnone]
    omega
  round_visits r hr hfinished := (h.finished_iff hk hr).mp hfinished
  size_le r hr := by
    have hround := h.round r hr
    have hpublished := hround.published_le
    have hwindow := h.window
    have hpos := Nat.two_pow_pos k
    unfold CompletionQueue.completionQueueSize
    rw [BitVec.le_def, h.size_toNat hk hr, h.entryCount_toNat hk]
    omega
  not_overwritten r hr entry t ht i := h.get_kernelWrite hk hr ht i
  iterates r _ := r.view.iterates s.queue.cqEntries
  advances r hr hfinished := by
    simp only [CompletionRun.step, hr, Option.bind_some, if_pos hfinished, h.advance_eq hk hr,
      Option.map_some, Option.isSome_some]

end Inv

/-- Every run consumes the completion ring exactly. -/
theorem completion_ring_exact (hk : k ≤ 31) {entries : ℕ → α}
    (hs : (completionRing k entries).Reachable s) : s.Exact :=
  Inv.exact hk (hs.invariant (Inv.init k entries) fun _ _ _ h _ ht => h.step hk ht)

/-- A round that overlaps with a write, on a ring of two entries. -/
theorem completion_ring_exact_run : ∃ s : CompletionRun ℕ, s.visited = [7, 8] ∧ s.Exact := by
  obtain ⟨s, hs, hvisited⟩ := (completionRing 1 (fun _ => 0)).exists_reachable
    [.kernelWrite 7, .kernelPublish, .kernelWrite 8, .getCompletionEntries true, .visit,
      .kernelPublish, .advance, .getCompletionEntries false, .visit, .advance]
    (fun s => s.visited = [7, 8]) (by decide)
  exact ⟨s, of_decide_eq_true hvisited, completion_ring_exact (by decide) hs⟩

end CompletionRun
end Squiz.LinuxOS.IoUring
