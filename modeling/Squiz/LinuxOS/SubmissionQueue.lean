import Squiz.Lib.Ring
import Squiz.Lib.System

/-! The submission queue of `io_uring`, the thread that fills it and the kernel that drains it. -/
namespace Squiz.LinuxOS.IoUring
open Squiz.Lib Squiz.Lib.Ring

/-- A `std::uint32_t` position, count or index. -/
abbrev Position := BitVec 32

structure SubmissionQueue (α : Type*) where
  /-- `sq_entry_count_` -/
  sqEntryCount : Position
  sqMask : Position
  sqeTail : Position
  /-- the tail that was published last -/
  sqeHead : Position
  /-- `*sq_head_`, written by the kernel -/
  sqHead : Position
  /-- `*sq_tail_`, read by the kernel -/
  sqTail : Position
  /-- The words from `sq_index_array_` on; the array ends after `sqEntryCount` of them. -/
  sqIndexArray : ℕ → Position
  sqEntries : ℕ → α

namespace SubmissionQueue
variable {α : Type*} (q : SubmissionQueue α)

def submissionQueueUnsubmitted : Position := q.sqeTail - q.sqHead

def submissionQueueSpaceLeft : Position := q.sqEntryCount - q.submissionQueueUnsubmitted

def submissionQueueTailLimit : Position := q.sqHead + q.sqEntryCount

/-- The index of the entry whose address is returned. -/
def getNextSubmissionEntry : Position := q.sqeTail &&& q.sqMask

/-- `sqe` is the index of the entry. -/
def enqueueEntryForSubmission (sqe : Position) : SubmissionQueue α :=
  { q with
    sqeTail := q.sqeTail + 1
    sqIndexArray := Function.update q.sqIndexArray q.sqeTail.toNat sqe }

/-- The first half of `flush_submission_queue`, which publishes the tail. -/
def flushPublish : SubmissionQueue α :=
  if q.sqeTail = q.sqeHead then q else { q with sqeHead := q.sqeTail, sqTail := q.sqeTail }

/-- Its second half, the load of the kernel's head. -/
def flushResult (tail : Position) : Position := tail - q.sqHead

/-- The entry that the kernel reads for a position. -/
def entryAt (position : Position) : Position :=
  q.sqIndexArray (position.toNat % q.sqEntryCount.toNat)

/-- The entries that the kernel is still to copy, published or not. -/
def unsubmitted : List Position :=
  (List.range q.submissionQueueUnsubmitted.toNat).map fun i =>
    q.entryAt (q.sqHead + BitVec.ofNat 32 i)

/-- The tail limit is where the space runs out. -/
theorem submissionQueueSpaceLeft_eq :
    q.submissionQueueSpaceLeft = q.submissionQueueTailLimit - q.sqeTail := by
  unfold submissionQueueSpaceLeft submissionQueueTailLimit submissionQueueUnsubmitted
  bv_omega

end SubmissionQueue

inductive Action (α : Type*) where
  /-- `get_next_submission_entry`, after `submission_queue_space_left() > 0` -/
  | getEntry
  /-- `prepare_*` on the entry -/
  | fill (contents : α)
  | enqueue
  | flushPublish
  | flushReturn
  /-- the kernel copies one entry and advances its head -/
  | kernel

/-- A run over the queue, with what it did so far. -/
structure Run (α : Type*) where
  queue : SubmissionQueue α
  /-- the entry obtained and not enqueued yet -/
  sqe : Option Position := none
  /-- the `tail` of a call of `flush_submission_queue` -/
  flushing : Option Position := none
  enqueued : List α := []
  /-- what the kernel copied -/
  consumed : List α := []
  /-- indices at which `sq_index_array_` was written -/
  written : List ℕ := []
  /-- each result of `flush_submission_queue`, with the number of entries not consumed then -/
  returned : List (Position × ℕ) := []

namespace Run
variable {α : Type*}

def step (s : Run α) : Action α → Option (Run α)
  | .getEntry =>
    if s.sqe = none ∧ s.flushing = none ∧ 0 < s.queue.submissionQueueSpaceLeft then
      some { s with sqe := some s.queue.getNextSubmissionEntry }
    else none
  | .fill contents =>
    if s.flushing = none then
      s.sqe.map fun sqe =>
        { s with
          queue := { s.queue with
            sqEntries := Function.update s.queue.sqEntries sqe.toNat contents } }
    else none
  | .enqueue =>
    if s.flushing = none then
      s.sqe.map fun sqe =>
        { s with
          queue := s.queue.enqueueEntryForSubmission sqe
          sqe := none
          enqueued := s.enqueued ++ [s.queue.sqEntries sqe.toNat]
          written := s.written ++ [s.queue.sqeTail.toNat] }
    else none
  | .flushPublish =>
    if s.flushing = none then
      some { s with queue := s.queue.flushPublish, flushing := some s.queue.sqeTail }
    else none
  | .flushReturn =>
    s.flushing.map fun tail =>
      { s with
        flushing := none
        returned := s.returned ++
          [(s.queue.flushResult tail, s.enqueued.length - s.consumed.length)] }
  | .kernel =>
    if s.queue.sqHead = s.queue.sqTail then none
    else
      some { s with
        queue := { s.queue with sqHead := s.queue.sqHead + 1 }
        consumed := s.consumed ++
          [s.queue.sqEntries (s.queue.entryAt s.queue.sqHead).toNat] }

end Run

/-- A ring of `2 ^ k` entries after construction, over memory with any contents. -/
def ring {α : Type*} (k : ℕ) (indices : ℕ → Position) (entries : ℕ → α) :
    System (Run α) (Action α) where
  init :=
    { queue :=
        { sqEntryCount := BitVec.ofNat 32 (2 ^ k)
          sqMask := BitVec.ofNat 32 (2 ^ k - 1)
          sqeTail := 0
          sqeHead := 0
          sqHead := 0
          sqTail := 0
          sqIndexArray := indices
          sqEntries := entries } }
  step := Run.step

/-- What a run promises of the ring as a queue. -/
structure Run.LossFree {α : Type*} (s : Run α) : Prop where
  written_lt : ∀ i ∈ s.written, i < s.queue.sqEntryCount.toNat
  /-- the entry being filled is none that the kernel is still to copy -/
  not_overwritten : ∀ sqe, s.sqe = some sqe → sqe ∉ s.queue.unsubmitted
  returned_eq : ∀ r ∈ s.returned, r.1.toNat = r.2
  /-- the copies made and the entries still to be copied are what was enqueued, in order -/
  fifo : s.consumed ++ s.queue.unsubmitted.map (fun i => s.queue.sqEntries i.toNat) = s.enqueued

/-! Every run keeps the positions, the window of entries in use and the indices written so far. -/

namespace Run
variable {α : Type*} {k : ℕ} {s t : Run α}

/-- Positions count what was enqueued, published and copied; the window between the last and the
first of them has at most `2 ^ k` entries. -/
structure Inv (k : ℕ) (s : Run α) : Prop where
  entryCount : s.queue.sqEntryCount = BitVec.ofNat 32 (2 ^ k)
  mask : s.queue.sqMask = BitVec.ofNat 32 (2 ^ k - 1)
  tail : s.queue.sqeTail = BitVec.ofNat 32 s.enqueued.length
  head : s.queue.sqHead = BitVec.ofNat 32 s.consumed.length
  window : s.enqueued.length ≤ s.consumed.length + 2 ^ k
  published : ∃ p, s.consumed.length ≤ p ∧ p ≤ s.enqueued.length ∧
    s.queue.sqeHead = BitVec.ofNat 32 p ∧ s.queue.sqTail = BitVec.ofNat 32 p
  room : ∀ sqe, s.sqe = some sqe → s.enqueued.length < s.consumed.length + 2 ^ k ∧
    sqe = BitVec.ofNat 32 (s.enqueued.length % 2 ^ k)
  flushing : ∀ tail, s.flushing = some tail → tail = s.queue.sqeTail
  /-- the kernel finds the index of an entry in the word of its own position -/
  indices : ∀ i < 2 ^ k, i < s.enqueued.length → s.queue.sqIndexArray i = BitVec.ofNat 32 i
  held : s.consumed ++
    contents (2 ^ k) s.queue.sqEntries s.consumed.length s.enqueued.length = s.enqueued
  written : s.written = (List.range s.enqueued.length).map (· % 2 ^ 32)
  returned : ∀ r ∈ s.returned, r.1.toNat = r.2

theorem two_pow_lt (hk : k ≤ 31) : 2 ^ k < 2 ^ 32 := Nat.pow_lt_pow_right (by decide) (by omega)

theorem toNat_slot (hk : k ≤ 31) (i : ℕ) : (BitVec.ofNat 32 (i % 2 ^ k)).toNat = i % 2 ^ k := by
  have hlt : i % 2 ^ k < 2 ^ k := Nat.mod_lt _ (Nat.two_pow_pos k)
  have hpow := two_pow_lt hk
  rw [BitVec.toNat_ofNat, Nat.mod_eq_of_lt (by omega)]

namespace Inv

theorem le (h : Inv k s) : s.consumed.length ≤ s.enqueued.length := by
  obtain ⟨p, hcp, hpe, -⟩ := h.published
  omega

theorem unsubmitted_toNat (hk : k ≤ 31) (h : Inv k s) :
    s.queue.submissionQueueUnsubmitted.toNat = s.enqueued.length - s.consumed.length := by
  have hpow := two_pow_lt hk
  have hwin := h.window
  unfold SubmissionQueue.submissionQueueUnsubmitted
  rw [h.tail, h.head]
  exact toNat_ofNat_sub h.le (by omega)

theorem spaceLeft_pos (hk : k ≤ 31) (h : Inv k s) :
    0 < s.queue.submissionQueueSpaceLeft ↔ s.enqueued.length < s.consumed.length + 2 ^ k := by
  have hpow := two_pow_lt hk
  have hwin := h.window
  have hun := h.unsubmitted_toNat hk
  have hcount : s.queue.sqEntryCount.toNat = 2 ^ k := by
    rw [h.entryCount, BitVec.toNat_ofNat, Nat.mod_eq_of_lt hpow]
  have hle := h.le
  unfold SubmissionQueue.submissionQueueSpaceLeft
  constructor
  · intro hpos
    by_contra hfull
    have heq : s.queue.submissionQueueUnsubmitted = s.queue.sqEntryCount := by
      apply BitVec.eq_of_toNat_eq
      omega
    rw [heq, BitVec.sub_self] at hpos
    exact absurd hpos (by simp)
  · intro hroom
    rw [BitVec.lt_def, BitVec.toNat_sub_of_le (by rw [BitVec.le_def]; omega)]
    change 0 < s.queue.sqEntryCount.toNat - s.queue.submissionQueueUnsubmitted.toNat
    omega

/-- The slot that the user writes next. -/
theorem getNext_eq (hk : k ≤ 31) (h : Inv k s) :
    s.queue.getNextSubmissionEntry = BitVec.ofNat 32 (s.enqueued.length % 2 ^ k) := by
  apply BitVec.eq_of_toNat_eq
  unfold SubmissionQueue.getNextSubmissionEntry
  rw [h.tail, h.mask, toNat_and_mask (by omega), toNat_slot hk]

/-- The kernel finds the entry of a position in use under the position's own slot. -/
theorem entryAt_eq (hk : k ≤ 31) (h : Inv k s) {p : ℕ} (hp : p < s.enqueued.length) :
    s.queue.entryAt (BitVec.ofNat 32 p) = BitVec.ofNat 32 (p % 2 ^ k) := by
  have hlt : p % 2 ^ k < 2 ^ k := Nat.mod_lt _ (Nat.two_pow_pos k)
  have hle : p % 2 ^ k ≤ p := Nat.mod_le _ _
  unfold SubmissionQueue.entryAt
  rw [h.entryCount, BitVec.toNat_ofNat (2 ^ k), Nat.mod_eq_of_lt (two_pow_lt hk),
    toNat_mod_two_pow (by omega)]
  exact h.indices _ hlt (by omega)

theorem unsubmitted_eq (hk : k ≤ 31) (h : Inv k s) :
    s.queue.unsubmitted =
      contents (2 ^ k) (BitVec.ofNat 32) s.consumed.length s.enqueued.length := by
  unfold SubmissionQueue.unsubmitted contents
  rw [h.unsubmitted_toNat hk, List.range'_eq_map_range, List.map_map]
  apply List.map_congr_left
  intro i hi
  have hi' := List.mem_range.mp hi
  rw [h.head, ← BitVec.ofNat_add]
  exact h.entryAt_eq hk (by omega)

theorem init (indices : ℕ → Position) (entries : ℕ → α) : Inv k (ring k indices entries).init where
  entryCount := rfl
  mask := rfl
  tail := rfl
  head := rfl
  window := Nat.zero_le _
  published := ⟨0, le_rfl, le_rfl, rfl, rfl⟩
  room _ hsqe := nomatch hsqe
  flushing _ ht := nomatch ht
  indices _ _ hi := nomatch hi
  held := by simp [ring]
  written := rfl
  returned _ hr := nomatch hr

theorem getEntry (hk : k ≤ 31) (h : Inv k s) (ht : s.step .getEntry = some t) : Inv k t := by
  simp only [Run.step] at ht
  split_ifs at ht with hen
  cases ht
  exact { h with
    room := by
      intro sqe hsqe
      cases hsqe
      exact ⟨(h.spaceLeft_pos hk).mp hen.2.2, h.getNext_eq hk⟩ }

theorem fill (hk : k ≤ 31) (h : Inv k s) {x : α} (ht : s.step (.fill x) = some t) : Inv k t := by
  simp only [Run.step] at ht
  split_ifs at ht with hen
  obtain ⟨sqe, hsqe, rfl⟩ := Option.map_eq_some_iff.mp ht
  obtain ⟨hroom, rfl⟩ := h.room sqe hsqe
  exact { h with
    held := by
      have hheld := h.held
      simp only [toNat_slot hk, contents_update hroom]
      exact hheld }

theorem enqueue (hk : k ≤ 31) (h : Inv k s) (ht : s.step .enqueue = some t) : Inv k t := by
  simp only [Run.step] at ht
  split_ifs at ht with hen
  obtain ⟨sqe, hsqe, rfl⟩ := Option.map_eq_some_iff.mp ht
  obtain ⟨hroom, rfl⟩ := h.room sqe hsqe
  have hpow := two_pow_lt hk
  have htail : s.queue.sqeTail.toNat = s.enqueued.length % 2 ^ 32 := by
    rw [h.tail, BitVec.toNat_ofNat]
  refine { h with
    tail := ?_, window := ?_, published := ?_, room := ?_, flushing := ?_, indices := ?_,
    held := ?_, written := ?_ }
  · simp only [SubmissionQueue.enqueueEntryForSubmission, h.tail, ofNat_succ, List.length_append,
      List.length_singleton]
  · simp only [List.length_append, List.length_singleton]
    omega
  · obtain ⟨p, hcp, hpe, hhead, htl⟩ := h.published
    refine ⟨p, hcp, ?_, hhead, htl⟩
    simp only [List.length_append, List.length_singleton]
    omega
  · intro sqe' hsqe'
    cases hsqe'
  · intro tail htl
    rw [hen] at htl
    cases htl
  · intro i hi hlt
    simp only [List.length_append, List.length_singleton] at hlt
    simp only [SubmissionQueue.enqueueEntryForSubmission, htail]
    by_cases hit : i = s.enqueued.length % 2 ^ 32
    · subst hit
      rw [Function.update_self, ← Nat.mod_mod_of_dvd s.enqueued.length
        (Nat.pow_dvd_pow 2 (by omega : k ≤ 32)), Nat.mod_eq_of_lt hi]
    · rw [Function.update_of_ne hit]
      apply h.indices i hi
      by_contra hge
      have hieq : i = s.enqueued.length := by omega
      rw [Nat.mod_eq_of_lt (by omega)] at hit
      exact hit hieq
  · have hheld := h.held
    simp only [SubmissionQueue.enqueueEntryForSubmission, List.length_append,
      List.length_singleton, toNat_slot hk, contents_succ h.le]
    rw [← List.append_assoc, hheld]
  · simp only [List.length_append, List.length_singleton, List.range_succ, List.map_append,
      List.map_singleton, htail, h.written]

theorem flushPublish (h : Inv k s) (ht : s.step .flushPublish = some t) : Inv k t := by
  simp only [Run.step] at ht
  split_ifs at ht with hen
  cases ht
  have hflushing : ∀ tail, some s.queue.sqeTail = some tail →
      tail = s.queue.flushPublish.sqeTail := by
    intro tail htl
    cases htl
    unfold SubmissionQueue.flushPublish
    split_ifs <;> rfl
  by_cases hnew : s.queue.sqeTail = s.queue.sqeHead
  · simp only [SubmissionQueue.flushPublish, if_pos hnew] at hflushing ⊢
    exact { h with flushing := hflushing }
  · simp only [SubmissionQueue.flushPublish, if_neg hnew] at hflushing ⊢
    exact { h with
      flushing := hflushing
      published := ⟨s.enqueued.length, h.le, le_rfl, h.tail, h.tail⟩ }

theorem flushReturn (hk : k ≤ 31) (h : Inv k s) (ht : s.step .flushReturn = some t) :
    Inv k t := by
  simp only [Run.step] at ht
  obtain ⟨tail, htl, rfl⟩ := Option.map_eq_some_iff.mp ht
  exact { h with
    flushing := fun _ hn => nomatch hn
    returned := by
      intro r hr
      rcases List.mem_append.mp hr with hr | hr
      · exact h.returned r hr
      · cases List.mem_singleton.mp hr
        rw [h.flushing tail htl]
        exact h.unsubmitted_toNat hk }

theorem kernel (hk : k ≤ 31) (h : Inv k s) (ht : s.step .kernel = some t) : Inv k t := by
  simp only [Run.step] at ht
  split_ifs at ht with hne
  cases ht
  obtain ⟨p, hcp, hpe, hhead, htl⟩ := h.published
  -- the published tail is ahead of the head, so an entry is in use at the head
  have hlt : s.consumed.length < p := by
    by_contra hge
    have hp : p = s.consumed.length := by omega
    rw [h.head, htl, hp] at hne
    exact hne rfl
  have hcopy : s.queue.sqEntries (s.queue.entryAt s.queue.sqHead).toNat =
      s.queue.sqEntries (s.consumed.length % 2 ^ k) := by
    rw [h.head, h.entryAt_eq hk (by omega), toNat_slot hk]
  refine { h with
    head := ?_, window := ?_, published := ?_, room := ?_, held := ?_ }
  · simp only [h.head, ofNat_succ, List.length_append, List.length_singleton]
  · have hwin := h.window
    simp only [List.length_append, List.length_singleton]
    omega
  · refine ⟨p, ?_, hpe, hhead, htl⟩
    simp only [List.length_append, List.length_singleton]
    omega
  · intro sqe hsqe
    obtain ⟨hroom, rfl⟩ := h.room sqe hsqe
    refine ⟨?_, rfl⟩
    simp only [List.length_append, List.length_singleton]
    omega
  · have hheld := h.held
    rw [contents_cons (by omega)] at hheld
    simp only [hcopy, List.length_append, List.length_singleton, List.append_assoc,
      List.singleton_append]
    exact hheld

/-- One lemma for each action of the user and for the kernel's. -/
theorem step (hk : k ≤ 31) (h : Inv k s) {a : Action α} (ht : s.step a = some t) : Inv k t := by
  cases a with
  | getEntry => exact h.getEntry hk ht
  | fill x => exact h.fill hk ht
  | enqueue => exact h.enqueue hk ht
  | flushPublish => exact h.flushPublish ht
  | flushReturn => exact h.flushReturn hk ht
  | kernel => exact h.kernel hk ht

theorem written_lt_iff (hk : k ≤ 31) (h : Inv k s) :
    (∀ i ∈ s.written, i < s.queue.sqEntryCount.toNat) ↔ s.enqueued.length ≤ 2 ^ k := by
  have hpow := two_pow_lt hk
  rw [h.entryCount, BitVec.toNat_ofNat, Nat.mod_eq_of_lt hpow, h.written]
  constructor
  · intro hall
    by_contra hmany
    -- the entry enqueued after the first round is stored behind the array
    have hmem : 2 ^ k ∈ (List.range s.enqueued.length).map (· % 2 ^ 32) :=
      List.mem_map.mpr ⟨2 ^ k, List.mem_range.mpr (by omega), Nat.mod_eq_of_lt hpow⟩
    exact lt_irrefl _ (hall _ hmem)
  · intro hfew i hi
    obtain ⟨j, hj, rfl⟩ := List.mem_map.mp hi
    have hjlt := List.mem_range.mp hj
    have hle : j % 2 ^ 32 ≤ j := Nat.mod_le _ _
    omega

theorem not_overwritten (hk : k ≤ 31) (h : Inv k s) {sqe : Position} (hsqe : s.sqe = some sqe) :
    sqe ∉ s.queue.unsubmitted := by
  obtain ⟨hroom, rfl⟩ := h.room sqe hsqe
  rw [h.unsubmitted_eq hk]
  unfold contents
  intro hmem
  obtain ⟨p, hp, heq⟩ := List.mem_map.mp hmem
  have hp' := List.mem_range'_1.mp hp
  have hle := h.le
  have hslot := congrArg BitVec.toNat heq
  rw [toNat_slot hk, toNat_slot hk] at hslot
  exact mod_ne_mod (by omega) (by omega) hslot

theorem fifo (hk : k ≤ 31) (h : Inv k s) :
    s.consumed ++ s.queue.unsubmitted.map (fun i => s.queue.sqEntries i.toNat) = s.enqueued := by
  rw [h.unsubmitted_eq hk]
  unfold contents
  rw [List.map_map]
  have hslots : ((fun i : Position => s.queue.sqEntries i.toNat) ∘
      fun p => BitVec.ofNat 32 (p % 2 ^ k)) = fun p => s.queue.sqEntries (p % 2 ^ k) := by
    funext p
    exact congrArg s.queue.sqEntries (toNat_slot hk p)
  rw [hslots]
  exact h.held

/-- Only the index array sees how much was enqueued; the rest holds on and on. -/
theorem lossFree_iff (hk : k ≤ 31) (h : Inv k s) : s.LossFree ↔ s.enqueued.length ≤ 2 ^ k := by
  constructor
  · intro hloss
    exact (h.written_lt_iff hk).mp hloss.written_lt
  · intro hfew
    exact
      { written_lt := (h.written_lt_iff hk).mpr hfew
        not_overwritten := fun _ hsqe => h.not_overwritten hk hsqe
        returned_eq := h.returned
        fifo := h.fifo hk }

end Inv
end Run

def Action.isEnqueue {α : Type*} : Action α → Bool
  | .enqueue => true
  | _ => false

section
variable {α : Type*} {k : ℕ} {indices : ℕ → Position} {entries : ℕ → α}

theorem length_enqueued_step {s t : Run α} {a : Action α} (ht : s.step a = some t) :
    t.enqueued.length = s.enqueued.length + a.isEnqueue.toNat := by
  cases a <;> simp only [Run.step] at ht
  case getEntry =>
    split_ifs at ht
    cases ht
    rfl
  case fill =>
    split_ifs at ht
    obtain ⟨sqe, -, rfl⟩ := Option.map_eq_some_iff.mp ht
    rfl
  case enqueue =>
    split_ifs at ht
    obtain ⟨sqe, -, rfl⟩ := Option.map_eq_some_iff.mp ht
    exact List.length_append
  case flushPublish =>
    split_ifs at ht
    cases ht
    rfl
  case flushReturn =>
    obtain ⟨tail, -, rfl⟩ := Option.map_eq_some_iff.mp ht
    rfl
  case kernel =>
    split_ifs at ht
    cases ht
    rfl

theorem inv_of_run (hk : k ≤ 31) {as : List (Action α)} {s : Run α}
    (hs : (ring k indices entries).run (ring k indices entries).init as = some s) :
    s.Inv k ∧ s.enqueued.length = as.countP Action.isEnqueue := by
  have hreach : (ring k indices entries).Reachable s := System.Reaches.init.exec hs
  have hinv : s.Inv k :=
    hreach.invariant (Run.Inv.init indices entries) fun _ _ _ h _ ht => Run.Inv.step hk h ht
  have hcount := System.exec_countP_eq (fun s : Run α => s.enqueued.length) Action.isEnqueue
    (fun _ _ _ ht => length_enqueued_step ht) hs
  exact ⟨hinv, by simpa [ring] using hcount⟩

/-- A run loses nothing exactly when it enqueues no more entries than the ring has: the store of
`enqueue_entry_for_submission` does not mask its index. -/
theorem loss_free_first_round (hk : k ≤ 31) {as : List (Action α)} {s : Run α}
    (hs : (ring k indices entries).run (ring k indices entries).init as = some s) :
    (∀ bs t, bs <+: as → (ring k indices entries).run (ring k indices entries).init bs = some t →
      t.LossFree) ↔ as.countP Action.isEnqueue ≤ 2 ^ k := by
  constructor
  · intro hall
    obtain ⟨hinv, hcount⟩ := inv_of_run hk hs
    rw [← hcount]
    exact (hinv.lossFree_iff hk).mp (hall as s List.prefix_rfl hs)
  · intro hfew bs t hbs ht
    obtain ⟨hinv, hcount⟩ := inv_of_run hk ht
    have hle : bs.countP Action.isEnqueue ≤ as.countP Action.isEnqueue := hbs.sublist.countP_le
    exact (hinv.lossFree_iff hk).mpr (by omega)

end

/-- Two entries through a ring of two, flushed and copied. -/
def firstRound : List (Action ℕ) :=
  [.getEntry, .fill 5, .enqueue, .getEntry, .fill 6, .enqueue, .flushPublish, .flushReturn,
    .kernel, .kernel]

theorem loss_free_first_round_run : ∃ s,
    (ring 1 (fun _ => 0) fun _ => 0).run (ring 1 (fun _ => 0) fun _ => 0).init firstRound = some s ∧
    ((∀ bs t, bs <+: firstRound →
      (ring 1 (fun _ => 0) fun _ => 0).run (ring 1 (fun _ => 0) fun _ => 0).init bs = some t →
      t.LossFree) ↔ firstRound.countP Action.isEnqueue ≤ 2 ^ 1) :=
  ⟨_, rfl, loss_free_first_round (by decide) rfl⟩

/-- A third entry, though the ring is empty again. -/
theorem loss_free_fails_second_round :
    ¬ ∀ (as : List (Action ℕ)) (s : Run ℕ),
      (ring 1 (fun _ => 0) fun _ => 0).run (ring 1 (fun _ => 0) fun _ => 0).init as = some s →
      s.LossFree := by
  intro hall
  have hrun : ((ring 1 (fun _ => 0) fun _ => 0).run (ring 1 (fun _ => 0) fun _ => 0).init
      (firstRound ++ [.getEntry, .fill 7, .enqueue])).any (fun s => s.written.any (2 ≤ ·)) =
      true := by decide +kernel
  obtain ⟨s, hs, hbad⟩ := (Option.any_eq_true _ _).mp hrun
  obtain ⟨i, hi, hle⟩ := List.any_eq_true.mp hbad
  have hlt := (hall _ s hs).written_lt i hi
  have hn : s.queue.sqEntryCount.toNat = 2 := by
    rw [(inv_of_run (by decide) hs).1.entryCount]
    rfl
  rw [hn] at hlt
  exact absurd (of_decide_eq_true hle) (by omega)

end Squiz.LinuxOS.IoUring
