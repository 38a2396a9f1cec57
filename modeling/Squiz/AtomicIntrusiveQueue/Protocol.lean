import Squiz.AtomicIntrusiveQueue.Steps

/-! The queue returns every item once and in order, and every change from inactive to active is
seen by one producer. -/
namespace Squiz.AtomicIntrusiveQueue.Queue
open Squiz.Lib Squiz.Detail
variable {T α : Type}

/-- The items that calls have enqueued, in the order in which they took effect. -/
def accepted (s : Queue T α) : List α := (s.calls.filter Call.accepts).map Call.item

variable [DecidableEq T] [DecidableEq α] {s t : Queue T α}

structure Orderly (s : Queue T α) : Prop where
  /-- The dequeues have returned, have taken or have left in the queue each item accepted, once
  and in order. -/
  exactly_once :
    s.batches.flatMap Batch.enqueued ++ s.pending.flatten ++ s.effects.items = s.accepted
  /-- The items left are linked from `head_` on. -/
  queued : Linked s.links.next s.head.pointer s.effects.items.reverse
  /-- A dequeue returns whatever had been accepted when it was called and was not returned. -/
  complete : ∀ l b l', s.batches = l ++ b :: l' →
    b.due ≤ ((l ++ [b]).flatMap Batch.enqueued).length
  inactive_empty : s.head = .inactive → s.effects.items = []
  /-- For each time the queue was marked inactive a call has returned that it saw this, or is
  about to, unless the queue is inactive still. -/
  observed : s.effects.inactivations = s.calls.countP Call.observes + s.marking.length +
    (if s.head = .inactive then 1 else 0)
  marking : s.marking.Nodup ∧ ∀ t, t ∈ s.marking ↔ ∃ item, s.producer t = .markReset item
  ready : s.ready.Holds s.links s.readyItems
  /-- `acquire_remote_items()` appends what its dequeue returned, in the order of enqueuing. -/
  acquired : ∀ list, s.consumer = .append list → ∃ bs b s', s.batches = bs ++ [b] ∧
    s.step .consumer = some s' ∧ s'.ready.Holds s'.links (s.readyItems ++ b.enqueued)
  ok : s.fault = false

namespace Inv

omit [DecidableEq T] in
theorem observed (h : s.Inv) : s.effects.inactivations =
    s.calls.countP Call.observes + s.marking.length + (if s.head = .inactive then 1 else 0) := by
  have hobserved := s.effects.observed
  rw [h.observations] at hobserved
  by_cases hhead : s.head = .inactive
  · rw [hobserved, if_pos hhead, h.inactive_iff.mp hhead]
    rfl
  · have hactive : s.effects.active = true := by simpa using h.inactive_iff.not.mp hhead
    rw [hobserved, if_neg hhead, hactive]
    rfl

omit [DecidableEq T] [DecidableEq α] in
theorem exactly_once (h : s.Inv) :
    s.batches.flatMap Batch.enqueued ++ s.pending.flatten ++ s.effects.items = s.accepted := by
  rw [accepted, h.accepted, ← s.effects.fifo, ← h.batches, List.flatten_append, List.flatMap_def]

theorem orderly (h : s.Inv) : s.Orderly where
  exactly_once := h.exactly_once
  queued := h.linked
  complete := h.complete
  inactive_empty hhead := s.effects.empty (h.inactive_iff.mp hhead)
  observed := h.observed
  marking := ⟨h.marking_nodup, h.marking_iff⟩
  ready := h.ready
  acquired list hpc := by
    obtain ⟨bs, b, hbatches, hb⟩ := h.acquired (by simp [hpc])
    have hlist := h.consumer
    rw [hpc] at hlist
    have hready := (h.append hpc hlist).ready
    cases hstep : s.step .consumer with
    | none => simp [Queue.step, Queue.consumerStep, hpc] at hstep
    | some s' =>
      simp only [Queue.step, Queue.consumerStep, hpc, Option.some.injEq] at hstep
      subst hstep
      exact ⟨bs, b, _, hbatches, rfl, hb ▸ hready⟩
  ok := h.ok

end Inv

theorem inv_of_reachable (hs : (system T α).Reachable s) : s.Inv :=
  hs.invariant inv_init fun _ _ _ h _ ht => h.step ht

omit [DecidableEq T] [DecidableEq α] in
@[simp] theorem record_head (reversed : Bool) (p : Option α) :
    (s.record reversed p).head = s.head := by
  unfold record
  split <;> rfl

omit [DecidableEq T] [DecidableEq α] in
@[simp] theorem record_effects (reversed : Bool) (p : Option α) :
    (s.record reversed p).effects = s.effects := by
  unfold record
  split <;> rfl

omit [DecidableEq T] in
@[simp] theorem adopt_head (goal : Goal) (p : Option α) : (s.adopt goal p).head = s.head := by
  cases goal <;> simp [adopt, deliver]

omit [DecidableEq T] in
@[simp] theorem adopt_effects (goal : Goal) (p : Option α) :
    (s.adopt goal p).effects = s.effects := by
  cases goal <;> simp [adopt, deliver]

/-- A producer does not make the queue inactive. -/
theorem producerStep_head {t : T} {spurious : Bool} {s' : Queue T α}
    (ht : s.producerStep t spurious = some s') (hold : s.head ≠ .inactive) :
    s'.head ≠ .inactive := by
  cases hpc : s.producer t with
  | idle => simp [producerStep, hpc] at ht
  | enqueueCas item old | markActive item | markCas item old =>
    simp only [producerStep, hpc] at ht
    split at ht <;> cases ht
    · exact hold
    · simp [accept]
  | _ =>
    simp only [producerStep, hpc, Option.some.injEq] at ht
    subst ht
    exact hold

omit [DecidableEq T] in
/-- The consumer makes the queue inactive by a compare-exchange with null only. -/
theorem consumerStep_head (ht : s.consumerStep = some t) (hold : s.head ≠ .inactive)
    (hnew : t.head = .inactive) : ∃ goal, s.head = .null ∧ t = s.markSucceeds goal := by
  cases hpc : s.consumer with
  | idle => simp [consumerStep, hpc] at ht
  | isInactive | append list =>
    simp only [consumerStep, hpc, Option.some.injEq] at ht
    subst ht
    exact absurd hnew hold
  | dequeueLoad goal =>
    simp only [consumerStep, hpc] at ht
    split at ht <;> cases ht
    · exact absurd (by simpa [adoptNothing] using hnew) hold
    · exact absurd hnew hold
  | dequeueExchange goal | markExchange goal =>
    simp only [consumerStep, hpc, Option.some.injEq] at ht
    subst ht
    simp [exchange, take] at hnew
  | markLoad goal =>
    simp only [consumerStep, hpc] at ht
    split at ht <;> cases ht <;> exact absurd hnew hold
  | markCas goal =>
    simp only [consumerStep, hpc] at ht
    split at ht
    case isTrue hhead =>
      cases ht
      exact ⟨goal, hhead, rfl⟩
    case isFalse =>
      cases ht
      exact absurd hnew hold
  | reverseItems items reversed =>
    simp only [consumerStep, hpc] at ht
    split at ht <;> cases ht
    · exact absurd (by simpa [deliver] using hnew) hold
    · exact absurd hnew hold
  | acquireItems items list =>
    simp only [consumerStep, hpc] at ht
    split at ht <;> cases ht <;> exact absurd hnew hold

/-- Marking the queue inactive is counted, and happens only while it is empty. -/
theorem Inv.inactivation {a : Act T α} (h : s.Inv) (ht : s.step a = some t)
    (hold : s.head ≠ .inactive) (hnew : t.head = .inactive) :
    s.effects.items = [] ∧ t.effects.inactivations = s.effects.inactivations + 1 := by
  cases a with
  | producer t' spurious => exact absurd hnew (producerStep_head ht hold)
  | consumer =>
    obtain ⟨goal, hhead, rfl⟩ := consumerStep_head ht hold hnew
    obtain ⟨hitems, hactive⟩ := h.head_eq_null.mp hhead
    refine ⟨hitems, ?_⟩
    cases goal with
    | none => simp [Queue.markSucceeds, InactiveQueue.markInactive, hitems, hactive]
    | some goal =>
      simp [Queue.markSucceeds, Queue.adoptNothing, InactiveQueue.drain,
        InactiveQueue.markInactive, hitems, hactive]
  | popReady =>
    simp only [Queue.step] at ht
    split at ht
    case isTrue =>
      obtain ⟨_, _, rfl⟩ := Option.map_eq_some_iff.mp ht
      exact absurd hnew hold
    case isFalse => cases ht
  | _ =>
    simp only [Queue.step, Queue.call] at ht
    split at ht <;> cases ht
    exact absurd hnew hold

/-- Every item enqueued is returned by one dequeue, in order, and each time the queue becomes
inactive it is empty and one call of a producer finds it so. -/
theorem returns_items_in_order (hs : (system T α).Reachable s) :
    s.Orderly ∧ ∀ a t, s.step a = some t → s.head ≠ .inactive → t.head = .inactive →
      s.effects.items = [] ∧ t.effects.inactivations = s.effects.inactivations + 1 :=
  ⟨(inv_of_reachable hs).orderly, fun _ _ => (inv_of_reachable hs).inactivation⟩

/-- The item 5 is returned and enqueued again while a thread that has read its address is about to
exchange it, and later finds its way to `ready_to_run_queue_`. -/
theorem returns_items_in_order_run : ∃ s : Queue ℕ ℕ,
    (s.batches = [⟨true, [5], 1⟩, ⟨false, [5, 6], 3⟩, ⟨true, [5], 4⟩] ∧ s.readyItems = [5] ∧
      s.effects.inactivations = 1) ∧
    s.Orderly ∧ ∀ a t, s.step a = some t → s.head ≠ .inactive → t.head = .inactive →
      s.effects.items = [] ∧ t.effects.inactivations = s.effects.inactivations + 1 := by
  obtain ⟨s, hs, hp⟩ := (system ℕ ℕ).exists_reachable
    [.enqueue 1 5, .producer 1 false, .producer 1 false, .producer 1 false, .enqueue 0 6,
      .producer 0 false, .producer 0 false, .dequeueAllReversed, .consumer, .consumer,
      .enqueue 1 5, .producer 1 false, .producer 1 false, .producer 1 true, .producer 1 false,
      .producer 1 false, .producer 0 false, .dequeueAll, .consumer, .consumer, .consumer,
      .consumer, .consumer, .tryMarkInactive, .consumer, .consumer, .enqueueOrMarkActive 0 6,
      .producer 0 false, .producer 0 false, .producer 0 false, .enqueueOrMarkActive 1 5,
      .producer 1 false, .producer 1 false, .producer 1 false, .acquireRemoteItems, .consumer,
      .consumer, .consumer, .consumer, .consumer, .consumer]
    (fun s => s.batches = [⟨true, [5], 1⟩, ⟨false, [5, 6], 3⟩, ⟨true, [5], 4⟩] &&
      s.readyItems = [5] && s.effects.inactivations = 1)
    (by decide +kernel)
  exact ⟨s, by simpa [and_assoc] using hp, returns_items_in_order hs⟩

end Squiz.AtomicIntrusiveQueue.Queue
