import Squiz.AtomicIntrusiveQueue.Queue

/-! The invariant of the queue, its calls and the lists its consumer builds. -/
namespace Squiz.AtomicIntrusiveQueue
open Squiz.Lib Squiz.Detail
variable {T α : Type}

/-- A thread owns the item it enqueues, and has written what its compare-exchange relies on. -/
def Producer.Ok (m : Links α) (owner : α → Owner T) (t : T) : Producer α → Prop
  | .idle => True
  | .enqueueLoad item | .enqueueStore item _ | .markLoad item | .markActive item
  | .markReset item => owner item = .producer t
  | .enqueueCas item old => owner item = .producer t ∧ m.next item = old.pointer
  | .markStore item old => owner item = .producer t ∧ old ≠ .inactive
  | .markCas item old =>
    owner item = .producer t ∧ m.next item = old.pointer ∧ old ≠ .inactive

/-- The queue stays active during a call, and the loops move what was taken, item by item. -/
def Consumer.Ok (m : Links α) (head : Head α) (taken : List α) : Consumer α → Prop
  | .idle | .isInactive => taken = []
  | .dequeueLoad _ | .dequeueExchange _ | .markLoad _ | .markCas _ | .markExchange _ =>
    taken = [] ∧ head ≠ .inactive
  | .reverseItems items reversed =>
    ∃ rest front, items.Holds m rest ∧ reversed.Holds m front ∧ taken = rest.reverse ++ front
  | .acquireItems items list =>
    ∃ rest front, items.Holds m rest ∧ list.Holds m front ∧ taken = rest.reverse ++ front
  | .append list => list.Holds m taken

/-- The consumer is between the dequeue and the end of `acquire_remote_items()`. -/
@[simp] def Consumer.acquiring : Consumer α → Bool
  | .acquireItems _ _ | .append _ => true
  | _ => false

variable {m m' : Links α}

/-- What a thread relies on is left by what others do to items of their own. -/
theorem Producer.Ok.mono {owner owner' : α → Owner T} {t : T} {p : Producer α}
    (h : p.Ok m owner t)
    (ho : ∀ a, owner a = .producer t → owner' a = .producer t ∧ m'.next a = m.next a) :
    p.Ok m' owner' t := by
  cases p with
  | idle => trivial
  | enqueueCas item old =>
    obtain ⟨hown, hnext⟩ := h
    exact ⟨(ho item hown).1, (ho item hown).2.trans hnext⟩
  | markStore item old => exact ⟨(ho item h.1).1, h.2⟩
  | markCas item old =>
    obtain ⟨hown, hnext, hold⟩ := h
    exact ⟨(ho item hown).1, (ho item hown).2.trans hnext, hold⟩
  | _ => exact (ho _ h).1

theorem Consumer.Ok.mono {head head' : Head α} {taken : List α} {c : Consumer α}
    (h : c.Ok m head taken)
    (hm : ∀ a ∈ taken, m'.next a = m.next a ∧ m'.prev a = m.prev a)
    (hh : head ≠ .inactive → head' ≠ .inactive) : c.Ok m' head' taken := by
  cases c with
  | idle | isInactive => exact h
  | reverseItems items reversed =>
    obtain ⟨rest, front, hitems, hreversed, rfl⟩ := h
    refine ⟨rest, front, ?_, ⟨?_, hreversed.tail_eq⟩, rfl⟩
    · exact hitems.congr fun a ha => (hm a (by simp [ha])).1
    · exact hreversed.forward.congr fun a ha => (hm a (by simp [ha])).1
  | acquireItems items list =>
    obtain ⟨rest, front, hitems, hlist, rfl⟩ := h
    refine ⟨rest, front, ?_, ?_, rfl⟩
    · exact hitems.congr fun a ha => (hm a (by simp [ha])).1
    · exact hlist.congr (fun a ha => (hm a (by simp [ha])).1) fun a ha => (hm a (by simp [ha])).2
  | append list => exact h.congr (fun a ha => (hm a ha).1) fun a ha => (hm a ha).2
  | _ => exact ⟨h.1, hh h.2⟩

namespace Queue

/-- What a dequeue has taken and will return. -/
def pending (s : Queue T α) : List (List α) :=
  match s.consumer with
  | .reverseItems _ _ => [s.taken]
  | _ => []

theorem pending_eq_nil {s : Queue T α}
    (h : ∀ items reversed, s.consumer ≠ .reverseItems items reversed) : s.pending = [] := by
  unfold pending
  split
  · exact absurd ‹_› (h _ _)
  · rfl

/-- The items are where their owners have them. -/
structure Memory (s : Queue T α) : Prop where
  inactive_iff : s.head = .inactive ↔ s.effects.active = false
  linked : Linked s.links.next s.head.pointer s.effects.items.reverse
  queued : ∀ a, s.owner a = .queue ↔ a ∈ s.effects.items
  held : ∀ a, s.owner a = .consumer ↔ a ∈ s.taken ∨ a ∈ s.readyItems
  disjoint : ∀ a ∈ s.taken, a ∉ s.readyItems
  nodup_taken : s.taken.Nodup
  ready : s.ready.Holds s.links s.readyItems
  producers : ∀ t, (s.producer t).Ok s.links s.owner t

/-- What the calls have returned. -/
structure Ledger (s : Queue T α) : Prop where
  accepted : (s.calls.filter Call.accepts).map Call.item = s.effects.accepted
  observations : s.effects.observations = s.calls.countP Call.observes + s.marking.length
  marking_iff : ∀ t, t ∈ s.marking ↔ ∃ item, s.producer t = .markReset item
  marking_nodup : s.marking.Nodup
  due_le : s.due ≤ s.effects.accepted.length
  complete : ∀ l b l', s.batches = l ++ b :: l' →
    b.due ≤ ((l ++ [b]).flatMap Batch.enqueued).length
  ok : s.fault = false

structure Inv (s : Queue T α) : Prop extends s.Memory, s.Ledger where
  consumer : s.consumer.Ok s.links s.head s.taken
  batches : s.batches.map Batch.enqueued ++ s.pending = s.effects.drained
  due_reverse : ∀ items reversed, s.consumer = .reverseItems items reversed →
    s.due ≤ s.effects.drained.flatten.length
  acquired : s.consumer.acquiring = true → ∃ bs b, s.batches = bs ++ [b] ∧ b.enqueued = s.taken

/-- A dequeue has taken items that it has not returned. -/
structure Taking (s : Queue T α) : Prop extends s.Memory, s.Ledger where
  batches : s.batches.map Batch.enqueued ++ [s.taken] = s.effects.drained
  due_drained : s.due ≤ s.effects.drained.flatten.length

theorem inv_init : ({} : Queue T α).Inv where
  inactive_iff := by simp
  linked := rfl
  queued a := by simp
  held a := by simp
  disjoint := by simp
  nodup_taken := List.nodup_nil
  ready := IntrusiveList.holds_nil
  producers _ := trivial
  accepted := rfl
  observations := rfl
  marking_iff t := by simp
  marking_nodup := List.nodup_nil
  due_le := Nat.le_refl _
  complete := by simp
  ok := rfl
  consumer := rfl
  batches := rfl
  due_reverse := by simp
  acquired := by simp

variable {s : Queue T α}

namespace Memory

theorem head_eq_null (h : s.Memory) :
    s.head = .null ↔ s.effects.items = [] ∧ s.effects.active = true := by
  have hlinked := h.linked
  have hinactive := h.inactive_iff
  cases hhead : s.head with
  | null =>
    rw [hhead] at hlinked hinactive
    have hitems : s.effects.items = [] := by simpa [Head.pointer] using hlinked
    simpa [hitems] using hinactive
  | inactive =>
    rw [hhead] at hinactive
    simp [hinactive.mp rfl]
  | item a =>
    rw [hhead] at hlinked
    have hitems : s.effects.items ≠ [] := by
      intro hnil
      rw [hnil] at hlinked
      cases hlinked
    simp [hitems]

theorem nodup_items (h : s.Memory) : s.effects.items.Nodup :=
  List.nodup_reverse.mp h.linked.nodup

variable {items : List α}

theorem linked_of_changedOnly (h : s.Memory) (hm : s.links.ChangedOnly items m)
    (hd : ∀ a ∈ items, s.owner a ≠ .queue) :
    Linked m.next s.head.pointer s.effects.items.reverse :=
  h.linked.congr fun a ha =>
    (hm a fun hmem => hd a hmem ((h.queued a).mpr (List.mem_reverse.mp ha))).1

theorem ready_of_changedOnly (h : s.Memory) (hm : s.links.ChangedOnly items m)
    (hd : ∀ a ∈ items, a ∉ s.readyItems) : s.ready.Holds m s.readyItems :=
  h.ready.of_changedOnly hm fun a ha hmem => hd a hmem ha

end Memory

end Queue
end Squiz.AtomicIntrusiveQueue
