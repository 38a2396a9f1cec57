import Squiz.AtomicIntrusiveQueue.Invariant

/-! Every step of the producers, the consumer and the clients keeps the invariant. -/
namespace Squiz.AtomicIntrusiveQueue.Queue
open Squiz.Lib Squiz.Detail
variable {T α : Type} {s s' : Queue T α} {t : T} {item : α}

theorem markReset_goto [DecidableEq T] {p : Producer α} {t' : T}
    (hold : ∀ item, s.producer t ≠ .markReset item)
    (hnew : ∀ item, p ≠ .markReset item) :
    (∃ item, s.producer t' = .markReset item) ↔
      ∃ item, (s.goto t p).producer t' = .markReset item := by
  by_cases ht : t' = t
  · subst ht
    simp [Queue.goto, hold, hnew]
  · simp [Queue.goto, ht]

namespace Inv
variable [DecidableEq T] [DecidableEq α]

omit [DecidableEq T] [DecidableEq α] in
/-- Writes to items outside the queue and the consumer's lists. -/
theorem write {m : Links α} {items : List α} (h : s.Inv) (hm : s.links.ChangedOnly items m)
    (hown : ∀ a ∈ items, s.owner a ≠ .queue ∧ s.owner a ≠ .consumer)
    (hp : ∀ t, (s.producer t).Ok m s.owner t) : { s with links := m }.Inv :=
  { h with
    linked := h.linked_of_changedOnly hm fun a ha => (hown a ha).1
    ready := h.ready_of_changedOnly hm fun a ha hmem =>
      (hown a ha).2 ((h.held a).mpr (.inr hmem))
    producers := hp
    consumer := h.consumer.mono
      (fun a ha => hm a fun hmem => (hown a hmem).2 ((h.held a).mpr (.inl ha))) id }

omit [DecidableEq T] in
/-- An item outside the queue and the consumer's lists passes from one owner to another. -/
theorem own {o : Owner T} (h : s.Inv) (hq : s.owner item ≠ .queue) (hc : s.owner item ≠ .consumer)
    (hoq : o ≠ .queue) (hoc : o ≠ .consumer)
    (hp : ∀ t, (s.producer t).Ok s.links (Function.update s.owner item o) t) :
    { s with owner := Function.update s.owner item o }.Inv := by
  have hitems : item ∉ s.effects.items := fun hmem => hq ((h.queued item).mpr hmem)
  have hheld : ¬(item ∈ s.taken ∨ item ∈ s.readyItems) := fun hmem => hc ((h.held item).mpr hmem)
  refine { h with queued := fun a => ?_, held := fun a => ?_, producers := hp }
  · by_cases ha : a = item
    · subst ha
      simp [hoq, hitems]
    · simp only [Function.update_of_ne ha]
      exact h.queued a
  · by_cases ha : a = item
    · subst ha
      simp [hoc, hheld]
    · simp only [Function.update_of_ne ha]
      exact h.held a

omit [DecidableEq α] in
/-- A thread goes to a place where it has not made the queue active. -/
theorem goto {p : Producer α} (h : s.Inv) (hp : p.Ok s.links s.owner t)
    (hold : ∀ item, s.producer t ≠ .markReset item) (hnew : ∀ item, p ≠ .markReset item) :
    (s.goto t p).Inv := by
  refine { h with producers := fun t' => ?_, marking_iff := fun t' => ?_ }
  · by_cases ht : t' = t
    · subst ht
      simpa [Queue.goto] using hp
    · simpa [Queue.goto, ht] using h.producers t'
  · exact (h.marking_iff t').trans (markReset_goto hold hnew)

omit [DecidableEq T] in
/-- The items of the other threads are not the item of this one. -/
theorem others {m : Links α} {o : Owner T} (h : s.Inv)
    (hown : ∀ t', t' ≠ t → s.owner item ≠ .producer t')
    (hm : ∀ a, a ≠ item → m.next a = s.links.next a) {t' : T} (ht : t' ≠ t) :
    (s.producer t').Ok m (Function.update s.owner item o) t' := by
  refine (h.producers t').mono fun a ha => ?_
  have hne : a ≠ item := by
    rintro rfl
    exact hown t' ht ha
  exact ⟨by rw [Function.update_of_ne hne, ha], hm a hne⟩

/-- `item->*Next = old_head` -/
theorem store {p : Producer α} (h : s.Inv) (old : Head α) (hown : s.owner item = .producer t)
    (hp : p.Ok (s.links.setNext item old.pointer) s.owner t)
    (hpc : ∀ m, (s.producer t).Ok m s.owner t)
    (hold : ∀ item, s.producer t ≠ .markReset item) (hnew : ∀ item, p ≠ .markReset item) :
    { s.goto t p with links := s.links.setNext item old.pointer }.Inv := by
  have hm : s.links.ChangedOnly [item] (s.links.setNext item old.pointer) :=
    Links.changedOnly_setNext List.mem_cons_self _
  have hwrite := h.write hm (by simp [hown]) fun t' => by
    by_cases ht : t' = t
    · subst ht
      exact hpc _
    · refine (h.producers t').mono fun a ha => ⟨ha, (hm a ?_).1⟩
      rintro hmem
      rw [List.mem_singleton.mp hmem, hown] at ha
      exact ht (Owner.producer.inj ha).symm
  exact hwrite.goto hp hold hnew

theorem accept {c : Call T α} (h : s.Inv) (hown : s.owner c.item = .producer c.thread)
    (hnext : s.links.next c.item = s.head.pointer) (haccepts : c.accepts = true)
    (hobserves : c.observes = !s.effects.active)
    (hold : ∀ item, s.producer c.thread ≠ .markReset item) : (s.accept c).Inv := by
  have hitems : c.item ∉ s.effects.items := fun hmem => by
    rw [(h.queued c.item).mpr hmem] at hown
    cases hown
  have hheld : ¬(c.item ∈ s.taken ∨ c.item ∈ s.readyItems) := fun hmem => by
    rw [(h.held c.item).mpr hmem] at hown
    cases hown
  refine { h with
    inactive_iff := by simp [Queue.accept]
    linked := ?_
    queued := fun a => ?_
    held := fun a => ?_
    producers := fun t' => ?_
    accepted := ?_
    observations := ?_
    marking_iff := fun t' => ?_
    due_le := ?_
    consumer := h.consumer.mono (fun _ _ => ⟨rfl, rfl⟩) (by simp [Queue.accept]) }
  · simp only [Queue.accept, InactiveQueue.enqueue_items, List.reverse_append,
      List.reverse_singleton, List.singleton_append]
    refine ⟨rfl, ?_⟩
    simpa [Queue.goto, hnext] using h.linked
  · simp only [Queue.accept, InactiveQueue.enqueue_items]
    by_cases ha : a = c.item
    · subst ha
      simp
    · rw [Function.update_of_ne ha, h.queued a]
      simp [ha]
  · simp only [Queue.accept]
    by_cases ha : a = c.item
    · subst ha
      simpa [Queue.goto] using hheld
    · rw [Function.update_of_ne ha]
      exact h.held a
  · by_cases ht : t' = c.thread
    · subst ht
      simp [Queue.accept, Queue.goto, Producer.Ok]
    · have hother : (s.producer t').Ok s.links (Function.update s.owner c.item .queue) t' :=
        h.others (t := c.thread) (fun t' ht' => by simp [hown, ht'.symm]) (fun _ _ => rfl) ht
      simpa [Queue.accept, Queue.goto, ht] using hother
  · simp only [Queue.accept, List.filter_append, List.map_append, InactiveQueue.enqueue_accepted,
      ← h.accepted]
    simp [haccepts]
  · have hobs := h.observations
    simp only [Queue.accept, InactiveQueue.enqueue_observations, List.countP_append,
      List.countP_singleton, hobserves, Queue.goto] at hobs ⊢
    have htoNat : (!s.effects.active).toNat = if (!s.effects.active) = true then 1 else 0 := by
      cases s.effects.active <;> rfl
    omega
  · exact (h.marking_iff t').trans (markReset_goto hold (by simp))
  · simp only [Queue.accept, InactiveQueue.enqueue_accepted, List.length_append]
    exact Nat.le_add_right_of_le h.due_le

omit [DecidableEq α] in
/-- `enqueue_or_mark_active()` changes the queue from inactive to active. -/
theorem markActive (h : s.Inv) (hpc : s.producer t = .markActive item)
    (hhead : s.head = .inactive) :
    { s.goto t (.markReset item) with
      head := .null
      effects := s.effects.markActive
      marking := t :: s.marking }.Inv := by
  have hactive : s.effects.active = false := h.inactive_iff.mp hhead
  have hitems : s.effects.items = [] := s.effects.empty hactive
  have hnot : t ∉ s.marking := by
    rw [h.marking_iff, hpc]
    simp
  refine { h with
    inactive_iff := by simp
    linked := by simp [hitems, Head.pointer]
    producers := fun t' => ?_
    observations := ?_
    marking_iff := fun t' => ?_
    marking_nodup := List.nodup_cons.mpr ⟨hnot, h.marking_nodup⟩
    consumer := h.consumer.mono (fun _ _ => ⟨rfl, rfl⟩) (by simp) }
  · by_cases ht : t' = t
    · subst ht
      have hown : s.owner item = .producer t' := by
        have hok := h.producers t'
        rwa [hpc] at hok
      simp only [Queue.goto, Function.update_self]
      exact hown
    · simpa [Queue.goto, ht] using h.producers t'
  · have hobs := h.observations
    simp only [InactiveQueue.markActive_observations, hactive, List.length_cons, Queue.goto]
    simp only [Bool.not_false, Bool.toNat_true]
    omega
  · by_cases ht : t' = t
    · subst ht
      simp [Queue.goto]
    · simpa [Queue.goto, ht] using h.marking_iff t'

/-- `enqueue_or_mark_active()` returns false. -/
theorem markReset (h : s.Inv) (hpc : s.producer t = .markReset item) :
    { s.goto t .idle with
      links := s.links.setNext item none
      owner := Function.update s.owner item .client
      calls := s.calls ++ [Call.mk t item true false]
      marking := s.marking.erase t }.Inv := by
  have hown : s.owner item = .producer t := by
    have hok := h.producers t
    rwa [hpc] at hok
  have hmem : t ∈ s.marking := (h.marking_iff t).mpr ⟨item, hpc⟩
  have hm : s.links.ChangedOnly [item] (s.links.setNext item none) :=
    Links.changedOnly_setNext List.mem_cons_self _
  have hleft : { s.goto t .idle with
      calls := s.calls ++ [Call.mk t item true false], marking := s.marking.erase t }.Inv := by
    refine { h with
      producers := fun t' => ?_
      accepted := ?_
      observations := ?_
      marking_iff := fun t' => ?_
      marking_nodup := h.marking_nodup.erase t }
    · by_cases ht : t' = t
      · subst ht
        simp [Queue.goto, Producer.Ok]
      · simpa [Queue.goto, ht] using h.producers t'
    · simpa [Call.accepts, Queue.goto] using h.accepted
    · have hlen := List.length_erase_of_mem hmem
      have hpos := List.length_pos_of_mem hmem
      have hobs := h.observations
      have hcount : (s.calls ++ [Call.mk t item true false]).countP Call.observes =
          s.calls.countP Call.observes + 1 := by
        simp [Call.observes]
      simp only [hcount, Queue.goto]
      omega
    · rw [h.marking_nodup.mem_erase_iff]
      by_cases ht : t' = t
      · subst ht
        simp [Queue.goto]
      · simpa [Queue.goto, ht] using h.marking_iff t'
  have hwrite := hleft.write hm (by simp [Queue.goto, hown]) fun t' => by
    by_cases ht : t' = t
    · subst ht
      simp [Queue.goto, Producer.Ok]
    · have hok := h.producers t'
      have hother : (s.producer t').Ok (s.links.setNext item none) s.owner t' :=
        hok.mono fun a ha => ⟨ha, (hm a fun hmem => by
          rw [List.mem_singleton.mp hmem, hown] at ha
          exact ht (Owner.producer.inj ha).symm).1⟩
      simpa [Queue.goto, ht] using hother
  refine hwrite.own (by simp [Queue.goto, hown]) (by simp [Queue.goto, hown]) (by simp) (by simp)
    fun t' => ?_
  by_cases ht : t' = t
  · subst ht
    simp [Queue.goto, Producer.Ok]
  · exact hwrite.others (t := t) (fun t'' ht'' => by simp [Queue.goto, hown, ht''.symm])
      (fun _ _ => rfl) ht

/-- The loop of `enqueue_or_mark_active()` goes on with what it has read. -/
theorem markTest (h : s.Inv) (hown : s.owner item = .producer t)
    (hold : ∀ item, s.producer t ≠ .markReset item) (old : Head α) :
    (s.goto t (markTest item old)).Inv := by
  by_cases hinactive : old = .inactive
  · rw [AtomicIntrusiveQueue.markTest, if_pos hinactive]
    exact h.goto hown hold (by simp)
  · rw [AtomicIntrusiveQueue.markTest, if_neg hinactive]
    exact h.goto ⟨hown, hinactive⟩ hold (by simp)

theorem producerStep {spurious : Bool} (h : s.Inv) (ht : s.producerStep t spurious = some s') :
    s'.Inv := by
  have hok := h.producers t
  cases hpc : s.producer t with
  | idle => simp [Queue.producerStep, hpc] at ht
  | enqueueLoad item =>
    rw [hpc] at hok
    simp only [Queue.producerStep, hpc, Option.some.injEq] at ht
    subst ht
    exact h.goto hok (by simp [hpc]) (by simp)
  | enqueueStore item old =>
    rw [hpc] at hok
    simp only [Queue.producerStep, hpc, Option.some.injEq] at ht
    subst ht
    have hnext : (s.links.setNext item old.pointer).next item = old.pointer :=
      Function.update_self ..
    refine h.store old hok ⟨hok, hnext⟩ ?_ (by simp [hpc]) (by simp)
    intro m
    rw [hpc]
    exact hok
  | enqueueCas item old =>
    rw [hpc] at hok
    obtain ⟨hown, hnext⟩ := hok
    simp only [Queue.producerStep, hpc] at ht
    split at ht
    case isTrue hfail =>
      cases ht
      exact h.goto hown (by simp [hpc]) (by simp)
    case isFalse hwin =>
      obtain rfl : s.head = old := by
        by_contra hne
        exact hwin (.inr hne)
      cases ht
      refine h.accept hown hnext rfl ?_ (by simp [hpc])
      by_cases hinactive : s.head = .inactive
      · simp [Call.observes, hinactive, h.inactive_iff.mp hinactive]
      · have hactive : s.effects.active = true := by simpa using h.inactive_iff.not.mp hinactive
        simp [Call.observes, hinactive, hactive]
  | markLoad item =>
    rw [hpc] at hok
    simp only [Queue.producerStep, hpc, Option.some.injEq] at ht
    subst ht
    exact h.markTest hok (by simp [hpc]) s.head
  | markActive item =>
    rw [hpc] at hok
    simp only [Queue.producerStep, hpc] at ht
    split at ht
    case isTrue hfail =>
      cases ht
      exact h.markTest hok (by simp [hpc]) s.head
    case isFalse hwin =>
      cases ht
      refine h.markActive hpc ?_
      by_contra hne
      exact hwin (.inr hne)
  | markReset item =>
    simp only [Queue.producerStep, hpc, Option.some.injEq] at ht
    subst ht
    exact h.markReset hpc
  | markStore item old =>
    rw [hpc] at hok
    obtain ⟨hown, hactive⟩ := hok
    simp only [Queue.producerStep, hpc, Option.some.injEq] at ht
    subst ht
    have hnext : (s.links.setNext item old.pointer).next item = old.pointer :=
      Function.update_self ..
    refine h.store old hown ⟨hown, hnext, hactive⟩ ?_ (by simp [hpc]) (by simp)
    intro m
    rw [hpc]
    exact ⟨hown, hactive⟩
  | markCas item old =>
    rw [hpc] at hok
    obtain ⟨hown, hnext, hactive⟩ := hok
    simp only [Queue.producerStep, hpc] at ht
    split at ht
    case isTrue hfail =>
      cases ht
      exact h.markTest hown (by simp [hpc]) s.head
    case isFalse hwin =>
      obtain rfl : s.head = old := by
        by_contra hne
        exact hwin (.inr hne)
      cases ht
      refine h.accept hown hnext rfl ?_ (by simp [hpc])
      have hactive' : s.effects.active = true := by simpa using h.inactive_iff.not.mp hactive
      simp [Call.observes, hactive']

end Inv

namespace Taking

/-- What has been taken was accepted. -/
theorem length_taken_le (h : s.Taking) : s.taken.length ≤ s.effects.accepted.length := by
  have hdrained : s.effects.drained.flatten.length ≤ s.effects.accepted.length := by
    have hfifo := congrArg List.length s.effects.fifo
    rw [List.length_append] at hfifo
    omega
  have htaken : s.taken.length ≤ s.effects.drained.flatten.length := by
    rw [← h.batches, List.flatten_append, List.length_append, List.flatten_singleton]
    omega
  omega

variable {reversed : Bool} {p q : Option α} {items : List α}

theorem record_eq (h : s.Taking) (hitems : Linked s.links.next q items)
    (hlen : items.length = s.taken.length) :
    s.record reversed q = { s with batches := s.batches ++ [⟨reversed, items, s.due⟩] } := by
  have hread : readList s.links.next s.effects.accepted.length q = some items :=
    hitems.readList_eq (hlen ▸ h.length_taken_le)
  simp only [Queue.record, hread]

/-- A batch that holds what was taken accounts for what had been accepted. -/
theorem complete_concat (h : s.Taking) {b : Batch α} (hb : b.enqueued = s.taken)
    (hdue : b.due = s.due) : ∀ l b' l', s.batches ++ [b] = l ++ b' :: l' →
      b'.due ≤ ((l ++ [b']).flatMap Batch.enqueued).length := by
  intro l b' l' heq
  rcases List.eq_nil_or_concat l' with rfl | ⟨l', c, rfl⟩
  · obtain ⟨rfl, hbb⟩ := List.append_inj' heq rfl
    obtain rfl := List.singleton_inj.mp hbb
    have hflat : (s.batches ++ [b]).flatMap Batch.enqueued = s.effects.drained.flatten := by
      rw [List.flatMap_def, List.map_append, List.map_singleton, hb, h.batches]
    rw [hdue, hflat]
    exact h.due_drained
  · have heq' : s.batches ++ [b] = (l ++ b' :: l') ++ [c] := by simpa using heq
    exact h.complete l b' l' (List.append_inj' heq' rfl).1

variable [DecidableEq α]

theorem deliver (h : s.Taking) (hitems : Linked s.links.next q items)
    (henqueued : (Batch.mk reversed items s.due).enqueued = s.taken) :
    (s.deliver reversed q).Inv := by
  have hlen : items.length = s.taken.length := by
    rw [← henqueued, Batch.enqueued]
    split <;> simp
  have htaken : ∀ a ∈ s.taken, s.owner a = .consumer := fun a ha => (h.held a).mpr (.inl ha)
  simp only [Queue.deliver, h.record_eq hitems hlen]
  refine { h with
    queued := fun a => ?_
    held := fun a => ?_
    disjoint := by simp
    nodup_taken := List.nodup_nil
    producers := fun t => (h.producers t).mono fun a ha => ⟨?_, rfl⟩
    complete := h.complete_concat henqueued rfl
    consumer := rfl
    batches := by simpa [Queue.pending, henqueued] using h.batches
    due_reverse := by simp
    acquired := by simp }
  · rw [← h.queued a]
    dsimp only
    split
    case isTrue ha => simp [htaken a ha]
    case isFalse => rfl
  · have hheld := h.held a
    dsimp only
    split
    case isTrue ha => simpa using h.disjoint a ha
    case isFalse ha => simpa [ha] using hheld
  · dsimp only
    rw [if_neg, ha]
    intro hmem
    rw [htaken a hmem] at ha
    cases ha

theorem adopt (h : s.Taking) (hstack : Linked s.links.next p s.taken.reverse) (goal : Goal) :
    (s.adopt goal p).Inv := by
  cases goal with
  | stack => exact h.deliver hstack (by simp [Batch.enqueued])
  | queue =>
    exact { h with
      consumer := ⟨s.taken.reverse, [], hstack, ⟨rfl, rfl⟩, by simp [Queue.adopt]⟩
      batches := h.batches
      due_reverse := fun _ _ _ => h.due_drained
      acquired := by simp [Queue.adopt] }
  | acquire =>
    have henqueued : (Batch.mk true s.taken.reverse s.due).enqueued = s.taken := by
      simp [Batch.enqueued]
    simp only [Queue.adopt, h.record_eq hstack (List.length_reverse ..)]
    exact { h with
      complete := h.complete_concat henqueued rfl
      consumer := ⟨s.taken.reverse, [], hstack, IntrusiveList.holds_nil, by simp⟩
      batches := by simpa [Queue.pending, henqueued] using h.batches
      due_reverse := by simp
      acquired := fun _ => ⟨s.batches, _, rfl, henqueued⟩ }

end Taking

namespace Inv
variable [DecidableEq α]

/-- A dequeue whose exchange takes everything. -/
theorem exchange (h : s.Inv) (goal : Goal) (htaken : s.taken = []) (hhead : s.head ≠ .inactive)
    (hpending : s.pending = []) : (s.exchange goal).Inv := by
  have hactive : s.effects.active = true := by simpa using h.inactive_iff.not.mp hhead
  have htake : s.take.Taking := by
    refine { h with
      inactive_iff := by simp [take, hactive]
      linked := rfl
      queued := fun a => ?_
      held := fun a => ?_
      disjoint := fun a ha hmem => ?_
      nodup_taken := h.nodup_items
      producers := fun t => (h.producers t).mono fun a ha => ⟨?_, rfl⟩
      ok := by simp [take, h.ok, hhead]
      batches := ?_
      due_drained := ?_ }
    · have hqueued := h.queued a
      by_cases ha : a ∈ s.effects.items <;> simp [take, ha, hqueued]
    · have hheld := h.held a
      have hqueued := h.queued a
      by_cases ha : a ∈ s.effects.items
      · simp [take, ha]
      · simpa [take, ha, htaken] using hheld
    · have hqueue := (h.queued a).mpr ha
      rw [(h.held a).mpr (.inr hmem)] at hqueue
      cases hqueue
    · dsimp only [take]
      rw [if_neg, ha]
      intro hmem
      rw [(h.queued a).mpr hmem] at ha
      cases ha
    · have hbatches := h.batches
      rw [hpending, List.append_nil] at hbatches
      simp [take, hbatches]
    · simp only [take, InactiveQueue.length_drained]
      exact h.due_le
  exact htake.adopt h.linked goal

/-- A dequeue that has found nothing. -/
theorem adoptNothing (h : s.Inv) (goal : Goal) (htaken : s.taken = [])
    (hitems : s.effects.items = []) (hpending : s.pending = []) : (s.adoptNothing goal).Inv := by
  have hdrain : ({ s with effects := s.effects.drain } : Queue T α).Taking := by
    refine { h with
      linked := by simpa [hitems] using h.linked
      queued := fun a => by simpa [hitems] using h.queued a
      batches := ?_
      due_drained := ?_ }
    · have hbatches := h.batches
      rw [hpending, List.append_nil] at hbatches
      simp [hbatches, htaken, hitems]
    · rw [InactiveQueue.length_drained]
      exact h.due_le
  exact hdrain.adopt (by simp [htaken]) goal

omit [DecidableEq α] in
/-- The consumer goes to a place where the same list is pending. -/
theorem gotoConsumer {c : Consumer α} (h : s.Inv) (hc : c.Ok s.links s.head s.taken)
    (hold : ∀ items reversed, s.consumer ≠ .reverseItems items reversed)
    (hnew : ∀ items reversed, c ≠ .reverseItems items reversed)
    (hacquiring : c.acquiring = true → s.consumer.acquiring = true) :
    { s with consumer := c }.Inv :=
  { h with
    consumer := hc
    batches := by
      have hbatches := h.batches
      have hpending : ({ s with consumer := c } : Queue T α).pending = [] := pending_eq_nil hnew
      rw [pending_eq_nil hold] at hbatches
      rw [hpending]
      exact hbatches
    due_reverse := fun items reversed hc => absurd hc (hnew items reversed)
    acquired := fun hc => h.acquired (hacquiring hc) }

/-- `try_mark_inactive()` returns false. -/
theorem markFails (h : s.Inv) (goal : Option Goal) (htaken : s.taken = [])
    (hhead : s.head ≠ .inactive)
    (hold : ∀ items reversed, s.consumer ≠ .reverseItems items reversed) :
    (s.markFails goal).Inv := by
  have hok : (s.fault || decide (s.head = .inactive)) = false := by simp [h.ok, hhead]
  cases goal with
  | none =>
    exact { h.gotoConsumer (c := .idle) htaken hold (by simp) (by simp) with ok := hok }
  | some goal =>
    exact { h.gotoConsumer (c := .markExchange goal) ⟨htaken, hhead⟩ hold (by simp) (by simp) with
      ok := hok }

/-- `try_mark_inactive()` returns true. -/
theorem markSucceeds (h : s.Inv) (goal : Option Goal) (htaken : s.taken = [])
    (hhead : s.head = .null)
    (hold : ∀ items reversed, s.consumer ≠ .reverseItems items reversed) :
    (s.markSucceeds goal).Inv := by
  obtain ⟨hitems, hactive⟩ := h.head_eq_null.mp hhead
  have hidle := h.gotoConsumer (c := .idle) htaken hold (by simp) (by simp)
  have hmarked : ({ s with
      head := .inactive
      consumer := .idle
      effects := s.effects.markInactive } : Queue T α).Inv :=
    { hidle with
      inactive_iff := by simp [hitems]
      linked := by simp [hitems, Head.pointer]
      consumer := htaken }
  cases goal with
  | none => exact hmarked
  | some goal => exact hmarked.adoptNothing goal htaken hitems rfl

omit [DecidableEq α] in
/-- The pointers of items that were taken change. -/
theorem writeTaken {m : Links α} {items : List α} {c : Consumer α} (h : s.Inv)
    (hm : s.links.ChangedOnly items m) (hitems : ∀ a ∈ items, a ∈ s.taken)
    (hc : c.Ok m s.head s.taken)
    (hpending : ({ s with consumer := c } : Queue T α).pending = s.pending)
    (hdue : ∀ items reversed, c = .reverseItems items reversed →
      s.due ≤ s.effects.drained.flatten.length)
    (hacquiring : c.acquiring = true → s.consumer.acquiring = true) :
    { s with links := m, consumer := c }.Inv := by
  have hown : ∀ a ∈ items, s.owner a = .consumer := fun a ha => (h.held a).mpr (.inl (hitems a ha))
  refine { h with
    linked := h.linked_of_changedOnly hm fun a ha => by simp [hown a ha]
    ready := h.ready_of_changedOnly hm fun a ha => h.disjoint a (hitems a ha)
    producers := fun t => (h.producers t).mono fun a ha => ⟨ha, (hm a fun hmem => ?_).1⟩
    consumer := hc
    batches := ?_
    due_reverse := hdue
    acquired := fun hc => h.acquired (hacquiring hc) }
  · rw [hown a hmem] at ha
    cases ha
  · have hbatches := h.batches
    rw [← hpending] at hbatches
    exact hbatches

/-- One item of the loop of `reverse_items()`. -/
theorem reverseItem {rest front : List α} {items : IntrusiveStack α}
    {reversed : IntrusiveQueue α} (h : s.Inv) (hpc : s.consumer = .reverseItems items reversed)
    (hitems : items.Holds s.links (item :: rest)) (hreversed : reversed.Holds s.links front)
    (htaken : s.taken = (item :: rest).reverse ++ front) :
    { s with
      links := (reversed.pushFront s.links item).1
      consumer := .reverseItems ⟨s.links.next item⟩ (reversed.pushFront s.links item).2 }.Inv := by
  have hm : s.links.ChangedOnly [item] (reversed.pushFront s.links item).1 :=
    Links.changedOnly_setNext List.mem_cons_self _
  have hparts : (rest.reverse ++ item :: front).Nodup := by simpa [htaken] using h.nodup_taken
  have hrest : item ∉ rest := fun hmem =>
    (List.nodup_append.mp hparts).2.2 item (List.mem_reverse.mpr hmem) item
      List.mem_cons_self rfl
  have hfront : item ∉ front := (List.nodup_cons.mp (List.nodup_append.mp hparts).2.1).1
  refine h.writeTaken hm (by simp [htaken]) ⟨rest, item :: front, ?_, ?_, ?_⟩ ?_ ?_
    (by simp)
  · exact hitems.popFront.2.congr fun a ha => (hm a (by
      rintro hmem
      exact hrest (List.mem_singleton.mp hmem ▸ ha))).1
  · exact hreversed.pushFront hfront
  · simpa using htaken
  · simp [pending, hpc]
  · exact fun _ _ _ => h.due_reverse _ _ hpc

/-- One item of the loop of `acquire_remote_items()`. -/
theorem acquireItem {rest front : List α} {items : IntrusiveStack α} {list : IntrusiveList α}
    (h : s.Inv) (hpc : s.consumer = .acquireItems items list)
    (hitems : items.Holds s.links (item :: rest)) (hlist : list.Holds s.links front)
    (htaken : s.taken = (item :: rest).reverse ++ front) :
    { s with
      links := (list.pushFront s.links item).1
      consumer := .acquireItems ⟨s.links.next item⟩ (list.pushFront s.links item).2 }.Inv := by
  have hm : s.links.ChangedOnly (item :: front) (list.pushFront s.links item).1 :=
    IntrusiveList.changedOnly_pushFront hlist item
  have hparts : (rest.reverse ++ item :: front).Nodup := by simpa [htaken] using h.nodup_taken
  have hrest : ∀ a ∈ rest, a ∉ item :: front := fun a ha hmem =>
    (List.nodup_append.mp hparts).2.2 a (List.mem_reverse.mpr ha) a hmem rfl
  have hfront : item ∉ front := (List.nodup_cons.mp (List.nodup_append.mp hparts).2.1).1
  have hmoved : ∀ a ∈ item :: front, a ∈ s.taken := fun a ha => by
    rw [htaken, List.reverse_cons, List.append_assoc]
    exact List.mem_append_right _ ha
  refine h.writeTaken hm hmoved ⟨rest, item :: front, ?_, ?_, ?_⟩ ?_ (by simp)
    (by simp [hpc])
  · exact hitems.popFront.2.congr fun a ha => (hm a (hrest a ha)).1
  · exact hlist.pushFront hfront
  · simpa using htaken
  · simp [pending, hpc]

/-- `ready_to_run_queue_.append(std::move(remote_list))` -/
theorem append {list : IntrusiveList α} (h : s.Inv) (hpc : s.consumer = .append list)
    (hlist : list.Holds s.links s.taken) :
    { s with
      consumer := .idle
      links := (s.ready.append s.links list).1
      ready := (s.ready.append s.links list).2
      readyItems := s.readyItems ++ s.taken
      taken := [] }.Inv := by
  obtain ⟨hready, hm⟩ := h.ready.append hlist fun a ha hmem => h.disjoint a hmem ha
  have hown : ∀ a ∈ s.readyItems ++ s.taken, s.owner a = .consumer := fun a ha =>
    (h.held a).mpr (List.mem_append.mp ha).symm
  refine { h with
    linked := h.linked_of_changedOnly hm fun a ha => by simp [hown a ha]
    held := fun a => by simpa [or_comm] using h.held a
    disjoint := by simp
    nodup_taken := List.nodup_nil
    ready := hready
    producers := fun t => (h.producers t).mono fun a ha => ⟨ha, (hm a fun hmem => ?_).1⟩
    consumer := rfl
    batches := ?_
    due_reverse := by simp
    acquired := by simp }
  · rw [hown a hmem] at ha
    cases ha
  · have hbatches := h.batches
    rw [pending_eq_nil (by simp [hpc])] at hbatches
    exact hbatches

theorem consumerStep (h : s.Inv) (ht : s.consumerStep = some s') : s'.Inv := by
  have hok := h.consumer
  cases hpc : s.consumer with
  | idle => simp [Queue.consumerStep, hpc] at ht
  | isInactive =>
    rw [hpc] at hok
    simp only [Queue.consumerStep, hpc, Option.some.injEq] at ht
    subst ht
    split
    case isTrue => exact h.gotoConsumer hok (by simp [hpc]) (by simp) (by simp)
    case isFalse hhead => exact h.gotoConsumer ⟨hok, hhead⟩ (by simp [hpc]) (by simp) (by simp)
  | dequeueLoad goal =>
    rw [hpc] at hok
    simp only [Queue.consumerStep, hpc] at ht
    split at ht
    case isTrue hhead =>
      cases ht
      exact h.adoptNothing goal hok.1 (h.head_eq_null.mp hhead).1
        (pending_eq_nil (by simp [hpc]))
    case isFalse =>
      cases ht
      exact h.gotoConsumer hok (by simp [hpc]) (by simp) (by simp)
  | dequeueExchange goal | markExchange goal =>
    rw [hpc] at hok
    simp only [Queue.consumerStep, hpc, Option.some.injEq] at ht
    subst ht
    exact h.exchange goal hok.1 hok.2 (pending_eq_nil (by simp [hpc]))
  | markLoad goal =>
    rw [hpc] at hok
    simp only [Queue.consumerStep, hpc] at ht
    split at ht
    case isTrue =>
      cases ht
      exact h.gotoConsumer hok (by simp [hpc]) (by simp) (by simp)
    case isFalse =>
      cases ht
      exact h.markFails goal hok.1 hok.2 (by simp [hpc])
  | markCas goal =>
    rw [hpc] at hok
    simp only [Queue.consumerStep, hpc] at ht
    split at ht
    case isTrue hhead =>
      cases ht
      exact h.markSucceeds goal hok.1 hhead (by simp [hpc])
    case isFalse =>
      cases ht
      exact h.markFails goal hok.1 hok.2 (by simp [hpc])
  | reverseItems items reversed =>
    rw [hpc] at hok
    obtain ⟨rest, front, hitems, hreversed, htaken⟩ := hok
    cases rest with
    | nil =>
      have hpop : items.popFront s.links = none := by
        rw [IntrusiveStack.popFront, Linked.nil_iff.mp hitems]
        rfl
      simp only [Queue.consumerStep, hpc, hpop, Option.some.injEq] at ht
      subst ht
      have hbatches : s.batches.map Batch.enqueued ++ [s.taken] = s.effects.drained := by
        have hbatches := h.batches
        rwa [pending, hpc] at hbatches
      have htaking : s.Taking :=
        { h with batches := hbatches, due_drained := h.due_reverse _ _ hpc }
      exact htaking.deliver hreversed.forward (by simpa [Batch.enqueued] using htaken.symm)
    | cons item rest =>
      simp only [Queue.consumerStep, hpc, hitems.popFront.1, Option.some.injEq] at ht
      subst ht
      exact h.reverseItem hpc hitems hreversed htaken
  | acquireItems items list =>
    rw [hpc] at hok
    obtain ⟨rest, front, hitems, hlist, htaken⟩ := hok
    cases rest with
    | nil =>
      have hpop : items.popFront s.links = none := by
        rw [IntrusiveStack.popFront, Linked.nil_iff.mp hitems]
        rfl
      simp only [Queue.consumerStep, hpc, hpop, Option.some.injEq] at ht
      subst ht
      obtain rfl : s.taken = front := by simpa using htaken
      exact h.gotoConsumer hlist (by simp [hpc]) (by simp) (by simp [hpc])
    | cons item rest =>
      simp only [Queue.consumerStep, hpc, hitems.popFront.1, Option.some.injEq] at ht
      subst ht
      exact h.acquireItem hpc hitems hlist htaken
  | append list =>
    rw [hpc] at hok
    simp only [Queue.consumerStep, hpc, Option.some.injEq] at ht
    subst ht
    exact h.append hpc hok

variable [DecidableEq T]

/-- A producer starts a call with an item of the client. -/
theorem start {p : Producer α} (h : s.Inv) (hpc : s.producer t = .idle)
    (hown : s.owner item = .client)
    (hp : p.Ok s.links (Function.update s.owner item (.producer t)) t)
    (hnew : ∀ item, p ≠ .markReset item) :
    { s.goto t p with owner := Function.update s.owner item (.producer t) }.Inv := by
  have howned : ({ s with owner := Function.update s.owner item (.producer t) } : Queue T α).Inv :=
    h.own (by simp [hown]) (by simp [hown]) (by simp) (by simp) fun t' => by
      by_cases ht : t' = t
      · subst ht
        simp [hpc, Producer.Ok]
      · exact h.others (t := t) (by simp [hown]) (fun _ _ => rfl) ht
  exact howned.goto hp (by simp [hpc]) hnew

omit [DecidableEq T] in
/-- The consumer starts a call. -/
theorem call {c : Consumer α} (h : s.Inv) (ht : s.call c = some s')
    (hc : s.taken = [] → s.head ≠ .inactive → c.Ok s.links s.head s.taken)
    (hnew : ∀ items reversed, c ≠ .reverseItems items reversed)
    (hacquiring : c.acquiring = true → s.consumer.acquiring = true) : s'.Inv := by
  simp only [Queue.call] at ht
  split at ht
  case isTrue hen =>
    cases ht
    have hok := h.consumer
    rw [hen.1] at hok
    exact { h.gotoConsumer (hc hok hen.2) (by simp [hen.1]) hnew hacquiring with
      due_le := Nat.le_refl _
      due_reverse := fun items reversed hc => absurd hc (hnew items reversed) }
  case isFalse => cases ht

omit [DecidableEq T] in
/-- An item of the client or of `ready_to_run_queue_` passes from one to the other. -/
theorem schedule {m : Links α} {ready : IntrusiveList α} {items : List α} {o : Owner T}
    (h : s.Inv) (hidle : s.consumer = .idle) (hready : ready.Holds m items)
    (hm : s.links.ChangedOnly (item :: s.readyItems) m)
    (hown : s.owner item = .client ∨ item ∈ s.readyItems)
    (ho : o = .client ∧ item ∉ items ∨ o = .consumer ∧ item ∈ items)
    (hitems : ∀ a, a ≠ item → (a ∈ items ↔ a ∈ s.readyItems)) :
    { s with
      links := m
      ready := ready
      owner := Function.update s.owner item o
      readyItems := items }.Inv := by
  have htaken : s.taken = [] := by
    have hok := h.consumer
    rwa [hidle] at hok
  have hchanged : ∀ a ∈ item :: s.readyItems, s.owner a = .client ∨ s.owner a = .consumer := by
    intro a ha
    rcases List.mem_cons.mp ha with rfl | ha
    · exact hown.imp_right fun hmem => (h.held a).mpr (.inr hmem)
    · exact .inr ((h.held a).mpr (.inr ha))
  have hitem := hchanged item List.mem_cons_self
  refine { h with
    linked := h.linked_of_changedOnly hm fun a ha => by
      rcases hchanged a ha with hown | hown <;> simp [hown]
    queued := fun a => ?_
    held := fun a => ?_
    disjoint := by simp [htaken]
    ready := hready
    producers := fun t => (h.producers t).mono fun a ha => ?_
    consumer := by
      rw [hidle]
      exact htaken }
  · by_cases ha : a = item
    · subst ha
      have hnot : a ∉ s.effects.items := by
        rw [← h.queued a]
        rcases hitem with hitem | hitem <;> simp [hitem]
      rcases ho with ⟨rfl, -⟩ | ⟨rfl, -⟩ <;> simp [hnot]
    · simp only [Function.update_of_ne ha]
      exact h.queued a
  · by_cases ha : a = item
    · subst ha
      rcases ho with ⟨rfl, hmem⟩ | ⟨rfl, hmem⟩ <;> simp [htaken, hmem]
    · simp only [Function.update_of_ne ha]
      rw [h.held a, hitems a ha]
  · have hnot : a ∉ item :: s.readyItems := fun hmem => by
      rcases hchanged a hmem with hown | hown <;> rw [hown] at ha <;> cases ha
    have hne : a ≠ item := fun heq => hnot (heq ▸ List.mem_cons_self)
    exact ⟨(Function.update_of_ne hne _ _).trans ha, (hm a hnot).1⟩

theorem step {a : Act T α} (h : s.Inv) (ht : s.step a = some s') : s'.Inv := by
  cases a with
  | enqueue t item =>
    simp only [Queue.step] at ht
    split at ht
    case isTrue hen =>
      cases ht
      exact h.start hen.1 hen.2 (Function.update_self ..) (by simp)
    case isFalse => cases ht
  | enqueueOrMarkActive t item =>
    simp only [Queue.step] at ht
    split at ht
    case isTrue hen =>
      cases ht
      exact h.start hen.1 hen.2 (Function.update_self ..) (by simp)
    case isFalse => cases ht
  | producer t spurious => exact h.producerStep ht
  | dequeueAll | dequeueAllReversed | tryMarkInactive | tryMarkInactiveOrDequeueAll
  | tryMarkInactiveOrDequeueReversed =>
    exact h.call ht (fun htaken hhead => ⟨htaken, hhead⟩) (by simp) (by simp)
  | acquireRemoteItems =>
    simp only [Queue.step] at ht
    split at ht
    case isTrue hen =>
      cases ht
      have hok := h.consumer
      rw [hen] at hok
      exact { h.gotoConsumer (c := .isInactive) hok (by simp [hen]) (by simp) (by simp) with
        due_le := Nat.le_refl _
        due_reverse := by simp }
    case isFalse => cases ht
  | consumer => exact h.consumerStep ht
  | write item next prev =>
    simp only [Queue.step] at ht
    split at ht
    case isTrue hown =>
      cases ht
      have hm : s.links.ChangedOnly [item] ((s.links.setNext item next).setPrev item prev) :=
        (Links.changedOnly_setNext List.mem_cons_self _).trans
          (Links.changedOnly_setPrev List.mem_cons_self _)
      refine h.write hm (by simp [hown]) fun t => (h.producers t).mono fun a ha => ⟨ha, (hm a ?_).1⟩
      intro hmem
      rw [List.mem_singleton.mp hmem, hown] at ha
      cases ha
    case isFalse => cases ht
  | pushReady item =>
    simp only [Queue.step] at ht
    split at ht
    case isTrue hen =>
      obtain ⟨hidle, hown⟩ := hen
      cases ht
      have hnot : item ∉ s.readyItems := fun hmem => by
        rw [(h.held item).mpr (.inr hmem)] at hown
        cases hown
      exact h.schedule hidle (h.ready.pushBack hnot)
        (IntrusiveList.changedOnly_pushBack h.ready item) (.inl hown) (.inr ⟨rfl, by simp⟩)
        fun a ha => by simp [ha]
    case isFalse => cases ht
  | popReady =>
    simp only [Queue.step] at ht
    split at ht
    case isTrue hidle =>
      have hready := h.ready
      have hnodup := h.ready.forward.nodup
      cases hitems : s.readyItems with
      | nil =>
        rw [hitems] at hready
        have hnone : s.ready.head = none := hready.forward
        simp [IntrusiveList.popFront, hnone] at ht
      | cons item rest =>
        rw [hitems] at hready hnodup
        obtain ⟨m, l, hpop, hholds, hm⟩ := hready.popFront
        rw [hpop, Option.map_some, Option.some.injEq] at ht
        subst ht
        have hnot : item ∉ rest := (List.nodup_cons.mp hnodup).1
        have hmore : s.links.ChangedOnly (item :: s.readyItems) m := fun a ha =>
          hm a fun hmem => ha (by simp [hitems, hmem])
        have hrest : s.readyItems.tail = rest := by rw [hitems, List.tail_cons]
        refine h.schedule hidle (hrest ▸ hholds) hmore (.inr (by simp [hitems]))
          (.inl ⟨rfl, hrest ▸ hnot⟩) fun a ha => ?_
        simp [hitems, ha]
    case isFalse => cases ht
  | removeReady item =>
    simp only [Queue.step] at ht
    split at ht
    case isTrue hen =>
      obtain ⟨hidle, hmem⟩ := hen
      cases ht
      obtain ⟨front, back, hitems⟩ := List.append_of_mem hmem
      have hready := h.ready
      have hnodup := h.ready.forward.nodup
      rw [hitems] at hready
      have hfront : item ∉ front := fun hmem => by
        rw [hitems] at hnodup
        exact (List.nodup_append.mp hnodup).2.2 item hmem item List.mem_cons_self rfl
      have herase : s.readyItems.erase item = front ++ back := by
        rw [hitems, List.erase_append_right _ hfront, List.erase_cons_head]
      have hmore : s.links.ChangedOnly (item :: s.readyItems) (s.ready.remove s.links item).1 :=
        fun a ha => IntrusiveList.changedOnly_remove hready a fun hmem => ha (by
          rw [hitems]
          simp only [List.mem_cons, List.mem_append] at hmem ⊢
          tauto)
      exact h.schedule hidle (herase ▸ hready.remove) hmore (.inr hmem)
        (.inl ⟨rfl, hnodup.not_mem_erase⟩) fun a ha => List.mem_erase_of_ne ha
    case isFalse => cases ht

end Inv
end Squiz.AtomicIntrusiveQueue.Queue
