import Squiz.Detail.IntrusiveList
import Squiz.Lib.InactiveQueue
import Squiz.Lib.System

/-! `atomic_intrusive_queue`: any number of producer threads, one consumer and the
`ready_to_run_queue_` to which `acquire_remote_items()` moves the items. -/
namespace Squiz.AtomicIntrusiveQueue
open Squiz.Lib Squiz.Detail

/-- `head_`: null, `inactive_value()` or the item enqueued last. -/
inductive Head (α : Type) where
  | null
  | inactive
  | item (a : α)
  deriving DecidableEq

/-- `(old_head == inactive) ? nullptr : static_cast<Item*>(old_head)` -/
def Head.pointer {α : Type} : Head α → Option α
  | .item a => some a
  | _ => none

/-- The next access to memory of a producer. -/
inductive Producer (α : Type) where
  | idle
  | enqueueLoad (item : α)
  | enqueueStore (item : α) (old : Head α)
  | enqueueCas (item : α) (old : Head α)
  | markLoad (item : α)
  /-- `compare_exchange_weak(old_head, nullptr)` in `enqueue_or_mark_active()` -/
  | markActive (item : α)
  | markReset (item : α)
  | markStore (item : α) (old : Head α)
  | markCas (item : α) (old : Head α)
  deriving DecidableEq

/-- The loop of `enqueue_or_mark_active()` for the `old_head` it has read. -/
def markTest {α : Type} [DecidableEq α] (item : α) (old : Head α) : Producer α :=
  if old = .inactive then .markActive item else .markStore item old

/-- What becomes of the stack that a dequeue has taken. -/
inductive Goal where
  /-- it is returned -/
  | stack
  /-- `reverse_items()` -/
  | queue
  /-- `acquire_remote_items()` -/
  | acquire
  deriving DecidableEq

/-- The next access to memory of the consumer. -/
inductive Consumer (α : Type) where
  | idle
  | isInactive
  | dequeueLoad (goal : Goal)
  | dequeueExchange (goal : Goal)
  /-- `try_mark_inactive()`, of which `none` is a call of its own -/
  | markLoad (goal : Option Goal)
  | markCas (goal : Option Goal)
  | markExchange (goal : Goal)
  /-- the loop of `reverse_items()` -/
  | reverseItems (items : IntrusiveStack α) (reversed : IntrusiveQueue α)
  /-- the loop of `acquire_remote_items()` -/
  | acquireItems (items : IntrusiveStack α) (list : IntrusiveList α)
  | append (list : IntrusiveList α)
  deriving DecidableEq

/-- Who may access the members of an item. -/
inductive Owner (T : Type) where
  | client
  | producer (t : T)
  | queue
  | consumer
  deriving DecidableEq

/-- What a call has returned: `enqueue_or_mark_active()` where `mark` holds, or else `enqueue()`. -/
structure Call (T α : Type) where
  thread : T
  item : α
  mark : Bool
  result : Bool

/-- The call has enqueued its item. -/
def Call.accepts {T α : Type} (c : Call T α) : Bool := !c.mark || c.result

/-- The call reports that the queue was inactive. -/
def Call.observes {T α : Type} (c : Call T α) : Bool := c.mark != c.result

/-- What a dequeue has returned. -/
structure Batch (α : Type) where
  reversed : Bool
  /-- as they are linked in the list returned -/
  items : List α
  /-- how many items had been accepted when it was called -/
  due : ℕ
  deriving DecidableEq

/-- The items in the order in which they should have been enqueued. -/
def Batch.enqueued {α : Type} (b : Batch α) : List α :=
  if b.reversed then b.items.reverse else b.items

structure Queue (T α : Type) where
  /-- `head_` -/
  head : Head α := .null
  links : Links α := {}
  producer : T → Producer α := fun _ => .idle
  consumer : Consumer α := .idle
  /-- `ready_to_run_queue_` -/
  ready : IntrusiveList α := {}
  owner : α → Owner T := fun _ => .client
  /-- the queue as the effects of the calls so far make it -/
  effects : InactiveQueue α := .initial
  calls : List (Call T α) := []
  /-- the threads that made the queue active and have not returned -/
  marking : List T := []
  batches : List (Batch α) := []
  /-- how many items had been accepted when the consumer's call began -/
  due : ℕ := 0
  /-- what the dequeue in progress has taken, in the order of the calls that enqueued it -/
  taken : List α := []
  /-- what `ready_to_run_queue_` should hold -/
  readyItems : List α := []
  /-- an assertion failed or a list had no end -/
  fault : Bool := false

variable {T α : Type} [DecidableEq T] [DecidableEq α]

namespace Queue

def goto (s : Queue T α) (t : T) (p : Producer α) : Queue T α :=
  { s with producer := Function.update s.producer t p }

/-- The new head is the item, and the call returns. -/
def accept (s : Queue T α) (c : Call T α) : Queue T α :=
  { s.goto c.thread .idle with
    head := .item c.item
    owner := Function.update s.owner c.item .queue
    effects := s.effects.enqueue c.item
    calls := s.calls ++ [c] }

/-- One step of a call of a producer, where `spurious` fails a weak compare-exchange. -/
def producerStep (s : Queue T α) (t : T) (spurious : Bool) : Option (Queue T α) :=
  match s.producer t with
  | .idle => none
  | .enqueueLoad item => some (s.goto t (.enqueueStore item s.head))
  | .enqueueStore item old =>
    some { s.goto t (.enqueueCas item old) with links := s.links.setNext item old.pointer }
  | .enqueueCas item old =>
    if spurious ∨ s.head ≠ old then some (s.goto t (.enqueueStore item s.head))
    else some (s.accept ⟨t, item, false, decide (old = .inactive)⟩)
  | .markLoad item => some (s.goto t (markTest item s.head))
  | .markActive item =>
    if spurious ∨ s.head ≠ .inactive then some (s.goto t (markTest item s.head))
    else some { s.goto t (.markReset item) with
      head := .null
      effects := s.effects.markActive
      marking := t :: s.marking }
  | .markReset item =>
    some { s.goto t .idle with
      links := s.links.setNext item none
      owner := Function.update s.owner item .client
      calls := s.calls ++ [⟨t, item, true, false⟩]
      marking := s.marking.erase t }
  | .markStore item old =>
    some { s.goto t (.markCas item old) with links := s.links.setNext item old.pointer }
  | .markCas item old =>
    if spurious ∨ s.head ≠ old then some (s.goto t (markTest item s.head))
    else some (s.accept ⟨t, item, true, true⟩)

/-- Notes what the list from `p` on holds as returned by a dequeue. -/
def record (s : Queue T α) (reversed : Bool) (p : Option α) : Queue T α :=
  match readList s.links.next s.effects.accepted.length p with
  | some items => { s with batches := s.batches ++ [⟨reversed, items, s.due⟩] }
  | none => { s with fault := true }

/-- Returns the list to the caller, to whom its items now belong. -/
def deliver (s : Queue T α) (reversed : Bool) (p : Option α) : Queue T α :=
  { s.record reversed p with
    consumer := .idle
    owner := fun a => if a ∈ s.taken then .client else s.owner a
    taken := [] }

/-- Goes on with the stack that was taken. -/
def adopt (s : Queue T α) (goal : Goal) (p : Option α) : Queue T α :=
  match goal with
  | .stack => s.deliver true p
  | .queue => { s with consumer := .reverseItems ⟨p⟩ {} }
  | .acquire => { s.record true p with consumer := .acquireItems ⟨p⟩ {} }

/-- Goes on where a dequeue has found nothing. -/
def adoptNothing (s : Queue T α) (goal : Goal) : Queue T α :=
  adopt { s with effects := s.effects.drain } goal none

/-- `head_.exchange(nullptr)` -/
def take (s : Queue T α) : Queue T α :=
  { s with
    head := .null
    owner := fun a => if a ∈ s.effects.items then .consumer else s.owner a
    effects := s.effects.drain
    taken := s.effects.items
    fault := s.fault || decide (s.head = .inactive) }

def exchange (s : Queue T α) (goal : Goal) : Queue T α := s.take.adopt goal s.head.pointer

/-- `try_mark_inactive()` returns false. -/
def markFails (s : Queue T α) (goal : Option Goal) : Queue T α :=
  { s with
    consumer := match goal with
      | none => .idle
      | some goal => .markExchange goal
    fault := s.fault || decide (s.head = .inactive) }

/-- `try_mark_inactive()` returns true. -/
def markSucceeds (s : Queue T α) (goal : Option Goal) : Queue T α :=
  let s' : Queue T α := { s with
    head := .inactive
    consumer := .idle
    effects := s.effects.markInactive }
  match goal with
  | none => s'
  | some goal => s'.adoptNothing goal

/-- One step of a call of the consumer. -/
def consumerStep (s : Queue T α) : Option (Queue T α) :=
  match s.consumer with
  | .idle => none
  | .isInactive =>
    some { s with consumer := if s.head = .inactive then .idle else .dequeueLoad .acquire }
  | .dequeueLoad goal =>
    if s.head = .null then some (s.adoptNothing goal)
    else some { s with consumer := .dequeueExchange goal }
  | .dequeueExchange goal | .markExchange goal => some (s.exchange goal)
  | .markLoad goal =>
    if s.head = .null then some { s with consumer := .markCas goal }
    else some (s.markFails goal)
  | .markCas goal =>
    if s.head = .null then some (s.markSucceeds goal) else some (s.markFails goal)
  | .reverseItems items reversed =>
    match items.popFront s.links with
    | none => some (s.deliver false reversed.head)
    | some (item, items) =>
      let (links, reversed) := reversed.pushFront s.links item
      some { s with links := links, consumer := .reverseItems items reversed }
  | .acquireItems items list =>
    match items.popFront s.links with
    | none => some { s with consumer := .append list }
    | some (item, items) =>
      let (links, list) := list.pushFront s.links item
      some { s with links := links, consumer := .acquireItems items list }
  | .append list =>
    let (links, ready) := s.ready.append s.links list
    some { s with
      consumer := .idle
      links := links
      ready := ready
      readyItems := s.readyItems ++ s.taken
      taken := [] }

/-- The consumer calls a method that requires that the queue is not inactive. -/
def call (s : Queue T α) (consumer : Consumer α) : Option (Queue T α) :=
  if s.consumer = .idle ∧ s.head ≠ .inactive then
    some { s with consumer := consumer, due := s.effects.accepted.length }
  else none

end Queue

inductive Act (T α : Type) where
  | enqueue (t : T) (item : α)
  | enqueueOrMarkActive (t : T) (item : α)
  | producer (t : T) (spurious : Bool)
  | dequeueAll
  | dequeueAllReversed
  | tryMarkInactive
  | tryMarkInactiveOrDequeueAll
  | tryMarkInactiveOrDequeueReversed
  | acquireRemoteItems
  | consumer
  /-- the client changes the pointers of an item that is its own -/
  | write (item : α) (next prev : Option α)
  /-- `schedule_now_local()` -/
  | pushReady (item : α)
  | popReady
  /-- `remove_local()` -/
  | removeReady (item : α)

namespace Queue

def step (s : Queue T α) : Act T α → Option (Queue T α)
  | .enqueue t item =>
    if s.producer t = .idle ∧ s.owner item = .client then
      some { s.goto t (.enqueueLoad item) with owner := Function.update s.owner item (.producer t) }
    else none
  | .enqueueOrMarkActive t item =>
    if s.producer t = .idle ∧ s.owner item = .client then
      some { s.goto t (.markLoad item) with owner := Function.update s.owner item (.producer t) }
    else none
  | .producer t spurious => s.producerStep t spurious
  | .dequeueAll => s.call (.dequeueLoad .queue)
  | .dequeueAllReversed => s.call (.dequeueLoad .stack)
  | .tryMarkInactive => s.call (.markLoad none)
  | .tryMarkInactiveOrDequeueAll => s.call (.markLoad (some .queue))
  | .tryMarkInactiveOrDequeueReversed => s.call (.markLoad (some .stack))
  | .acquireRemoteItems =>
    if s.consumer = .idle then
      some { s with consumer := .isInactive, due := s.effects.accepted.length }
    else none
  | .consumer => s.consumerStep
  | .write item next prev =>
    if s.owner item = .client then
      some { s with links := (s.links.setNext item next).setPrev item prev }
    else none
  | .pushReady item =>
    if s.consumer = .idle ∧ s.owner item = .client then
      let (links, ready) := s.ready.pushBack s.links item
      some { s with
        links := links
        ready := ready
        owner := Function.update s.owner item .consumer
        readyItems := s.readyItems ++ [item] }
    else none
  | .popReady =>
    if s.consumer = .idle then
      (s.ready.popFront s.links).map fun (item, links, ready) =>
        { s with
          links := links
          ready := ready
          owner := Function.update s.owner item .client
          readyItems := s.readyItems.tail }
    else none
  | .removeReady item =>
    if s.consumer = .idle ∧ item ∈ s.readyItems then
      let (links, ready) := s.ready.remove s.links item
      some { s with
        links := links
        ready := ready
        owner := Function.update s.owner item .client
        readyItems := s.readyItems.erase item }
    else none

variable (T α) in
def system : System (Queue T α) (Act T α) where
  init := {}
  step := step

end Queue
end Squiz.AtomicIntrusiveQueue
