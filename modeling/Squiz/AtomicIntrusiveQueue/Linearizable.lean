import Squiz.AtomicIntrusiveQueue.Protocol
import Squiz.Lib.Linearizability

/-! `atomic_intrusive_queue` and the consumer's `ready_to_run_queue_` are linearizable. -/
namespace Squiz.AtomicIntrusiveQueue
open Squiz.Lib Squiz.Detail

/-- The methods of the queue, and what its consumer does with `ready_to_run_queue_`. -/
inductive QueueOp (α : Type) where
  | enqueue (item : α)
  | enqueueOrMarkActive (item : α)
  | dequeueAll
  | dequeueAllReversed
  | tryMarkInactive
  | tryMarkInactiveOrDequeueAll
  | tryMarkInactiveOrDequeueReversed
  | acquireRemoteItems
  | pushReady (item : α)
  | popReady
  | removeReady (item : α)
  deriving DecidableEq

inductive QueueRet (α : Type) where
  | nothing
  | bool (b : Bool)
  | item (a : α)
  /-- the items that are linked in a list, if it has an end -/
  | items (l : Option (List α))
  deriving DecidableEq

/-- A queue and a list, without threads or links. -/
structure Contents (α : Type) where
  items : List α := []
  active : Bool := true
  ready : List α := []

variable {T α : Type} [DecidableEq T] [DecidableEq α]

namespace Contents
variable (c : Contents α)

/-- A method of the consumer, which requires that the queue is not inactive. -/
def whileActive (result : Contents α × QueueRet α) : Option (Contents α × QueueRet α) :=
  if c.active then some result else none

/-- The items are taken out, or the queue becomes inactive if there are none. -/
def markInactiveOrTake : Contents α :=
  if c.items = [] then { c with active := false } else { c with items := [] }

def apply : QueueOp α → Option (Contents α × QueueRet α)
  | .enqueue item => some ({ c with items := c.items ++ [item], active := true }, .bool !c.active)
  | .enqueueOrMarkActive item =>
    if c.active then some ({ c with items := c.items ++ [item] }, .bool true)
    else some ({ c with active := true }, .bool false)
  | .dequeueAll => c.whileActive ({ c with items := [] }, .items c.items)
  | .dequeueAllReversed => c.whileActive ({ c with items := [] }, .items c.items.reverse)
  | .tryMarkInactive =>
    c.whileActive
      (if c.items = [] then ({ c with active := false }, .bool true) else (c, .bool false))
  | .tryMarkInactiveOrDequeueAll => c.whileActive (c.markInactiveOrTake, .items c.items)
  | .tryMarkInactiveOrDequeueReversed =>
    c.whileActive (c.markInactiveOrTake, .items c.items.reverse)
  | .acquireRemoteItems => some ({ c with items := [], ready := c.ready ++ c.items }, .nothing)
  | .pushReady item => some ({ c with ready := c.ready ++ [item] }, .nothing)
  | .popReady =>
    match c.ready with
    | [] => none
    | item :: ready => some ({ c with ready := ready }, .item item)
  | .removeReady item =>
    if item ∈ c.ready then some ({ c with ready := c.ready.erase item }, .nothing) else none

end Contents

variable (α) in
/-- The queue as it is meant. -/
def queueObject : SequentialObject (QueueOp α) (QueueRet α) := ⟨Contents α, {}, Contents.apply⟩

/-- What a dequeue is called for. -/
def Goal.dequeue {α : Type} : Goal → QueueOp α
  | .stack => .dequeueAllReversed
  | .queue => .dequeueAll
  | .acquire => .acquireRemoteItems

def Goal.mark {α : Type} : Option Goal → QueueOp α
  | none => .tryMarkInactive
  | some .stack => .tryMarkInactiveOrDequeueReversed
  | some _ => .tryMarkInactiveOrDequeueAll

/-- The calls and returns of the producers and of the consumer, which is thread `none`. -/
abbrev QueueEvent (T α : Type) := Event (Option T) (QueueOp α) (QueueRet α)

namespace Queue

/-- The items in the list from `p` on. -/
def read (s : Queue T α) (p : Option α) : QueueRet α :=
  .items (readList s.links.next s.effects.accepted.length p)

/-- A stack that was taken for the caller is returned at once. -/
def taking (s : Queue T α) (goal : Goal) (p : Option α) : List (QueueEvent T α) :=
  match goal with
  | .stack => [.ret none (s.read p)]
  | _ => []

/-- The returns in a step of a producer. -/
def producerEvents (s : Queue T α) (t : T) (spurious : Bool) : List (QueueEvent T α) :=
  match s.producer t with
  | .enqueueCas _ old =>
    if spurious ∨ s.head ≠ old then [] else [.ret (some t) (.bool (decide (old = .inactive)))]
  | .markReset _ => [.ret (some t) (.bool false)]
  | .markCas _ old => if spurious ∨ s.head ≠ old then [] else [.ret (some t) (.bool true)]
  | _ => []

/-- The returns in a step of the consumer. -/
def consumerEvents (s : Queue T α) : List (QueueEvent T α) :=
  match s.consumer with
  | .isInactive => if s.head = .inactive then [.ret none .nothing] else []
  | .dequeueLoad goal => if s.head = .null then s.taking goal none else []
  | .dequeueExchange goal | .markExchange goal => s.taking goal s.head.pointer
  | .markLoad none => if s.head = .null then [] else [.ret none (.bool false)]
  | .markCas none => [.ret none (.bool (decide (s.head = .null)))]
  | .markCas (some goal) => if s.head = .null then s.taking goal none else []
  | .reverseItems items reversed =>
    match items.head with
    | none => [.ret none (s.read reversed.head)]
    | some _ => []
  | .append _ => [.ret none .nothing]
  | _ => []

/-- The calls and returns of a step. -/
def events (s : Queue T α) : Act T α → List (QueueEvent T α)
  | .enqueue t item => [.call (some t) (.enqueue item)]
  | .enqueueOrMarkActive t item => [.call (some t) (.enqueueOrMarkActive item)]
  | .producer t spurious => s.producerEvents t spurious
  | .dequeueAll => [.call none .dequeueAll]
  | .dequeueAllReversed => [.call none .dequeueAllReversed]
  | .tryMarkInactive => [.call none .tryMarkInactive]
  | .tryMarkInactiveOrDequeueAll => [.call none .tryMarkInactiveOrDequeueAll]
  | .tryMarkInactiveOrDequeueReversed => [.call none .tryMarkInactiveOrDequeueReversed]
  | .acquireRemoteItems => [.call none .acquireRemoteItems]
  | .consumer => s.consumerEvents
  | .write _ _ _ => []
  | .pushReady item => [.call none (.pushReady item), .ret none .nothing]
  | .popReady =>
    match s.ready.head with
    | none => []
    | some item => [.call none .popReady, .ret none (.item item)]
  | .removeReady item => [.call none (.removeReady item), .ret none .nothing]

end Queue

/-! The queue refines the sequential object: a producer's call takes effect with its last
compare-exchange, a dequeue with the access that takes the items or finds that there are none. -/

def Producer.status {α : Type} : Producer α → Status (QueueOp α) (QueueRet α)
  | .idle => .idle
  | .enqueueLoad item | .enqueueStore item _ | .enqueueCas item _ => .called (.enqueue item)
  | .markLoad item | .markActive item | .markStore item _ | .markCas item _ =>
    .called (.enqueueOrMarkActive item)
  | .markReset _ => .done (.bool false)

def Consumer.status {α : Type} (taken : List α) : Consumer α → Status (QueueOp α) (QueueRet α)
  | .idle => .idle
  | .isInactive => .called .acquireRemoteItems
  | .dequeueLoad goal | .dequeueExchange goal => .called goal.dequeue
  | .markLoad goal | .markCas goal => .called (Goal.mark goal)
  | .markExchange goal => .called (Goal.mark (some goal))
  | .reverseItems _ _ => .done (.items (some taken))
  | .acquireItems _ _ | .append _ => .done .nothing

/-- A queue that could not be marked inactive has items. -/
def Consumer.Settled {α : Type} (head : Head α) : Consumer α → Prop
  | .markLoad goal | .markCas goal => goal ≠ some .acquire
  | .markExchange goal => goal ≠ .acquire ∧ head ≠ .null
  | _ => True

namespace Queue
variable {s s' : Queue T α} {x : Option T} {t : T} {op : QueueOp α} {r : QueueRet α}

def contents (s : Queue T α) : Contents α where
  items := s.effects.items
  active := s.effects.active
  ready := s.readyItems ++ if s.consumer.acquiring then s.taken else []

/-- The object, and how far the calls are. -/
def abstract (s : Queue T α) : (queueObject α).Atomic (Option T) where
  state := s.contents
  status
    | some t => (s.producer t).status
    | none => s.consumer.status s.taken

/-- The step is one of the object, with these events. -/
def Matches (s s' : Queue T α) (events : List (QueueEvent T α)) : Prop :=
  ∃ bs, ((queueObject α).atomic (Option T)).run s.abstract bs = some s'.abstract ∧
    bs.flatMap SequentialObject.AtomicAct.events = events

theorem status_producer {p : Producer α} (hp : s'.producer = Function.update s.producer t p)
    (hc : s'.consumer.status s'.taken = s.consumer.status s.taken) :
    s'.abstract.status = Function.update s.abstract.status (some t) p.status := by
  funext y
  cases y with
  | none =>
    rw [Function.update_of_ne (by simp)]
    exact hc
  | some u =>
    simp only [abstract, hp]
    by_cases hu : u = t
    · subst hu
      simp only [Function.update_self]
    · rw [Function.update_of_ne hu, Function.update_of_ne (by simpa using hu)]

theorem status_consumer (hp : s'.producer = s.producer) :
    s'.abstract.status =
      Function.update s.abstract.status none (s'.consumer.status s'.taken) := by
  funext y
  cases y with
  | none => rw [Function.update_self]; rfl
  | some u =>
    rw [Function.update_of_ne (by simp)]
    simp only [abstract, hp]

theorem status_idle (hp : s'.producer = s.producer) (hc : s'.consumer = .idle) :
    s'.abstract.status = Function.update s.abstract.status none .idle := by
  rw [status_consumer hp, hc]
  rfl

omit [DecidableEq T] in
theorem abstract_eq {contents : Contents α} {status : Option T → Status (QueueOp α) (QueueRet α)}
    (hcontents : s'.contents = contents) (hstatus : s'.abstract.status = status) :
    s'.abstract = { state := contents, status := status } := by
  subst hcontents hstatus
  rfl

namespace Matches

theorem stutter (hcontents : s'.contents = s.contents)
    (hstatus : s'.abstract.status = s.abstract.status) : Matches s s' [] :=
  ⟨[], congrArg some (abstract_eq hcontents hstatus).symm, rfl⟩

theorem effect (hcalled : s.abstract.status x = .called op)
    (hop : s.contents.apply op = some (s'.contents, r))
    (hstatus : s'.abstract.status = Function.update s.abstract.status x (.done r)) :
    Matches s s' [] :=
  ⟨[.effect x], (SequentialObject.Atomic.run_effect hcalled hop).trans
    (congrArg some (abstract_eq rfl hstatus).symm), rfl⟩

theorem effect_ret (hcalled : s.abstract.status x = .called op)
    (hop : s.contents.apply op = some (s'.contents, r))
    (hstatus : s'.abstract.status = Function.update s.abstract.status x .idle) :
    Matches s s' [.ret x r] :=
  ⟨[.effect x, .ret x r], (SequentialObject.Atomic.run_effect_ret hcalled hop).trans
    (congrArg some (abstract_eq rfl hstatus).symm), rfl⟩

theorem ret (hdone : s.abstract.status x = .done r) (hcontents : s'.contents = s.contents)
    (hstatus : s'.abstract.status = Function.update s.abstract.status x .idle) :
    Matches s s' [.ret x r] :=
  ⟨[.ret x r], (SequentialObject.Atomic.run_ret hdone).trans
    (congrArg some (abstract_eq hcontents hstatus).symm), rfl⟩

theorem call (hidle : s.abstract.status x = .idle) (hcontents : s'.contents = s.contents)
    (hstatus : s'.abstract.status = Function.update s.abstract.status x (.called op)) :
    Matches s s' [.call x op] :=
  ⟨[.call x op], (SequentialObject.Atomic.run_call hidle).trans
    (congrArg some (abstract_eq hcontents hstatus).symm), rfl⟩

theorem call_effect_ret (hidle : s.abstract.status x = .idle)
    (hop : s.contents.apply op = some (s'.contents, r))
    (hstatus : s'.abstract.status = Function.update s.abstract.status x .idle) :
    Matches s s' [.call x op, .ret x r] :=
  ⟨[.call x op, .effect x, .ret x r],
    (SequentialObject.Atomic.run_call_effect_ret hidle hop).trans
      (congrArg some (abstract_eq rfl hstatus).symm), rfl⟩

end Matches

theorem goto_matches {p : Producer α} {m : Links α} (hp : p.status = (s.producer t).status) :
    Matches s { s.goto t p with links := m } [] := by
  have hstatus : ({ s.goto t p with links := m } : Queue T α).abstract.status =
      Function.update s.abstract.status (some t) p.status := status_producer rfl rfl
  refine .stutter rfl (hstatus.trans ?_)
  rw [hp]
  exact Function.update_eq_self (some t) s.abstract.status

theorem markTest_matches {item : α} {old : Head α}
    (hcalled : (s.producer t).status = .called (.enqueueOrMarkActive item)) :
    Matches s (s.goto t (markTest item old)) [] := by
  refine goto_matches (m := s.links) ?_
  rw [hcalled]
  unfold markTest
  split <;> rfl

theorem accept_matches {c : Call T α} (hcalled : (s.producer c.thread).status = .called op)
    (hop : s.contents.apply op = some ((s.accept c).contents, r)) :
    Matches s (s.accept c) [.ret (some c.thread) r] :=
  .effect_ret hcalled hop (status_producer (s := s) (t := c.thread) (p := .idle) rfl rfl)

theorem producerStep_matches (h : s.Inv) {spurious : Bool}
    (ht : s.producerStep t spurious = some s') : Matches s s' (s.producerEvents t spurious) := by
  have hok := h.producers t
  cases hpc : s.producer t with
  | idle => simp [producerStep, hpc] at ht
  | enqueueLoad item =>
    simp only [producerStep, hpc, Option.some.injEq] at ht
    subst ht
    simp only [producerEvents, hpc]
    exact goto_matches (by rw [hpc]; rfl)
  | enqueueStore item old =>
    simp only [producerStep, hpc, Option.some.injEq] at ht
    subst ht
    simp only [producerEvents, hpc]
    exact goto_matches (by rw [hpc]; rfl)
  | enqueueCas item old =>
    simp only [producerStep, hpc] at ht
    simp only [producerEvents, hpc]
    split_ifs at ht ⊢ with hfails
    · cases ht
      exact goto_matches (by rw [hpc]; rfl)
    · cases ht
      obtain ⟨-, hhead⟩ := not_or.mp hfails
      have hinactive : decide (old = .inactive) = !s.effects.active := by
        rw [← not_not.mp hhead]
        cases hactive : s.effects.active <;> simp [h.inactive_iff, hactive]
      rw [hinactive]
      exact accept_matches (by rw [hpc]; rfl) rfl
  | markLoad item =>
    simp only [producerStep, hpc, Option.some.injEq] at ht
    subst ht
    simp only [producerEvents, hpc]
    exact markTest_matches (by rw [hpc]; rfl)
  | markActive item =>
    simp only [producerStep, hpc] at ht
    simp only [producerEvents, hpc]
    split_ifs at ht with hfails
    · cases ht
      exact markTest_matches (by rw [hpc]; rfl)
    · cases ht
      have hactive := h.inactive_iff.mp (not_not.mp (not_or.mp hfails).2)
      have hcalled : s.abstract.status (some t) = .called (.enqueueOrMarkActive item) := by
        change (s.producer t).status = _
        rw [hpc]
        rfl
      refine .effect (r := .bool false) hcalled ?_
        (status_producer (s := s) (t := t) (p := .markReset item) rfl rfl)
      simp only [contents, Contents.apply, hactive, Bool.false_eq_true, if_false,
        InactiveQueue.markActive]
      rfl
  | markReset item =>
    simp only [producerStep, hpc, Option.some.injEq] at ht
    subst ht
    simp only [producerEvents, hpc]
    have hdone : s.abstract.status (some t) = .done (.bool false) := by
      change (s.producer t).status = _
      rw [hpc]
      rfl
    exact .ret hdone rfl (status_producer (s := s) (t := t) (p := .idle) rfl rfl)
  | markStore item old =>
    simp only [producerStep, hpc, Option.some.injEq] at ht
    subst ht
    simp only [producerEvents, hpc]
    exact goto_matches (by rw [hpc]; rfl)
  | markCas item old =>
    simp only [producerStep, hpc] at ht
    simp only [producerEvents, hpc]
    split_ifs at ht ⊢ with hfails
    · cases ht
      exact markTest_matches (by rw [hpc]; rfl)
    · cases ht
      rw [hpc] at hok
      have hhead : s.head ≠ .inactive := by
        rw [not_not.mp (not_or.mp hfails).2]
        exact hok.2.2
      have hactive : s.effects.active = true := by simpa using h.inactive_iff.not.mp hhead
      have hcalled : (s.producer t).status = .called (.enqueueOrMarkActive item) := by
        rw [hpc]
        rfl
      refine accept_matches hcalled ?_
      simp only [contents, Contents.apply, hactive, if_true, accept, InactiveQueue.enqueue_items,
        InactiveQueue.enqueue_active]
      rfl

omit [DecidableEq T] [DecidableEq α] in
@[simp] theorem record_producer (reversed : Bool) (p : Option α) :
    (s.record reversed p).producer = s.producer := by
  unfold record
  split <;> rfl

omit [DecidableEq T] [DecidableEq α] in
@[simp] theorem record_readyItems (reversed : Bool) (p : Option α) :
    (s.record reversed p).readyItems = s.readyItems := by
  unfold record
  split <;> rfl

omit [DecidableEq T] [DecidableEq α] in
@[simp] theorem record_taken (reversed : Bool) (p : Option α) :
    (s.record reversed p).taken = s.taken := by
  unfold record
  split <;> rfl

omit [DecidableEq T] [DecidableEq α] in
/-- The lists are as long as what has been accepted allows. -/
theorem read_eq {p : Option α} {items : List α} (h : Linked s.links.next p items)
    (hlen : items.length ≤ s.effects.accepted.length) : s.read p = .items (some items) :=
  congrArg QueueRet.items (h.readList_eq hlen)

omit [DecidableEq T] in
theorem consumer_status {c : Consumer α} (hpc : s.consumer = c) :
    s.abstract.status none = c.status s.taken := by
  rw [← hpc]
  rfl

omit [DecidableEq T] [DecidableEq α] in
theorem contents_eq (h : s.consumer.acquiring = false) : s.contents =
    { items := s.effects.items, active := s.effects.active, ready := s.readyItems } := by
  simp only [contents, h, Bool.false_eq_true, if_false, List.append_nil]

omit [DecidableEq T] [DecidableEq α] in
theorem consumer_contents {c : Consumer α} (hc : c.acquiring = s.consumer.acquiring) :
    ({ s with consumer := c } : Queue T α).contents = s.contents := by
  simp only [contents, hc]

theorem consumer_matches {c : Consumer α} (hc : c.acquiring = s.consumer.acquiring)
    (hstatus : c.status s.taken = s.consumer.status s.taken) :
    Matches s { s with consumer := c } [] := by
  have hupdate : ({ s with consumer := c } : Queue T α).abstract.status =
      Function.update s.abstract.status none (c.status s.taken) := status_consumer rfl
  refine .stutter (consumer_contents hc) (hupdate.trans ?_)
  rw [hstatus]
  exact Function.update_eq_self none s.abstract.status

end Queue

/-- What a dequeue moves to `ready_to_run_queue_`. -/
def Goal.acquired {α : Type} (taken : List α) : Goal → List α
  | .acquire => taken
  | _ => []

def Goal.ret {α : Type} (taken : List α) : Goal → QueueRet α
  | .stack => .items (some taken.reverse)
  | .queue => .items (some taken)
  | .acquire => .nothing

namespace Queue
variable {s s' u : Queue T α} {op : QueueOp α} {goal : Goal} {p : Option α}

omit [DecidableEq T] in
theorem adopt_contents : (u.adopt goal p).contents =
    { items := u.effects.items
      active := u.effects.active
      ready := u.readyItems ++ goal.acquired u.taken } := by
  cases goal <;> simp [adopt, deliver, contents, Goal.acquired]

omit [DecidableEq T] in
@[simp] theorem adopt_producer : (u.adopt goal p).producer = u.producer := by
  cases goal <;> simp [adopt, deliver]

/-- A dequeue takes effect when it has what it returns. -/
theorem adopt_matches (hp : u.producer = s.producer) (hread : s.read p = u.read p)
    (hstack : Linked u.links.next p u.taken.reverse)
    (hlen : u.taken.length ≤ u.effects.accepted.length)
    (hcalled : s.abstract.status none = .called op)
    (hop : s.contents.apply op = some ((u.adopt goal p).contents, goal.ret u.taken)) :
    Matches s (u.adopt goal p) (s.taking goal p) := by
  have hstatus : (u.adopt goal p).abstract.status = Function.update s.abstract.status none
      ((u.adopt goal p).consumer.status (u.adopt goal p).taken) :=
    status_consumer (adopt_producer.trans hp)
  cases goal with
  | stack =>
    simp only [taking, hread, read_eq hstack (by simpa using hlen)]
    exact .effect_ret hcalled hop hstatus
  | queue => exact .effect hcalled hop hstatus
  | acquire =>
    refine .effect hcalled hop (hstatus.trans ?_)
    rfl

omit [DecidableEq T] [DecidableEq α] in
theorem length_items_le : s.effects.items.length ≤ s.effects.accepted.length := by
  rw [← s.effects.fifo, List.length_append]
  exact Nat.le_add_left ..

/-- A dequeue that has found nothing. -/
theorem adoptNothing_matches (hu : u.producer = s.producer)
    (hread : s.read none = u.read none) (htaken : u.taken = [])
    (hcalled : s.abstract.status none = .called op)
    (hop : s.contents.apply op = some ((u.adoptNothing goal).contents, goal.ret [])) :
    Matches s (u.adoptNothing goal) (s.taking goal none) := by
  have hret : goal.ret [] = goal.ret u.taken := by rw [htaken]
  rw [hret] at hop
  exact adopt_matches hu hread (by simp [htaken]) (by simp [htaken]) hcalled hop

/-- A dequeue whose exchange takes everything. -/
theorem exchange_matches (h : s.Inv) (hcalled : s.abstract.status none = .called op)
    (hop : s.contents.apply op = some ((s.exchange goal).contents, goal.ret s.effects.items)) :
    Matches s (s.exchange goal) (s.taking goal s.head.pointer) :=
  adopt_matches rfl rfl h.linked length_items_le hcalled hop

/-- What a call that could not mark the queue inactive returns at once. -/
def failing (goal : Option Goal) : List (QueueEvent T α) :=
  match goal with
  | none => [.ret none (.bool false)]
  | some _ => []

/-- `try_mark_inactive()` returns false where the queue has items. -/
theorem markFails_matches {goal : Option Goal} (h : s.Inv)
    (hcalled : s.abstract.status none = .called (Goal.mark goal))
    (hactive : s.effects.active = true) (hhead : s.head ≠ .null)
    (hacquiring : s.consumer.acquiring = false) : Matches s (s.markFails goal) (failing goal) := by
  have hitems : s.effects.items ≠ [] := fun hnil => hhead (h.head_eq_null.mpr ⟨hnil, hactive⟩)
  cases goal with
  | none =>
    refine .effect_ret hcalled ?_ (status_consumer rfl)
    rw [contents_eq hacquiring]
    simp [contents, Contents.apply, Contents.whileActive, Goal.mark, markFails, hactive, hitems]
  | some goal =>
    have hstatus : (s.markFails (some goal)).abstract.status =
        Function.update s.abstract.status none (.called (Goal.mark (some goal))) :=
      status_consumer rfl
    refine .stutter ?_ (hstatus.trans ?_)
    · rw [contents_eq hacquiring]
      simp [contents, markFails]
    · rw [← hcalled]
      exact Function.update_eq_self none s.abstract.status

/-- What a call that has marked the queue inactive returns at once. -/
def succeeding (s : Queue T α) (goal : Option Goal) : List (QueueEvent T α) :=
  match goal with
  | none => [.ret none (.bool true)]
  | some goal => s.taking goal none

theorem markSucceeds_matches {goal : Option Goal} (h : s.Inv)
    (hcalled : s.abstract.status none = .called (Goal.mark goal)) (hhead : s.head = .null)
    (htaken : s.taken = []) (hgoal : goal ≠ some .acquire)
    (hacquiring : s.consumer.acquiring = false) :
    Matches s (s.markSucceeds goal) (s.succeeding goal) := by
  obtain ⟨hitems, hactive⟩ := h.head_eq_null.mp hhead
  cases goal with
  | none =>
    refine .effect_ret hcalled ?_ (status_consumer rfl)
    rw [contents_eq hacquiring]
    simp [contents, Contents.apply, Contents.whileActive, Goal.mark, markSucceeds, hactive, hitems]
  | some goal =>
    refine adoptNothing_matches rfl rfl htaken hcalled ?_
    rw [adoptNothing, adopt_contents, contents_eq hacquiring]
    cases goal with
    | acquire => exact absurd rfl hgoal
    | _ =>
      simp [Contents.apply, Contents.whileActive, Contents.markInactiveOrTake, Goal.mark,
        Goal.ret, Goal.acquired, hactive, hitems]

theorem consumerStep_matches (h : s.Inv) (hsettled : s.consumer.Settled s.head)
    (ht : s.consumerStep = some s') : Matches s s' s.consumerEvents := by
  have hok := h.consumer
  cases hpc : s.consumer with
  | idle => simp [consumerStep, hpc] at ht
  | isInactive =>
    have hcalled : s.abstract.status none = .called .acquireRemoteItems :=
      consumer_status hpc
    simp only [consumerStep, hpc, Option.some.injEq] at ht
    subst ht
    simp only [consumerEvents, hpc]
    split_ifs with hhead
    · have hitems : s.effects.items = [] := s.effects.empty (h.inactive_iff.mp hhead)
      refine .effect_ret hcalled ?_ (status_consumer rfl)
      simp [contents, Contents.apply, hitems, hpc]
    · exact consumer_matches (by simp [hpc]) (by rw [hpc]; rfl)
  | dequeueLoad goal =>
    rw [hpc] at hok
    have hactive : s.effects.active = true := by simpa using h.inactive_iff.not.mp hok.2
    have hcalled : s.abstract.status none = .called goal.dequeue :=
      consumer_status hpc
    simp only [consumerStep, hpc] at ht
    simp only [consumerEvents, hpc]
    split_ifs at ht ⊢ with hhead
    · cases ht
      have hitems := (h.head_eq_null.mp hhead).1
      refine adoptNothing_matches rfl rfl hok.1 hcalled ?_
      rw [adoptNothing, adopt_contents]
      cases goal <;>
        simp [contents, Contents.apply, Contents.whileActive, Goal.dequeue, Goal.ret,
          Goal.acquired, hactive, hitems, hok.1, hpc]
    · cases ht
      exact consumer_matches (by simp [hpc]) (by rw [hpc]; rfl)
  | dequeueExchange goal =>
    rw [hpc] at hok
    have hactive : s.effects.active = true := by simpa using h.inactive_iff.not.mp hok.2
    have hcalled : s.abstract.status none = .called goal.dequeue :=
      consumer_status hpc
    simp only [consumerStep, hpc, Option.some.injEq] at ht
    subst ht
    simp only [consumerEvents, hpc]
    refine exchange_matches h hcalled ?_
    rw [exchange, adopt_contents]
    cases goal <;>
      simp [contents, Contents.apply, Contents.whileActive, Goal.dequeue, Goal.ret,
        Goal.acquired, take, hactive, hpc]
  | markExchange goal =>
    rw [hpc] at hok hsettled
    obtain ⟨hgoal, hhead⟩ := hsettled
    have hactive : s.effects.active = true := by simpa using h.inactive_iff.not.mp hok.2
    have hitems : s.effects.items ≠ [] := fun hnil => hhead (h.head_eq_null.mpr ⟨hnil, hactive⟩)
    have hcalled : s.abstract.status none = .called (Goal.mark (some goal)) :=
      consumer_status hpc
    simp only [consumerStep, hpc, Option.some.injEq] at ht
    subst ht
    simp only [consumerEvents, hpc]
    refine exchange_matches h hcalled ?_
    rw [exchange, adopt_contents]
    cases goal with
    | acquire => exact absurd rfl hgoal
    | _ =>
      simp [contents, Contents.apply, Contents.whileActive, Contents.markInactiveOrTake,
        Goal.mark, Goal.ret, Goal.acquired, take, hactive, hitems, hpc]
  | markLoad goal =>
    rw [hpc] at hok
    have hactive : s.effects.active = true := by simpa using h.inactive_iff.not.mp hok.2
    simp only [consumerStep, hpc] at ht
    split_ifs at ht with hhead
    · cases ht
      have hevents : s.consumerEvents = [] := by
        cases goal <;> simp [consumerEvents, hpc, hhead]
      rw [hevents]
      exact consumer_matches (by simp [hpc]) (by rw [hpc]; rfl)
    · cases ht
      have hevents : s.consumerEvents = failing goal := by
        cases goal <;> simp [consumerEvents, failing, hpc, hhead]
      rw [hevents]
      exact markFails_matches h (consumer_status hpc) hactive hhead (by simp [hpc])
  | markCas goal =>
    rw [hpc] at hok hsettled
    have hactive : s.effects.active = true := by simpa using h.inactive_iff.not.mp hok.2
    simp only [consumerStep, hpc] at ht
    split_ifs at ht with hhead
    · cases ht
      have hevents : s.consumerEvents = s.succeeding goal := by
        cases goal <;> simp [consumerEvents, succeeding, hpc, hhead]
      rw [hevents]
      exact markSucceeds_matches h (consumer_status hpc) hhead hok.1 hsettled (by simp [hpc])
    · cases ht
      have hevents : s.consumerEvents = failing goal := by
        cases goal <;> simp [consumerEvents, failing, hpc, hhead]
      rw [hevents]
      exact markFails_matches h (consumer_status hpc) hactive hhead (by simp [hpc])
  | reverseItems items reversed =>
    rw [hpc] at hok
    obtain ⟨rest, front, hitems, hreversed, htaken⟩ := hok
    cases rest with
    | nil =>
      have hhead : items.head = none := Linked.nil_iff.mp hitems
      have htaking : s.Taking :=
        { h with
          batches := by simpa only [pending, hpc] using h.batches
          due_drained := h.due_reverse _ _ hpc }
      have hread : s.read reversed.head = .items (some s.taken) := by
        obtain rfl : s.taken = front := by simpa using htaken
        exact read_eq hreversed.forward htaking.length_taken_le
      simp only [consumerStep, hpc, IntrusiveStack.popFront, hhead, Option.map_none,
        Option.some.injEq] at ht
      subst ht
      simp only [consumerEvents, hpc, hhead, hread]
      refine .ret (consumer_status hpc) ?_ (status_consumer (by simp [deliver]))
      simp [contents, deliver, hpc]
    | cons item rest =>
      simp only [consumerStep, hpc, hitems.popFront.1, Option.some.injEq] at ht
      subst ht
      have hhead : items.head = some item := hitems.1
      simp only [consumerEvents, hpc, hhead]
      exact consumer_matches (by simp [hpc]) (by rw [hpc]; rfl)
  | acquireItems items list =>
    simp only [consumerEvents, hpc]
    simp only [consumerStep, hpc] at ht
    split at ht
    · cases ht
      exact consumer_matches (by simp [hpc]) (by rw [hpc]; rfl)
    · cases ht
      exact consumer_matches (by simp [hpc]) (by rw [hpc]; rfl)
  | append list =>
    simp only [consumerStep, hpc, Option.some.injEq] at ht
    subst ht
    simp only [consumerEvents, hpc]
    refine .ret (consumer_status hpc) ?_ (status_consumer rfl)
    simp [contents, hpc]

/-- A producer leaves an active queue that has items with items. -/
theorem producerStep_settled {spurious : Bool} (h : s.Inv) (hsettled : s.consumer.Settled s.head)
    (ht : s.producerStep t spurious = some s') : s'.consumer.Settled s'.head := by
  have hstep : s'.consumer = s.consumer ∧
      (s.head ≠ .inactive → s.head ≠ .null → s'.head ≠ .null) := by
    cases hpc : s.producer t with
    | idle => simp [producerStep, hpc] at ht
    | enqueueCas item old | markCas item old =>
      simp only [producerStep, hpc] at ht
      split at ht <;> cases ht
      · exact ⟨rfl, fun _ hnull => hnull⟩
      · exact ⟨rfl, by simp [accept]⟩
    | markActive item =>
      simp only [producerStep, hpc] at ht
      split_ifs at ht with hfails <;> cases ht
      · exact ⟨rfl, fun _ hnull => hnull⟩
      · exact ⟨rfl, fun hactive => absurd (not_not.mp (not_or.mp hfails).2) hactive⟩
    | _ =>
      simp only [producerStep, hpc, Option.some.injEq] at ht
      subst ht
      exact ⟨rfl, fun _ hnull => hnull⟩
  have hok := h.consumer
  rw [hstep.1]
  cases hpc : s.consumer with
  | markExchange goal =>
    rw [hpc] at hok hsettled
    exact ⟨hsettled.1, hstep.2 hok.2 hsettled.2⟩
  | markLoad goal | markCas goal =>
    rw [hpc] at hsettled
    exact hsettled
  | _ => trivial

omit [DecidableEq T] in
theorem adopt_settled {head : Head α} : (u.adopt goal p).consumer.Settled head := by
  cases goal <;> trivial

omit [DecidableEq T] in
theorem markFails_settled {goal : Option Goal} (hgoal : goal ≠ some .acquire)
    (hhead : s.head ≠ .null) : (s.markFails goal).consumer.Settled s.head := by
  cases goal with
  | none => trivial
  | some goal => exact ⟨fun heq => hgoal (congrArg some heq), hhead⟩

omit [DecidableEq T] in
theorem consumerStep_settled (hsettled : s.consumer.Settled s.head)
    (ht : s.consumerStep = some s') : s'.consumer.Settled s'.head := by
  cases hpc : s.consumer with
  | idle => simp [consumerStep, hpc] at ht
  | isInactive =>
    simp only [consumerStep, hpc, Option.some.injEq] at ht
    subst ht
    dsimp only
    split <;> trivial
  | dequeueLoad goal =>
    simp only [consumerStep, hpc] at ht
    split at ht <;> cases ht
    · exact adopt_settled
    · trivial
  | dequeueExchange goal | markExchange goal =>
    simp only [consumerStep, hpc, Option.some.injEq] at ht
    subst ht
    exact adopt_settled
  | markLoad goal =>
    rw [hpc] at hsettled
    simp only [consumerStep, hpc] at ht
    split_ifs at ht with hhead <;> cases ht
    · exact hsettled
    · exact markFails_settled hsettled hhead
  | markCas goal =>
    rw [hpc] at hsettled
    simp only [consumerStep, hpc] at ht
    split_ifs at ht with hhead <;> cases ht
    · cases goal with
      | none => trivial
      | some goal => exact adopt_settled
    · exact markFails_settled hsettled hhead
  | reverseItems items reversed | acquireItems items list =>
    simp only [consumerStep, hpc] at ht
    split at ht <;> cases ht <;> trivial
  | append list =>
    simp only [consumerStep, hpc, Option.some.injEq] at ht
    subst ht
    trivial

theorem step_settled {a : Act T α} (h : s.Inv) (hsettled : s.consumer.Settled s.head)
    (ht : s.step a = some s') : s'.consumer.Settled s'.head := by
  cases a with
  | producer t spurious => exact producerStep_settled h hsettled ht
  | consumer => exact consumerStep_settled hsettled ht
  | popReady =>
    simp only [step] at ht
    split at ht
    case isTrue =>
      obtain ⟨_, _, rfl⟩ := Option.map_eq_some_iff.mp ht
      exact hsettled
    case isFalse => cases ht
  | enqueue t item | enqueueOrMarkActive t item | write item next prev | pushReady item
  | removeReady item =>
    simp only [step] at ht
    split at ht <;> cases ht
    exact hsettled
  | dequeueAll | dequeueAllReversed | acquireRemoteItems =>
    simp only [step, call] at ht
    split at ht <;> cases ht
    trivial
  | tryMarkInactive | tryMarkInactiveOrDequeueAll | tryMarkInactiveOrDequeueReversed =>
    simp only [step, call] at ht
    split at ht <;> cases ht
    simp [Consumer.Settled]

/-- The consumer calls a method. -/
theorem call_matches {c : Consumer α} (hidle : s.consumer = .idle)
    (hc : c.status s.taken = .called op) (hacquiring : c.acquiring = false) :
    Matches s { s with consumer := c, due := s.effects.accepted.length } [.call none op] := by
  have hstatus : ({ s with consumer := c, due := s.effects.accepted.length } :
      Queue T α).abstract.status = Function.update s.abstract.status none (c.status s.taken) :=
    status_consumer rfl
  rw [hc] at hstatus
  exact .call (consumer_status hidle) (consumer_contents (by rw [hacquiring, hidle]; rfl)) hstatus

/-- A thread calls a method with an item of the client. -/
theorem start_matches {producer : Producer α} {owner : α → Owner T} (hidle : s.producer t = .idle)
    (hproducer : producer.status = .called op) :
    Matches s { s.goto t producer with owner := owner } [.call (some t) op] := by
  have hstatus : ({ s.goto t producer with owner := owner } : Queue T α).abstract.status =
      Function.update s.abstract.status (some t) producer.status := status_producer rfl rfl
  rw [hproducer] at hstatus
  have hcalled : s.abstract.status (some t) = .idle := by
    change (s.producer t).status = _
    rw [hidle]
    rfl
  exact .call hcalled rfl hstatus

theorem step_matches {a : Act T α} (h : s.Inv) (hsettled : s.consumer.Settled s.head)
    (ht : s.step a = some s') : Matches s s' (s.events a) := by
  cases a with
  | producer t spurious => exact producerStep_matches h ht
  | consumer => exact consumerStep_matches h hsettled ht
  | enqueue t item | enqueueOrMarkActive t item =>
    simp only [step] at ht
    split_ifs at ht with hen
    cases ht
    exact start_matches hen.1 rfl
  | dequeueAll | dequeueAllReversed | tryMarkInactive | tryMarkInactiveOrDequeueAll
  | tryMarkInactiveOrDequeueReversed =>
    simp only [step, call] at ht
    split_ifs at ht with hen
    cases ht
    exact call_matches hen.1 rfl rfl
  | acquireRemoteItems =>
    simp only [step] at ht
    split_ifs at ht with hidle
    cases ht
    exact call_matches hidle rfl rfl
  | write item next prev =>
    simp only [step] at ht
    split_ifs at ht
    cases ht
    exact .stutter rfl rfl
  | pushReady item =>
    simp only [step] at ht
    split_ifs at ht with hen
    cases ht
    refine .call_effect_ret (consumer_status hen.1) ?_ ?_
    · simp [contents, Contents.apply, hen.1]
    · exact status_idle rfl hen.1
  | popReady =>
    simp only [step] at ht
    split_ifs at ht with hidle
    have hready := h.ready
    cases hitems : s.readyItems with
    | nil =>
      rw [hitems] at hready
      have hnone : s.ready.head = none := hready.forward
      simp [IntrusiveList.popFront, hnone] at ht
    | cons item rest =>
      rw [hitems] at hready
      have hsome : s.ready.head = some item := hready.forward.1
      obtain ⟨m, l, hpop, -, -⟩ := hready.popFront
      rw [hpop, Option.map_some, Option.some.injEq] at ht
      subst ht
      simp only [events, hsome]
      refine .call_effect_ret (consumer_status hidle) ?_ ?_
      · simp [contents, Contents.apply, hidle, hitems]
      · exact status_idle rfl hidle
  | removeReady item =>
    simp only [step] at ht
    split_ifs at ht with hen
    cases ht
    refine .call_effect_ret (consumer_status hen.1) ?_ ?_
    · simp [contents, Contents.apply, hen.1, hen.2]
    · exact status_idle rfl hen.1

/-- Whatever the threads do, their calls take effect one at a time, each between its call and its
return. -/
theorem linearizable {history : List (QueueEvent T α)} {s : Queue T α}
    (hs : (system T α).Produces events history s) : (queueObject α).Linearizable history := by
  refine ⟨s.abstract, (hs.map (P := fun s => s.Inv ∧ s.consumer.Settled s.head) ?_ ?_ ?_ ?_).2⟩
  · exact abstract_eq rfl (funext fun t => by cases t <;> rfl)
  · exact ⟨inv_init, trivial⟩
  · exact fun s a t h ht => ⟨h.1.step ht, step_settled h.1 h.2 ht⟩
  · exact fun s a t h ht => step_matches h.1 h.2 ht

/-- The calls of two threads overlap, and the later one takes effect first. -/
theorem linearizable_run : (queueObject ℕ).Linearizable (T := Option ℕ)
    [.call (some 0) (.enqueue 5), .call (some 1) (.enqueueOrMarkActive 6),
      .ret (some 1) (.bool true), .ret (some 0) (.bool false), .call none .dequeueAll,
      .ret none (.items (some [6, 5]))] := by
  obtain ⟨s, hs, -⟩ : ∃ s, (system ℕ ℕ).Produces events
      [.call (some 0) (.enqueue 5), .call (some 1) (.enqueueOrMarkActive 6),
        .ret (some 1) (.bool true), .ret (some 0) (.bool false), .call none .dequeueAll,
        .ret none (.items (some [6, 5]))] s ∧ true = true :=
    System.exists_produces
      [.enqueue 0 5, .producer 0 false, .producer 0 false, .enqueueOrMarkActive 1 6,
        .producer 1 false, .producer 1 false, .producer 1 false, .producer 0 false,
        .producer 0 false, .producer 0 false, .dequeueAll, .consumer, .consumer, .consumer,
        .consumer, .consumer]
      (fun _ => true) (by decide +kernel) (by decide +kernel)
  exact linearizable hs

end Queue

end Squiz.AtomicIntrusiveQueue
