import Squiz.LinuxOS.IoUringOperation.Context

/-! The queues of an `iouring_context`, which link its operations through pointers inside of them:
what is pushed, popped and removed, for any number of operations at once. -/
namespace Squiz.LinuxOS.IoUringOperation
open Squiz.Lib

structure Queues (A : Type) where
  /-- the operation-states, the rings and the kernel -/
  context : Context A := {}
  /-- `remote_queue_`, in the order in which `acquire_remote_items()` moves the items -/
  remote : List A := []
  /-- `ready_to_run_queue_` -/
  ready : List A := []
  /-- `waiting_for_sqes_queue_` -/
  waiting : List A := []
  /-- `waiting_for_cancel_sqes_queue_` -/
  waitingForCancel : List A := []
  /-- `remote_stop_queue_`, in the order in which the items were enqueued -/
  remoteStop : List A := []
  /-- the local variable of `execute_remote_stop_items()` -/
  stopItems : List A := []
  /-- which object's receiver was completed, and how -/
  delivered : List (ℕ × Signal) := []
  /-- an item was pushed that is linked already, one was removed from a queue that it is not in, or
  one was popped whose operation is not there or not waiting in that queue -/
  fault : Bool := false

inductive QueuesAct (A : Type) where
  | create (a : A)
  | destroy (a : A)
  /-- a call of the operation's `start()` or `request_stop()`, or the next step of a thread that is
  in one of its functions -/
  | op (a : A) (act : Act)
  | submitWakeUp
  | receive
  | complete (i : ℕ) (cqe : Cqe)
  | process
  /-- `acquire_remote_items()`, where it finds any -/
  | acquireRemoteItems
  /-- the next item of the ready queue is executed -/
  | runReady
  /-- `execute_remote_stop_items()` dequeues all items, where there are any -/
  | dequeueStopItems
  /-- and executes the next one -/
  | runStop
  /-- `execute_pending_sqe_submission_tasks()` pops the next item of a queue -/
  | runCancel
  | runWaiting

/-- A step of the context, or of a thread that is in a function of an operation. The kernel decides
when it completes a request, and nothing calls `execute_pending_sqe_submission_tasks()`. -/
def QueuesAct.internal {A : Type} : QueuesAct A → Bool
  | .op _ act =>
    match act with
    | .io _ | .remote => true
    | _ => false
  | .receive | .process | .acquireRemoteItems | .runReady | .dequeueStopItems | .runStop => true
  | _ => false

/-- The function is called for an item that the I/O thread finds in a queue or in a CQE. -/
def Act.fromQueue : Act → Bool
  | .acquire | .runReady | .runWaiting | .runCancel | .runStop | .cqe _ => true
  | _ => false

/-- `acquire_remote_items()`, as each of the operations sees it. -/
def Context.acquireRemoteItems {A : Type} (c : Context A) : Context A :=
  { c with
    objects := fun a => (c.objects a).map fun object =>
      { object with op := object.op.acquireRemoteItems } }

namespace Queues
variable {A : Type} [DecidableEq A] (q : Queues A) (a : A)

/-- The item is in a queue that uses its `next`. -/
def linked : Bool := decide (a ∈ q.remote ++ q.ready ++ q.waiting)

/-- The item is in a queue that uses its `stoppable_next`. -/
def stopLinked : Bool := decide (a ∈ q.waitingForCancel ++ q.stopItems ++ q.remoteStop)

def acquire : Queues A :=
  { q with
    context := q.context.acquireRemoteItems
    remote := []
    ready := q.ready ++ q.remote }

/-- What the operation at `a` does to the queues with its next step. -/
def link (op : Op) : Act → Queues A
  | .io space =>
    match op.io with
    | .trySubmit =>
      if space then q
      else { q with waiting := q.waiting ++ [a], fault := q.fault || q.linked a }
    | .tryCancel =>
      if space then q
      else { q with
        waitingForCancel := q.waitingForCancel ++ [a]
        fault := q.fault || q.stopLinked a }
    | .acquire => q.acquire
    | .removeLocal =>
      { q with ready := q.ready.erase a, fault := q.fault || decide (a ∉ q.ready) }
    | .removeWaiting =>
      { q with waiting := q.waiting.erase a, fault := q.fault || decide (a ∉ q.waiting) }
    | _ => q
  | .remote =>
    match op.remote with
    | .startEnqueue => { q with remote := q.remote ++ [a], fault := q.fault || q.linked a }
    | .stopEnqueue =>
      { q with remoteStop := q.remoteStop ++ [a], fault := q.fault || q.stopLinked a }
    | _ => q
  | _ => q

/-- The operation at `a` takes a step. -/
def opStep (act : Act) (object : Object) : Option (Queues A) :=
  (q.context.step (.op a act)).map fun c =>
    let completions := (c.objects a).elim [] fun object => object.op.completions
    { { q with context := c }.link a object.op act with
      delivered := q.delivered ++
        (completions.drop object.op.completions.length).map fun signal => (object.id, signal) }

/-- Calls the function of an item that was popped. -/
def call (act : Act) : Queues A :=
  match q.context.step (.op a act) with
  | some c => { q with context := c }
  | none => { q with fault := true }

/-- A step of the rings, the kernel or the owners of the operations. -/
def contextStep (act : ContextAct A) : Option (Queues A) :=
  (q.context.step act).map fun c => { q with context := c }

def step (q : Queues A) : QueuesAct A → Option (Queues A)
  | .create a => q.contextStep (.create a)
  | .destroy a => q.contextStep (.destroy a)
  | .op a act => if act.fromQueue then none else (q.context.objects a).bind (q.opStep a act)
  | .submitWakeUp => q.contextStep .submitWakeUp
  | .receive => q.contextStep .receive
  | .complete i cqe => q.contextStep (.complete i cqe)
  | .process => q.contextStep .process
  | .acquireRemoteItems =>
    if q.context.busy = none ∧ q.remote ≠ [] then some q.acquire else none
  | .runReady =>
    match q.ready with
    | [] => none
    | a :: ready =>
      if q.context.busy = none then some ({ q with ready := ready }.call a .runReady) else none
  | .dequeueStopItems =>
    if q.context.busy = none ∧ q.stopItems = [] ∧ q.remoteStop ≠ [] then
      -- the last enqueued comes first
      some { q with stopItems := q.remoteStop.reverse, remoteStop := [] }
    else none
  | .runStop =>
    match q.stopItems with
    | [] => none
    | a :: items =>
      if q.context.busy = none then some ({ q with stopItems := items }.call a .runStop) else none
  | .runCancel =>
    match q.waitingForCancel with
    | [] => none
    | a :: items =>
      if q.context.busy = none then
        some ({ q with waitingForCancel := items }.call a .runCancel)
      else none
  | .runWaiting =>
    match q.waiting with
    | [] => none
    | a :: items =>
      if q.context.busy = none then some ({ q with waiting := items }.call a .runWaiting)
      else none

variable (A) in
def system : System (Queues A) (QueuesAct A) := ⟨{}, step⟩

end Queues
end Squiz.LinuxOS.IoUringOperation
