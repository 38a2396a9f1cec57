import Squiz.Lib.InactiveQueue
import Squiz.Lib.System
import Mathlib.Algebra.Group.Nat.Defs

/-! The loop of `iouring_context::run_impl`, what the operations do to its queues from their
callbacks, the threads that wake it up and the kernel. -/
namespace Squiz.LinuxOS.RunLoop
open Squiz.Lib

/-- What `io_uring_setup` has reported about the rings. -/
structure Config where
  sqEntryCount : ℕ
  cqEntryCount : ℕ
  /-- `IORING_FEAT_NODROP` -/
  nodrop : Bool

/-- `max_pending_cqes_` -/
def Config.maxPendingCqes (cfg : Config) : ℕ :=
  if cfg.nodrop then 2 ^ 64 - 1 else cfg.cqEntryCount

/-- An operation-state. -/
inductive Item (O : Type) where
  /-- an `iouring_operation` -/
  | io (x : O)
  /-- a `schedule_op` or a `schedule_at_op` -/
  | scheduled (x : O)
  deriving DecidableEq

/-- An SQE or a CQE, by its `user_data`. -/
inductive Sqe (O : Type) where
  | op (x : O)
  | cancel (x : O)
  | wakeUp
  deriving DecidableEq

/-- The `ec` of a system call. -/
inductive ErrorCode where
  | ok
  /-- `ETIME` -/
  | time
  /-- `EINTR`, `EBUSY` or `EAGAIN` -/
  | retry
  | fatal
  deriving DecidableEq

/-- Where the I/O thread is in `run_impl`. -/
inductive Pc (O : Type) where
  | exited
  /-- the condition of the loop -/
  | loopTop
  /-- `i` items of the ready queue were executed -/
  | ready (i : ℕ)
  | timers
  /-- `n` entries of the view are left -/
  | cqes (n : ℕ)
  | acquireRemoteItems
  | executeRemoteStopItems
  | stopItems (items : List (Item O))
  /-- the choice between the system calls -/
  | select
  /-- about to call `submit_and_wait_until` -/
  | submitAndWaitUntil
  | blocked
  /-- in `submit_and_get_events` or `get_events` -/
  | getEvents
  /-- the call has succeeded -/
  | gotEvents
  /-- there was no completion event -/
  | noEvents
  | markRemote
  | markRemoteStop
  | submitWaitForWakeUp
  /-- in `submit` -/
  | submit
  deriving DecidableEq

/-- What another thread is doing. -/
inductive Thread (O : Type) where
  | idle
  /-- after the `fetch_add` of `request_stop()` -/
  | requestingStop (item : Item O)
  /-- its item made a queue active and it is to call `wake_up_io_thread()` -/
  | wakingUp
  deriving DecidableEq

structure Loop (T O : Type) where
  pc : Pc O := .exited
  /-- the I/O thread is in a callback of an operation or in the code of its receiver -/
  busy : Bool := false
  readyToRun : List (Item O) := []
  /-- the operations of an `atomic_intrusive_queue` take effect in one step -/
  remote : InactiveQueue (Item O) := .initial
  remoteStop : InactiveQueue (Item O) := .initial
  waitingForSqes : List O := []
  waitingForCancelSqes : List O := []
  /-- the submission queue -/
  sq : List (Sqe O) := []
  /-- what the kernel has received and not completed -/
  kernel : List (Sqe O) := []
  /-- the completion queue -/
  cq : List (Sqe O) := []
  isWakeUpReadSubmitted : Bool := false
  pendingCqes : ℕ := 0
  /-- the counter of the eventfd -/
  eventfd : ℕ := 0
  /-- the local variable of `run` -/
  stopRequested : Bool := false
  /-- the stop callback of `run` has set the flag and is to call `wake_up_io_thread()` -/
  stopCallbackWakingUp : Bool := false
  threads : T → Thread O := fun _ => .idle
  started : Item O → Bool := fun _ => false
  /-- `request_stop()` was called on the operation -/
  stopped : Item O → Bool := fun _ => false

inductive Act (T O : Type) where
  /-- `run()` is called -/
  | run
  /-- the next step of the I/O thread in `run_impl` -/
  | io
  /-- `execute` of an item that is due is called -/
  | timerDue
  /-- a system call returns -/
  | ret (ec : ErrorCode)
  /-- the callback of an operation returns -/
  | finish
  /-- `start()` on the I/O thread -/
  | start (item : Item O)
  /-- `request_stop()` on the I/O thread -/
  | requestStop (item : Item O)
  /-- `start()` on another thread, which enqueues the item -/
  | startRemote (t : T) (item : Item O)
  /-- the `fetch_add` of `request_stop()` on another thread -/
  | requestStopRemote (t : T) (item : Item O)
  | scheduleStopRequestRemote (t : T)
  | wakeUp (t : T)
  /-- the stop callback of `run` sets the flag -/
  | stopCallback
  | stopCallbackWakeUp
  /-- the kernel receives the next SQE -/
  | receive
  /-- the kernel completes one of the requests it has received; a wake-up read completes once the
  eventfd's counter is positive, which it sets to zero -/
  | complete (i : ℕ)
  deriving DecidableEq

namespace Loop
variable {T O : Type} [DecidableEq T] [DecidableEq O] (cfg : Config) (s : Loop T O)

def submissionQueueSpaceLeft : ℕ := cfg.sqEntryCount - s.sq.length

def availableSqeSpace : ℕ :=
  if s.waitingForSqes ≠ [] ∨ s.waitingForCancelSqes ≠ [] then 0
  else if cfg.maxPendingCqes - s.pendingCqes < s.submissionQueueSpaceLeft cfg then
    cfg.maxPendingCqes - s.pendingCqes
  else s.submissionQueueSpaceLeft cfg

/-- The SQE of an operation has been enqueued and its CQE has not been processed. -/
def Submitted (x : O) : Prop := .op x ∈ s.sq ++ s.kernel ++ s.cq

instance (x : O) : Decidable (s.Submitted x) :=
  inferInstanceAs (Decidable (_ ∈ _))

def trySubmitSqe (x : O) : Loop T O :=
  if 0 < s.availableSqeSpace cfg then { s with sq := s.sq ++ [.op x] }
  else { s with waitingForSqes := s.waitingForSqes ++ [x] }

/-- `try_submit_cancel_for`, and `schedule_async_cancel_when_can_submit_more_sqes` where that
fails. -/
def submitCancelFor (x : O) : Loop T O :=
  if s.submissionQueueSpaceLeft cfg = 0 ∨ cfg.maxPendingCqes ≤ s.pendingCqes then
    { s with waitingForCancelSqes := s.waitingForCancelSqes ++ [x] }
  else { s with sq := s.sq ++ [.cancel x] }

/-- The items are appended in the order in which they were enqueued. -/
def acquireRemoteItems : Loop T O :=
  if s.remote.active then
    { s with readyToRun := s.readyToRun ++ s.remote.items, remote := s.remote.drain }
  else s

/-- Takes an operation out of the ready queue, the remote items having been acquired where it may
still be among them, or out of the queue of those that wait for SQEs. -/
def removeQueued (item : Item O) : Loop T O :=
  if item ∈ s.remote.items ++ s.readyToRun then
    { s.acquireRemoteItems with readyToRun := s.acquireRemoteItems.readyToRun.erase item }
  else
    match item with
    | .io x => { s with waitingForSqes := s.waitingForSqes.erase x }
    | .scheduled _ => s

/-- `request_stop_from_io_thread`, or `on_stop_before_complete` -/
def requestStopFromIoThread : Item O → Loop T O
  | .io x =>
    if s.Submitted x then s.submitCancelFor cfg x
    else { s.removeQueued (.io x) with busy := true }
  | .scheduled x => { s.removeQueued (.scheduled x) with busy := true }

/-- `item->execute(item)` for an item of the ready queue. An `iouring_operation` leaves its
completion to a stop-request that was enqueued. -/
def execute : Item O → Loop T O
  | .io x => if s.stopped (.io x) then s else s.trySubmitSqe cfg x
  | .scheduled _ => { s with busy := true }

/-- The body of the loop over the CQEs. -/
def handle : Sqe O → Loop T O
  | .op _ => { s with busy := true }
  | .cancel _ => s
  | .wakeUp => { s with isWakeUpReadSubmitted := false }

/-- `is_inactive() || try_mark_inactive()` -/
def isMarkedInactive (q : InactiveQueue (Item O)) : Bool := !q.active || q.items.isEmpty

def ioStep : Option (Loop T O) :=
  match s.pc with
  | .exited => none
  | .loopTop => some { s with pc := if s.stopRequested then .exited else .ready 0 }
  | .ready i =>
    match s.readyToRun with
    | [] => some { s with pc := .timers }
    | item :: items =>
      if i < 100 then
        some (execute cfg { s with pc := .ready (i + 1), readyToRun := items } item)
      else some { s with pc := .timers }
  | .timers => some { s with pc := .cqes s.cq.length }
  | .cqes 0 =>
    some { s with pc := if s.isWakeUpReadSubmitted then .select else .acquireRemoteItems }
  | .cqes (n + 1) =>
    match s.cq with
    | [] => none
    | cqe :: cq => some (handle { s with pc := .cqes n, cq := cq } cqe)
  | .acquireRemoteItems => some { s.acquireRemoteItems with pc := .executeRemoteStopItems }
  | .executeRemoteStopItems =>
    if s.remoteStop.active then
      -- the last enqueued comes first
      some { s with pc := .stopItems s.remoteStop.items.reverse, remoteStop := s.remoteStop.drain }
    else some { s with pc := .select }
  | .stopItems [] => some { s with pc := .select }
  | .stopItems (item :: items) =>
    some (requestStopFromIoThread cfg { s with pc := .stopItems items } item)
  | .select =>
    some { s with
      pc :=
        if s.readyToRun = [] then
          if s.isWakeUpReadSubmitted then .submitAndWaitUntil else .getEvents
        else .submit }
  | .submitAndWaitUntil => some { s with pc := .blocked }
  | .gotEvents => some { s with pc := if s.cq = [] then .noEvents else .loopTop }
  | .noEvents =>
    some { s with pc := if 0 < s.submissionQueueSpaceLeft cfg then .markRemote else .loopTop }
  | .markRemote =>
    some { s with
      pc := if isMarkedInactive s.remote then .markRemoteStop else .loopTop
      remote := s.remote.markInactive }
  | .markRemoteStop =>
    some { s with
      pc := if isMarkedInactive s.remoteStop then .submitWaitForWakeUp else .loopTop
      remoteStop := s.remoteStop.markInactive }
  | .submitWaitForWakeUp =>
    if s.submissionQueueSpaceLeft cfg = 0 then some { s with pc := .loopTop }
    else some { s with pc := .loopTop, sq := s.sq ++ [.wakeUp], isWakeUpReadSubmitted := true }
  | .blocked | .getEvents | .submit => none

/-- Where the loop goes on after a system call. -/
def afterCall (pc : Pc O) : ErrorCode → Pc O
  | .ok => if pc = .getEvents then .gotEvents else .loopTop
  | .time => .timers
  | .retry => .loopTop
  | .fatal => .exited

def step (s : Loop T O) : Act T O → Option (Loop T O)
  | .run =>
    if s.pc = .exited ∧ s.stopCallbackWakingUp = false then
      some { s with pc := .loopTop, stopRequested := false }
    else none
  | .io => if s.busy then none else s.ioStep cfg
  | .timerDue => if s.pc = .timers ∧ s.busy = false then some { s with busy := true } else none
  | .ret ec =>
    if s.pc = .blocked ∨ s.pc = .getEvents ∨ s.pc = .submit then
      some { s with pc := afterCall s.pc ec }
    else none
  | .finish => if s.busy then some { s with busy := false } else none
  | .start item =>
    if s.busy ∧ s.started item = false then
      let s := { s with started := Function.update s.started item true }
      match item with
      | .io x => some (trySubmitSqe cfg s x)
      | .scheduled _ => some { s with readyToRun := s.readyToRun ++ [item] }
    else none
  | .requestStop item =>
    if s.busy ∧ s.started item ∧ s.stopped item = false then
      some (requestStopFromIoThread cfg
        { s with stopped := Function.update s.stopped item true } item)
    else none
  | .startRemote t item =>
    if s.threads t = .idle ∧ s.started item = false then
      some { s with
        started := Function.update s.started item true
        remote := s.remote.enqueue item
        threads := Function.update s.threads t (if s.remote.active then .idle else .wakingUp) }
    else none
  | .requestStopRemote t item =>
    if s.threads t = .idle ∧ s.started item ∧ s.stopped item = false then
      some { s with
        stopped := Function.update s.stopped item true
        threads := Function.update s.threads t (.requestingStop item) }
    else none
  | .scheduleStopRequestRemote t =>
    match s.threads t with
    | .requestingStop item =>
      some { s with
        remoteStop := s.remoteStop.enqueue item
        threads :=
          Function.update s.threads t (if s.remoteStop.active then .idle else .wakingUp) }
    | _ => none
  | .wakeUp t =>
    if s.threads t = .wakingUp then
      some { s with
        eventfd := s.eventfd + 1
        threads := Function.update s.threads t .idle }
    else none
  | .stopCallback =>
    if s.pc ≠ .exited ∧ s.stopRequested = false then
      some { s with stopRequested := true, stopCallbackWakingUp := true }
    else none
  | .stopCallbackWakeUp =>
    if s.stopCallbackWakingUp then
      some { s with eventfd := s.eventfd + 1, stopCallbackWakingUp := false }
    else none
  | .receive =>
    match s.sq with
    | [] => none
    | sqe :: sq => some { s with sq := sq, kernel := s.kernel ++ [sqe] }
  | .complete i =>
    match s.kernel[i]? with
    | none => none
    | some .wakeUp =>
      if 0 < s.eventfd then
        some { s with
          eventfd := 0
          kernel := s.kernel.eraseIdx i
          cq := s.cq ++ [.wakeUp] }
      else none
    | some sqe => some { s with kernel := s.kernel.eraseIdx i, cq := s.cq ++ [sqe] }

variable (T O) in
def system : System (Loop T O) (Act T O) := ⟨{}, step cfg⟩

end Loop
end Squiz.LinuxOS.RunLoop
