import Squiz.Lib.System
import Squiz.Lib.Word

/-! The cancellable `iouring_operation`: one operation, the queues of its `iouring_context`, the
I/O thread, a remote thread and the kernel. -/
namespace Squiz.LinuxOS.IoUringOperation
open Squiz.Lib Squiz.Lib.Word

def completedFlag : ℕ := 1
def stopRequestEnqueuedFlag : ℕ := 2

/-- Width of `state_t`. -/
def stateBits : ℕ := 8

def ECANCELED : ℤ := 125

/-- The functions that the union of `execute`, `handle_completion` and `submit_sqes` may hold. -/
inductive Callback where
  | whenOnIoThread
  | whenOpCompleted
  | whenOpCompletedNoRacesWithStop
  | whenOpCompletedWithStopWaitingForSqes
  | whenSqesAvailable

/-- The functions that the union of `execute_stop` and `submit_cancel_sqes` may hold. -/
inductive StopCallback where
  | whenStopRequestOnIoThread
  | whenSqesAvailableForStop
  | whenSqesAvailableForStopAlreadyCompleted

/-- The result and the flags of a CQE. -/
abbrev Cqe := ℤ × ℕ

/-- What the receiver is completed with. -/
inductive Signal where
  /-- `on_complete(result, flags)` -/
  | complete (cqe : Cqe)
  | stopped
  deriving DecidableEq

/-- `deliver_result()` -/
def Signal.ofCqe (cqe : Cqe) : Signal := if cqe.1 = -ECANCELED then .stopped else .complete cqe

/-- What the I/O thread does next for the operation. -/
inductive IoPc where
  | idle
  /-- the load of `when_on_io_thread` -/
  | startLoad
  | trySubmit
  /-- the load of `when_sqes_available` -/
  | availableLoad
  | submit
  /-- the load, the `fetch_add` and the store of `when_op_completed` -/
  | completedLoad (cqe : Cqe)
  | completedAdd (cqe : Cqe)
  | completedStore (cqe : Cqe) (old : ℕ)
  | deliver (cqe : Cqe)
  /-- the load of `request_stop` -/
  | stopLoad
  /-- the load of `when_stop_request_on_io_thread` -/
  | stopItemLoad
  | requestStop
  | tryCancel
  | acquire
  | removeLocal
  | removeWaiting
  | setStopped
  /-- `when_sqes_available_for_stop` -/
  | cancel
  deriving DecidableEq

/-- What the remote thread does next for the operation. -/
inductive RemotePc where
  | idle
  | startStoreExecute
  | startStoreEnqueued
  | startEnqueue
  | stopLoad
  | stopAdd
  | stopStore
  | stopEnqueue
  deriving DecidableEq

structure Op where
  /-- `state_` -/
  word : ℕ := 0
  remoteEnqueued : Bool := false
  waitingForSqe : Bool := false
  sqeSubmitted : Bool := false
  callback : Option Callback := none
  stopCallback : Option StopCallback := none
  /-- `result_` and `result_flags_` -/
  result : Cqe := (0, 0)
  /-- the operation is in `remote_queue_` -/
  inRemote : Bool := false
  /-- in `ready_to_run_queue_` -/
  inReady : Bool := false
  /-- in `waiting_for_sqes_queue_` -/
  inWaiting : Bool := false
  /-- in `waiting_for_cancel_sqes_queue_` -/
  inCancel : Bool := false
  /-- in `remote_stop_queue_`, or in the batch of `execute_remote_stop_items()` -/
  inStop : Bool := false
  /-- its SQE was enqueued and the CQE was not processed -/
  outstanding : Bool := false
  /-- how many SQEs were enqueued for it -/
  submits : ℕ := 0
  /-- how many SQEs that cancel it were enqueued -/
  cancels : ℕ := 0
  io : IoPc := .idle
  remote : RemotePc := .idle
  startCalled : Bool := false
  /-- `start()` has returned -/
  started : Bool := false
  stopCalled : Bool := false
  /-- the CQE that was processed -/
  cqe : Option Cqe := none
  completions : List Signal := []
  /-- a function was called through the wrong member of a union, or a null pointer -/
  fault : Bool := false

namespace Op

/-- `submit_sqe()` -/
def submitSqe (s : Op) : Op :=
  { s with
    sqeSubmitted := true
    callback := some .whenOpCompleted
    outstanding := true
    submits := s.submits + 1
    started := true
    io := .idle }

/-- `try_submit_sqe()`, where `space` tells whether `available_sqe_space()` is positive. -/
def trySubmitSqe (s : Op) (space : Bool) : Op :=
  if space then s.submitSqe
  else { s with
    waitingForSqe := true
    callback := some .whenSqesAvailable
    inWaiting := true
    started := true
    io := .idle }

/-- Calls `op->execute(op)`, which begins with `remote_enqueued_ = false`. -/
def execute (s : Op) : Op :=
  match s.callback with
  | some .whenOnIoThread => { s with remoteEnqueued := false, io := .startLoad }
  | _ => { s with fault := true }

/-- Calls `item->submit_sqes(item, sqes_avail)`, which begins with `waiting_for_sqe_ = false`. -/
def submitSqes (s : Op) : Op :=
  match s.callback with
  | some .whenSqesAvailable => { s with waitingForSqe := false, io := .availableLoad }
  | _ => { s with fault := true }

/-- Calls `op->handle_completion(op, cqe.result, cqe.flags)`. -/
def handleCompletion (s : Op) (cqe : Cqe) : Op :=
  match s.callback with
  | some .whenOpCompleted => { s with io := .completedLoad cqe }
  | some .whenOpCompletedNoRacesWithStop => { s with io := .deliver cqe }
  | some .whenOpCompletedWithStopWaitingForSqes =>
    { s with
      result := cqe
      stopCallback := some .whenSqesAvailableForStopAlreadyCompleted }
  | _ => { s with fault := true }

/-- Calls `item->execute_stop(item)`. -/
def executeStop (s : Op) : Op :=
  match s.stopCallback with
  | some .whenStopRequestOnIoThread => { s with io := .stopItemLoad }
  | _ => { s with fault := true }

/-- Calls `item->submit_cancel_sqes(item, sqes_avail)`. -/
def submitCancelSqes (s : Op) : Op :=
  match s.stopCallback with
  | some .whenSqesAvailableForStop => { s with io := .cancel }
  | some .whenSqesAvailableForStopAlreadyCompleted => { s with io := .deliver s.result }
  | _ => { s with fault := true }

def acquireRemoteItems (s : Op) : Op :=
  { s with inRemote := false, inReady := s.inReady || s.inRemote }

/-- The receiver is completed. -/
def complete (s : Op) (signal : Signal) : Op :=
  { s with completions := s.completions ++ [signal], io := .idle }

/-- The cancel SQE was enqueued. -/
def cancelSubmitted (s : Op) : Op :=
  { s with
    cancels := s.cancels + 1
    callback := some .whenOpCompletedNoRacesWithStop
    io := .idle }

/-- `request_stop_from_io_thread()`, up to the first access to a queue. -/
def requestStopFromIoThread (s : Op) : Op :=
  if s.sqeSubmitted then { s with io := .tryCancel }
  else if s.remoteEnqueued then { s with io := .acquire }
  else if s.waitingForSqe then { s with io := .removeWaiting }
  else { s with io := .setStopped }

/-- The next step of the I/O thread, where `space` tells whether an SQE can be enqueued. -/
def ioStep (s : Op) (space : Bool) : Option Op :=
  match s.io with
  | .idle => none
  | .startLoad =>
    some { s with
      io := if hasFlag s.word stopRequestEnqueuedFlag then .idle else .trySubmit }
  | .trySubmit => some (s.trySubmitSqe space)
  | .availableLoad =>
    some { s with io := if hasFlag s.word stopRequestEnqueuedFlag then .idle else .submit }
  | .submit => some s.submitSqe
  | .completedLoad cqe =>
    some { s with
      io := if hasFlag s.word stopRequestEnqueuedFlag then .completedStore cqe s.word
        else .completedAdd cqe }
  | .completedAdd cqe =>
    let s' : Op := { s with word := fetchAdd stateBits s.word completedFlag }
    if hasFlag s.word stopRequestEnqueuedFlag then some { s' with result := cqe, io := .idle }
    else some { s' with io := .deliver cqe }
  | .completedStore cqe old =>
    some { s with word := old ||| completedFlag, result := cqe, io := .idle }
  | .deliver cqe => some (s.complete (.ofCqe cqe))
  | .stopLoad =>
    some { s with io := if hasFlag s.word completedFlag then .idle else .requestStop }
  | .stopItemLoad =>
    some { s with
      io := if hasFlag s.word completedFlag then .deliver s.result else .requestStop }
  | .requestStop => some s.requestStopFromIoThread
  | .tryCancel =>
    if space then some s.cancelSubmitted
    else some { s with
      stopCallback := some .whenSqesAvailableForStop
      inCancel := true
      callback := some .whenOpCompletedWithStopWaitingForSqes
      io := .idle }
  | .acquire => some { s.acquireRemoteItems with io := .removeLocal }
  | .removeLocal => some { s with inReady := false, io := .setStopped }
  | .removeWaiting => some { s with inWaiting := false, io := .setStopped }
  | .setStopped => some (s.complete .stopped)
  | .cancel => some s.cancelSubmitted

def remoteStep (s : Op) : Option Op :=
  match s.remote with
  | .idle => none
  | .startStoreExecute =>
    some { s with callback := some .whenOnIoThread, remote := .startStoreEnqueued }
  | .startStoreEnqueued => some { s with remoteEnqueued := true, remote := .startEnqueue }
  | .startEnqueue => some { s with inRemote := true, started := true, remote := .idle }
  | .stopLoad =>
    some { s with remote := if hasFlag s.word completedFlag then .idle else .stopAdd }
  | .stopAdd =>
    some { s with
      word := fetchAdd stateBits s.word stopRequestEnqueuedFlag
      remote := if hasFlag s.word completedFlag then .idle else .stopStore }
  | .stopStore =>
    some { s with stopCallback := some .whenStopRequestOnIoThread, remote := .stopEnqueue }
  | .stopEnqueue => some { s with inStop := true, remote := .idle }

end Op

inductive Act where
  /-- `start()` on the I/O thread -/
  | startLocal
  | startRemote
  /-- `request_stop()` on the I/O thread -/
  | stopLocal
  | stopRemote
  /-- the I/O thread moves the items of `remote_queue_` to `ready_to_run_queue_` -/
  | acquire
  /-- the I/O thread takes the operation from `ready_to_run_queue_` and executes it -/
  | runReady
  /-- `execute_pending_sqe_submission_tasks()` takes it from `waiting_for_sqes_queue_` -/
  | runWaiting
  /-- or from `waiting_for_cancel_sqes_queue_` -/
  | runCancel
  /-- `execute_remote_stop_items()` executes its stop item -/
  | runStop
  /-- the I/O thread processes its CQE -/
  | cqe (cqe : Cqe)
  /-- the next step of the I/O thread -/
  | io (space : Bool)
  /-- the next step of the remote thread -/
  | remote

def Op.step (s : Op) : Act → Option Op
  | .startLocal =>
    if s.startCalled = false ∧ s.io = .idle then
      some { s with startCalled := true, io := .trySubmit }
    else none
  | .startRemote =>
    if s.startCalled = false ∧ s.remote = .idle then
      some { s with startCalled := true, remote := .startStoreExecute }
    else none
  | .stopLocal =>
    if s.started = true ∧ s.stopCalled = false ∧ s.io = .idle then
      some { s with stopCalled := true, io := .stopLoad }
    else none
  | .stopRemote =>
    if s.started = true ∧ s.stopCalled = false ∧ s.remote = .idle then
      some { s with stopCalled := true, remote := .stopLoad }
    else none
  | .acquire => if s.io = .idle then some s.acquireRemoteItems else none
  | .runReady =>
    if s.io = .idle ∧ s.inReady = true then some { s with inReady := false }.execute else none
  | .runWaiting =>
    if s.io = .idle ∧ s.inWaiting = true then some { s with inWaiting := false }.submitSqes
    else none
  | .runCancel =>
    if s.io = .idle ∧ s.inCancel = true then some { s with inCancel := false }.submitCancelSqes
    else none
  | .runStop =>
    if s.io = .idle ∧ s.inStop = true then some { s with inStop := false }.executeStop else none
  | .cqe cqe =>
    if s.io = .idle ∧ s.outstanding = true then
      some ({ s with outstanding := false, cqe := some cqe }.handleCompletion cqe)
    else none
  | .io space => s.ioStep space
  | .remote => s.remoteStep

def system : System Op Act := ⟨{}, Op.step⟩

end Squiz.LinuxOS.IoUringOperation
