import Squiz.Lib.System
import Squiz.Lib.Word

/-! The cancellable `schedule_at_op_base`: one operation, the queues of its `iouring_context`, the
I/O thread and a remote thread. -/
namespace Squiz.LinuxOS.ScheduleAt
open Squiz.Lib Squiz.Lib.Word

def remoteStopRequestEnqueuedFlag : ℕ := 1
def completedFlag : ℕ := 2

/-- Width of `state_t`. -/
def stateBits : ℕ := 8

/-- The functions that `execute` may point to. -/
inductive Execute where
  | whenOnIoContext | whenTimerElapsed

/-- The functions that `execute_stop` may point to. -/
inductive ExecuteStop where
  | onStopBeforeComplete | onStopAfterComplete

inductive Signal where
  | value | stopped
  deriving DecidableEq

/-- What the I/O thread does next for the operation. -/
inductive IoPc where
  | idle
  /-- `remote_enqueued_ = false`, in `start_impl` and in `when_on_io_context` -/
  | storeEnqueued
  | storeExecute
  | scheduleAt
  /-- the load of `when_timer_elapsed` -/
  | elapsedLoad
  | elapsedAdd
  | elapsedStoreStop
  /-- the load of `request_stop` -/
  | stopLoad
  /-- the test of `remote_enqueued_` in `on_stop_before_complete` -/
  | readEnqueued
  | acquire
  | removeLocal
  | loadCompleted
  | removeTimeOp
  | complete (signal : Signal)
  deriving DecidableEq

/-- What the remote thread does next for the operation. -/
inductive RemotePc where
  | idle
  | startStoreEnqueued
  | startStoreExecute
  | startEnqueue
  | stopLoad
  | stopAdd
  | stopStore
  | stopEnqueue
  deriving DecidableEq

structure Op where
  /-- `state_` -/
  word : ℕ := 0
  remoteEnqueued : Bool := false
  execute : Option Execute := none
  executeStop : Option ExecuteStop := none
  /-- the operation is in `remote_queue_` -/
  inRemote : Bool := false
  /-- in `ready_to_run_queue_` -/
  inReady : Bool := false
  /-- in `timer_queue_` -/
  inTimer : Bool := false
  /-- in `remote_stop_queue_` -/
  inStop : Bool := false
  io : IoPc := .idle
  remote : RemotePc := .idle
  startCalled : Bool := false
  /-- `start_impl()` has returned -/
  started : Bool := false
  stopCalled : Bool := false
  completions : List Signal := []

namespace Op

/-- Calls `op->execute(op)`. -/
def dispatch (s : Op) : Option Op :=
  s.execute.map fun
    | .whenOnIoContext => { s with io := .storeEnqueued }
    | .whenTimerElapsed => { s with io := .elapsedLoad }

/-- Calls `op->execute_stop(op)`. -/
def dispatchStop (s : Op) : Option Op :=
  s.executeStop.map fun
    | .onStopBeforeComplete => { s with io := .readEnqueued }
    | .onStopAfterComplete => { s with io := .complete .stopped }

def acquireRemoteItems (s : Op) : Op :=
  { s with inRemote := false, inReady := s.inReady || s.inRemote }

def ioStep (s : Op) : Option Op :=
  match s.io with
  | .idle => none
  | .storeEnqueued => some { s with remoteEnqueued := false, io := .storeExecute }
  | .storeExecute => some { s with execute := some .whenTimerElapsed, io := .scheduleAt }
  | .scheduleAt => some { s with inTimer := true, started := true, io := .idle }
  | .elapsedLoad =>
    some { s with
      io := if hasFlag s.word remoteStopRequestEnqueuedFlag then .elapsedStoreStop
        else .elapsedAdd }
  | .elapsedAdd =>
    some { s with
      word := fetchAdd stateBits s.word completedFlag
      io := if hasFlag s.word remoteStopRequestEnqueuedFlag then .elapsedStoreStop
        else .complete .value }
  | .elapsedStoreStop => some { s with executeStop := some .onStopAfterComplete, io := .idle }
  | .stopLoad =>
    some { s with io := if hasFlag s.word completedFlag then .idle else .readEnqueued }
  | .readEnqueued =>
    some { s with io := if s.remoteEnqueued then .acquire else .loadCompleted }
  | .acquire => some { s.acquireRemoteItems with io := .removeLocal }
  | .removeLocal => some { s with inReady := false, io := .complete .stopped }
  | .loadCompleted =>
    some { s with
      io := if hasFlag s.word completedFlag then .complete .stopped else .removeTimeOp }
  | .removeTimeOp => some { s with inTimer := false, io := .complete .stopped }
  | .complete signal => some { s with completions := s.completions ++ [signal], io := .idle }

def remoteStep (s : Op) : Option Op :=
  match s.remote with
  | .idle => none
  | .startStoreEnqueued => some { s with remoteEnqueued := true, remote := .startStoreExecute }
  | .startStoreExecute =>
    some { s with execute := some .whenOnIoContext, remote := .startEnqueue }
  | .startEnqueue => some { s with inRemote := true, started := true, remote := .idle }
  | .stopLoad =>
    some { s with remote := if hasFlag s.word completedFlag then .idle else .stopAdd }
  | .stopAdd =>
    some { s with
      word := fetchAdd stateBits s.word remoteStopRequestEnqueuedFlag
      remote := if hasFlag s.word completedFlag then .idle else .stopStore }
  | .stopStore =>
    some { s with executeStop := some .onStopBeforeComplete, remote := .stopEnqueue }
  | .stopEnqueue => some { s with inStop := true, remote := .idle }

end Op

inductive Act where
  /-- `start_impl()` on the I/O thread -/
  | startLocal
  | startRemote
  /-- `request_stop()` on the I/O thread -/
  | stopLocal
  | stopRemote
  /-- the I/O thread moves the items of `remote_queue_` to `ready_to_run_queue_` -/
  | acquire
  /-- the I/O thread takes the operation from `ready_to_run_queue_` and executes it -/
  | runReady
  /-- the I/O thread takes the operation from `timer_queue_` and executes it -/
  | expire
  /-- the I/O thread takes the operation from `remote_stop_queue_` and executes it -/
  | runStop
  /-- the next step of the I/O thread -/
  | io
  /-- the next step of the remote thread -/
  | remote

def Op.step (s : Op) : Act → Option Op
  | .startLocal =>
    if s.startCalled = false ∧ s.io = .idle then
      some { s with startCalled := true, io := .storeEnqueued }
    else none
  | .startRemote =>
    if s.startCalled = false ∧ s.remote = .idle then
      some { s with startCalled := true, remote := .startStoreEnqueued }
    else none
  | .stopLocal =>
    if s.started = true ∧ s.stopCalled = false ∧ s.io = .idle then
      some { s with stopCalled := true, io := .stopLoad }
    else none
  | .stopRemote =>
    if s.started = true ∧ s.stopCalled = false ∧ s.remote = .idle then
      some { s with stopCalled := true, remote := .stopLoad }
    else none
  | .acquire => if s.io = .idle then some s.acquireRemoteItems else none
  | .runReady =>
    if s.io = .idle ∧ s.inReady = true then { s with inReady := false }.dispatch else none
  | .expire =>
    if s.io = .idle ∧ s.inTimer = true then { s with inTimer := false }.dispatch else none
  | .runStop =>
    if s.io = .idle ∧ s.inStop = true then { s with inStop := false }.dispatchStop else none
  | .io => s.ioStep
  | .remote => s.remoteStep

def system : System Op Act := ⟨{}, Op.step⟩

end Squiz.LinuxOS.ScheduleAt
