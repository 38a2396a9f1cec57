import Squiz.Lib.System
import Squiz.Lib.Word

/-! `counting_scope_future_state` and `counting_scope_future_op`: the completion of a spawned
source against the future that is dropped, or started and asked to stop, over the words `state_`
and `flags_`. -/
namespace Squiz.CountingScope.Future
open Squiz.Lib Squiz.Lib.Word

/-! `state_` -/

def completedFlag : ℕ := 1
def detachedFlag : ℕ := 2
def hasWaitingReceiverFlag : ℕ := 4
def stopRequestDoneFlag : ℕ := 8

/-! `flags_` of the future operation -/

namespace OpFlags

def completedFlag : ℕ := 1
def stopRequestedFlag : ℕ := 2
def stopRequestDoneFlag : ℕ := 4

end OpFlags

/-- Width of `state_t` and of `flags_t`. -/
def wordBits : ℕ := 8

structure Config where
  /-- `child_base::is_stoppable`, of the source -/
  isStoppable : Bool
  /-- `is_stop_possible`, of the receiver's environment -/
  isStopPossible : Bool

def Config.fullyDetachedFlags (C : Config) : ℕ :=
  if C.isStoppable then detachedFlag ||| stopRequestDoneFlag else detachedFlag

section Results
variable (R X : Type)

/-- The source's call of `set_result`: its result, and what its datums throw when they are moved
into `result_`, and on to the receiver. -/
structure Completion where
  result : R
  storeThrows : Option X
  passThrows : Option X

/-- What `result_` holds and what the receiver is completed with. -/
inductive Outcome where
  | result (r : R)
  | exceptionPtr (x : X)
  | stopped
  deriving DecidableEq

end Results

variable {R X : Type}

namespace Completion

def stored (c : Completion R X) : Outcome R X :=
  match c.storeThrows with
  | some x => .exceptionPtr x
  | none => .result c.result

/-- What arrives where the datums of `o` are passed by value. -/
def passed (c : Completion R X) (o : Outcome R X) : Outcome R X :=
  match o, c.passThrows with
  | .result _, some x => .exceptionPtr x
  | o, _ => o

end Completion

section Threads
variable (R X : Type)

/-- Progress of a thread. -/
inductive Pc where
  /-- the source has not completed -/
  | running
  /-- the load of `try_begin_set_result` -/
  | beginSetResult
  | storeDiscarded (oldState : ℕ)
  | storeInvoked
  | storeResult
  | publish
  /-- the future operation's `set_result`, called through the vtable with `o` -/
  | setResult (o : Outcome R X)
  | loadFlags (o : Outcome R X)
  | addCompleted (o : Outcome R X)
  /-- `destroy()`, and what to complete the receiver with after it -/
  | destroy (k : Option (Outcome R X))
  | releaseScope (k : Option (Outcome R X))
  | complete (o : Outcome R X)
  /-- the future was neither dropped nor started -/
  | idle
  | detachLoad
  | detachAdd
  | setReceiver
  | receiverLoad
  | receiverStore
  | receiverAdd
  | deliverStored
  /-- the load of the future operation's `request_stop()` -/
  | stopLoadFlags
  | stopExchange
  | tryDetachLoad
  | tryDetachExchange (oldState : ℕ)
  /-- about to call `request_stop()` on the source, and what to complete the receiver with if the
  consumer is through after it -/
  | requestStop (k : Option (Outcome R X))
  | inRequestStop (k : Option (Outcome R X))
  | stopLoadState (k : Option (Outcome R X))
  | stopAddDone (k : Option (Outcome R X))
  | lostLoadFlags
  | lostAddDone
  | done
  deriving DecidableEq

end Threads

/-- The thread that completes the source and the one that owns the future. -/
inductive Thread where
  | source | consumer

structure FutureState (R X : Type) where
  /-- `state_` -/
  word : ℕ := 0
  /-- `result_` -/
  result : Option (Outcome R X) := none
  /-- whether `receiver_vtable_` and `receiver_data_` are set -/
  receiver : Bool := false
  isStopPossible : Bool := true
  /-- `flags_` of the future operation -/
  flags : ℕ := 0
  /-- whether the future's or its operation's `state_` pointer is set -/
  opState : Bool := true
  source : Pc R X := .running
  consumer : Pc R X := .idle
  /-- the argument of the source's `set_result` -/
  completion : Option (Completion R X) := none
  /-- `start()` was called on the future operation -/
  started : Bool := false
  /-- `request_stop()` was called on the future operation -/
  stopCalled : Bool := false
  /-- that call won the race on `flags_` -/
  stopWon : Bool := false
  sourceStops : ℕ := 0
  destroyed : ℕ := 0
  released : ℕ := 0
  delivered : List (Outcome R X) := []
  /-- an assert failed, `std::unreachable()` was reached, or the destroyed state was accessed -/
  fault : Bool := false

/-- The thread's next step is on the future-state, or the thread is in the source's
`request_stop()`. -/
def Pc.usesState : Pc R X → Bool
  | .running | .beginSetResult | .storeDiscarded _ | .storeInvoked | .storeResult | .publish
  | .setResult _ | .destroy _ | .detachLoad | .detachAdd | .setReceiver | .receiverLoad
  | .receiverStore | .receiverAdd | .deliverStored | .tryDetachLoad | .tryDetachExchange _
  | .requestStop _ | .inRequestStop _ | .stopLoadState _ | .stopAddDone _ => true
  | _ => false

namespace FutureState

def goto (s : FutureState R X) (t : Thread) (pc : Pc R X) : FutureState R X :=
  match t with
  | .source => { s with source := pc }
  | .consumer => { s with consumer := pc }

def check (s : FutureState R X) (ok : Bool) : FutureState R X :=
  { s with fault := s.fault || !ok }

def pc (s : FutureState R X) : Thread → Pc R X
  | .source => s.source
  | .consumer => s.consumer

/-- What a thread does that is through, but for completing the receiver. -/
def finish : Option (Outcome R X) → Pc R X
  | some o => .complete o
  | none => .done

variable (C : Config)

def isFullyDetached (oldState : ℕ) : Bool :=
  oldState &&& C.fullyDetachedFlags == C.fullyDetachedFlags

/-! `set_result` of the future-state -/

def tryBeginSetResult (s : FutureState R X) : FutureState R X :=
  if isFullyDetached C s.word then s.goto .source (.storeDiscarded s.word)
  else if s.word = hasWaitingReceiverFlag ∧ s.isStopPossible = false then
    s.goto .source .storeInvoked
  else s.goto .source .storeResult

def publish (s : FutureState R X) : FutureState R X :=
  let t := { s with word := fetchAdd wordBits s.word completedFlag }
  if s.word = hasWaitingReceiverFlag then
    match s.result with
    | some o => t.goto .source (.setResult o)
    | none => (t.goto .source .done).check false
  else if isFullyDetached C s.word then t.goto .source (.destroy none)
  else t.goto .source .done

/-! `set_result` of the future operation -/

/-- Passes the datums by value, and then destroys the future-state and completes the receiver. -/
def passOn (s : FutureState R X) (t : Thread) (o : Outcome R X) : FutureState R X :=
  s.goto t (.destroy (some ((s.completion.map fun c => c.passed o).getD o)))

/-- The `switch` of `try_set_completed_flag`. -/
def decideCompleted (s : FutureState R X) (t : Thread) (o : Outcome R X) (oldFlags : ℕ) :
    FutureState R X :=
  if oldFlags = 0 then s.passOn t o
  else if oldFlags = OpFlags.stopRequestedFlag then s.goto t .done
  else if oldFlags = OpFlags.stopRequestedFlag ||| OpFlags.stopRequestDoneFlag then
    s.goto t (.destroy (some .stopped))
  else (s.goto t .done).check false

def loadFlags (s : FutureState R X) (t : Thread) (o : Outcome R X) : FutureState R X :=
  if s.flags = OpFlags.stopRequestedFlag ||| OpFlags.stopRequestDoneFlag then
    s.decideCompleted t o s.flags
  else s.goto t (.addCompleted o)

def addCompleted (s : FutureState R X) (t : Thread) (o : Outcome R X) : FutureState R X :=
  { s with flags := fetchAdd wordBits s.flags OpFlags.completedFlag }.decideCompleted t o s.flags

/-! `detach()` and the second half of `try_detach()` -/

def detachLoad (s : FutureState R X) : FutureState R X :=
  (s.check (!hasFlag s.word hasWaitingReceiverFlag)).goto .consumer
    (if hasFlag s.word completedFlag then .destroy none else .detachAdd)

def detachAdd (s : FutureState R X) : FutureState R X :=
  { s with word := fetchAdd wordBits s.word detachedFlag }.goto .consumer
    (if hasFlag s.word completedFlag then .destroy none
    else if C.isStoppable then .requestStop none
    else .done)

def stopLoadState (s : FutureState R X) (k : Option (Outcome R X)) : FutureState R X :=
  s.goto .consumer (if hasFlag s.word completedFlag then .destroy k else .stopAddDone k)

def stopAddDone (s : FutureState R X) (k : Option (Outcome R X)) : FutureState R X :=
  { s with word := fetchAdd wordBits s.word stopRequestDoneFlag }.goto .consumer
    (if hasFlag s.word completedFlag then .destroy k else finish k)

/-! `set_receiver` -/

def setReceiver (s : FutureState R X) : FutureState R X :=
  { s.check (!s.receiver) with
    receiver := true, isStopPossible := C.isStopPossible }.goto .consumer .receiverLoad

def receiverLoad (s : FutureState R X) : FutureState R X :=
  s.goto .consumer (if s.word = completedFlag then .receiverStore else .receiverAdd)

def receiverAdd (s : FutureState R X) : FutureState R X :=
  let t := { s with word := fetchAdd wordBits s.word hasWaitingReceiverFlag }
  if s.word = completedFlag then t.goto .consumer .deliverStored
  else (t.check (s.word = 0)).goto .consumer .done

def deliverStored (s : FutureState R X) : FutureState R X :=
  match s.result with
  | some o => s.goto .consumer (.setResult o)
  | none => (s.goto .consumer .done).check false

/-! `request_stop()` of the future operation -/

def stopExchange (s : FutureState R X) : FutureState R X :=
  if s.flags = 0 then
    ({ s with flags := OpFlags.stopRequestedFlag, stopWon := true }.check s.opState).goto .consumer
      .tryDetachLoad
  else s.goto .consumer .done

def tryDetachLoad (s : FutureState R X) : FutureState R X :=
  let t := s.check (s.isStopPossible && hasFlag s.word hasWaitingReceiverFlag)
  if hasFlag s.word completedFlag then t.goto .consumer .lostLoadFlags
  else (t.check (s.word = hasWaitingReceiverFlag)).goto .consumer (.tryDetachExchange s.word)

def tryDetachExchange (s : FutureState R X) (oldState : ℕ) : FutureState R X :=
  if s.word = oldState then
    { s with word := fetchOr oldState detachedFlag }.goto .consumer
      (if C.isStoppable then .requestStop (some .stopped) else .complete .stopped)
  else
    (s.check (s.word = hasWaitingReceiverFlag ||| completedFlag)).goto .consumer .lostLoadFlags

def lostLoadFlags (s : FutureState R X) : FutureState R X :=
  s.goto .consumer
    (if hasFlag s.flags OpFlags.completedFlag then .destroy (some .stopped) else .lostAddDone)

def lostAddDone (s : FutureState R X) : FutureState R X :=
  { s with flags := fetchAdd wordBits s.flags OpFlags.stopRequestDoneFlag }.goto .consumer
    (if hasFlag s.flags OpFlags.completedFlag then .destroy (some .stopped) else .done)

/-- `destroy()`; the future operation calls it through its `state_` pointer. -/
def destroy (s : FutureState R X) (t : Thread) (k : Option (Outcome R X)) : FutureState R X :=
  { s.check (hasFlag s.word completedFlag && (k.isNone || s.opState)) with
    destroyed := s.destroyed + 1 }.goto t (.releaseScope k)

/-- The step of thread `t` from `pc`. -/
def threadStep (s : FutureState R X) (t : Thread) : Pc R X → Option (FutureState R X)
  | .running | .idle | .done => none
  | .beginSetResult => some (s.tryBeginSetResult C)
  | .storeDiscarded oldState =>
    some ({ s with word := oldState ||| completedFlag }.goto .source (.destroy none))
  | .storeInvoked =>
    s.completion.map fun c =>
      { s with word := hasWaitingReceiverFlag ||| completedFlag }.goto .source
        (.setResult (.result c.result))
  | .storeResult =>
    s.completion.map fun c => { s with result := some c.stored }.goto .source .publish
  | .publish => some (s.publish C)
  | .setResult o =>
    some (if C.isStopPossible then (s.check s.receiver).goto t (.loadFlags o)
      else (s.check s.receiver).passOn t o)
  | .loadFlags o => some (s.loadFlags t o)
  | .addCompleted o => some (s.addCompleted t o)
  | .destroy k => some (s.destroy t k)
  | .releaseScope k => some ({ s with released := s.released + 1 }.goto t (finish k))
  | .complete o =>
    some ({ s with opState := false, delivered := s.delivered ++ [o] }.goto t .done)
  | .detachLoad => some s.detachLoad
  | .detachAdd => some (s.detachAdd C)
  | .setReceiver => some (s.setReceiver C)
  | .receiverLoad => some s.receiverLoad
  | .receiverStore =>
    some ({ s with word := completedFlag ||| hasWaitingReceiverFlag }.goto .consumer .deliverStored)
  | .receiverAdd => some s.receiverAdd
  | .deliverStored => some s.deliverStored
  | .stopLoadFlags => some (s.goto .consumer (if s.flags = 0 then .stopExchange else .done))
  | .stopExchange => some s.stopExchange
  | .tryDetachLoad => some s.tryDetachLoad
  | .tryDetachExchange oldState => some (s.tryDetachExchange C oldState)
  | .requestStop k =>
    some ({ s with sourceStops := s.sourceStops + 1 }.goto .consumer (.inRequestStop k))
  | .inRequestStop k => some (s.goto .consumer (.stopLoadState k))
  | .stopLoadState k => some (s.stopLoadState k)
  | .stopAddDone k => some (s.stopAddDone k)
  | .lostLoadFlags => some s.lostLoadFlags
  | .lostAddDone => some s.lostAddDone

end FutureState

inductive Act (R X : Type) where
  /-- the source completes: it calls `set_result` -/
  | complete (c : Completion R X)
  /-- the destructor of the future, or of its operation that was not started -/
  | drop
  /-- `start()` of the future operation -/
  | start
  /-- `request_stop()` of the future operation, after `start()` has returned -/
  | requestStop
  /-- the next step of a thread -/
  | step (t : Thread)

namespace FutureState

def step (C : Config) (s : FutureState R X) : Act R X → Option (FutureState R X)
  | .complete c =>
    match s.source with
    | .running => some { s with source := .beginSetResult, completion := some c }
    | _ => none
  | .drop =>
    match s.consumer with
    | .idle => some (s.goto .consumer (if s.opState then .detachLoad else .done))
    | _ => none
  | .start =>
    match s.consumer with
    | .idle =>
      some (if s.opState then { s with started := true, consumer := .setReceiver }
        else
          { s with
            started := true
            flags := if C.isStopPossible then OpFlags.completedFlag else s.flags
            consumer := .complete .stopped })
    | _ => none
  | .requestStop =>
    match s.consumer with
    | .done =>
      if s.started = true ∧ s.stopCalled = false ∧ C.isStopPossible = true then
        some { s with consumer := .stopLoadFlags, stopCalled := true }
      else none
    | _ => none
  | .step t =>
    (s.threadStep C t (s.pc t)).map fun u =>
      u.check (!((s.pc t).usesState && decide (0 < s.destroyed)))

end FutureState

def system (C : Config) (R X : Type) : System (FutureState R X) (Act R X) :=
  ⟨{}, FutureState.step C⟩

end Squiz.CountingScope.Future
