import Squiz.Lib.System
import Squiz.Lib.Word
import Squiz.Detail.StoreResult

/-! `let_value_op`: the source, the body that is built in the source's storage, `request_stop()` and
the destructor, on one word of flags. -/
namespace Squiz.LetValue
open Squiz.Lib Squiz.Lib.Word Squiz.Detail

def srcDoneFlag : ℕ := 1
def bodyStartedFlag : ℕ := 2
def bodyDoneFlag : ℕ := 4
def stopRequestedFlag : ℕ := 8
def stopRequestDoneFlag : ℕ := 16

/-- Width of `state_t`. -/
def stateBits : ℕ := 8

inductive Child where
  | source | body
  deriving DecidableEq

/-- `child_index_` -/
inductive ChildIndex where
  | empty
  | child (c : Child)

/-- What can throw once the source's values are accepted. -/
inductive Stage where
  | values | factory | connect
  deriving DecidableEq

/-- The arguments of the source's `set_result`, for a value with what building the body throws. -/
inductive SourceCompletion (V R X : Type) where
  | value (v : V) (throws : Option (Stage × X))
  /-- an error or stopped signal -/
  | other (r : R)

/-- What the receiver is completed with. -/
inductive Outcome (R X : Type) where
  | stopped
  | of (r : Result R X)
  deriving DecidableEq

variable {V R X : Type}

def thrownBy (stage : Stage) : Option (Stage × X) → Option X
  | some (st, x) => if st = stage then some x else none
  | none => none

inductive StartPc where
  | notCalled | inSource | returned
  deriving DecidableEq

/-- Progress of `request_stop()`. -/
inductive StopPc where
  | notCalled
  | load
  /-- about to set `stop_requested_flag` beside `src_done_flag` -/
  | casDeferred (old : ℕ)
  /-- about to set `stop_requested_flag` alone -/
  | casSource (old : ℕ)
  | requestSource
  | inSource
  | requestBody
  | inBody
  | returnedSource
  /-- returned and left the request to the source's `set_result` -/
  | deferred
  | returnedBody
  /-- returned, because the body was done -/
  | tooLate
  deriving DecidableEq

/-- Progress of the source and of its `set_result`. -/
inductive SourcePc (V R X : Type) where
  | notStarted
  | running
  | add (v : V) (throws : Option (Stage × X))
  | setStopped
  | emplace (v : V) (throws : Option (Stage × X))
  | destruct (throws : Option (Stage × X))
  | invokeFactory (throws : Option (Stage × X))
  | construct (throws : Option (Stage × X))
  | startBody
  /-- in the body's `start()` -/
  | inStart
  | addStarted
  | requestBody
  /-- in the body's `request_stop()` -/
  | inRequestStop
  | addDone
  | dispatch
  | handler (x : X)
  | setError (x : X)
  /-- the receiver is completed with the source's error or stopped signal -/
  | forward (r : R)
  | returnedStopped
  | returnedError
  | returnedForwarded
  | returnedDispatched
  | returned
  deriving DecidableEq

/-- Progress of the body and of its `set_result`. -/
inductive BodyPc (R X : Type) where
  | notStarted
  | running
  | load (c : Completion R X)
  /-- the receiver is completed with the arguments of `set_result` -/
  | forward (c : Completion R X)
  | store (c : Completion R X)
  | add
  | deliver
  | returnedForwarded
  | returnedDelivered
  /-- returned and left the result to the source's `set_result` -/
  | deferred
  deriving DecidableEq

structure Op (V R X : Type) where
  /-- `state_` -/
  word : ℕ := 0
  childIndex : ChildIndex := .child .source
  /-- the child that exists in the storage -/
  alive : Option Child := some .source
  /-- `value_storage_` -/
  values : Option V := none
  /-- `result_storage_` -/
  result : Option (Result R X) := none
  start : StartPc := .notCalled
  stop : StopPc := .notCalled
  source : SourcePc V R X := .notStarted
  body : BodyPc R X := .notStarted
  completion : Option (SourceCompletion V R X) := none
  bodyCompletion : Option (Completion R X) := none
  /-- the values that the body factory was invoked with -/
  factoryCalls : List V := []
  sourceStops : ℕ := 0
  bodyStops : ℕ := 0
  delivered : List (Outcome R X) := []
  /-- `stop_request_done_flag` was added -/
  stopRequestDone : Bool := false
  /-- `~let_value_op()` has run -/
  destroyed : Bool := false
  /-- a child was used that does not exist, or an empty variant was read -/
  fault : Bool := false

namespace Op

def deliver (s : Op V R X) (o : Outcome R X) : Op V R X :=
  { s with delivered := s.delivered ++ [o] }

/-- `dispatch_result()` -/
def dispatchResult (s : Op V R X) : Op V R X :=
  match s.result with
  | some r => s.deliver (.of r)
  | none => { s with fault := true }

def destructChild (s : Op V R X) (c : Child) : Op V R X :=
  { s with alive := none, fault := s.fault || decide (s.alive ≠ some c) }

def constructChild (s : Op V R X) (c : Child) : Op V R X :=
  { s with
    alive := some c
    childIndex := .child c
    fault := s.fault || s.alive.isSome }

/-- The call of `request_stop()` of a child. -/
def requestStopOn (s : Op V R X) (c : Child) : Op V R X :=
  match c with
  | .source =>
    { s with
      sourceStops := s.sourceStops + 1
      fault := s.fault || decide (s.alive ≠ some .source) }
  | .body =>
    { s with
      bodyStops := s.bodyStops + 1
      fault := s.fault || decide (s.alive ≠ some .body) }

/-- What `request_stop()` does for the state it has read. -/
def stopNext (old : ℕ) : StopPc :=
  if hasFlag old bodyDoneFlag then .tooLate
  else if hasFlag old bodyStartedFlag then .requestBody
  else if hasFlag old srcDoneFlag then .casDeferred old
  else .casSource old

def canCompleteInline (old : ℕ) : Bool :=
  decide (old = srcDoneFlag + bodyStartedFlag) ||
    decide (old = srcDoneFlag + bodyStartedFlag + stopRequestedFlag + stopRequestDoneFlag)

/-- A `compare_exchange_weak` may fail although it finds the expected state. -/
def stopStep (s : Op V R X) (spurious : Bool) : Option (Op V R X) :=
  match s.stop with
  | .notCalled | .returnedSource | .deferred | .returnedBody | .tooLate => none
  | .load => some { s with stop := stopNext s.word }
  | .casDeferred old =>
    if s.word = old ∧ spurious = false then
      some { s with word := srcDoneFlag + stopRequestedFlag, stop := .deferred }
    else some { s with stop := stopNext s.word }
  | .casSource old =>
    if s.word = old ∧ spurious = false then
      some { s with word := stopRequestedFlag, stop := .requestSource }
    else some { s with stop := stopNext s.word }
  | .requestSource => some { s.requestStopOn .source with stop := .inSource }
  | .inSource => some { s with stop := .returnedSource }
  | .requestBody =>
    match s.childIndex with
    | .child c => some { s.requestStopOn c with stop := .inBody }
    | .empty => some { s with fault := true, stop := .inBody }
  | .inBody => some { s with stop := .returnedBody }

/-- The source's `set_result` -/
def sourceStep (s : Op V R X) : Option (Op V R X) :=
  match s.source with
  | .notStarted | .running | .returnedStopped | .returnedError | .returnedForwarded
  | .returnedDispatched | .returned => none
  | .add v throws =>
    some { s with
      word := fetchAdd stateBits s.word srcDoneFlag
      source := if hasFlag s.word stopRequestedFlag then .setStopped else .emplace v throws }
  | .setStopped => some { s.deliver .stopped with source := .returnedStopped }
  | .emplace v throws =>
    match thrownBy .values throws with
    | some x => some { s with source := .handler x }
    | none => some { s with values := some v, source := .destruct throws }
  | .destruct throws =>
    some { s.destructChild .source with childIndex := .empty, source := .invokeFactory throws }
  | .invokeFactory throws =>
    match s.values with
    | none => some { s with fault := true, source := .construct throws }
    | some v =>
      match thrownBy .factory throws with
      | some x =>
        some { s with factoryCalls := s.factoryCalls ++ [v], source := .handler x }
      | none =>
        some { s with factoryCalls := s.factoryCalls ++ [v], source := .construct throws }
  | .construct throws =>
    match thrownBy .connect throws with
    | some x => some { s with source := .handler x }
    | none => some { s.constructChild .body with source := .startBody }
  | .startBody => some { s with source := .inStart, body := .running }
  | .inStart => some { s with source := .addStarted }
  | .addStarted =>
    some { s with
      word := fetchAdd stateBits s.word bodyStartedFlag
      source :=
        if s.word = srcDoneFlag + stopRequestedFlag then .requestBody
        else if hasFlag s.word bodyDoneFlag then .dispatch
        else .returned }
  | .requestBody => some { s.requestStopOn .body with source := .inRequestStop }
  | .inRequestStop => some { s with source := .addDone }
  | .addDone =>
    some { s with
      word := fetchAdd stateBits s.word stopRequestDoneFlag
      stopRequestDone := true
      source := if hasFlag s.word bodyDoneFlag then .dispatch else .returned }
  | .dispatch => some { s.dispatchResult with source := .returnedDispatched }
  | .handler x => some { s with values := none, source := .setError x }
  | .setError x => some { s.deliver (.of (.exceptionPtr x)) with source := .returnedError }
  | .forward r => some { s.deliver (.of (.child r)) with source := .returnedForwarded }

/-- The body's `set_result` -/
def bodyStep (s : Op V R X) : Option (Op V R X) :=
  match s.body with
  | .notStarted | .running | .returnedForwarded | .returnedDelivered | .deferred => none
  | .load c => some { s with body := if canCompleteInline s.word then .forward c else .store c }
  | .forward c => some { s.deliver (.of (.child c.result)) with body := .returnedForwarded }
  | .store c => some { s with result := some (storeResult c), body := .add }
  | .add =>
    some { s with
      word := fetchAdd stateBits s.word bodyDoneFlag
      body := if canCompleteInline s.word then .deliver else .deferred }
  | .deliver => some { s.dispatchResult with body := .returnedDelivered }

end Op

/-- No call of `request_stop()` is running. -/
def StopPc.ended : StopPc → Bool
  | .notCalled | .returnedSource | .deferred | .returnedBody | .tooLate => true
  | _ => false

namespace Op

/-- The receiver may destroy the operation once it is completed and no `request_stop()` runs; the
owner may also destroy it before `start()`. -/
def mayDestroy (s : Op V R X) : Bool :=
  s.stop.ended && (decide (s.start = .notCalled) || !s.delivered.isEmpty)

/-- `~let_value_op()` -/
def destroy (s : Op V R X) : Op V R X :=
  match s.childIndex with
  | .empty => { s with destroyed := true }
  | .child c => { s.destructChild c with destroyed := true }

end Op

inductive Act (V R X : Type) where
  /-- the call of `start()`, and then its return from the source's `start()` -/
  | start
  /-- the call of `request_stop()` -/
  | requestStop
  /-- its next step -/
  | stop (spurious : Bool)
  /-- the source completes: it calls `set_result` -/
  | completeSource (c : SourceCompletion V R X)
  /-- the next step of the source's `set_result` -/
  | source
  | completeBody (c : Completion R X)
  | body
  | destroy

def Op.step (s : Op V R X) : Act V R X → Option (Op V R X)
  | .start =>
    match s.start with
    | .notCalled =>
      if s.destroyed then none else some { s with start := .inSource, source := .running }
    | .inSource => some { s with start := .returned }
    | .returned => none
  | .requestStop =>
    if s.stop = .notCalled ∧ s.destroyed = false then some { s with stop := .load } else none
  | .stop spurious => s.stopStep spurious
  | .completeSource c =>
    match s.source with
    | .running =>
      match c with
      | .value v throws => some { s with source := .add v throws, completion := some c }
      | .other r => some { s with source := .forward r, completion := some c }
    | _ => none
  | .source => s.sourceStep
  | .completeBody c =>
    match s.body with
    | .running => some { s with body := .load c, bodyCompletion := some c }
    | _ => none
  | .body => s.bodyStep
  | .destroy => if s.destroyed = false ∧ s.mayDestroy = true then some s.destroy else none

def system (V R X : Type) : System (Op V R X) (Act V R X) := ⟨{}, Op.step⟩

end Squiz.LetValue
