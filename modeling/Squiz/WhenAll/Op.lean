import Squiz.Lib.System
import Squiz.Lib.Word
import Squiz.Lib.Broadcast
import Squiz.Detail.Children
import Mathlib.Data.List.FinRange

/-! `when_all_op`: N child completions, `start()` and one outer `request_stop()` on one word
that packs the count of outstanding children above three flags. -/
namespace Squiz.WhenAll
open Squiz.Lib Squiz.Lib.Word Squiz.Detail

def failedFlag : ℕ := 2

section Results
variable (D X : Type)

/-- What `error_or_stopped_` holds: the datums of a signal, or a caught exception. -/
inductive Failure where
  | signal (tag : SignalTag) (datums : List D)
  | exceptionPtr (x : X)
  deriving DecidableEq

/-- A call of `set_result`, with the exception that storing its datums throws, if any. -/
inductive Completion where
  | value (vs : List D) (throws : Option X)
  | signal (tag : SignalTag) (datums : List D) (throws : Option X)
  deriving DecidableEq

/-- What the receiver is completed with. -/
inductive Result where
  | value (vs : List D)
  | failure (f : Failure D X)
  deriving DecidableEq

end Results

variable {D X : Type}

/-- The failure a completion stands for, if it is one. -/
def Completion.failure : Completion D X → Option (Failure D X)
  | .value _ none => none
  | .value _ (some x) => some (.exceptionPtr x)
  | .signal tag datums none => some (.signal tag datums)
  | .signal _ _ (some x) => some (.exceptionPtr x)

/-- Progress of `start()`. -/
inductive StartPc (N : Arity) where
  /-- about to call `start()` of child `k` -/
  | launch (k : N.Child)
  | setStarted
  /-- in `request_stop_on_all_children`, about to call it on child `k` -/
  | requestStop (k : N.Child)
  | deliver
  | done
  deriving DecidableEq

/-- Progress of the outer `request_stop()`. -/
inductive StopPc (N : Arity) where
  | idle
  | requestStop (k : N.Child)
  | done
  deriving DecidableEq

/-- Progress of one child and of its `set_result`. -/
inductive ChildPc (N : Arity) (D X : Type) where
  | notStarted
  | running
  | storeValue (vs : List D) (throws : Option X)
  /-- the load and then the `fetch_or` of `try_set_failure_flag` -/
  | loadFlag (f : Failure D X)
  | setFlag (f : Failure D X)
  | requestStop (f : Failure D X) (k : N.Child)
  | storeFailure (f : Failure D X)
  | arrive
  | deliver
  | done
  deriving DecidableEq

/-- Who calls `request_stop()` on the children. -/
inductive Caller (N : Arity) where
  | start
  | stop
  | child (i : N.Child)
  deriving DecidableEq

structure Op (N : Arity) (D X : Type) where
  /-- `state_` -/
  word : ℕ := countIncrement * N.children
  errorOrStopped : Option (Failure D X) := none
  valueResults : N.Child → Option (List D) := fun _ => none
  start : StartPc N := .launch N.first
  stop : StopPc N := .idle
  child : N.Child → ChildPc N D X := fun _ => .notStarted
  /-- the argument of each child's `set_result` -/
  completion : N.Child → Option (Completion D X) := fun _ => none
  /-- the child that set `failed_flag` first -/
  firstFailure : Option N.Child := none
  /-- who began to call `request_stop()` on the children -/
  forwarder : Option (Caller N) := none
  stopRequests : N.Child → ℕ := fun _ => 0
  delivered : List (Result D X) := []
  /-- an assert failed or `std::unreachable()` was reached -/
  fault : Bool := false

variable {N : Arity}

namespace Op

def setChild (s : Op N D X) (i : N.Child) (pc : ChildPc N D X) : Op N D X :=
  { s with child := Function.update s.child i pc }

/-- One call in `request_stop_on_all_children`. -/
def requestStopOn (s : Op N D X) (k : N.Child) : Op N D X :=
  { s with stopRequests := Function.update s.stopRequests k (s.stopRequests k + 1) }

def deliverValue (results : N.Child → Option (List D)) : List N.Child → List D → Option (List D)
  | [], vs => some vs
  | i :: is, vs => (results i).bind fun newVs => deliverValue results is (vs ++ newVs)

def deliverResult (s : Op N D X) : Op N D X :=
  match s.errorOrStopped with
  | some f => { s with delivered := s.delivered ++ [.failure f] }
  | none =>
    match deliverValue s.valueResults (List.finRange N.children) [] with
    | some vs => { s with delivered := s.delivered ++ [.value vs] }
    | none => { s with fault := true }

/-- `start()`, after all children were launched. -/
def setStarted (s : Op N D X) : Op N D X :=
  { s with
    word := fetchAdd N.stateBits s.word startedFlag
    fault := s.fault || hasFlag s.word startedFlag || hasFlag s.word stopRequestedFlag
    forwarder :=
      if countIncrement ≤ s.word ∧ hasFlag s.word failedFlag = true then some .start
      else s.forwarder
    start :=
      if countIncrement ≤ s.word then
        if hasFlag s.word failedFlag then .requestStop N.first else .done
      else .deliver }

def startStep (s : Op N D X) : Option (Op N D X) :=
  match s.start with
  | .launch k =>
    some { s.setChild k .running with start := ((Broadcast.next k).map .launch).getD .setStarted }
  | .setStarted => some s.setStarted
  | .requestStop k =>
    some { s.requestStopOn k with start := ((Broadcast.next k).map .requestStop).getD .done }
  | .deliver => some { s.deliverResult with start := .done }
  | .done => none

def stopStep (s : Op N D X) : Option (Op N D X) :=
  match s.stop with
  | .idle =>
    if s.start = .done then
      let forward := !hasFlag s.word failedFlag && decide (countIncrement ≤ s.word)
      some { s with
        word := fetchAdd N.stateBits s.word stopRequestedFlag
        fault := s.fault || hasFlag s.word stopRequestedFlag || !hasFlag s.word startedFlag
        forwarder := if forward then some .stop else s.forwarder
        stop := if forward then .requestStop N.first else .done }
    else none
  | .requestStop k =>
    some { s.requestStopOn k with stop := ((Broadcast.next k).map .requestStop).getD .done }
  | .done => none

/-- The `fetch_or` of `try_set_failure_flag` and the decision it makes. -/
def setFailureFlag (s : Op N D X) (i : N.Child) (f : Failure D X) : Op N D X :=
  if hasFlag s.word failedFlag then
    { s.setChild i .arrive with word := fetchOr s.word failedFlag }
  else
    let forward := hasFlag s.word startedFlag && !hasFlag s.word stopRequestedFlag &&
      decide (2 * countIncrement ≤ s.word)
    { s.setChild i (if forward then .requestStop f N.first else .storeFailure f) with
      word := fetchOr s.word failedFlag
      firstFailure := some i
      forwarder := if forward then some (.child i) else s.forwarder }

/-- The `fetch_sub` of `arrive`. -/
def arrive (s : Op N D X) (i : N.Child) : Op N D X :=
  { s.setChild i
      (if s.word < 2 * countIncrement ∧ hasFlag s.word startedFlag = true then .deliver
        else .done) with
    word := fetchSub N.stateBits s.word countIncrement }

/-- `set_result` of child `i` with `c`, up to its first step. -/
def setResult : Completion D X → ChildPc N D X
  | .value vs throws => .storeValue vs throws
  | .signal tag datums none => .loadFlag (.signal tag datums)
  | .signal _ _ (some x) => .loadFlag (.exceptionPtr x)

def childStep (s : Op N D X) (i : N.Child) : Option (Op N D X) :=
  match s.child i with
  | .storeValue vs none =>
    some { s.setChild i .arrive with
      valueResults := Function.update s.valueResults i (some vs) }
  | .storeValue _ (some x) => some (s.setChild i (.loadFlag (.exceptionPtr x)))
  | .loadFlag f => some (s.setChild i (if hasFlag s.word failedFlag then .arrive else .setFlag f))
  | .setFlag f => some (s.setFailureFlag i f)
  | .requestStop f k =>
    some ((s.requestStopOn k).setChild i
      (((Broadcast.next k).map (.requestStop f)).getD (.storeFailure f)))
  | .storeFailure f => some { s.setChild i .arrive with errorOrStopped := some f }
  | .arrive => some (s.arrive i)
  | .deliver => some (s.deliverResult.setChild i .done)
  | .notStarted | .running | .done => none

end Op

inductive Act (N : Arity) (D X : Type) where
  /-- the next step of `start()` -/
  | start
  /-- the next step of the outer `request_stop()` -/
  | stop
  /-- child `i` completes: it calls `set_result` -/
  | complete (i : N.Child) (c : Completion D X)
  /-- the next step of child `i`'s `set_result` -/
  | child (i : N.Child)
  deriving DecidableEq

def Op.step (s : Op N D X) : Act N D X → Option (Op N D X)
  | .start => s.startStep
  | .stop => s.stopStep
  | .complete i c =>
    match s.child i with
    | .running =>
      some { s.setChild i (Op.setResult c) with
        completion := Function.update s.completion i (some c) }
    | _ => none
  | .child i => s.childStep i

def system (N : Arity) (D X : Type) : System (Op N D X) (Act N D X) := ⟨{}, Op.step⟩

end Squiz.WhenAll
