import Squiz.Lib.System
import Squiz.Lib.Broadcast
import Squiz.Detail.Children

/-! `first_successful_op`: N child completions, `start()` and one outer `request_stop()` on one
word that packs the count of outstanding children above three flags. -/
namespace Squiz.FirstSuccessful
open Squiz.Lib Squiz.Lib.Word Squiz.Detail

def hasValueFlag : ℕ := 2

structure Config extends Arity where
  isRequestStopSupported : Bool

section Results
variable (D X : Type)

/-- Whether the move constructors of a completion's datums are `noexcept`, and, if they are not,
what they throw here. -/
inductive Move where
  | nothrow
  | mayThrow (throws : Option X)
  deriving DecidableEq

/-- A call of `set_result`. -/
inductive Completion where
  | value (vs : List D) (move : Move X)
  | signal (tag : SignalTag) (datums : List D) (move : Move X)

/-- What the receiver is completed with. -/
inductive Result where
  | value (vs : List D)
  | signal (tag : SignalTag) (datums : List D)
  | exceptionPtr (x : X)
  deriving DecidableEq

/-- What `result_variant_` holds: a result, or a reference into `throwing_value_results_`. -/
inductive Stored (C : Config) where
  | result (r : Result D X)
  | reference (i : C.Child)

end Results

/-- Which storage a child's own `result_tuple` names. -/
inductive Slot where
  | variant | throwing
  deriving DecidableEq

variable {D X : Type}

/-- What storing `r` leaves in `result_variant_`. -/
def Move.stored (m : Move X) (r : Result D X) : Result D X :=
  match m with
  | .mayThrow (some x) => .exceptionPtr x
  | _ => r

/-- Progress of `start()`. -/
inductive StartPc (C : Config) where
  | launch (k : C.Child)
  | load
  /-- all children were seen complete in `old_state` -/
  | storeStarted (oldState : ℕ)
  | stopLoop (k : C.Child)
  | addStarted
  | cas (oldState : ℕ)
  | deliver
  | done
  deriving DecidableEq

/-- Progress of the outer `request_stop()`. -/
inductive StopPc (C : Config) where
  | idle
  | stopLoop (k : C.Child)
  | done
  deriving DecidableEq

/-- Progress of one child and of its `set_result`. -/
inductive ChildPc (C : Config) (D X : Type) where
  | notStarted
  | running
  | valueLoad (vs : List D) (move : Move X)
  /-- the `fetch_sub` of the value that completes inline -/
  | inlineSub (vs : List D)
  | valueOr (vs : List D)
  | storeValue (vs : List D) (oldState : ℕ)
  | stopLoop (k : C.Child)
  | storeThrowing (vs : List D) (throws : Option X)
  | throwingOr
  | setReference
  | dropThrowing
  /-- the winner's `fetch_sub` -/
  | valueSub (slot : Slot)
  /-- the `fetch_sub` of `discard_value_result` -/
  | discardSub
  | resultLoad (r : Result D X) (move : Move X)
  | resultCas (r : Result D X) (move : Move X) (oldState : ℕ)
  /-- the last result, to be discarded, races with `start()` -/
  | lastSub
  | storeResult (r : Result D X) (move : Move X)
  | resultSub
  | storeState (r : Result D X) (oldState : ℕ)
  /-- `set_value` or `set_result` with the arguments of this `set_result` -/
  | deliver (r : Result D X)
  /-- `deliver_result_tuple` with this child's `result_tuple` -/
  | deliverTuple (slot : Slot)
  /-- `deliver_result()` -/
  | deliverStored
  | done
  deriving DecidableEq

inductive Caller (C : Config) where
  | start
  | stop
  | child (i : C.Child)

/-- The child has neither given up its count nor found itself the last to complete. -/
def ChildPc.held {C : Config} : ChildPc C D X → Bool
  | .inlineSub _ | .storeState _ _ | .deliver _ | .deliverTuple _ | .deliverStored | .done => false
  | _ => true

structure Op (C : Config) (D X : Type) where
  /-- `state_` -/
  word : ℕ := countIncrement * C.children
  resultVariant : Option (Stored D X C) := none
  throwingValueResults : C.Child → Option (List D) := fun _ => none
  start : StartPc C := .launch C.first
  stop : StopPc C := .idle
  child : C.Child → ChildPc C D X := fun _ => .notStarted
  /-- the argument of each child's `set_result` -/
  completion : C.Child → Option (Completion D X) := fun _ => none
  /-- the children that gave up their count or found themselves last, in that order -/
  departed : List C.Child := []
  /-- the child that claimed `has_value_flag`, or took the inline path with it clear -/
  winner : Option C.Child := none
  /-- another child was still outstanding when the winner claimed the flag -/
  othersRunning : Bool := false
  /-- the winner's value may throw and it claimed the flag after `started_flag` was set and
  before a stop was requested -/
  lateThrowing : Bool := false
  /-- `start()` found all children complete -/
  foundAllComplete : Bool := false
  /-- who began to call `request_stop()` on the children -/
  forwarder : Option (Caller C) := none
  stopRequests : C.Child → ℕ := fun _ => 0
  delivered : List (Result D X) := []
  /-- an assert failed or `std::unreachable()` was reached -/
  fault : Bool := false

variable {C : Config}

/-- The children that a caller of `request_stop()` calls: a winner leaves itself out. -/
def Caller.target : Caller C → C.Child → Bool
  | .child i, k => decide (k ≠ i)
  | _, _ => true

namespace Op

def setChild (s : Op C D X) (i : C.Child) (pc : ChildPc C D X) : Op C D X :=
  { s with child := Function.update s.child i pc }

/-- Child `i` leaves the count, for `pc`. -/
def depart (s : Op C D X) (i : C.Child) (pc : ChildPc C D X) : Op C D X :=
  { s.setChild i pc with departed := s.departed ++ [i] }

/-- Child `i` leaves the count by taking `count_increment` off the word. -/
def decrement (s : Op C D X) (i : C.Child) (pc : ChildPc C D X) (oldState : ℕ) : Op C D X :=
  { s.depart i pc with word := fetchSub C.stateBits oldState countIncrement }

/-- What `caller` does for child `k` when it asks the children to stop. -/
def requestStopOn (s : Op C D X) (caller : Caller C) (k : C.Child) : Op C D X :=
  { s with
    stopRequests :=
      Function.update s.stopRequests k (s.stopRequests k + (caller.target k).toNat) }

/-- Whether this is the last child to complete and `start()` has finished launching. -/
def canCompleteInline (oldState : ℕ) : Bool :=
  decide (oldState < 2 * countIncrement) && hasFlag oldState startedFlag

/-- The result that `result_variant_` leads to. -/
def storedResult (s : Op C D X) : Option (Result D X) :=
  match s.resultVariant with
  | some (.result r) => some r
  | some (.reference i) => (s.throwingValueResults i).map .value
  | none => none

/-- The result in child `i`'s own `result_tuple`. -/
def tupleResult (s : Op C D X) (i : C.Child) : Slot → Option (Result D X)
  | .variant => s.storedResult
  | .throwing => (s.throwingValueResults i).map .value

/-- Completes the receiver with what the storage holds. -/
def deliverFrom (s : Op C D X) : Option (Result D X) → Op C D X
  | some r => { s with delivered := s.delivered ++ [r] }
  | none => { s with fault := true }

/-- The winner claims `has_value_flag`. -/
def win (s : Op C D X) (i : C.Child) : Op C D X :=
  { s with
    winner := some i
    othersRunning := decide (∃ j, j ≠ i ∧ (s.child j).held = true) }

/-! `start()` -/

/-- The loop body of `start()`, for the state just loaded. -/
def startLoop (s : Op C D X) (oldState : ℕ) : Op C D X :=
  if oldState < countIncrement then { s with start := .storeStarted oldState }
  else if hasFlag oldState hasValueFlag then
    { s with start := .stopLoop C.first, forwarder := some .start }
  else { s with start := .cas oldState }

def startStep (s : Op C D X) (spurious : Bool) : Option (Op C D X) :=
  match s.start with
  | .launch k =>
    some { s.setChild k .running with start := ((Broadcast.next k).map .launch).getD .load }
  | .load => some (s.startLoop s.word)
  | .storeStarted oldState =>
    some { s with
      word := fetchOr oldState startedFlag
      start := .deliver
      foundAllComplete := true }
  | .stopLoop k =>
    some { s.requestStopOn .start k with
      start := ((Broadcast.next k).map .stopLoop).getD .addStarted }
  | .addStarted =>
    some { s with
      word := fetchAdd C.stateBits s.word startedFlag
      start := if s.word < countIncrement then .deliver else .done }
  | .cas oldState =>
    if s.word = oldState ∧ spurious = false then
      some { s with word := fetchOr oldState startedFlag, start := .done }
    else some (s.startLoop s.word)
  | .deliver => some { s.deliverFrom s.storedResult with start := .done }
  | .done => none

/-! The outer `request_stop()` -/

def stopStep (s : Op C D X) : Option (Op C D X) :=
  match s.stop with
  | .idle =>
    if s.start = .done ∧ C.isRequestStopSupported = true then
      let forward := decide (countIncrement ≤ s.word) && !hasFlag s.word hasValueFlag
      some { s with
        word := fetchAdd C.stateBits s.word stopRequestedFlag
        fault := s.fault || hasFlag s.word stopRequestedFlag || !hasFlag s.word startedFlag
        forwarder := if forward then some .stop else s.forwarder
        stop := if forward then .stopLoop C.first else .done }
    else none
  | .stopLoop k =>
    some { s.requestStopOn .stop k with stop := ((Broadcast.next k).map .stopLoop).getD .done }
  | .done => none

/-! `set_result` with a value -/

/-- The load of `set_result(value)` and the path it decides on. -/
def valueLoad (s : Op C D X) (i : C.Child) (vs : List D) (move : Move X) : Op C D X :=
  if hasFlag s.word hasValueFlag then s.setChild i .discardSub
  else if canCompleteInline s.word then
    (s.win i).depart i (if C.isRequestStopSupported then .inlineSub vs else .deliver (.value vs))
  else
    match move with
    | .nothrow => s.setChild i (.valueOr vs)
    | .mayThrow throws => s.setChild i (.storeThrowing vs throws)

def valueOr (s : Op C D X) (i : C.Child) (vs : List D) : Op C D X :=
  let t := { s with word := fetchOr s.word hasValueFlag }
  if hasFlag s.word hasValueFlag then t.setChild i .discardSub
  else if canCompleteInline s.word then (t.win i).depart i (.deliver (.value vs))
  else (t.win i).setChild i (.storeValue vs s.word)

/-- `start()` has finished and no stop was requested, so the winner is to send the requests. -/
def forwards (oldState : ℕ) : Bool :=
  hasFlag oldState startedFlag && !hasFlag oldState stopRequestedFlag

def storeValue (s : Op C D X) (i : C.Child) (vs : List D) (oldState : ℕ) : Op C D X :=
  let t := { s with resultVariant := some (.result (.value vs)) }
  if forwards oldState then
    { t.setChild i (.stopLoop C.first) with
      forwarder := some (.child i)
      fault := s.fault || decide (oldState < 2 * countIncrement) }
  else t.setChild i (.valueSub .variant)

def throwingOr (s : Op C D X) (i : C.Child) : Op C D X :=
  let t := { s with word := fetchOr s.word hasValueFlag }
  if hasFlag s.word hasValueFlag then t.setChild i .dropThrowing
  else
    { (t.win i).setChild i .setReference with
      lateThrowing := forwards s.word }

/-- The winner's `fetch_sub`. -/
def valueSub (s : Op C D X) (i : C.Child) (slot : Slot) : Op C D X :=
  s.decrement i (if canCompleteInline s.word then .deliverTuple slot else .done) s.word

def discardSub (s : Op C D X) (i : C.Child) : Op C D X :=
  { s.decrement i (if canCompleteInline s.word then .deliverStored else .done) s.word with
    fault := s.fault || !hasFlag s.word hasValueFlag }

/-! `handle_non_value_result` -/

/-- The test of the loop and the branches behind it, for the state just loaded. -/
def resultLoop (s : Op C D X) (i : C.Child) (r : Result D X) (move : Move X)
    (oldState : ℕ) : Op C D X :=
  if 2 * countIncrement ≤ oldState then s.setChild i (.resultCas r move oldState)
  else if hasFlag oldState hasValueFlag then
    if hasFlag oldState startedFlag then s.depart i .deliverStored else s.setChild i .lastSub
  else if hasFlag oldState startedFlag then
    s.depart i (if C.isRequestStopSupported then .storeState r oldState else .deliver r)
  else s.setChild i (.storeResult r move)

def lastSub (s : Op C D X) (i : C.Child) : Op C D X :=
  s.decrement i (if hasFlag s.word startedFlag then .deliverStored else .done) s.word

def resultSub (s : Op C D X) (i : C.Child) : Op C D X :=
  s.decrement i (if hasFlag s.word startedFlag then .deliverTuple .variant else .done) s.word

/-- `set_result` with `c`, up to its first step. -/
def setResult : Completion D X → ChildPc C D X
  | .value vs move => .valueLoad vs move
  | .signal tag datums move => .resultLoad (.signal tag datums) move

def childStep (s : Op C D X) (i : C.Child) (spurious : Bool) : Option (Op C D X) :=
  match s.child i with
  | .valueLoad vs move => some (s.valueLoad i vs move)
  | .inlineSub vs =>
    some { s.setChild i (.deliver (.value vs)) with
      word := fetchSub C.stateBits s.word (countIncrement - hasValueFlag) }
  | .valueOr vs => some (s.valueOr i vs)
  | .storeValue vs oldState => some (s.storeValue i vs oldState)
  | .stopLoop k =>
    some ((s.requestStopOn (.child i) k).setChild i
      (((Broadcast.next k).map .stopLoop).getD (.valueSub .variant)))
  | .storeThrowing vs none =>
    some { s.setChild i .throwingOr with
      throwingValueResults := Function.update s.throwingValueResults i (some vs) }
  | .storeThrowing _ (some x) => some (s.setChild i (.resultLoad (.exceptionPtr x) .nothrow))
  | .throwingOr => some (s.throwingOr i)
  | .setReference =>
    some { s.setChild i (.valueSub .throwing) with resultVariant := some (.reference i) }
  | .dropThrowing =>
    some { s.setChild i .discardSub with
      throwingValueResults := Function.update s.throwingValueResults i none }
  | .valueSub slot => some (s.valueSub i slot)
  | .discardSub => some (s.discardSub i)
  | .resultLoad r move => some (s.resultLoop i r move s.word)
  | .resultCas r move oldState =>
    if s.word = oldState ∧ spurious = false then
      some (s.decrement i .done oldState)
    else some (s.resultLoop i r move s.word)
  | .lastSub => some (s.lastSub i)
  | .storeResult r move =>
    some { s.setChild i .resultSub with resultVariant := some (.result (move.stored r)) }
  | .resultSub => some (s.resultSub i)
  | .storeState r oldState =>
    some { s.setChild i (.deliver r) with
      word := fetchSub C.stateBits oldState countIncrement }
  | .deliver r => some ((s.deliverFrom (some r)).setChild i .done)
  | .deliverTuple slot => some ((s.deliverFrom (s.tupleResult i slot)).setChild i .done)
  | .deliverStored => some ((s.deliverFrom s.storedResult).setChild i .done)
  | .notStarted | .running | .done => none

end Op

inductive Act (C : Config) (D X : Type) where
  /-- the next step of `start()` -/
  | start (spurious : Bool)
  /-- the next step of the outer `request_stop()` -/
  | stop
  /-- child `i` completes: it calls `set_result` -/
  | complete (i : C.Child) (c : Completion D X)
  /-- the next step of child `i`'s `set_result` -/
  | child (i : C.Child) (spurious : Bool)

def Op.step (s : Op C D X) : Act C D X → Option (Op C D X)
  | .start spurious => s.startStep spurious
  | .stop => s.stopStep
  | .complete i c =>
    match s.child i with
    | .running =>
      some { s.setChild i (Op.setResult c) with
        completion := Function.update s.completion i (some c) }
    | _ => none
  | .child i spurious => s.childStep i spurious

def system (C : Config) (D X : Type) : System (Op C D X) (Act C D X) := ⟨{}, Op.step⟩

end Squiz.FirstSuccessful
