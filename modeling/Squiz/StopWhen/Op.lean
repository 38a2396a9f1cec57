import Squiz.Lib.System
import Squiz.Lib.Word
import Squiz.Detail.StoreResult

/-! `stop_when_op`: `start()`, one outer `request_stop()`, and the completions of the source and of
the trigger, on one word of five flags. -/
namespace Squiz.StopWhen
open Squiz.Lib Squiz.Lib.Word Squiz.Detail

def childrenStartedFlag : ℕ := 1
def sourceCompletedFlag : ℕ := 2
def triggerCompletedFlag : ℕ := 4
def stopRequestedFlag : ℕ := 8
def stopRequestDoneFlag : ℕ := 16

/-- Width of `state_t`. -/
def stateBits : ℕ := 8

inductive Child where
  | source | trigger
  deriving DecidableEq

/-- Progress of `start()`. -/
inductive StartPc where
  | notCalled
  /-- in the source's `start()` -/
  | inSource
  | loadSource
  | callTrigger
  | inTrigger
  | loadBoth
  | addStarted
  /-- about to call `request_stop()` of a child -/
  | requestStop (child : Child)
  | inRequestStop (child : Child)
  | addDone
  | deliver
  /-- `deliver_result()` for children that completed during `start()` -/
  | deliverEarly
  | returned
  | returnedEarly
  deriving DecidableEq

/-- Progress of the outer `request_stop()`. -/
inductive StopPc where
  | notCalled
  | cas
  | requestSource
  | inSource
  | requestTrigger
  | inTrigger
  | returned
  /-- returned, because the `compare_exchange` failed -/
  | ignored
  deriving DecidableEq

/-- Progress of the source and of its `set_result`. -/
inductive SourcePc (R X : Type) where
  | notStarted
  | running
  | load (c : Completion R X)
  /-- the receiver is completed with the arguments of `set_result` -/
  | forward (c : Completion R X)
  | store (c : Completion R X)
  | add
  | requestTrigger
  | inTrigger
  | addDone
  | deliver
  | returned
  | returnedForwarded
  deriving DecidableEq

/-- Progress of the trigger and of its `set_result`. -/
inductive TriggerPc where
  | notStarted
  | running
  | load
  /-- `deliver_result()` without setting `trigger_completed_flag` -/
  | deliverInline
  | add
  | requestSource
  | inSource
  | addDone
  | deliver
  | returned
  | returnedInline
  deriving DecidableEq

structure Op (R X : Type) where
  /-- `state_` -/
  word : ℕ := 0
  /-- `result_` -/
  result : Option (Result R X) := none
  start : StartPc := .notCalled
  stop : StopPc := .notCalled
  source : SourcePc R X := .notStarted
  trigger : TriggerPc := .notStarted
  /-- the source's completion -/
  completion : Option (Completion R X) := none
  sourceStops : ℕ := 0
  triggerStops : ℕ := 0
  delivered : List (Result R X) := []
  /-- `stop_request_done_flag` was added -/
  stopRequestDone : Bool := false
  /-- the assert of `request_stop()` failed -/
  assertFailed : Bool := false
  /-- `deliver_result` found no result -/
  fault : Bool := false
  deriving DecidableEq

variable {R X : Type}

namespace Op

def deliverResult (s : Op R X) : Op R X :=
  match s.result with
  | some r => { s with delivered := s.delivered ++ [r] }
  | none => { s with fault := true }

/-- The call of `request_stop()` of a child. -/
def requestStopOn (s : Op R X) : Child → Op R X
  | .source => { s with sourceStops := s.sourceStops + 1 }
  | .trigger => { s with triggerStops := s.triggerStops + 1 }

/-- The `fetch_add` after an internal call of `request_stop()` has returned. -/
def addStopRequestDone (s : Op R X) : Op R X :=
  { s with
    word := fetchAdd stateBits s.word stopRequestDoneFlag
    stopRequestDone := true }

/-- Both children have completed and the call of `request_stop()` that ended was the last. -/
def bothCompletedAndStarted : ℕ :=
  sourceCompletedFlag + triggerCompletedFlag + childrenStartedFlag

/-- The other child has completed and no call of `request_stop()` is active, when the state is
loaded or changed by the completion of the child whose flag is not `other`. -/
def okToComplete (other oldState : ℕ) : Bool :=
  decide (oldState = childrenStartedFlag + other + stopRequestDoneFlag) ||
    decide (oldState = childrenStartedFlag + other + stopRequestedFlag)

def startStep (s : Op R X) : Option (Op R X) :=
  match s.start with
  | .notCalled => some { s with start := .inSource, source := .running }
  | .inSource => some { s with start := .loadSource }
  | .loadSource =>
    some { s with
      start := if s.word = sourceCompletedFlag then .deliverEarly else .callTrigger }
  | .callTrigger => some { s with start := .inTrigger, trigger := .running }
  | .inTrigger => some { s with start := .loadBoth }
  | .loadBoth =>
    some { s with
      start :=
        if s.word = sourceCompletedFlag + triggerCompletedFlag then .deliverEarly
        else .addStarted }
  | .addStarted =>
    some { s with
      word := fetchAdd stateBits s.word childrenStartedFlag
      start :=
        if s.word = sourceCompletedFlag + triggerCompletedFlag then .deliverEarly
        else if s.word = sourceCompletedFlag then .requestStop .trigger
        else if s.word = triggerCompletedFlag then .requestStop .source
        else .returned }
  | .requestStop child => some { s.requestStopOn child with start := .inRequestStop child }
  | .inRequestStop _ => some { s with start := .addDone }
  | .addDone =>
    some { s.addStopRequestDone with
      start := if s.word = bothCompletedAndStarted then .deliver else .returned }
  | .deliver => some { s.deliverResult with start := .returned }
  | .deliverEarly => some { s.deliverResult with start := .returnedEarly }
  | .returned | .returnedEarly => none

def stopStep (s : Op R X) : Option (Op R X) :=
  match s.stop with
  | .notCalled | .returned | .ignored => none
  | .cas =>
    if s.word = childrenStartedFlag then
      some { s with word := childrenStartedFlag + stopRequestedFlag, stop := .requestSource }
    else some { s with stop := .ignored }
  | .requestSource => some { s.requestStopOn .source with stop := .inSource }
  | .inSource => some { s with stop := .requestTrigger }
  | .requestTrigger => some { s.requestStopOn .trigger with stop := .inTrigger }
  | .inTrigger => some { s with stop := .returned }

/-- `set_result(source_tag)` and `source_completed` -/
def sourceStep (s : Op R X) : Option (Op R X) :=
  match s.source with
  | .notStarted | .running | .returned | .returnedForwarded => none
  | .load c =>
    some { s with
      source := if okToComplete triggerCompletedFlag s.word then .forward c else .store c }
  | .forward c =>
    some { s with
      delivered := s.delivered ++ [.child c.result]
      source := .returnedForwarded }
  | .store c => some { s with result := some (storeResult c), source := .add }
  | .add =>
    some { s with
      word := fetchAdd stateBits s.word sourceCompletedFlag
      source :=
        if okToComplete triggerCompletedFlag s.word then .deliver
        else if s.word = childrenStartedFlag then .requestTrigger
        else .returned }
  | .requestTrigger => some { s.requestStopOn .trigger with source := .inTrigger }
  | .inTrigger => some { s with source := .addDone }
  | .addDone =>
    some { s.addStopRequestDone with
      source := if s.word = bothCompletedAndStarted then .deliver else .returned }
  | .deliver => some { s.deliverResult with source := .returned }

/-- `set_result(trigger_tag)` and `trigger_completed` -/
def triggerStep (s : Op R X) : Option (Op R X) :=
  match s.trigger with
  | .notStarted | .running | .returned | .returnedInline => none
  | .load =>
    some { s with
      trigger := if okToComplete sourceCompletedFlag s.word then .deliverInline else .add }
  | .deliverInline => some { s.deliverResult with trigger := .returnedInline }
  | .add =>
    some { s with
      word := fetchAdd stateBits s.word triggerCompletedFlag
      trigger :=
        if okToComplete sourceCompletedFlag s.word then .deliver
        else if s.word = childrenStartedFlag then .requestSource
        else .returned }
  | .requestSource => some { s.requestStopOn .source with trigger := .inSource }
  | .inSource => some { s with trigger := .addDone }
  | .addDone =>
    some { s.addStopRequestDone with
      trigger := if s.word = bothCompletedAndStarted then .deliver else .returned }
  | .deliver => some { s.deliverResult with trigger := .returned }

end Op

inductive Act (R X : Type) where
  /-- the call of `start()` and its next step -/
  | start
  /-- the call of the outer `request_stop()`, after `start()` has returned -/
  | requestStop
  /-- its next step -/
  | stop
  /-- the source completes: it calls `set_result` -/
  | completeSource (c : Completion R X)
  /-- the next step of the source's `set_result` -/
  | source
  | completeTrigger
  | trigger
  deriving DecidableEq

def Op.step (s : Op R X) : Act R X → Option (Op R X)
  | .start => s.startStep
  | .requestStop =>
    if s.stop = .notCalled ∧ (s.start = .returned ∨ s.start = .returnedEarly) then
      some { s with
        stop := .cas
        assertFailed := s.assertFailed || !hasFlag s.word childrenStartedFlag }
    else none
  | .stop => s.stopStep
  | .completeSource c =>
    match s.source with
    | .running => some { s with source := .load c, completion := some c }
    | _ => none
  | .source => s.sourceStep
  | .completeTrigger =>
    if s.trigger = .running then some { s with trigger := .load } else none
  | .trigger => s.triggerStep

def system (R X : Type) : System (Op R X) (Act R X) := ⟨{}, Op.step⟩

end Squiz.StopWhen
