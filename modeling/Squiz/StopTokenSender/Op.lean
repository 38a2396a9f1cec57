import Squiz.Lib.System
import Squiz.Lib.Word

/-! `stop_token_op`: `start()`, one `request_stop()` and the invocation of its stop callback, each
on any thread. -/
namespace Squiz.StopTokenSender
open Squiz.Lib Squiz.Lib.Word

/-- The functions that add a flag to the state and may complete the receiver. -/
inductive Party where
  /-- `start()` -/
  | start
  /-- `on_stop_callback()` -/
  | callback
  /-- `request_stop()` -/
  | requestStop
  deriving DecidableEq

inductive Signal where
  | value
  | stopped
  deriving DecidableEq

/-- Width of `state_t`. -/
def stateBits : ℕ := 8

def callbackConstructionCompleteFlag : ℕ := 1
def stopCallbackInvokedFlag : ℕ := 2
def stopRequestedFlag : ℕ := 4

namespace Party

/-- The flag that the function adds. -/
def flag : Party → ℕ
  | start => callbackConstructionCompleteFlag
  | callback => stopCallbackInvokedFlag
  | requestStop => stopRequestedFlag

/-- The old state with which the function goes on to complete the receiver. -/
def completesOn : Party → ℕ
  | start => stopCallbackInvokedFlag
  | callback => callbackConstructionCompleteFlag
  | requestStop => callbackConstructionCompleteFlag

/-- What it completes the receiver with. -/
def signal : Party → Signal
  | start => .value
  | callback => .value
  | requestStop => .stopped

end Party

/-- `callback_.reset()` and the completion after it. -/
inductive Finish where
  /-- the destructor of the callback is to unsubscribe it -/
  | unsubscribe
  /-- the destructor waits for an invocation on another thread -/
  | wait
  | complete
  deriving DecidableEq

/-- Progress of `start()` up to its `fetch_add`. -/
inductive StartPc where
  | notCalled
  /-- `stop_token_.stop_requested()` -/
  | stopRequested
  /-- the completion of the receiver when a stop was requested before -/
  | setValue
  /-- about to call `callback_.emplace` -/
  | emplace
  /-- in the constructor of the callback -/
  | subscribe
  /-- in the constructor, which has subscribed to the token -/
  | subscribed
  | fetchAdd
  | added
  /-- returned after `setValue` -/
  | returnedEarly
  deriving DecidableEq

/-- Progress of the other functions up to their `fetch_add`. -/
inductive CallPc where
  | notCalled
  | fetchAdd
  | added
  deriving DecidableEq

/-- The contents of the optional `callback_`. -/
inductive Callback where
  | empty
  | constructing
  | constructed

structure Op (θ : Type*) where
  /-- `state_` -/
  word : ℕ := 0
  /-- `callback_` -/
  callback : Callback := .empty
  /-- the callback is subscribed to the token -/
  subscribed : Bool := false
  /-- a stop was requested on the token -/
  signalled : Bool := false
  start : StartPc := .notCalled
  invocation : CallPc := .notCalled
  /-- the invocation of the callback has not returned -/
  invoking : Bool := false
  stop : CallPc := .notCalled
  /-- what a function still does after its `fetch_add` -/
  finish : Party → Option Finish := fun _ => none
  /-- the thread that runs the function -/
  thread : Party → Option θ := fun _ => none
  /-- the functions that have added their flags, in this order -/
  added : List Party := []
  delivered : List Signal := []

variable {θ : Type*}

namespace Op

/-- `start()` has returned. -/
def startReturned (s : Op θ) : Bool :=
  s.start = .returnedEarly || s.start = .added && (s.finish .start).isNone

/-- The `fetch_add` of a function and the test of the old state. -/
def fetchAddFlag (s : Op θ) (p : Party) : Op θ :=
  { s with
    word := fetchAdd stateBits s.word p.flag
    finish :=
      Function.update s.finish p (if s.word = p.completesOn then some .unsubscribe else none)
    added := s.added ++ [p] }

section
variable (s : Op θ) (p : Party)

@[simp] theorem fetchAddFlag_start : (s.fetchAddFlag p).start = s.start := rfl

@[simp] theorem fetchAddFlag_invocation : (s.fetchAddFlag p).invocation = s.invocation := rfl

@[simp] theorem fetchAddFlag_stop : (s.fetchAddFlag p).stop = s.stop := rfl

@[simp] theorem fetchAddFlag_added : (s.fetchAddFlag p).added = s.added ++ [p] := rfl

end

variable [DecidableEq θ]

/-- The callback is being invoked on another thread than the one of the function. -/
def invokedElsewhere (s : Op θ) (p : Party) : Bool :=
  s.invoking && s.thread .callback ≠ s.thread p

def startStep (s : Op θ) : Option (Op θ) :=
  match s.start with
  | .notCalled | .added | .returnedEarly => none
  | .stopRequested => some { s with start := if s.signalled then .setValue else .emplace }
  | .setValue => some { s with delivered := s.delivered ++ [.value], start := .returnedEarly }
  | .emplace => some { s with callback := .constructing, start := .subscribe }
  | .subscribe => some { s with subscribed := true, start := .subscribed }
  | .subscribed =>
    -- an invocation inside the constructor ends before it
    if s.invoking ∧ s.thread .callback = s.thread .start then none
    else some { s with callback := .constructed, start := .fetchAdd }
  | .fetchAdd => some { s.fetchAddFlag .start with start := .added }

/-- The next step of `callback_.reset()` and of the completion after it. -/
def finishStep (s : Op θ) (p : Party) : Option (Op θ) :=
  match s.finish p with
  | none => none
  | some .unsubscribe =>
    some { s with subscribed := false, finish := Function.update s.finish p (some .wait) }
  | some .wait =>
    if s.invokedElsewhere p then none
    else some { s with
      callback := .empty
      finish := Function.update s.finish p (some .complete) }
  | some .complete =>
    some { s with
      delivered := s.delivered ++ [p.signal]
      finish := Function.update s.finish p none }

end Op

inductive Act (θ : Type*) where
  /-- a stop is requested on the token -/
  | signal
  /-- the call of `start()` -/
  | callStart (thread : θ)
  /-- its next step up to the `fetch_add` -/
  | start
  /-- the callback is invoked, by any thread and also inside its constructor -/
  | invoke (thread : θ)
  /-- the `fetch_add` of `on_stop_callback()` -/
  | callback
  /-- the invocation returns -/
  | returnCallback
  /-- the call of `request_stop()`, after `start()` has returned -/
  | requestStop (thread : θ)
  /-- its `fetch_add` -/
  | stop
  /-- the next step of a function after its `fetch_add` -/
  | finish (p : Party)

variable [DecidableEq θ]

namespace Op

def setThread (s : Op θ) (p : Party) (thread : θ) : Op θ :=
  { s with thread := Function.update s.thread p (some thread) }

def step (s : Op θ) : Act θ → Option (Op θ)
  | .signal => if s.signalled then none else some { s with signalled := true }
  | .callStart thread =>
    if s.start = .notCalled then some { s.setThread .start thread with start := .stopRequested }
    else none
  | .start => s.startStep
  | .invoke thread =>
    if s.signalled ∧ s.subscribed ∧ s.invocation = .notCalled then
      some { s.setThread .callback thread with invocation := .fetchAdd, invoking := true }
    else none
  | .callback =>
    if s.invocation = .fetchAdd then some { s.fetchAddFlag .callback with invocation := .added }
    else none
  | .returnCallback =>
    if s.invoking ∧ s.invocation = .added ∧ s.finish .callback = none then
      some { s with invoking := false }
    else none
  | .requestStop thread =>
    if s.stop = .notCalled ∧ s.startReturned then
      some { s.setThread .requestStop thread with stop := .fetchAdd }
    else none
  | .stop =>
    if s.stop = .fetchAdd then some { s.fetchAddFlag .requestStop with stop := .added } else none
  | .finish p => s.finishStep p

end Op

def system (θ : Type*) [DecidableEq θ] : System (Op θ) (Act θ) := ⟨{}, Op.step⟩

end Squiz.StopTokenSender
