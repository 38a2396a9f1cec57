import Squiz.Lib.System
import Mathlib.Logic.Function.Basic

/-! `single_inplace_stop_source`: threads call `request_stop()`, `try_register_callback()` and
`deregister_callback()`, also from inside a callback, so each thread has a stack of calls. -/
namespace Squiz.SingleInplaceStopSource
open Squiz.Lib

/-- `state_`: a null pointer, one of two marker addresses or the address of a callback. -/
inductive Word (A : Type) where
  | null
  | stopRequested
  | stopRequestedCallbackDone
  | callback (a : A)
  deriving DecidableEq

/-- `stop_requested()` -/
def Word.stopped {A : Type} : Word A → Bool
  | .stopRequested | .stopRequestedCallbackDone => true
  | _ => false

/-- A call that has not returned, and where it is. -/
inductive Frame (C A : Type) where
  | stopLoad
  | stopCas (old : Word A)
  | stopStoreId (a : A)
  | stopExecute (a : A)
  /-- `callback->execute(callback)` was called -/
  | stopStoreDone
  | stopNotify
  /-- the callback's own code -/
  | running (c : C)
  | registerLoad (c : C)
  | registerCas (c : C) (old : Word A)
  | registerExecute (c : C)
  /-- `base->execute(base)` was called -/
  | registerReturn (c : C)
  | deregisterCas (c : C) (old : Word A)
  | deregisterLoadId (c : C)
  /-- in `state_.wait(old)` -/
  | deregisterWait (c : C) (old : Word A)
  | deregisterLoad (c : C)
  deriving DecidableEq

/-- The life of a callback object. -/
inductive Status (T : Type) where
  | fresh
  /-- a thread is in `try_register_callback()` -/
  | registering (t : T)
  /-- which has returned true -/
  | registered
  | deregistering (t : T)
  /-- `deregister_callback()` has returned -/
  | gone
  /-- `try_register_callback()` has returned false -/
  | refused
  deriving DecidableEq

structure Source (T C A : Type) where
  /-- `state_` -/
  word : Word A := .null
  /-- `stopping_thread_id_` -/
  stoppingThread : Option T := none
  stack : T → List (Frame C A) := fun _ => []
  status : C → Status T := fun _ => .fresh
  /-- the callback object that lives at an address -/
  object : A → Option C := fun _ => none
  /-- how often a callback was executed -/
  executions : C → ℕ := fun _ => 0
  /-- the threads blocked in `state_.wait` -/
  waiters : List T := []
  /-- the callback that is registered or about to be -/
  holder : Option C := none
  /-- being registered or registered when the stop took effect, or constructed after it -/
  due : C → Bool := fun _ => false
  /-- deregistered from inside its own execution -/
  inside : C → Bool := fun _ => false
  /-- the thread whose `request_stop()` took effect -/
  winner : Option T := none
  /-- the callback it found registered -/
  taken : Option C := none
  stopCalls : ℕ := 0
  /-- how many calls of `request_stop()` have returned true -/
  stopTrue : ℕ := 0
  /-- a callback was executed that does not exist -/
  fault : Bool := false

variable {T C A : Type} [DecidableEq T] [DecidableEq C] [DecidableEq A]

namespace Source

/-- Replaces the calls of thread `t`. -/
def goto (s : Source T C A) (t : T) (frames : List (Frame C A)) : Source T C A :=
  { s with stack := Function.update s.stack t frames }

/-- `callback->execute(callback)`, which returns to the call `next`. -/
def execute (s : Source T C A) (t : T) (a : A) (next : Frame C A) (rest : List (Frame C A)) :
    Source T C A :=
  match s.object a with
  | some c =>
    { s.goto t (.running c :: next :: rest) with
      executions := Function.update s.executions c (s.executions c + 1) }
  | none => { s.goto t (next :: rest) with fault := true }

/-- The end of the callback's registration, and of the object. -/
def finish (addr : C → A) (s : Source T C A) (t : T) (c : C) (status : Status T)
    (rest : List (Frame C A)) : Source T C A :=
  { s.goto t rest with
    status := Function.update s.status c status
    object := Function.update s.object (addr c) none
    holder := if s.holder = some c then none else s.holder }

/-- The loop of `request_stop()` for the state it has read. -/
def stopTest (s : Source T C A) (t : T) (rest : List (Frame C A)) : Source T C A :=
  if s.word.stopped then s.goto t rest else s.goto t (.stopCas s.word :: rest)

/-- `request_stop()` has set the stop-requested state. -/
def stopTakesEffect (s : Source T C A) (t : T) (old : Word A) (rest : List (Frame C A)) :
    Source T C A :=
  let s' := { s with
    word := .stopRequested
    winner := some t
    due := fun c =>
      match s.status c with
      | .registering _ | .registered | .deregistering _ => true
      | _ => s.due c }
  match old with
  | .callback a => { s'.goto t (.stopStoreId a :: rest) with taken := s.object a }
  | _ => { s'.goto t rest with stopTrue := s.stopTrue + 1 }

def registerTest (s : Source T C A) (t : T) (c : C) (rest : List (Frame C A)) : Source T C A :=
  if s.word.stopped then s.goto t (.registerExecute c :: rest)
  else s.goto t (.registerCas c s.word :: rest)

def deregisterTest (addr : C → A) (s : Source T C A) (t : T) (c : C) (rest : List (Frame C A)) :
    Source T C A :=
  match s.word with
  | .stopRequested => s.goto t (.deregisterLoadId c :: rest)
  | .stopRequestedCallbackDone => s.finish addr t c .gone rest
  | w => s.goto t (.deregisterCas c w :: rest)

/-- The next step of the innermost call of a thread; the callback's own code returns. A
`compare_exchange_weak` may fail although it finds the expected state, and `notify_one` may wake any
one of the threads that wait. -/
def frameStep (addr : C → A) (s : Source T C A) (t : T) (spurious : Bool) (woken : ℕ)
    (rest : List (Frame C A)) : Frame C A → Option (Source T C A)
  | .stopLoad => some (s.stopTest t rest)
  | .stopCas old =>
    if s.word = old ∧ spurious = false then some (s.stopTakesEffect t old rest)
    else some (s.stopTest t rest)
  | .stopStoreId a => some { s.goto t (.stopExecute a :: rest) with stoppingThread := some t }
  | .stopExecute a => some (s.execute t a .stopStoreDone rest)
  | .stopStoreDone =>
    some { s.goto t (.stopNotify :: rest) with word := .stopRequestedCallbackDone }
  | .stopNotify =>
    if woken < s.waiters.length ∨ s.waiters = [] then
      some { s.goto t rest with
        waiters := s.waiters.eraseIdx woken
        stopTrue := s.stopTrue + 1 }
    else none
  | .running _ => some (s.goto t rest)
  | .registerLoad c => some (s.registerTest t c rest)
  | .registerCas c old =>
    if s.word = old ∧ spurious = false then
      some { s.goto t rest with
        word := .callback (addr c)
        status := Function.update s.status c .registered }
    else some (s.registerTest t c rest)
  | .registerExecute c => some (s.execute t (addr c) (.registerReturn c) rest)
  | .registerReturn c => some (s.finish addr t c .refused rest)
  | .deregisterCas c old =>
    if s.word = old ∧ spurious = false then
      some { s.finish addr t c .gone rest with word := .null }
    else some (s.deregisterTest addr t c rest)
  | .deregisterLoadId c =>
    if s.stoppingThread = some t then some (s.finish addr t c .gone rest)
    else some (s.goto t (.deregisterWait c .stopRequested :: rest))
  | .deregisterWait c old =>
    if t ∈ s.waiters then none
    else if s.word = old then some { s with waiters := t :: s.waiters }
    else some (s.goto t (.deregisterLoad c :: rest))
  | .deregisterLoad c =>
    if s.word = .stopRequestedCallbackDone then some (s.finish addr t c .gone rest)
    else some (s.goto t (.deregisterWait c s.word :: rest))

/-- A thread makes new calls when it has none that runs, or from inside a callback. -/
def mayCall (s : Source T C A) (t : T) : Bool :=
  match s.stack t with
  | [] => true
  | .running _ :: _ => true
  | _ => false

end Source

inductive Act (T C : Type) where
  | requestStop (t : T)
  | tryRegister (t : T) (c : C)
  | deregister (t : T) (c : C)
  | step (t : T) (spurious : Bool) (woken : ℕ)

/-- Callbacks are registered one at a time as long as no stop is requested, at addresses where no
other callback lives, and deregistered once if registered. -/
def Source.step (addr : C → A) (s : Source T C A) : Act T C → Option (Source T C A)
  | .requestStop t =>
    if s.mayCall t then
      some { s.goto t (.stopLoad :: s.stack t) with stopCalls := s.stopCalls + 1 }
    else none
  | .tryRegister t c =>
    if s.mayCall t = true ∧ s.status c = .fresh ∧ s.object (addr c) = none ∧
        (s.holder = none ∨ s.word.stopped = true) then
      some { s.goto t (.registerLoad c :: s.stack t) with
        status := Function.update s.status c (.registering t)
        object := Function.update s.object (addr c) (some c)
        holder := if s.word.stopped then s.holder else some c
        due := Function.update s.due c s.word.stopped }
    else none
  | .deregister t c =>
    if s.mayCall t = true ∧ s.status c = .registered then
      some { s.goto t (.deregisterCas c (.callback (addr c)) :: s.stack t) with
        status := Function.update s.status c (.deregistering t)
        inside := Function.update s.inside c (decide (Frame.running c ∈ s.stack t)) }
    else none
  | .step t spurious woken =>
    match s.stack t with
    | [] => none
    | f :: rest => s.frameStep addr t spurious woken rest f

def system (T : Type) [DecidableEq T] (addr : C → A) :
    System (Source T C A) (Act T C) := ⟨{}, Source.step addr⟩

end Squiz.SingleInplaceStopSource
