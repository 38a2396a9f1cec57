import Squiz.Detail.StoreResult
import Squiz.ManualEventLoop.Loop
import Squiz.SingleInplaceStopSource.Source

/-! `sync_wait`: any number of calls on one `manual_event_loop`, each with an operation that some
thread completes. -/
namespace Squiz.SyncWait
open Squiz.Lib Squiz.Detail
open ManualEventLoop (Loop)
open SingleInplaceStopSource (Source)

/-- A thread that calls `sync_wait()`, or another one. -/
inductive Thread (ι U : Type) where
  | caller (i : ι)
  | other (u : U)
  deriving DecidableEq

/-- Where a call is. -/
inductive Pc where
  | notCalled
  /-- in `op.start()` -/
  | start
  /-- in the constructor of the stop callback of `run()` -/
  | construct
  /-- in `run_impl()` -/
  | run
  /-- in the destructor of the stop callback -/
  | destruct
  | returned
  deriving DecidableEq

structure Call (ι U R X : Type) where
  pc : Pc := .notCalled
  /-- `state.ss`, with the one callback that is registered there -/
  source : Source (Thread ι U) Unit Unit := {}
  /-- `state.result` -/
  result : Option (Result R X) := none
  /-- what the operation has completed with, and on which thread -/
  completion : Option (Completion R X) := none
  completer : Option (Thread ι U) := none
  /-- what the call has returned -/
  returned : Option (Result R X) := none

/-- `return std::move(state.result)` -/
def Call.ret {ι U R X : Type} (call : Call ι U R X) : Call ι U R X :=
  { call with pc := .returned, returned := call.result }

structure Waits (ι U α R X : Type) where
  loop : Loop ι α := {}
  calls : ι → Call ι U R X := fun _ => {}
  /-- the call on whose stop source the thread has called a method -/
  inside : Thread ι U → Option ι := fun _ => none

inductive Act (ι U α R X : Type) where
  /-- `sync_wait()` is called -/
  | call (i : ι)
  /-- `op.start()` returns, and the stop callback is constructed -/
  | construct (i : ι)
  /-- the next step of `run_impl()` -/
  | run (i : ι)
  /-- `run_impl()` has returned, and the stop callback is destructed -/
  | destruct (i : ι)
  /-- the next step of the thread on a stop source, or of the callback that it executes -/
  | source (t : Thread ι U) (spurious : Bool) (woken : ℕ)
  /-- the operation of a call completes, in `set_result` -/
  | setResult (t : Thread ι U) (i : ι) (c : Completion R X)
  | wakeSpuriously (i : ι)
  | enqueue (item : α) (notified : Option ι)
  | tryRemove (item : α)

/-- A step of a call that goes on by itself. -/
def Act.internal {ι U α R X : Type} : Act ι U α R X → Bool
  | .construct _ | .run _ | .destruct _ | .source _ _ _ => true
  | _ => false

namespace Waits
variable {ι U α R X : Type} [DecidableEq ι] [DecidableEq U] [DecidableEq α]
  (s : Waits ι U α R X)

def setCall (i : ι) (call : Call ι U R X) : Waits ι U α R X :=
  { s with calls := Function.update s.calls i call }

/-- The thread is in its own code, in that of an operation's `start()` or in that of an item. -/
def mayComplete : Thread ι U → Bool
  | .other _ => true
  | .caller j =>
    match (s.calls j).pc with
    | .construct | .destruct => false
    | .run =>
      match (s.loop.runs j).pc with
      | .execute _ => true
      | _ => false
    | _ => true

/-- The thread has returned from its call on the stop source of `i`: the constructor of the stop
callback, its destructor or the `request_stop()` of `set_result`. -/
def leave (t : Thread ι U) (i : ι) : Option (Waits ι U α R X) :=
  let s := { s with inside := Function.update s.inside t none }
  if t = .caller i then
    match (s.calls i).pc with
    | .construct =>
      (s.loop.step (.call i)).map fun loop =>
        { s.setCall i { s.calls i with pc := .run } with loop := loop }
    | .destruct => some (s.setCall i (s.calls i).ret)
    | _ => some s
  else some s

/-- The next step of the call of a thread on the stop source of `i`. -/
def sourceStep (t : Thread ι U) (i : ι) (spurious : Bool) (woken : ℕ) :
    Option (Waits ι U α R X) :=
  ((s.calls i).source.step id (.step t spurious woken)).bind fun source =>
    let s := s.setCall i { s.calls i with source := source }
    if source.stack t = [] then s.leave t i else some s

/-- The next step of `on_stop` of the call `i`, which sets the flag, calls `wake_run_threads()` and
returns. -/
def onStop (t : Thread ι U) (i : ι) (spurious : Bool) (woken : ℕ) : Option (Waits ι U α R X) :=
  if (s.loop.runs i).stopRequested = false then
    (s.loop.step (.setStopRequested i)).map fun loop => { s with loop := loop }
  else if (s.loop.runs i).wakingUp then
    (s.loop.step (.wakeRunThreads i)).map fun loop => { s with loop := loop }
  else s.sourceStep t i spurious woken

def step : Act ι U α R X → Option (Waits ι U α R X)
  | .call i =>
    if (s.calls i).pc = .notCalled ∧ s.inside (.caller i) = none then
      some (s.setCall i { s.calls i with pc := .start })
    else none
  | .construct i =>
    if (s.calls i).pc = .start ∧ s.inside (.caller i) = none then
      ((s.calls i).source.step id (.tryRegister (.caller i) ())).map fun source =>
        { s.setCall i { s.calls i with pc := .construct, source := source } with
          inside := Function.update s.inside (.caller i) (some i) }
    else none
  | .run i =>
    if (s.calls i).pc = .run ∧ s.inside (.caller i) = none then
      (s.loop.step (.run i)).map fun loop => { s with loop := loop }
    else none
  | .destruct i =>
    if (s.calls i).pc = .run ∧ (s.loop.runs i).pc = .returned ∧ s.inside (.caller i) = none then
      if (s.calls i).source.status () = .registered then
        ((s.calls i).source.step id (.deregister (.caller i) ())).map fun source =>
          { s.setCall i { s.calls i with pc := .destruct, source := source } with
            inside := Function.update s.inside (.caller i) (some i) }
      else some (s.setCall i (s.calls i).ret)
    else none
  | .source t spurious woken =>
    (s.inside t).bind fun i =>
      match (s.calls i).source.stack t with
      | .running _ :: _ => s.onStop t i spurious woken
      | _ => s.sourceStep t i spurious woken
  | .setResult t i c =>
    if (s.calls i).pc ≠ .notCalled ∧ (s.calls i).completion = none ∧ s.mayComplete t = true ∧
        s.inside t = none then
      ((s.calls i).source.step id (.requestStop t)).map fun source =>
        { s.setCall i { s.calls i with
            source := source
            result := some (storeResult c)
            completion := some c
            completer := some t } with
          inside := Function.update s.inside t (some i) }
    else none
  | .wakeSpuriously i =>
    (s.loop.step (.wakeSpuriously i)).map fun loop => { s with loop := loop }
  | .enqueue item notified =>
    (s.loop.step (.enqueue item notified)).map fun loop => { s with loop := loop }
  | .tryRemove item => (s.loop.step (.tryRemove item)).map fun loop => { s with loop := loop }

variable (ι U α R X) in
def system : System (Waits ι U α R X) (Act ι U α R X) := ⟨{}, step⟩

end Waits
end Squiz.SyncWait
