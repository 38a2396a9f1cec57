import Mathlib.Data.Finset.Basic
import Mathlib.Logic.Function.Basic
import Squiz.Lib.System

/-! `manual_event_loop`: any number of calls of `run()` on one queue, with their stop callbacks,
`enqueue()` and `try_remove()`. -/
namespace Squiz.ManualEventLoop
open Squiz.Lib

/-- Where a call of `run()` is in `run_impl`. -/
inductive RunPc (α : Type*) where
  | notCalled
  /-- about to lock the mutex, at the start or after an item -/
  | lock
  /-- the condition of the loop -/
  | testStop
  | tryDequeue
  /-- the predicate of `cv.wait` -/
  | predicate
  /-- the predicate was false and the mutex is still locked -/
  | block
  /-- in `cv.wait` with the mutex unlocked -/
  | wait
  /-- after `cv.wait` -/
  | tryDequeueAgain
  | execute (item : α)
  | returned
  deriving DecidableEq

variable {ι α : Type*}

namespace RunPc

/-- Inside `run_impl`. -/
def inside : RunPc α → Bool
  | notCalled | returned => false
  | _ => true

def holdsMutex : RunPc α → Bool
  | testStop | tryDequeue | predicate | block | tryDequeueAgain => true
  | _ => false

end RunPc

/-- A call of `run()`. -/
structure Run (α : Type*) where
  pc : RunPc α := .notCalled
  /-- the flag that its stop callback sets -/
  stopRequested : Bool := false
  /-- the stop callback has set the flag and is to call `wake_run_threads()` -/
  wakingUp : Bool := false

structure Loop (ι α : Type*) where
  queue : List α := []
  /-- the call of `run()` that has locked the mutex -/
  owner : Option ι := none
  /-- the calls blocked in `cv.wait` that no notification has reached -/
  waiters : Finset ι := ∅
  runs : ι → Run α := fun _ => {}

inductive Act (ι α : Type*) where
  /-- `run()` enters `run_impl` -/
  | call (i : ι)
  /-- the next step of a call in `run_impl` -/
  | run (i : ι)
  /-- `cv.wait` wakes up without a notification -/
  | wakeSpuriously (i : ι)
  /-- the stop callback sets the flag -/
  | setStopRequested (i : ι)
  /-- the stop callback calls `wake_run_threads()` -/
  | wakeRunThreads (i : ι)
  /-- `notified` is the call that `notify_one` wakes up -/
  | enqueue (item : α) (notified : Option ι)
  | tryRemove (item : α)

namespace Loop
variable [DecidableEq ι] [DecidableEq α]

def setPc (s : Loop ι α) (i : ι) (pc : RunPc α) : Loop ι α :=
  { s with runs := Function.update s.runs i { s.runs i with pc } }

/-- `try_dequeue`, and the unlocking of the mutex where there is an item to execute. -/
def tryDequeue (s : Loop ι α) (i : ι) (ifNull : Loop ι α) : Loop ι α :=
  match s.queue with
  | item :: queue => { s with queue, owner := none }.setPc i (.execute item)
  | [] => ifNull

/-- The next step of a call in `run_impl`. -/
def runStep (s : Loop ι α) (i : ι) : Option (Loop ι α) :=
  match (s.runs i).pc with
  | .notCalled | .returned => none
  | .lock => if s.owner = none then some ({ s with owner := some i }.setPc i .testStop) else none
  | .testStop =>
    if (s.runs i).stopRequested then some ({ s with owner := none }.setPc i .returned)
    else some (s.setPc i .tryDequeue)
  | .tryDequeue => some (s.tryDequeue i (s.setPc i .predicate))
  | .predicate =>
    if s.queue ≠ [] ∨ (s.runs i).stopRequested then some (s.setPc i .tryDequeueAgain)
    else some (s.setPc i .block)
  | .block => some ({ s with owner := none, waiters := insert i s.waiters }.setPc i .wait)
  | .wait =>
    if i ∉ s.waiters ∧ s.owner = none then
      some ({ s with owner := some i }.setPc i .predicate)
    else none
  | .tryDequeueAgain => some (s.tryDequeue i ({ s with owner := none }.setPc i .returned))
  | .execute _ => some (s.setPc i .lock)

/-- `notify_one` wakes up one of the blocked calls, if there is one. -/
def notifyOne (s : Loop ι α) : Option ι → Option (Loop ι α)
  | some i => if i ∈ s.waiters then some { s with waiters := s.waiters.erase i } else none
  | none => if s.waiters = ∅ then some s else none

/-- `enqueue`, which runs with the mutex locked. -/
def enqueue (s : Loop ι α) (item : α) (notified : Option ι) : Option (Loop ι α) :=
  let wasEmpty := s.queue = []
  let s := { s with queue := s.queue ++ [item] }
  if wasEmpty then s.notifyOne notified
  else if notified = none then some s
  else none

def step (s : Loop ι α) : Act ι α → Option (Loop ι α)
  | .call i => if (s.runs i).pc = .notCalled then some (s.setPc i .lock) else none
  | .run i => s.runStep i
  | .wakeSpuriously i =>
    if i ∈ s.waiters then some { s with waiters := s.waiters.erase i } else none
  | .setStopRequested i =>
    -- the callback is invoked at most once, and not after its destructor
    if (s.runs i).pc ≠ .returned ∧ (s.runs i).stopRequested = false then
      some { s with
        runs := Function.update s.runs i { s.runs i with stopRequested := true, wakingUp := true } }
    else none
  | .wakeRunThreads i =>
    if (s.runs i).wakingUp ∧ s.owner = none then
      some { s with
        waiters := ∅
        runs := Function.update s.runs i { s.runs i with wakingUp := false } }
    else none
  | .enqueue item notified => if s.owner = none then s.enqueue item notified else none
  | .tryRemove item => if s.owner = none then some { s with queue := s.queue.erase item } else none

end Loop

/-- The loop with calls `ι` of `run()` and items `α`. -/
def system (ι α : Type*) [DecidableEq ι] [DecidableEq α] : System (Loop ι α) (Act ι α) where
  init := {}
  step := Loop.step

end Squiz.ManualEventLoop
