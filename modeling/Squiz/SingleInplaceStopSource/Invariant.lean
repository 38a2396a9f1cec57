import Squiz.SingleInplaceStopSource.Source

/-! The invariant of `single_inplace_stop_source`: what each call on a thread's stack knows about
the shared state, and how the callbacks relate to the two words. -/
namespace Squiz.SingleInplaceStopSource
open Squiz.Lib

variable {T C A : Type} [DecidableEq T] [DecidableEq C] [DecidableEq A]

namespace Status

/-- The callback is registered, or its deregistration has not returned. -/
def held : Status T → Bool
  | .registered | .deregistering _ => true
  | _ => false

/-- The callback object exists. -/
def alive : Status T → Bool
  | .registering _ | .registered | .deregistering _ => true
  | _ => false

/-- A thread is in a call for the callback. -/
def calledBy (t : T) : Status T → Bool
  | .registering t' | .deregistering t' => decide (t' = t)
  | _ => false

end Status

namespace Frame

/-- Calls that a callback runs inside of. -/
def suspended : Frame C A → Bool
  | .running _ | .stopStoreDone | .registerReturn _ => true
  | _ => false

/-- The call executes callback `c`, where `taken` is the one that `request_stop()` found. -/
def Invokes (taken : Option C) (c : C) : Frame C A → Prop
  | .stopStoreDone => taken = some c
  | .registerReturn c' => c' = c
  | _ => False

/-- A `request_stop()` that has taken effect and has still to return. -/
def wins : Frame C A → Bool
  | .stopStoreId _ | .stopExecute _ | .stopStoreDone | .stopNotify => true
  | _ => false

/-- A call that registers or deregisters callback `c`. -/
def isCall (c : C) : Frame C A → Bool
  | .registerLoad c' | .registerCas c' _ | .registerExecute c' | .registerReturn c'
  | .deregisterCas c' _ | .deregisterLoadId c' | .deregisterWait c' _ | .deregisterLoad c' =>
    decide (c' = c)
  | _ => false

/-- A `request_stop()` that has not taken effect. -/
def loops : Frame C A → Bool
  | .stopLoad | .stopCas _ => true
  | _ => false

/-- A `request_stop()` that has still to execute the callback. -/
def executes : Frame C A → Bool
  | .stopStoreId _ | .stopExecute _ => true
  | _ => false

end Frame

/-- A callback runs right above the call that executes it, and only such calls have others above
them. -/
def Stacked (taken : Option C) : List (Frame C A) → Prop
  | [] => True
  | f :: rest => (∀ c, f = .running c → ∃ g rest', rest = g :: rest' ∧ g.Invokes taken c) ∧
      (∀ g ∈ rest, g.suspended = true) ∧ Stacked taken rest

namespace Source

/-- The callback that `request_stop()` is about to execute. -/
def Pending (addr : C → A) (s : Source T C A) (a : A) : Prop :=
  ∃ c, s.taken = some c ∧ addr c = a ∧ s.object a = some c ∧ s.executions c = 0

def FrameOk (addr : C → A) (s : Source T C A) (t : T) : Frame C A → Prop
  | .stopLoad => True
  | .stopCas old => old.stopped = false
  | .stopStoreId a =>
    s.winner = some t ∧ s.word = .stopRequested ∧ s.stoppingThread = none ∧ s.Pending addr a
  | .stopExecute a =>
    s.winner = some t ∧ s.word = .stopRequested ∧ s.stoppingThread = some t ∧ s.Pending addr a
  | .stopStoreDone =>
    s.winner = some t ∧ s.word = .stopRequested ∧ s.stoppingThread = some t ∧ s.taken ≠ none
  | .stopNotify =>
    s.winner = some t ∧ s.word = .stopRequestedCallbackDone ∧ s.stoppingThread = some t
  | .running c =>
    s.executions c = 1 ∧ (s.status c = .registering t ∨
      s.taken = some c ∧ s.winner = some t ∧ s.word = .stopRequested ∧
        s.stoppingThread = some t ∧ (s.status c = .gone → s.inside c = true))
  | .registerLoad c => s.status c = .registering t ∧ s.executions c = 0
  | .registerCas c old =>
    s.status c = .registering t ∧ s.executions c = 0 ∧ s.holder = some c ∧ old = .null
  | .registerExecute c =>
    s.status c = .registering t ∧ s.executions c = 0 ∧ s.word.stopped = true
  | .registerReturn c =>
    s.status c = .registering t ∧ s.executions c = 1 ∧ s.word.stopped = true
  | .deregisterCas c old => s.status c = .deregistering t ∧ old = .callback (addr c)
  | .deregisterLoadId c =>
    s.status c = .deregistering t ∧ s.word.stopped = true ∧
      (s.winner = some t → s.stoppingThread = some t)
  | .deregisterWait c old =>
    s.status c = .deregistering t ∧ s.word.stopped = true ∧ s.winner ≠ some t ∧
      old = .stopRequested
  | .deregisterLoad c =>
    s.status c = .deregistering t ∧ s.word.stopped = true ∧ s.winner ≠ some t

/-- What `state_` says about the callbacks and the stop request. -/
def WordOk (addr : C → A) (s : Source T C A) : Prop :=
  match s.word with
  | .null => s.winner = none
  | .callback a =>
    s.winner = none ∧ ∃ c, s.object a = some c ∧ addr c = a ∧ s.holder = some c ∧
      (s.status c).held = true
  | _ => s.winner ≠ none

/-- What the life of callback `c` says about its registration and its executions. -/
structure CallbackOk (addr : C → A) (s : Source T C A) (c : C) : Prop where
  held : (s.status c).held = true → s.holder = some c ∧
    (s.word = .callback (addr c) ∨ s.word.stopped = true ∧ s.taken = some c)
  registering : ∀ t, s.status c = .registering t → s.holder = some c ∨ s.word.stopped = true
  object : (s.status c).alive = true → s.object (addr c) = some c
  executionsLe : s.executions c ≤ 1
  unexecuted : (s.status c).held = true → s.taken ≠ some c → s.executions c = 0
  fresh : s.status c = .fresh → s.executions c = 0
  refused : s.status c = .refused → s.executions c = 1
  due : s.due c = true →
    s.taken = some c ∨ (∃ t, s.status c = .registering t) ∨ s.status c = .refused
  executed : s.executions c ≠ 0 → s.winner ≠ none

structure Inv (addr : C → A) (s : Source T C A) : Prop where
  stacked : ∀ t, Stacked s.taken (s.stack t)
  frames : ∀ t, ∀ f ∈ s.stack t, s.FrameOk addr t f
  wins : ∀ t, (s.stack t).countP Frame.wins + (if s.winner = some t then s.stopTrue else 0) =
    if s.winner = some t then 1 else 0
  unwon : s.winner = none → s.stopTrue = 0 ∧ s.taken = none ∧ s.stoppingThread = none ∧
    ∀ c, s.due c = false
  calls : ∀ t c, (s.stack t).countP (Frame.isCall c) = if (s.status c).calledBy t then 1 else 0
  word : s.WordOk addr
  callback : ∀ c, s.CallbackOk addr c
  objects : ∀ a c, s.object a = some c → addr c = a ∧ (s.status c).alive = true
  taken : ∀ c, s.taken = some c → ((s.status c).held = true ∨ s.status c = .gone) ∧
    (s.executions c = 1 ∨ ∃ t, s.winner = some t ∧ ∃ f ∈ s.stack t, f.executes = true)
  inside : ∀ t c, s.status c = .deregistering t → Frame.running c ∈ s.stack t → s.inside c = true
  /-- after the winner has returned from executing a callback -/
  returned : s.stopTrue = 1 → s.taken ≠ none →
    s.stoppingThread = s.winner ∧ s.word = .stopRequestedCallbackDone
  waiting : ∀ t ∈ s.waiters, ∃ c rest, s.stack t = .deregisterWait c .stopRequested :: rest
  oneWaiter : s.waiters.length ≤ 1
  woken : s.waiters ≠ [] → s.word = .stopRequested ∨ ∃ t, Frame.stopNotify ∈ s.stack t
  called : s.stopCalls ≠ 0 → s.winner ≠ none ∨ ∃ t, ∃ f ∈ s.stack t, f.loops = true
  noFault : s.fault = false

end Source
end Squiz.SingleInplaceStopSource
