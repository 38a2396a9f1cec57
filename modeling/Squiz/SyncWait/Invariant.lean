import Squiz.ManualEventLoop.Returns
import Squiz.SingleInplaceStopSource.Moves
import Squiz.SyncWait.Calls

/-! How the stop source, the event loop and the result of each call of `sync_wait` fit together. -/
namespace Squiz.SyncWait
open Squiz.Lib Squiz.Detail
open ManualEventLoop (Loop Run RunPc)
open SingleInplaceStopSource (Source Frame Status)
variable {ι U α R X : Type} [DecidableEq ι] [DecidableEq U] [DecidableEq α]

/-- The call of `try_register_callback()` or of `deregister_callback()`, and the callback where the
former executes it. -/
def Alone (stack : List (Frame Unit Unit)) : Prop :=
  (∃ f, stack = [f]) ∨ ∃ g, stack = [.running (), g]

namespace Call
variable {i : ι} {r : Run α} {call : Call ι U R X}

/-- Where the stop callback and `run_impl()` are, for where the call is. -/
def Placed (i : ι) (r : Run α) (call : Call ι U R X) : Prop :=
  match call.pc with
  | .notCalled =>
    call.completion = none ∧ call.source.status () = .fresh ∧ r.pc = .notCalled
  | .start => call.source.status () = .fresh ∧ r.pc = .notCalled
  | .construct =>
    call.source.status () = .registering (.caller i) ∧ r.pc = .notCalled ∧
      Alone (call.source.stack (.caller i))
  | .run =>
    (call.source.status () = .registered ∨ call.source.status () = .refused) ∧ r.pc ≠ .notCalled
  | .destruct =>
    call.source.status () = .deregistering (.caller i) ∧ r.pc = .returned ∧
      Alone (call.source.stack (.caller i))
  | .returned =>
    (call.source.status () = .gone ∨ call.source.status () = .refused) ∧ r.pc = .returned

/-- Whatever the place of the call. -/
structure Core (r : Run α) (call : Call ι U R X) : Prop where
  source : call.source.Inv id
  result : call.result = call.completion.map storeResult
  completer : call.completer = none ↔ call.completion = none
  stopCalls : call.completer ≠ none → call.source.stopCalls ≠ 0
  winner : call.source.winner ≠ none → call.completer ≠ none
  /-- `request_stop()` is called by the thread that completes the operation -/
  loops : ∀ t, ∀ f ∈ call.source.stack t, f.loops = true →
    call.completer = some t ∧ call.source.winner = none
  holder : call.source.status () = .fresh → call.source.holder = none
  gone : call.source.status () = .gone → call.source.word = .stopRequestedCallbackDone
  unexecuted : call.source.executions () = 0 → r.stopRequested = false ∧ r.wakingUp = false
  executed : call.source.executions () ≠ 0 →
    (∃ t, .running () ∈ call.source.stack t) ∨ r.stopRequested = true ∧ r.wakingUp = false

structure Ok (i : ι) (r : Run α) (call : Call ι U R X) : Prop extends Core r call where
  placed : call.Placed i r
  returned : call.pc = .returned → call.returned = call.result

omit [DecidableEq α] in
/-- `run_impl()` returns when the stop callback was executed, which the operation has caused. -/
theorem Core.stopped (h : call.Core r) (hstop : r.stopRequested = true) :
    call.source.word.stopped = true ∧ call.completion ≠ none := by
  have hexecuted : call.source.executions () ≠ 0 := by
    intro hzero
    rw [(h.unexecuted hzero).1] at hstop
    cases hstop
  have hwinner := (h.source.callback ()).executed hexecuted
  constructor
  · exact h.source.stopped_iff.mpr hwinner
  · exact fun hnone => h.winner hwinner (h.completer.mpr hnone)

end Call

/-- A thread may be in a call on the stop source of `k` while its own call of `sync_wait` is
here. -/
def Busy (pc : Pc) (run : RunPc α) (i k : ι) : Prop :=
  match pc with
  | .construct | .destruct => k = i
  | .run => ∃ item, run = .execute item
  | _ => True

namespace Waits
variable {s : Waits ι U α R X} {t : Thread ι U} {i : ι}

structure Inv (s : Waits ι U α R X) : Prop where
  loop : s.loop.Inv
  leaving : s.loop.Leaving
  calls : ∀ i, (s.calls i).Ok i (s.loop.runs i)
  inside : ∀ t i, s.inside t = some i ↔ (s.calls i).source.stack t ≠ []
  sequential : ∀ i k, s.inside (.caller i) = some k →
    Busy (s.calls i).pc (s.loop.runs i).pc i k

theorem Inv.init : ({} : Waits ι U α R X).Inv where
  loop := ManualEventLoop.Loop.Inv.init
  leaving := ManualEventLoop.Loop.Leaving.init
  calls i :=
    { source := SingleInplaceStopSource.Source.Inv.init
      placed := ⟨rfl, rfl, rfl⟩
      result := rfl
      returned := fun h => by cases h
      completer := ⟨fun _ => rfl, fun _ => rfl⟩
      stopCalls := fun h => absurd rfl h
      winner := fun h => absurd rfl h
      loops := fun _ _ hf => by cases hf
      holder := fun _ => rfl
      gone := fun h => by cases h
      unexecuted := fun _ => ⟨rfl, rfl⟩
      executed := fun h => absurd rfl h }
  inside t i := by simp
  sequential i k h := by cases h

omit [DecidableEq α] in
/-- A step of one call that does not use its stop source. -/
theorem Inv.setCall (h : s.Inv) {loop : Loop ι α} {call : Call ι U R X} (hloop : loop.Inv)
    (hleaving : loop.Leaving) (hruns : ∀ j, j ≠ i → loop.runs j = s.loop.runs j)
    (hsource : call.source = (s.calls i).source) (hok : call.Ok i (loop.runs i))
    (hbusy : ∀ k, s.inside (.caller i) = some k → Busy call.pc (loop.runs i).pc i k) :
    Inv { s with loop := loop, calls := Function.update s.calls i call } where
  loop := hloop
  leaving := hleaving
  calls j := by
    by_cases hj : j = i
    · subst hj
      simpa only [Function.update_self] using hok
    · simpa only [Function.update_of_ne hj, hruns j hj] using h.calls j
  inside t j := by
    by_cases hj : j = i
    · subst hj
      simpa only [Function.update_self, hsource] using h.inside t j
    · simpa only [Function.update_of_ne hj] using h.inside t j
  sequential j k hk := by
    by_cases hj : j = i
    · subst hj
      simpa only [Function.update_self] using hbusy k hk
    · simpa only [Function.update_of_ne hj, hruns j hj] using h.sequential j k hk

omit [DecidableEq α] in
/-- A step of the loop only. -/
theorem Inv.setRun (h : s.Inv) {loop : Loop ι α} (hloop : loop.Inv) (hleaving : loop.Leaving)
    (hruns : ∀ j, j ≠ i → loop.runs j = s.loop.runs j) (hok : (s.calls i).Ok i (loop.runs i))
    (hbusy : ∀ k, s.inside (.caller i) = some k → Busy (s.calls i).pc (loop.runs i).pc i k) :
    { s with loop := loop }.Inv := by
  have hset := h.setCall hloop hleaving hruns rfl hok hbusy
  rwa [Function.update_eq_self] at hset

omit [DecidableEq α] in
/-- A step of a thread on the stop source of a call. -/
theorem Inv.setSource (h : s.Inv) {loop : Loop ι α} {call : Call ι U R X} {inside : Option ι}
    (hin : ∀ k, s.inside t = some k → k = i) (hloop : loop.Inv) (hleaving : loop.Leaving)
    (hruns : ∀ j, j ≠ i → loop.runs j = s.loop.runs j) (hok : call.Ok i (loop.runs i))
    (hothers : ∀ u, u ≠ t → call.source.stack u = (s.calls i).source.stack u)
    (hinside : ∀ k, inside = some k ↔ k = i ∧ call.source.stack t ≠ [])
    (hpc : t = .caller i ∨ call.pc = (s.calls i).pc ∧ (loop.runs i).pc = (s.loop.runs i).pc)
    (hbusy : ∀ j k, t = .caller j → inside = some k →
      Busy (Function.update s.calls i call j).pc (loop.runs j).pc j k) :
    Inv
      { loop := loop
        calls := Function.update s.calls i call
        inside := Function.update s.inside t inside } where
  loop := hloop
  leaving := hleaving
  calls j := by
    by_cases hj : j = i
    · subst hj
      simpa only [Function.update_self] using hok
    · simpa only [Function.update_of_ne hj, hruns j hj] using h.calls j
  inside u j := by
    by_cases hu : u = t
    · subst hu
      by_cases hj : j = i
      · subst hj
        simpa using hinside j
      · have hnone : (s.calls j).source.stack u = [] := by
          by_contra hne
          exact hj (hin j ((h.inside u j).mpr hne))
        simp only [Function.update_self, Function.update_of_ne hj, hnone, hinside, hj, false_and,
          ne_eq, not_true_eq_false]
    · by_cases hj : j = i
      · subst hj
        simpa only [Function.update_of_ne hu, Function.update_self, hothers u hu]
          using h.inside u j
      · simpa only [Function.update_of_ne hu, Function.update_of_ne hj] using h.inside u j
  sequential j k hk := by
    by_cases ht : t = .caller j
    · subst ht
      simp only [Function.update_self] at hk
      exact hbusy j k rfl hk
    · have hne : Thread.caller j ≠ t := fun heq => ht heq.symm
      simp only [Function.update_of_ne hne] at hk
      have hold := h.sequential j k hk
      by_cases hj : j = i
      · subst hj
        obtain ⟨hcall, hrun⟩ := hpc.resolve_left ht
        simpa only [Function.update_self, hcall, hrun] using hold
      · simpa only [Function.update_of_ne hj, hruns j hj] using hold

end Waits
end Squiz.SyncWait
