import Squiz.SyncWait.Steps

/-! `sync_wait` returns when its operation has completed, and returns what that has completed
with. -/
namespace Squiz.SyncWait
open Squiz.Lib Squiz.Detail
open ManualEventLoop (Loop Run RunPc)
open SingleInplaceStopSource (Source Frame Status)
variable {ι U α R X : Type} [DecidableEq ι] [DecidableEq U] [DecidableEq α]

namespace Call
variable {i : ι} {r : Run α} {call : Call ι U R X} {t : Thread ι U} {f : Frame Unit Unit}

omit [DecidableEq α] in
/-- What a thread may still do with the stop source when the call has returned. -/
theorem Core.frame_eq (h : call.Core r) (hstop : r.stopRequested = true)
    (hstatus : call.source.status () = .gone ∨ call.source.status () = .refused)
    (hf : f ∈ call.source.stack t) : f = .stopNotify := by
  have hstopped := (h.stopped hstop).1
  have hwinner := h.source.stopped_iff.mp hstopped
  have hok := h.source.frames t f hf
  have hcall : ∀ u, call.source.status () ≠ .registering u ∧
      call.source.status () ≠ .deregistering u := by
    intro u
    rcases hstatus with heq | heq <;> simp [heq]
  -- the callback was executed by `request_stop()`, which is over, or not at all
  have htaken : call.source.taken = some () → call.source.word = .stopRequestedCallbackDone := by
    intro htaken
    rcases hstatus with heq | heq
    · exact h.gone heq
    · rcases (h.source.taken () htaken).1 with hheld | hgone
      · rw [heq] at hheld
        cases hheld
      · rw [heq] at hgone
        cases hgone
  cases f with
  | stopNotify => rfl
  | stopLoad | stopCas old =>
    exact absurd (h.loops t _ hf rfl).2 hwinner
  | stopStoreId a | stopExecute a =>
    obtain ⟨-, hword, -, c, hc, -⟩ := hok
    rw [htaken hc] at hword
    cases hword
  | stopStoreDone =>
    obtain ⟨-, hword, -, hc⟩ := hok
    obtain ⟨c, hc⟩ := Option.ne_none_iff_exists'.mp hc
    rw [htaken hc] at hword
    cases hword
  | running c =>
    obtain ⟨-, hregistering | ⟨hc, -, hword, -⟩⟩ := hok
    · exact absurd hregistering (hcall t).1
    · rw [htaken hc] at hword
      cases hword
  | registerLoad c | registerCas c old | registerExecute c | registerReturn c =>
    exact absurd hok.1 (hcall t).1
  | deregisterCas c old | deregisterLoadId c | deregisterWait c old | deregisterLoad c =>
    exact absurd hok.1 (hcall t).2

omit [DecidableEq α] in
theorem Core.stack_eq (h : call.Core r) (hstop : r.stopRequested = true)
    (hstatus : call.source.status () = .gone ∨ call.source.status () = .refused) :
    call.source.stack t = [] ∨ call.source.stack t = [.stopNotify] := by
  have hstacked := h.source.stacked t
  have hframes : ∀ f ∈ call.source.stack t, f = .stopNotify := fun f hf =>
    h.frame_eq hstop hstatus hf
  cases hst : call.source.stack t with
  | nil => exact .inl rfl
  | cons f rest =>
    rw [hst] at hstacked hframes
    right
    rw [hframes f List.mem_cons_self]
    congr
    apply List.eq_nil_iff_forall_not_mem.mpr
    intro g hg
    have hsuspended := hstacked.2.1 g hg
    rw [hframes g (List.mem_cons_of_mem f hg)] at hsuspended
    cases hsuspended

omit [DecidableEq α] in
/-- The flag is set and nobody is to wake up the event loop, once the callback was executed. -/
theorem Core.flags (h : call.Core r) (hexecuted : call.source.executions () ≠ 0)
    (hrunning : ∀ t, .running () ∉ call.source.stack t) :
    r.stopRequested = true ∧ r.wakingUp = false :=
  (h.executed hexecuted).resolve_left fun ⟨t, ht⟩ => hrunning t ht

end Call

namespace Waits
variable {s : Waits ι U α R X} {i : ι}

structure IsSafe (s : Waits ι U α R X) : Prop where
  returns : ∀ i, (s.calls i).pc = .returned →
    ∃ c, (s.calls i).completion = some c ∧ (s.calls i).returned = some (storeResult c)
  /-- all that may be left to do for a call that has returned is the last access of
  `request_stop()` to the stop source, `state_.notify_one()` -/
  finished : ∀ i, (s.calls i).pc = .returned → (s.loop.runs i).wakingUp = false ∧
    ∀ t, (s.calls i).source.stack t = [] ∨ (s.calls i).source.stack t = [.stopNotify]
  noFault : ∀ i, (s.calls i).source.fault = false

/-- No call of `sync_wait()` or of `set_result` can go on. -/
def Stuck (s : Waits ι U α R X) : Prop := ∀ a, Act.internal a = true → s.step a = none

theorem inv_of_reachable (hs : (system ι U α R X).Reachable s) : s.Inv :=
  hs.invariant Inv.init fun _ _ _ h _ ht => h.step ht

namespace Inv

omit [DecidableEq α] in
theorem returned (h : s.Inv) (hpc : (s.calls i).pc = .returned) :
    ((s.calls i).source.status () = .gone ∨ (s.calls i).source.status () = .refused) ∧
      (s.loop.runs i).stopRequested = true := by
  have hplaced := (h.calls i).placed
  unfold Call.Placed at hplaced
  simp only [hpc] at hplaced
  exact ⟨hplaced.1, h.leaving.returned i hplaced.2⟩

omit [DecidableEq α] in
theorem isSafe (h : s.Inv) : s.IsSafe where
  returns i hpc := by
    obtain ⟨-, hstop⟩ := h.returned hpc
    obtain ⟨c, hc⟩ := Option.ne_none_iff_exists'.mp ((h.calls i).stopped hstop).2
    refine ⟨c, hc, ?_⟩
    rw [(h.calls i).returned hpc, (h.calls i).result, hc, Option.map_some]
  finished i hpc := by
    obtain ⟨hstatus, hstop⟩ := h.returned hpc
    have hok := h.calls i
    refine ⟨?_, fun t => hok.stack_eq hstop hstatus⟩
    have hexecuted : (s.calls i).source.executions () ≠ 0 := by
      intro hzero
      rw [(hok.unexecuted hzero).1] at hstop
      cases hstop
    apply (hok.flags hexecuted fun t ht => ?_).2
    cases hok.frame_eq hstop hstatus ht
  noFault i := (h.calls i).source.noFault

/-- The mutex is held by a call that can go on. -/
theorem unlocked (h : s.Inv) (hstuck : s.Stuck) : s.loop.owner = none := by
  by_contra hne
  obtain ⟨j, hj⟩ := Option.ne_none_iff_exists'.mp hne
  have hholds := h.leaving.locked j hj
  have hpc : (s.calls j).pc = .run := by
    have hplaced := (h.calls j).placed
    unfold Call.Placed at hplaced
    cases hpc : (s.calls j).pc with
    | run => rfl
    | notCalled | construct | destruct =>
      simp only [hpc] at hplaced
      simp [hplaced, RunPc.holdsMutex] at hholds
    | start | returned =>
      simp only [hpc] at hplaced
      simp [hplaced.2, RunPc.holdsMutex] at hholds
  have hinside : s.inside (.caller j) = none := by
    by_contra hin
    obtain ⟨k, hk⟩ := Option.ne_none_iff_exists'.mp hin
    have hbusy := h.sequential j k hk
    unfold Busy at hbusy
    simp only [hpc] at hbusy
    obtain ⟨item, hitem⟩ := hbusy
    rw [hitem] at hholds
    cases hholds
  have hstep := hstuck (.run j) rfl
  simp only [Waits.step, hpc, hinside, and_self, if_true, Option.map_eq_none_iff,
    ManualEventLoop.Loop.step, ManualEventLoop.Loop.runStep] at hstep
  cases hrun : (s.loop.runs j).pc <;> rw [hrun] at hholds <;> try cases hholds
  all_goals
    simp only [hrun] at hstep
    first
      | cases hstep
      | split_ifs at hstep

theorem leave_isSome {call : Call ι U R X} {t : Thread ι U} (hpc : call.pc = (s.calls i).pc)
    (h : s.Inv) : ((s.setCall i call).leave t i).isSome = true := by
  have hplaced := (h.calls i).placed
  have hcall : (s.setCall i call).calls i = call := Function.update_self ..
  have hloop : (s.setCall i call).loop = s.loop := rfl
  unfold Call.Placed at hplaced
  unfold leave
  dsimp only
  split_ifs
  · rw [hcall, hloop]
    split
    · next hconstruct =>
      rw [← hpc, hconstruct] at hplaced
      simp [ManualEventLoop.Loop.step, hplaced.2.1]
    · rfl
    · rfl
  · rfl

/-- A call on a stop source that can go on does so here. -/
theorem source_isSome (h : s.Inv) (hfree : s.loop.owner = none) {t : Thread ι U} {spurious : Bool}
    {woken : ℕ} {source : Source (Thread ι U) Unit Unit}
    (hsource : (s.calls i).source.step id (.step t spurious woken) = some source) :
    (s.step (.source t spurious woken)).isSome = true := by
  have hne : (s.calls i).source.stack t ≠ [] := by
    intro hnil
    simp [SingleInplaceStopSource.Source.step, hnil] at hsource
  have hstep : (s.sourceStep t i spurious woken).isSome = true := by
    unfold Waits.sourceStep
    rw [hsource, Option.bind_some]
    dsimp only
    split_ifs
    · exact leave_isSome rfl h
    · rfl
  simp only [Waits.step, (h.inside t i).mpr hne, Option.bind_some]
  split
  · unfold Waits.onStop
    split_ifs with hstop hwaking
    · have hpc : (s.loop.runs i).pc ≠ .returned := by
        intro hpc
        rw [h.leaving.returned i hpc] at hstop
        cases hstop
      simp [ManualEventLoop.Loop.step, hpc, hstop]
    · simp [ManualEventLoop.Loop.step, hwaking, hfree]
    · exact hstep
  · exact hstep

theorem quiescent (h : s.Inv) (hstuck : s.Stuck) : (s.calls i).source.Quiescent := by
  apply (h.calls i).source.quiescent_of_stuck
  intro t spurious woken
  by_contra hne
  obtain ⟨source, hsource⟩ := Option.ne_none_iff_exists'.mp hne
  have hsome := h.source_isSome (h.unlocked hstuck) hsource
  rw [hstuck (.source t spurious woken) rfl] at hsome
  cases hsome

theorem inside_none (h : s.Inv) (hstuck : s.Stuck) (t : Thread ι U) : s.inside t = none := by
  by_contra hin
  obtain ⟨k, hk⟩ := Option.ne_none_iff_exists'.mp hin
  exact (h.inside t k).mp hk (h.quiescent hstuck t)

/-- The stop callback of a call in `run_impl()` has been executed. -/
theorem executed (h : s.Inv) (hstuck : s.Stuck) (hpc : (s.calls i).pc = .run)
    (hcompleted : (s.calls i).completion ≠ none) :
    (s.loop.runs i).stopRequested = true ∧ (s.loop.runs i).wakingUp = false := by
  have hok := h.calls i
  have hquiescent := h.quiescent (i := i) hstuck
  have hstopCalls := hok.stopCalls fun hnone => hcompleted (hok.completer.mp hnone)
  have hwinner : (s.calls i).source.winner ≠ none := by
    rcases hok.source.called hstopCalls with hwinner | ⟨t, f, hf, -⟩
    · exact hwinner
    · rw [hquiescent t] at hf
      cases hf
  have hexecuted : (s.calls i).source.executions () ≠ 0 := by
    have hplaced := hok.placed
    unfold Call.Placed at hplaced
    simp only [hpc] at hplaced
    rcases hplaced.1 with hregistered | hrefused
    · have hheld : ((s.calls i).source.status ()).held = true := by
        rw [hregistered]
        rfl
      have htaken := hok.source.taken_of_held hheld (hok.source.stopped_iff.mpr hwinner)
      rcases (hok.source.taken () htaken).2 with hone | ⟨t, -, f, hf, -⟩
      · rw [hone]
        exact Nat.one_ne_zero
      · rw [hquiescent t] at hf
        cases hf
    · rw [(hok.source.callback ()).refused hrefused]
      exact Nat.one_ne_zero
  apply hok.flags hexecuted
  intro t ht
  rw [hquiescent t] at ht
  cases ht

theorem run_goes_on (h : s.Inv) (hstuck : s.Stuck) (hpc : (s.calls i).pc = .run)
    (hcompleted : (s.calls i).completion ≠ none) : False := by
  have hplaced := (h.calls i).placed
  unfold Call.Placed at hplaced
  simp only [hpc] at hplaced
  have hinside := h.inside_none hstuck (.caller i)
  have hfree := h.unlocked hstuck
  obtain ⟨hstop, hwaking⟩ := h.executed hstuck hpc hcompleted
  have hstep := hstuck (.run i) rfl
  simp only [Waits.step, hpc, hinside, and_self, if_true, Option.map_eq_none_iff,
    ManualEventLoop.Loop.step, ManualEventLoop.Loop.runStep] at hstep
  cases hrun : (s.loop.runs i).pc with
  | notCalled => exact hplaced.2 hrun
  | returned =>
    have hdestruct := hstuck (.destruct i) rfl
    simp only [Waits.step, hpc, hrun, hinside, and_self, if_true] at hdestruct
    split_ifs at hdestruct with hregistered
    simp [SingleInplaceStopSource.Source.step, SingleInplaceStopSource.Source.mayCall,
      h.stack_nil hinside i, hregistered] at hdestruct
  | wait =>
    simp only [hrun, hfree, and_true] at hstep
    split_ifs at hstep with hwaiting
    rcases h.loop.wakeable i hwaiting with hnot | hwake
    · rw [hstop] at hnot
      cases hnot
    · rw [hwaking] at hwake
      cases hwake
  | lock =>
    simp only [hrun, hfree, if_true] at hstep
    cases hstep
  | testStop | predicate =>
    simp only [hrun] at hstep
    split_ifs at hstep
  | _ =>
    simp only [hrun] at hstep
    cases hstep

end Inv

/-- The call blocks in `run_impl()`, another thread completes the operation and wakes it up, and the
call returns before that thread has left `request_stop()`. -/
def completedByOther : List (Act Unit Unit ℕ ℕ ℕ) :=
  [.call (), .construct (), .source (.caller ()) false 0, .source (.caller ()) false 0] ++
    List.replicate 5 (.run ()) ++ [.setResult (.other ()) () ⟨5, none⟩] ++
    List.replicate 8 (.source (.other ()) false 0) ++ List.replicate 3 (.run ()) ++
    [.destruct (), .source (.caller ()) false 0]

/-- In every interleaving of the calls of `sync_wait()` on one event loop, of the threads that
complete their operations and of the items that are enqueued there. -/
theorem returns_result (hs : (system ι U α R X).Reachable s) : s.IsSafe :=
  (inv_of_reachable hs).isSafe

theorem returns_result_run : ∃ s : Waits Unit Unit ℕ ℕ ℕ, (s.calls ()).pc = .returned ∧
    (s.calls ()).source.stack (.other ()) = [.stopNotify] ∧ s.IsSafe := by
  obtain ⟨s, hs, hp⟩ := (system Unit Unit ℕ ℕ ℕ).exists_reachable completedByOther
    (fun s => (s.calls ()).pc = .returned ∧
      (s.calls ()).source.stack (.other ()) = [.stopNotify]) (by decide +kernel)
  simp only [decide_eq_true_eq] at hp
  exact ⟨s, hp.1, hp.2, returns_result hs⟩

/-- No wake-up is lost: where nothing can go on, each call has returned whose operation has
completed. -/
theorem returns_when_completed (hs : (system ι U α R X).Reachable s) (hstuck : s.Stuck)
    (hcompleted : (s.calls i).completion ≠ none) : (s.calls i).pc = .returned := by
  have h := inv_of_reachable hs
  have hinside := h.inside_none hstuck (.caller i)
  have hquiescent := h.quiescent (i := i) hstuck (.caller i)
  have hplaced := (h.calls i).placed
  unfold Call.Placed at hplaced
  cases hpc : (s.calls i).pc with
  | returned => rfl
  | notCalled =>
    simp only [hpc] at hplaced
    exact absurd hplaced.1 hcompleted
  | start =>
    simp only [hpc] at hplaced
    have hobject : (s.calls i).source.object () = none := by
      by_contra hne
      obtain ⟨c, hc⟩ := Option.ne_none_iff_exists'.mp hne
      have halive := ((h.calls i).source.objects () c hc).2
      rw [hplaced.1] at halive
      cases halive
    have hconstruct := hstuck (.construct i) rfl
    simp [Waits.step, hpc, hinside, SingleInplaceStopSource.Source.step,
      SingleInplaceStopSource.Source.mayCall, hquiescent, hplaced.1, hobject,
      (h.calls i).holder hplaced.1] at hconstruct
  | construct | destruct =>
    simp only [hpc] at hplaced
    rcases hplaced.2.2 with ⟨f, hst⟩ | ⟨f, hst⟩ <;> rw [hquiescent] at hst <;> cases hst
  | run => exact (h.run_goes_on hstuck hpc hcompleted).elim

/-- Where every call has returned and no thread is in a stop source. -/
theorem stuck_of_returned (hpc : ∀ i, (s.calls i).pc = .returned)
    (hinside : ∀ t, s.inside t = none) : s.Stuck := by
  intro a ha
  cases a with
  | construct i | run i | destruct i => simp [Waits.step, hpc]
  | source t spurious woken => simp [Waits.step, hinside]
  | call | setResult | wakeSpuriously | enqueue | tryRemove => cases ha

theorem returns_when_completed_run : ∃ s : Waits Unit Unit ℕ ℕ ℕ,
    s.Stuck ∧ (s.calls ()).completion = some ⟨5, none⟩ ∧ (s.calls ()).pc = .returned := by
  obtain ⟨s, hs, hp⟩ := (system Unit Unit ℕ ℕ ℕ).exists_reachable
    (completedByOther ++ [.source (.other ()) false 0])
    (fun s => (s.calls ()).pc = .returned ∧ s.inside (.caller ()) = none ∧
      s.inside (.other ()) = none ∧ (s.calls ()).completion = some ⟨5, none⟩) (by decide +kernel)
  simp only [decide_eq_true_eq] at hp
  obtain ⟨hpc, hcaller, hother, hcompletion⟩ := hp
  have hstuck : s.Stuck := by
    apply stuck_of_returned fun _ => hpc
    intro t
    cases t with
    | caller => exact hcaller
    | other => exact hother
  refine ⟨s, hstuck, hcompletion, returns_when_completed hs hstuck ?_⟩
  rw [hcompletion]
  exact Option.some_ne_none _

end Waits
end Squiz.SyncWait
