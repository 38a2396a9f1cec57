import Squiz.SyncWait.Invariant

/-! Every step keeps the invariant. -/
namespace Squiz.SyncWait
open Squiz.Lib Squiz.Detail
open ManualEventLoop (Loop Run RunPc)
open SingleInplaceStopSource (Source Frame Status)
variable {ι U α R X : Type} [DecidableEq ι] [DecidableEq U]

namespace Call
variable {i : ι} {r r' : Run α} {call : Call ι U R X} {t : Thread ι U}
  {source : Source (Thread ι U) Unit Unit} {f : Frame Unit Unit} {rest : List (Frame Unit Unit)}
  {spurious : Bool} {woken : ℕ}

theorem Core.congr (h : call.Core r) (hstop : r'.stopRequested = r.stopRequested)
    (hwaking : r'.wakingUp = r.wakingUp) : call.Core r' :=
  { h with
    unexecuted := fun hzero => by
      rw [hstop, hwaking]
      exact h.unexecuted hzero
    executed := fun hne => by
      rw [hstop, hwaking]
      exact h.executed hne }

/-- A step of the stop callback, while a thread executes it. -/
theorem Core.onStop (h : call.Core r) (hrunning : .running () ∈ call.source.stack t) :
    call.Core r' :=
  { h with
    unexecuted := fun hzero => by
      rw [(h.source.frames t _ hrunning).1] at hzero
      cases hzero
    executed := fun _ => .inl ⟨t, hrunning⟩ }

omit [DecidableEq ι] [DecidableEq U] in
theorem Placed.congr (h : call.Placed i r) (hpc : r'.pc = r.pc) : call.Placed i r' := by
  unfold Placed at h ⊢
  rw [hpc]
  exact h

/-- A thread that has no call on the stop source makes one. -/
theorem Core.push {call' : Call ι U R X} (h : call.Core r) (hinv : call'.source.Inv id)
    (hcalled : call.source.Called t f call'.source) (hnil : call.source.stack t = [])
    (hholder : call'.source.status () = .fresh → call'.source.holder = none)
    (hgone : call'.source.status () = .gone → call.source.status () = .gone)
    (hresult : call'.result = call'.completion.map storeResult)
    (hcompleter : call'.completer = none ↔ call'.completion = none)
    (hstopCalls : call'.completer ≠ none → call'.source.stopCalls ≠ 0)
    (hkept : call.completer ≠ none → call'.completer = call.completer)
    (hf : f.loops = true → call'.completer = some t ∧ call.completer = none) :
    call'.Core r := by
  have hstack := hcalled.stack
  rw [hnil] at hstack
  constructor
  · exact hinv
  · exact hresult
  · exact hcompleter
  · exact hstopCalls
  · intro hne
    rw [hcalled.winner] at hne
    rw [hkept (h.winner hne)]
    exact h.winner hne
  · intro u g hg hloops
    rw [hcalled.winner]
    by_cases hu : u = t
    · subst hu
      rw [hstack, Function.update_self, List.mem_singleton] at hg
      subst hg
      obtain ⟨hnew, hold⟩ := hf hloops
      refine ⟨hnew, ?_⟩
      by_contra hne
      exact h.winner hne hold
    · rw [hstack, Function.update_of_ne hu] at hg
      obtain ⟨hold, hnone⟩ := h.loops u g hg hloops
      exact ⟨(hkept (by simp [hold])).trans hold, hnone⟩
  · exact hholder
  · intro hnew
    rw [hcalled.word]
    exact h.gone (hgone hnew)
  · rw [hcalled.executions]
    exact h.unexecuted
  · rw [hcalled.executions]
    intro hne
    apply (h.executed hne).imp_left
    rintro ⟨u, hu⟩
    refine ⟨u, ?_⟩
    rwa [hstack, Function.update_of_ne]
    rintro rfl
    rw [hnil] at hu
    cases hu

/-- What a step leaves of the call or begins is alone, as the call was. -/
theorem alone_step (halone : Alone (call.source.stack t))
    (hst : call.source.stack t = f :: rest)
    (ht : call.source.frameStep id t spurious woken rest f = some source) :
    source.stack t = [] ∨ Alone (source.stack t) := by
  rw [hst] at halone
  rcases halone with ⟨g, heq⟩ | ⟨g, heq⟩
  · obtain ⟨rfl, rfl⟩ := List.cons.inj heq
    rcases (SingleInplaceStopSource.Source.replaced_frameStep ht hst).own with
      ⟨g, hg⟩ | hnil | ⟨_, g, hg, -⟩
    · exact .inr (.inl ⟨g, hg⟩)
    · exact .inl hnil
    · exact .inr (.inr ⟨g, hg⟩)
  · obtain ⟨rfl, rfl⟩ := List.cons.inj heq
    cases ht
    exact .inr (.inl ⟨g, Function.update_self ..⟩)

/-- A call for the callback that is alone changes its status only when it returns. -/
theorem alone_status (h : call.source.Inv id) (halone : Alone (call.source.stack t))
    (hst : call.source.stack t = f :: rest)
    (ht : call.source.frameStep id t spurious woken rest f = some source)
    (hne : source.stack t ≠ []) : source.status () = call.source.status () := by
  rcases (SingleInplaceStopSource.Source.changed_frameStep h hst ht).status () with
    heq | ⟨htail, -⟩
  · exact heq
  · rw [hst] at halone htail
    rcases halone with ⟨g, heq⟩ | ⟨g, heq⟩
    · obtain ⟨rfl, rfl⟩ := List.cons.inj heq
      exact absurd htail hne
    · obtain ⟨rfl, rfl⟩ := List.cons.inj heq
      cases ht
      rfl

/-- The stop callback is deregistered by its own call, after `run_impl()` has returned. -/
theorem Ok.deregistering (h : call.Ok i r) (ht : call.source.status () = .deregistering t) :
    r.pc = .returned ∧ Alone (call.source.stack t) := by
  have hplaced := h.placed
  unfold Placed at hplaced
  cases hpc : call.pc with
  | notCalled =>
    simp only [hpc, ht] at hplaced
    cases hplaced.2.1
  | start | construct =>
    simp only [hpc, ht] at hplaced
    cases hplaced.1
  | run | returned =>
    simp only [hpc, ht] at hplaced
    rcases hplaced.1 with heq | heq <;> cases heq
  | destruct =>
    simp only [hpc, ht] at hplaced
    cases hplaced.1
    exact hplaced.2

theorem Ok.gone_step (h : call.Ok i r) (hst : call.source.stack t = f :: rest)
    (ht : call.source.frameStep id t spurious woken rest f = some source)
    (hstop : r.pc = .returned → r.stopRequested = true) (hgone : source.status () = .gone) :
    source.word = .stopRequestedCallbackDone := by
  have hchanged := SingleInplaceStopSource.Source.changed_frameStep h.source hst ht
  by_cases hold : call.source.status () = .gone
  · exact hchanged.done (h.gone hold)
  · have hderegistering : call.source.status () = .deregistering t := by
      rcases hchanged.status () with heq | ⟨-, ⟨-, heq | heq⟩ | ⟨heq, -⟩⟩
      · exact absurd (heq ▸ hgone) hold
      · rw [hgone] at heq
        cases heq
      · rw [hgone] at heq
        cases heq
      · exact heq
    obtain ⟨hreturned, halone⟩ := h.deregistering hderegistering
    rw [hst] at halone
    rcases halone with ⟨g, heq⟩ | ⟨g, heq⟩
    · obtain ⟨rfl, rfl⟩ := List.cons.inj heq
      exact SingleInplaceStopSource.Source.done_of_gone h.source hst
        (h.stopped (hstop hreturned)).1 hold ht hgone
    · obtain ⟨rfl, rfl⟩ := List.cons.inj heq
      cases ht
      exact absurd hgone hold

/-- A step of a thread on the stop source, which leaves the stop callback only when that has done
its work. -/
theorem Ok.core_step (h : call.Ok i r) (hst : call.source.stack t = f :: rest)
    (ht : call.source.frameStep id t spurious woken rest f = some source)
    (hflags : f = .running () → r.stopRequested = true ∧ r.wakingUp = false)
    (hstop : r.pc = .returned → r.stopRequested = true) :
    { call with source := source }.Core r := by
  have hstep : call.source.step id (.step t spurious woken) = some source := by
    simpa only [SingleInplaceStopSource.Source.step, hst] using ht
  have hreplaced := SingleInplaceStopSource.Source.replaced_frameStep ht hst
  have hchanged := SingleInplaceStopSource.Source.changed_frameStep h.source hst ht
  have hinv := h.source.step hstep
  constructor
  · exact hinv
  · exact h.result
  · exact h.completer
  · intro hcompleter
    rw [hchanged.stopCalls]
    exact h.stopCalls hcompleter
  · intro hwinner
    rcases hchanged.winner with heq | ⟨hloops, -⟩
    · exact h.winner (heq ▸ hwinner)
    · rw [(h.loops t f (by simp [hst]) hloops).1]
      simp
  · intro u g hg hloops
    by_cases hu : u = t
    · subst hu
      obtain ⟨hf, hwinner⟩ := hchanged.loops g hg hloops
      rw [hwinner]
      exact h.loops u f (by simp [hst]) hf
    · rw [hreplaced.others u hu] at hg
      obtain ⟨hcompleter, hnone⟩ := h.loops u g hg hloops
      refine ⟨hcompleter, ?_⟩
      rcases hchanged.winner with heq | ⟨hf, -⟩
      · exact heq.trans hnone
      · rw [(h.loops t f (by simp [hst]) hf).1] at hcompleter
        exact absurd (Option.some.inj hcompleter).symm hu
  · intro hfresh
    have hfresh' : call.source.status () = .fresh := by
      rcases hchanged.status () with heq | ⟨-, ⟨-, heq | heq⟩ | ⟨-, heq⟩⟩
      · rw [← heq, hfresh]
      all_goals rw [heq] at hfresh; cases hfresh
    rcases SingleInplaceStopSource.Source.holder_frameStep ht with heq | hnone
    · exact heq.trans (h.holder hfresh')
    · exact hnone
  · exact h.gone_step hst ht hstop
  · intro hzero
    rcases hchanged.executions () with heq | hrunning
    · exact h.unexecuted (heq ▸ hzero)
    · rw [(hinv.frames t _ hrunning).1] at hzero
      cases hzero
  · intro hne
    rcases hchanged.executions () with heq | hrunning
    · rcases h.executed (heq ▸ hne) with ⟨u, hu⟩ | hflags'
      · by_cases hut : u = t
        · subst hut
          rw [hst] at hu
          rcases List.mem_cons.mp hu with hf | hu
          · exact .inr (hflags hf.symm)
          · left
            refine ⟨u, ?_⟩
            rcases hreplaced.own with ⟨g, hg⟩ | hpop | ⟨c, g, hg, -⟩
            · rw [hg]
              exact List.mem_cons_of_mem g hu
            · rw [hpop]
              exact hu
            · rw [hg]
              exact List.mem_cons_of_mem _ (List.mem_cons_of_mem g hu)
        · left
          exact ⟨u, by rwa [hreplaced.others u hut]⟩
      · exact .inr hflags'
    · exact .inl ⟨t, hrunning⟩

/-- The constructor or the destructor of the stop callback goes on. -/
theorem alone_goes_on (h : call.Ok i r) (halone : Alone (call.source.stack (.caller i)))
    (hcalled : (call.source.status ()).calledBy (.caller i) = true)
    (hst : call.source.stack t = f :: rest)
    (ht : call.source.frameStep id t spurious woken rest f = some source)
    (hleft : t = .caller i → source.stack t ≠ []) :
    source.status () = call.source.status () ∧ Alone (source.stack (.caller i)) := by
  by_cases hti : t = .caller i
  · subst hti
    have hne := hleft rfl
    exact ⟨alone_status h.source halone hst ht hne,
      (alone_step halone hst ht).resolve_left hne⟩
  · have hreplaced := SingleInplaceStopSource.Source.replaced_frameStep ht hst
    rw [hreplaced.others _ fun heq => hti heq.symm]
    refine ⟨?_, halone⟩
    rcases (SingleInplaceStopSource.Source.changed_frameStep h.source hst ht).status () with
      heq | ⟨-, ⟨heq, -⟩ | ⟨heq, -⟩⟩
    · exact heq
    · rw [heq] at hcalled
      exact absurd (of_decide_eq_true hcalled) hti
    · rw [heq] at hcalled
      exact absurd (of_decide_eq_true hcalled) hti

/-- The constructor or the destructor of the stop callback returns. -/
theorem alone_returns (h : call.Ok i r) (hst : call.source.stack t = f :: rest)
    (ht : call.source.frameStep id t spurious woken rest f = some source)
    (hnil : source.stack t = []) :
    (call.source.status () = .registering t →
      source.status () = .registered ∨ source.status () = .refused) ∧
    (call.source.status () = .deregistering t → source.status () = .gone) := by
  have hstep : call.source.step id (.step t spurious woken) = some source := by
    simpa only [SingleInplaceStopSource.Source.step, hst] using ht
  have hcount := (h.source.step hstep).calls t ()
  rw [hnil, List.countP_nil] at hcount
  have hcalled : (source.status ()).calledBy t = false := by
    by_contra hcalled
    rw [if_pos (Bool.of_not_eq_false hcalled)] at hcount
    cases hcount
  have hchanged := (SingleInplaceStopSource.Source.changed_frameStep h.source hst ht).status ()
  constructor
  · intro hold
    rcases hchanged with heq | ⟨-, ⟨-, heq⟩ | ⟨heq, -⟩⟩
    · rw [heq, hold] at hcalled
      simp [Status.calledBy] at hcalled
    · exact heq
    · rw [hold] at heq
      cases heq
  · intro hold
    rcases hchanged with heq | ⟨-, ⟨heq, -⟩ | ⟨-, heq⟩⟩
    · rw [heq, hold] at hcalled
      simp [Status.calledBy] at hcalled
    · rw [hold] at heq
      cases heq
    · exact heq

theorem Ok.placed_step (h : call.Ok i r) (hst : call.source.stack t = f :: rest)
    (ht : call.source.frameStep id t spurious woken rest f = some source)
    (hleft : t = .caller i → call.pc = .construct ∨ call.pc = .destruct → source.stack t ≠ []) :
    { call with source := source }.Placed i r := by
  have hplaced := h.placed
  have hsame : (call.source.status ()).calledBy t = false →
      source.status () = call.source.status () := by
    intro hcalled
    rcases (SingleInplaceStopSource.Source.changed_frameStep h.source hst ht).status () with
      heq | ⟨-, ⟨heq, -⟩ | ⟨heq, -⟩⟩
    · exact heq
    · simp [heq, Status.calledBy] at hcalled
    · simp [heq, Status.calledBy] at hcalled
  unfold Placed at hplaced ⊢
  cases hpc : call.pc with
  | notCalled =>
    simp only [hpc] at hplaced ⊢
    rw [hsame (by rw [hplaced.2.1]; rfl)]
    exact hplaced
  | start =>
    simp only [hpc] at hplaced ⊢
    rw [hsame (by rw [hplaced.1]; rfl)]
    exact hplaced
  | construct =>
    simp only [hpc] at hplaced ⊢
    obtain ⟨hstatus, hrun, halone⟩ := hplaced
    obtain ⟨heq, halone'⟩ := alone_goes_on h halone (by simp [hstatus, Status.calledBy]) hst ht
      fun hti => hleft hti (.inl hpc)
    exact ⟨heq.trans hstatus, hrun, halone'⟩
  | run | returned =>
    simp only [hpc] at hplaced ⊢
    rw [hsame (by rcases hplaced.1 with heq | heq <;> rw [heq] <;> rfl)]
    exact hplaced
  | destruct =>
    simp only [hpc] at hplaced ⊢
    obtain ⟨hstatus, hrun, halone⟩ := hplaced
    obtain ⟨heq, halone'⟩ := alone_goes_on h halone (by simp [hstatus, Status.calledBy]) hst ht
      fun hti => hleft hti (.inr hpc)
    exact ⟨heq.trans hstatus, hrun, halone'⟩

theorem Ok.step (h : call.Ok i r) (hst : call.source.stack t = f :: rest)
    (ht : call.source.frameStep id t spurious woken rest f = some source)
    (hflags : f = .running () → r.stopRequested = true ∧ r.wakingUp = false)
    (hstop : r.pc = .returned → r.stopRequested = true)
    (hleft : t = .caller i → call.pc = .construct ∨ call.pc = .destruct → source.stack t ≠ []) :
    { call with source := source }.Ok i r :=
  { h.core_step hst ht hflags hstop with
    placed := h.placed_step hst ht hleft
    returned := h.returned }

end Call

theorem alone_of_called {s' : Source (Thread ι U) Unit Unit} {s : Source (Thread ι U) Unit Unit}
    {t : Thread ι U} {f : Frame Unit Unit} (h : s.Called t f s') (hnil : s.stack t = []) :
    Alone (s'.stack t) :=
  .inl ⟨f, by rw [h.stack, Function.update_self, hnil]⟩

namespace Waits
variable {s s' : Waits ι U α R X} {t : Thread ι U} {i : ι} {spurious : Bool} {woken : ℕ}

/-- A step that leaves the calls of `run()` alone. -/
theorem Inv.setLoop [DecidableEq α] (h : s.Inv) {a : ManualEventLoop.Act ι α} {loop : Loop ι α}
    (ht : s.loop.step a = some loop) (hruns : loop.runs = s.loop.runs) :
    { s with loop := loop }.Inv :=
  { h with
    loop := h.loop.step ht
    leaving := h.leaving.step h.loop ht
    calls := fun i => by
      rw [hruns]
      exact h.calls i
    sequential := fun i k hk => by
      rw [hruns]
      exact h.sequential i k hk }

theorem Inv.call (h : s.Inv) (hpc : (s.calls i).pc = .notCalled)
    (hinside : s.inside (.caller i) = none) :
    (s.setCall i { s.calls i with pc := .start }).Inv := by
  have hok := h.calls i
  have hplaced := hok.placed
  unfold Call.Placed at hplaced
  simp only [hpc] at hplaced
  refine h.setCall h.loop h.leaving (fun _ _ => rfl) ?_ ?_ ?_
  · rfl
  · exact { hok with
      placed := hplaced.2
      returned := fun hreturned => by cases hreturned }
  · intro k hk
    rw [hinside] at hk
    cases hk

/-- A thread without a call on a stop source. -/
theorem Inv.stack_nil (h : s.Inv) (hinside : s.inside t = none) (i : ι) :
    (s.calls i).source.stack t = [] := by
  by_contra hne
  rw [(h.inside t i).mpr hne] at hinside
  cases hinside

/-- A thread calls a method of the stop source of a call, which goes on to `pc`. -/
theorem Inv.push (h : s.Inv) {call' : Call ι U R X} {f : Frame Unit Unit}
    (hinside : s.inside t = none) (hok : call'.Ok i (s.loop.runs i))
    (hcalled : (s.calls i).source.Called t f call'.source)
    (hpc : t = .caller i ∧ Busy call'.pc (s.loop.runs i).pc i i ∨
      call'.pc = (s.calls i).pc ∧
        ∀ j, t = .caller j → Busy (s.calls j).pc (s.loop.runs j).pc j i) :
    Inv { s.setCall i call' with inside := Function.update s.inside t (some i) } := by
  have hstack := hcalled.stack
  apply h.setSource (fun k hk => by simp [hinside] at hk) h.loop h.leaving (fun _ _ => rfl) hok
  · intro u hu
    rw [hstack, Function.update_of_ne hu]
  · intro k
    simp only [hstack, Function.update_self, ne_eq, reduceCtorEq, not_false_eq_true, and_true,
      Option.some.injEq]
    exact eq_comm
  · exact hpc.imp And.left fun hsame => ⟨hsame.1, rfl⟩
  · intro j k hj hk
    cases hk
    by_cases hji : j = i
    · subst hji
      rw [Function.update_self]
      rcases hpc with ⟨-, hbusy⟩ | ⟨hsame, hbusy⟩
      · exact hbusy
      · rw [hsame]
        exact hbusy j hj
    · rw [Function.update_of_ne hji]
      rcases hpc with ⟨ht, -⟩ | ⟨-, hbusy⟩
      · rw [ht] at hj
        exact absurd (Thread.caller.inj hj).symm hji
      · exact hbusy j hj

theorem Inv.construct (h : s.Inv) (hpc : (s.calls i).pc = .start)
    (hinside : s.inside (.caller i) = none) {source : Source (Thread ι U) Unit Unit}
    (ht : (s.calls i).source.step id (.tryRegister (.caller i) ()) = some source) :
    Inv { s.setCall i { s.calls i with pc := .construct, source := source } with
      inside := Function.update s.inside (.caller i) (some i) } := by
  have hok := h.calls i
  have hplaced := hok.placed
  have hnil := h.stack_nil hinside i
  unfold Call.Placed at hplaced
  simp only [hpc] at hplaced
  obtain ⟨hcalled, hstatus, hstopCalls⟩ := SingleInplaceStopSource.Source.called_tryRegister ht
  refine h.push hinside ⟨hok.push (hok.source.step ht) hcalled hnil (by simp [hstatus])
    (by simp [hstatus]) hok.result hok.completer ?_ (fun _ => rfl)
      (fun hloops => by cases hloops), ?_, fun hreturned => by cases hreturned⟩ hcalled
        (.inl ⟨rfl, rfl⟩)
  · rw [hstopCalls]
    exact hok.stopCalls
  · exact ⟨by simp [hstatus], hplaced.2, alone_of_called hcalled hnil⟩

theorem Inv.destruct (h : s.Inv) (hrun : (s.loop.runs i).pc = .returned)
    (hinside : s.inside (.caller i) = none) {source : Source (Thread ι U) Unit Unit}
    (ht : (s.calls i).source.step id (.deregister (.caller i) ()) = some source) :
    Inv { s.setCall i { s.calls i with pc := .destruct, source := source } with
      inside := Function.update s.inside (.caller i) (some i) } := by
  have hok := h.calls i
  have hnil := h.stack_nil hinside i
  obtain ⟨hcalled, hstatus, hstopCalls⟩ := SingleInplaceStopSource.Source.called_deregister ht
  refine h.push hinside ⟨hok.push (hok.source.step ht) hcalled hnil (by simp [hstatus])
    (by simp [hstatus]) hok.result hok.completer ?_ (fun _ => rfl)
      (fun hloops => by cases hloops), ?_, fun hreturned => by cases hreturned⟩ hcalled
        (.inl ⟨rfl, rfl⟩)
  · rw [hstopCalls]
    exact hok.stopCalls
  · exact ⟨by simp [hstatus], hrun, alone_of_called hcalled hnil⟩

theorem Inv.setResult (h : s.Inv) {c : Completion R X} (hpc : (s.calls i).pc ≠ .notCalled)
    (hcompletion : (s.calls i).completion = none) (hmay : s.mayComplete t = true)
    (hinside : s.inside t = none) {source : Source (Thread ι U) Unit Unit}
    (ht : (s.calls i).source.step id (.requestStop t) = some source) :
    Inv { s.setCall i { s.calls i with
        source := source
        result := some (storeResult c)
        completion := some c
        completer := some t } with
      inside := Function.update s.inside t (some i) } := by
  have hok := h.calls i
  have hnil := h.stack_nil hinside i
  obtain ⟨hcalled, hstatus, hstopCalls, hholder⟩ :=
    SingleInplaceStopSource.Source.called_requestStop ht
  have hcompleter := hok.completer.mpr hcompletion
  refine h.push hinside ⟨hok.push (hok.source.step ht) hcalled hnil ?_ (by simp [hstatus])
    rfl (by simp) ?_ (fun hne => absurd hcompleter hne) (fun _ => ⟨rfl, hcompleter⟩), ?_, ?_⟩
      hcalled (.inr ⟨rfl, ?_⟩)
  · rw [hstatus, hholder]
    exact hok.holder
  · rw [hstopCalls]
    exact fun _ => Nat.succ_ne_zero _
  · -- the caller is not in the constructor or the destructor of its stop callback
    have hother : (s.calls i).pc = .construct ∨ (s.calls i).pc = .destruct →
        source.stack (.caller i) = (s.calls i).source.stack (.caller i) := by
      intro hpc'
      rw [hcalled.stack, Function.update_of_ne]
      rintro rfl
      rcases hpc' with hpc' | hpc' <;> simp [mayComplete, hpc'] at hmay
    have hplaced := hok.placed
    unfold Call.Placed at hplaced ⊢
    simp only [hstatus]
    cases hpc' : (s.calls i).pc with
    | notCalled => exact absurd hpc' hpc
    | construct =>
      simp only [hpc'] at hplaced
      simpa only [hother (.inl hpc')] using hplaced
    | destruct =>
      simp only [hpc'] at hplaced
      simpa only [hother (.inr hpc')] using hplaced
    | start | run | returned =>
      simp only [hpc'] at hplaced
      exact hplaced
  · intro hreturned
    have hplaced := hok.placed
    unfold Call.Placed at hplaced
    simp only [show (s.calls i).pc = .returned from hreturned] at hplaced
    exact absurd hcompletion (hok.stopped (h.leaving.returned i hplaced.2)).2
  · rintro j rfl
    unfold mayComplete at hmay
    unfold Busy
    cases hpc' : (s.calls j).pc with
    | construct | destruct => simp [hpc'] at hmay
    | run =>
      simp only [hpc'] at hmay
      split at hmay
      · exact ⟨_, ‹_›⟩
      · cases hmay
    | _ => trivial

theorem Inv.run [DecidableEq α] (h : s.Inv) (hpc : (s.calls i).pc = .run)
    (hinside : s.inside (.caller i) = none)
    {loop : Loop ι α} (ht : s.loop.step (.run i) = some loop) : { s with loop := loop }.Inv := by
  have hok := h.calls i
  have hplaced := hok.placed
  unfold Call.Placed at hplaced
  simp only [hpc] at hplaced
  obtain ⟨hothers, hstop, hwaking, hcalled⟩ := ManualEventLoop.Loop.runs_of_runStep ht
  exact h.setRun (h.loop.step ht) (h.leaving.step h.loop ht) hothers
    { hok.congr hstop hwaking with
      placed := by
        unfold Call.Placed
        simp only [hpc]
        exact ⟨hplaced.1, hcalled⟩
      returned := hok.returned } (by simp [hinside])

/-- The stop callback was not registered, since the stop had been requested before. -/
theorem Inv.ret (h : s.Inv) (hpc : (s.calls i).pc = .run) (hrun : (s.loop.runs i).pc = .returned)
    (hinside : s.inside (.caller i) = none)
    (hregistered : (s.calls i).source.status () ≠ .registered) :
    (s.setCall i (s.calls i).ret).Inv := by
  have hok := h.calls i
  have hplaced := hok.placed
  unfold Call.Placed at hplaced
  simp only [hpc] at hplaced
  refine h.setCall h.loop h.leaving (fun _ _ => rfl) ?_ ?_ (by simp [hinside])
  · rfl
  · exact { hok with
      placed := ⟨.inr (hplaced.1.resolve_left hregistered), hrun⟩
      returned := fun _ => rfl }

/-- A step on the stop source after which the thread is still there. -/
theorem Inv.goesOn {source : Source (Thread ι U) Unit Unit} {f : Frame Unit Unit}
    {rest : List (Frame Unit Unit)} (h : s.Inv) (hin : s.inside t = some i)
    (hst : (s.calls i).source.stack t = f :: rest)
    (ht : (s.calls i).source.frameStep id t spurious woken rest f = some source)
    (hflags : f = .running () →
      (s.loop.runs i).stopRequested = true ∧ (s.loop.runs i).wakingUp = false)
    (hne : source.stack t ≠ []) :
    (s.setCall i { s.calls i with source := source }).Inv := by
  have hsame : Function.update s.inside t (some i) = s.inside := by
    rw [← hin]
    exact Function.update_eq_self t s.inside
  have hset : Inv { s.setCall i { s.calls i with source := source } with
      inside := Function.update s.inside t (some i) } := by
    refine h.setSource (fun k hk => ?_) h.loop h.leaving (fun _ _ => rfl)
      ((h.calls i).step hst ht hflags (h.leaving.returned i) fun _ _ => hne)
      (SingleInplaceStopSource.Source.replaced_frameStep ht hst).others ?_ (.inr ⟨rfl, rfl⟩) ?_
    · rw [hin] at hk
      exact (Option.some.inj hk).symm
    · intro k
      simp only [ne_eq, hne, not_false_eq_true, and_true, Option.some.injEq]
      exact eq_comm
    · rintro j k rfl hk
      cases hk
      have hold := h.sequential j i hin
      by_cases hj : j = i
      · subst hj
        simpa only [Waits.setCall, Function.update_self] using hold
      · simpa only [Waits.setCall, Function.update_of_ne hj] using hold
  rwa [hsame] at hset

/-- A step on the stop source with which the thread leaves it, and the call goes on. -/
theorem Inv.leaves (h : s.Inv) (hin : s.inside t = some i) {loop : Loop ι α}
    {call' : Call ι U R X}
    (hothers : ∀ u, u ≠ t → call'.source.stack u = (s.calls i).source.stack u)
    (hnil : call'.source.stack t = []) (hloop : loop.Inv) (hleaving : loop.Leaving)
    (hruns : ∀ j, j ≠ i → loop.runs j = s.loop.runs j) (hok : call'.Ok i (loop.runs i))
    (hpc : t = .caller i ∨ call'.pc = (s.calls i).pc ∧
      (loop.runs i).pc = (s.loop.runs i).pc) :
    Inv
      { loop := loop
        calls := Function.update s.calls i call'
        inside := Function.update s.inside t none } := by
  refine h.setSource (fun k hk => ?_) hloop hleaving hruns hok hothers ?_ hpc ?_
  · rw [hin] at hk
    exact (Option.some.inj hk).symm
  · intro k
    simp [hnil]
  · intro j k _ hk
    cases hk

theorem Inv.sourceStep [DecidableEq α] (h : s.Inv) (hin : s.inside t = some i)
    (hflags : ∀ rest, (s.calls i).source.stack t = .running () :: rest →
      (s.loop.runs i).stopRequested = true ∧ (s.loop.runs i).wakingUp = false)
    (ht : s.sourceStep t i spurious woken = some s') : s'.Inv := by
  have hok := h.calls i
  obtain ⟨f, rest, hst⟩ := List.exists_cons_of_ne_nil ((h.inside t i).mp hin)
  unfold Waits.sourceStep at ht
  obtain ⟨source, hsource, ht⟩ := Option.bind_eq_some_iff.mp ht
  have hframe : (s.calls i).source.frameStep id t spurious woken rest f = some source := by
    simpa only [SingleInplaceStopSource.Source.step, hst] using hsource
  have htop : f = .running () →
      (s.loop.runs i).stopRequested = true ∧ (s.loop.runs i).wakingUp = false := by
    rintro rfl
    exact hflags rest hst
  split_ifs at ht with hnil
  · have hcore := hok.core_step hst hframe htop (h.leaving.returned i)
    have hreturns := Call.alone_returns hok hst hframe hnil
    have hplaced := hok.placed
    have hothers := (SingleInplaceStopSource.Source.replaced_frameStep hframe hst).others
    -- the call goes on where it is, unless it is the caller that leaves its stop callback
    have hstays : (t = .caller i → (s.calls i).pc ≠ .construct ∧ (s.calls i).pc ≠ .destruct) →
        Inv { s.setCall i { s.calls i with source := source } with
          inside := Function.update s.inside t none } := by
      intro hneither
      refine h.leaves hin hothers hnil h.loop h.leaving (fun _ _ => rfl) ?_
        (.inr ⟨rfl, rfl⟩)
      refine hok.step hst hframe htop (h.leaving.returned i) fun hti hpc => ?_
      obtain ⟨hconstruct, hdestruct⟩ := hneither hti
      rcases hpc with hpc | hpc
      · exact absurd hpc hconstruct
      · exact absurd hpc hdestruct
    unfold Waits.leave at ht
    simp only [Waits.setCall, Function.update_self] at ht
    split_ifs at ht with hti
    · subst hti
      unfold Call.Placed at hplaced
      split at ht
      · next hpc =>
        simp only [hpc] at hplaced
        obtain ⟨loop, hloop, rfl⟩ := Option.map_eq_some_iff.mp ht
        have hinv := h.loop.step hloop
        have hleaving := h.leaving.step h.loop hloop
        simp only [ManualEventLoop.Loop.step, hplaced.2.1, if_true, Option.some.injEq] at hloop
        subst hloop
        rw [Function.update_idem]
        refine h.leaves hin hothers hnil hinv hleaving
          (fun j hj => Function.update_of_ne hj _ _) ?_ (.inl rfl)
        · simp only [ManualEventLoop.Loop.setPc, Function.update_self]
          exact { hcore.congr rfl rfl with
            placed := ⟨hreturns.1 hplaced.1, by simp⟩
            returned := fun hreturned => by cases hreturned }
      · next hpc =>
        simp only [hpc] at hplaced
        cases ht
        rw [Function.update_idem]
        refine h.leaves hin hothers hnil h.loop h.leaving (fun _ _ => rfl) ?_ (.inl rfl)
        · exact { hcore with
            placed := ⟨.inl (hreturns.2 hplaced.1), hplaced.2.1⟩
            returned := fun _ => rfl }
      · next hconstruct hdestruct =>
        cases ht
        exact hstays fun _ => ⟨hconstruct, hdestruct⟩
    · cases ht
      exact hstays fun hti' => absurd hti' hti
  · cases ht
    exact h.goesOn hin hst hframe htop hnil

/-- The stop callback takes a step in the event loop. -/
theorem Inv.setFlags [DecidableEq α] (h : s.Inv) {loop : Loop ι α} {a : ManualEventLoop.Act ι α}
    {r : Run α}
    (hrunning : .running () ∈ (s.calls i).source.stack t) (ht : s.loop.step a = some loop)
    (hruns : loop.runs = Function.update s.loop.runs i r) (hpc : r.pc = (s.loop.runs i).pc) :
    { s with loop := loop }.Inv := by
  have hok := h.calls i
  have hpc' : (loop.runs i).pc = (s.loop.runs i).pc := by rw [hruns, Function.update_self, hpc]
  refine h.setRun (h.loop.step ht) (h.leaving.step h.loop ht) ?_
    { hok.onStop hrunning with
      placed := hok.placed.congr hpc'
      returned := hok.returned } ?_
  · intro j hj
    rw [hruns, Function.update_of_ne hj]
  · intro k hk
    rw [hpc']
    exact h.sequential i k hk

theorem Inv.onStop [DecidableEq α] (h : s.Inv) (hin : s.inside t = some i)
    {rest : List (Frame Unit Unit)}
    (hst : (s.calls i).source.stack t = .running () :: rest)
    (ht : s.onStop t i spurious woken = some s') : s'.Inv := by
  have hrunning : .running () ∈ (s.calls i).source.stack t := by
    rw [hst]
    exact List.mem_cons_self
  unfold Waits.onStop at ht
  split_ifs at ht with hstop hwaking
  · obtain ⟨loop, hloop, rfl⟩ := Option.map_eq_some_iff.mp ht
    have hstep := hloop
    simp only [ManualEventLoop.Loop.step] at hstep
    split_ifs at hstep
    cases hstep
    exact h.setFlags hrunning hloop rfl rfl
  · obtain ⟨loop, hloop, rfl⟩ := Option.map_eq_some_iff.mp ht
    have hstep := hloop
    simp only [ManualEventLoop.Loop.step] at hstep
    split_ifs at hstep
    cases hstep
    exact h.setFlags hrunning hloop rfl rfl
  · refine h.sourceStep hin (fun _ _ => ⟨?_, ?_⟩) ht
    · exact Bool.of_not_eq_false hstop
    · exact Bool.of_not_eq_true hwaking

theorem Inv.step [DecidableEq α] {a : Act ι U α R X} (h : s.Inv) (ht : s.step a = some s') :
    s'.Inv := by
  cases a with
  | call i =>
    simp only [Waits.step] at ht
    split_ifs at ht with hen
    cases ht
    exact h.call hen.1 hen.2
  | construct i =>
    simp only [Waits.step] at ht
    split_ifs at ht with hen
    obtain ⟨source, hsource, rfl⟩ := Option.map_eq_some_iff.mp ht
    exact h.construct hen.1 hen.2 hsource
  | run i =>
    simp only [Waits.step] at ht
    split_ifs at ht with hen
    obtain ⟨loop, hloop, rfl⟩ := Option.map_eq_some_iff.mp ht
    exact h.run hen.1 hen.2 hloop
  | destruct i =>
    simp only [Waits.step] at ht
    split_ifs at ht with hen hregistered
    · obtain ⟨source, hsource, rfl⟩ := Option.map_eq_some_iff.mp ht
      exact h.destruct hen.2.1 hen.2.2 hsource
    · cases ht
      exact h.ret hen.1 hen.2.1 hen.2.2 hregistered
  | source t spurious woken =>
    simp only [Waits.step] at ht
    obtain ⟨i, hin, ht⟩ := Option.bind_eq_some_iff.mp ht
    split at ht
    · next hst => exact h.onStop hin hst ht
    · next hst => exact h.sourceStep hin (fun rest heq => absurd heq (hst () rest)) ht
  | setResult t i c =>
    simp only [Waits.step] at ht
    split_ifs at ht with hen
    obtain ⟨source, hsource, rfl⟩ := Option.map_eq_some_iff.mp ht
    exact h.setResult hen.1 hen.2.1 hen.2.2.1 hen.2.2.2 hsource
  | wakeSpuriously i =>
    obtain ⟨loop, hloop, rfl⟩ := Option.map_eq_some_iff.mp ht
    have hstep := hloop
    simp only [ManualEventLoop.Loop.step] at hstep
    split_ifs at hstep
    cases hstep
    exact h.setLoop hloop rfl
  | enqueue item notified =>
    obtain ⟨loop, hloop, rfl⟩ := Option.map_eq_some_iff.mp ht
    have hstep := hloop
    simp only [ManualEventLoop.Loop.step] at hstep
    split_ifs at hstep
    exact h.setLoop hloop (ManualEventLoop.Loop.enqueue_eq hstep).2
  | tryRemove item =>
    obtain ⟨loop, hloop, rfl⟩ := Option.map_eq_some_iff.mp ht
    have hstep := hloop
    simp only [ManualEventLoop.Loop.step] at hstep
    split_ifs at hstep
    cases hstep
    exact h.setLoop hloop rfl

end Waits
end Squiz.SyncWait
