import Squiz.SingleInplaceStopSource.Steps

/-! What `single_inplace_stop_source` promises to callers of `request_stop()` and to callbacks. -/

namespace Squiz.SingleInplaceStopSource
open Squiz.Lib

variable {T C A : Type} [DecidableEq T] [DecidableEq C] [DecidableEq A]

namespace Frame

/-- The call deregisters callback `c` and is to wait, or has waited, for its execution. -/
def waitsFor (c : C) : Frame C A → Bool
  | .deregisterWait c' _ | .deregisterLoad c' => decide (c' = c)
  | _ => false

end Frame

namespace Source
variable {addr : C → A} {s : Source T C A} {t : T}

/-- No call is running. -/
def Quiescent (s : Source T C A) : Prop := ∀ t, s.stack t = []

/-- No thread can take a step of a call it has made. -/
def Stuck (addr : C → A) (s : Source T C A) : Prop :=
  ∀ t spurious woken, s.step addr (.step t spurious woken) = none

/-- The whole promise about one reachable state. -/
structure Orderly (addr : C → A) (s : Source T C A) : Prop where
  stopsOnce : s.stopTrue ≤ 1
  stopsAtEnd : s.Quiescent → s.stopCalls ≠ 0 → s.stopTrue = 1
  executedOnce : ∀ c, s.executions c ≤ 1
  executedAtEnd : s.Quiescent → ∀ c, s.due c = true → s.executions c = 1
  executedOnStop : ∀ c, s.executions c ≠ 0 → s.word.stopped = true
  /-- once `deregister_callback()` has returned, only an execution that called it goes on -/
  deregistered : ∀ c, s.status c = .gone → ∀ t, Frame.running c ∈ s.stack t → s.inside c = true
  /-- and none is about to start -/
  unscheduled : ∀ c, s.status c = .gone → ∀ t, Frame.registerExecute c ∉ s.stack t ∧
    ∀ f ∈ s.stack t, f.executes = true → s.taken ≠ some c
  noWait : ∀ t c, (∃ f ∈ s.stack t, f.waitsFor c = true) → Frame.running c ∉ s.stack t
  noDeadlock : s.Stuck addr → s.Quiescent
  noFault : s.fault = false

theorem step_some_of_top {f : Frame C A} {rest : List (Frame C A)} (hst : s.stack t = f :: rest)
    (hf : ∀ c old, f = .deregisterWait c old → t ∉ s.waiters) :
    ∃ s', s.step addr (.step t false 0) = some s' := by
  simp only [Source.step, hst]
  cases f with
  | stopNotify =>
    have hw : 0 < s.waiters.length ∨ s.waiters = [] := by
      cases s.waiters with
      | nil => exact .inr rfl
      | cons => exact .inl (by simp)
    exact ⟨_, if_pos hw⟩
  | deregisterWait c old =>
    simp only [frameStep, if_neg (hf c old rfl)]
    split_ifs <;> exact ⟨_, rfl⟩
  | stopCas old | registerCas c old | deregisterCas c old =>
    simp only [frameStep]
    split_ifs <;> exact ⟨_, rfl⟩
  | deregisterLoadId c | deregisterLoad c =>
    simp only [frameStep]
    split_ifs <;> exact ⟨_, rfl⟩
  | _ => exact ⟨_, rfl⟩

namespace Inv

/-- A thread whose call cannot go on waits for the winner, which can. -/
theorem quiescent_of_stuck (h : s.Inv addr) (hstuck : s.Stuck addr) : s.Quiescent := by
  have hparked : ∀ t f rest, s.stack t = f :: rest → t ∈ s.waiters ∧
      ∃ c, f = .deregisterWait c .stopRequested := by
    intro t f rest hst
    have hw : t ∈ s.waiters := by
      by_contra hn
      obtain ⟨s', hs'⟩ := step_some_of_top hst fun _ _ _ => hn
      rw [hstuck t false 0] at hs'
      cases hs'
    obtain ⟨c, rest', hc⟩ := h.waiting t hw
    rw [hst] at hc
    exact ⟨hw, c, (List.cons.inj hc).1⟩
  intro t
  cases hst : s.stack t with
  | nil => rfl
  | cons f rest =>
    exfalso
    obtain ⟨hw, c, rfl⟩ := hparked t f rest hst
    obtain ⟨hstatus, hstop, hnot, -⟩ :=
      h.frames t (.deregisterWait c .stopRequested) (by simp [hst])
    have htaken := h.taken_of_held (c := c) (by rw [hstatus]; rfl) hstop
    obtain ⟨w, hwin⟩ := Option.ne_none_iff_exists'.mp (h.stopped_iff.mp hstop)
    -- the winner has not returned
    have hframe : ∃ g rest', s.stack w = g :: rest' := by
      rcases h.woken (List.ne_nil_of_mem hw) with hword | ⟨t', ht'⟩
      · have hcount := h.wins w
        rw [if_pos hwin, if_pos hwin] at hcount
        have hfalse : s.stopTrue ≠ 1 := by
          intro htrue
          have := (h.returned htrue (by simp [htaken])).2
          rw [hword] at this
          cases this
        obtain ⟨g, hg, -⟩ := List.countP_pos_iff.mp
          (by omega : 0 < (s.stack w).countP Frame.wins)
        cases hsw : s.stack w with
        | nil =>
          rw [hsw] at hg
          cases hg
        | cons g rest' => exact ⟨g, rest', rfl⟩
      · have hw' := (h.frames t' _ ht').1
        rw [hwin] at hw'
        cases hw'
        cases hsw : s.stack w with
        | nil =>
          rw [hsw] at ht'
          cases ht'
        | cons g rest' => exact ⟨g, rest', rfl⟩
    obtain ⟨g, rest', hsw⟩ := hframe
    obtain ⟨-, c', rfl⟩ := hparked w g rest' hsw
    have hok := h.frames w (.deregisterWait c' .stopRequested) (by simp [hsw])
    exact hok.2.2.1 hwin

theorem orderly (h : s.Inv addr) : s.Orderly addr where
  stopsOnce := by
    by_cases hw : s.winner = none
    · simp [(h.unwon hw).1]
    · obtain ⟨w, hw⟩ := Option.ne_none_iff_exists'.mp hw
      have hcount := h.wins w
      rw [if_pos hw, if_pos hw] at hcount
      omega
  stopsAtEnd hq hne := by
    rcases h.called hne with hw | ⟨t, f, hf, -⟩
    · obtain ⟨w, hw⟩ := Option.ne_none_iff_exists'.mp hw
      have hcount := h.wins w
      rw [if_pos hw, if_pos hw, hq w] at hcount
      simpa using hcount
    · rw [hq t] at hf
      cases hf
  executedOnce c := (h.callback c).executionsLe
  executedAtEnd hq c hdue := by
    rcases (h.callback c).due hdue with ht | ⟨t, ht⟩ | hr
    · rcases (h.taken c ht).2 with he | ⟨t, -, f, hf, -⟩
      · exact he
      · rw [hq t] at hf
        cases hf
    · have hcall := h.calls t c
      rw [hq t, if_pos (by simp [ht, Status.calledBy])] at hcall
      cases hcall
    · exact (h.callback c).refused hr
  executedOnStop c hne := h.stopped_iff.mpr ((h.callback c).executed hne)
  deregistered c hgone t hr := by
    obtain ⟨-, hok | ⟨-, -, -, -, hok⟩⟩ := h.frames t _ hr
    · rw [hgone] at hok
      cases hok
    · exact hok hgone
  unscheduled c hgone t := by
    refine ⟨fun hf => ?_, fun f hf hp hc => ?_⟩
    · have hok := (h.frames t _ hf).1
      rw [hgone] at hok
      cases hok
    · have hok := h.frames t f hf
      cases f <;> simp only [Frame.executes] at hp
      case stopStoreId a | stopExecute a =>
        obtain ⟨-, -, -, c', hc', -, hobj, -⟩ := hok
        rw [hc] at hc'
        cases hc'
        have := (h.objects a c hobj).2
        simp [hgone, Status.alive] at this
      all_goals cases hp
  noWait t c := by
    rintro ⟨f, hf, hw⟩ hr
    have hok := h.frames t f hf
    have hfacts : s.status c = .deregistering t ∧ s.winner ≠ some t := by
      cases f <;> simp only [Frame.waitsFor, decide_eq_true_eq] at hw
      case deregisterWait c' old =>
        subst hw
        exact ⟨hok.1, hok.2.2.1⟩
      case deregisterLoad c' =>
        subst hw
        exact ⟨hok.1, hok.2.2⟩
      all_goals cases hw
    obtain ⟨-, hrun | ⟨-, hrun, -⟩⟩ := h.frames t _ hr
    · rw [hfacts.1] at hrun
      cases hrun
    · exact hfacts.2 hrun
  noDeadlock := h.quiescent_of_stuck
  noFault := h.noFault

end Inv

/-- The stop request is never undone, and a callback that has been deregistered is not executed. -/
def Kept (s s' : Source T C A) : Prop :=
  (s.word.stopped = true → s'.word.stopped = true) ∧
    ∀ c, s.status c = .gone → s'.status c = .gone ∧ s'.executions c = s.executions c

omit [DecidableEq T] [DecidableEq C] [DecidableEq A] in
theorem Kept.refl (s : Source T C A) : s.Kept s := ⟨id, fun _ hc => ⟨hc, rfl⟩⟩

omit [DecidableEq T] [DecidableEq C] [DecidableEq A] in
theorem Kept.trans {s₁ s₂ s₃ : Source T C A} (h : s₁.Kept s₂) (h' : s₂.Kept s₃) : s₁.Kept s₃ := by
  refine ⟨fun hs => h'.1 (h.1 hs), fun c hc => ?_⟩
  obtain ⟨h1, h2⟩ := h.2 c hc
  obtain ⟨h3, h4⟩ := h'.2 c h1
  exact ⟨h3, h4.trans h2⟩

/-- Ending the call for a callback that has one. -/
theorem kept_finish {c : C} {status : Status T} {rest : List (Frame C A)}
    (hc : s.status c ≠ .gone) : s.Kept (s.finish addr t c status rest) := by
  refine ⟨id, fun c' hc' => ⟨?_, rfl⟩⟩
  have hne : c' ≠ c := by
    rintro rfl
    exact hc hc'
  simpa [finish, Function.update_of_ne hne] using hc'

omit [DecidableEq A] in
theorem kept_execute {a : A} {next : Frame C A} {rest : List (Frame C A)}
    (hobj : ∀ c, s.object a = some c → s.status c ≠ .gone) :
    s.Kept (s.execute t a next rest) := by
  unfold execute
  split
  case h_1 c hc =>
    refine ⟨id, fun c' hc' => ⟨hc', ?_⟩⟩
    have hne : c' ≠ c := by
      rintro rfl
      exact hobj c' hc hc'
    simp [Function.update_of_ne hne]
  case h_2 => exact ⟨id, fun c' hc' => ⟨hc', rfl⟩⟩

theorem Inv.kept_frameStep (h : s.Inv addr) {f : Frame C A} {rest : List (Frame C A)}
    {spurious : Bool} {woken : ℕ} {s' : Source T C A} (hst : s.stack t = f :: rest)
    (ht : s.frameStep addr t spurious woken rest f = some s') : s.Kept s' := by
  have hok := h.frames t f (by simp [hst])
  have hsame : ∀ st, s.Kept (s.goto t st) := fun _ => ⟨id, fun _ hc => ⟨hc, rfl⟩⟩
  have hobj : ∀ a c, s.object a = some c → s.status c ≠ .gone := by
    intro a c hc hgone
    have := (h.objects a c hc).2
    simp [hgone, Status.alive] at this
  cases f <;> simp only [Source.frameStep] at ht
  case stopLoad =>
    cases ht
    unfold Source.stopTest
    split_ifs <;> exact hsame _
  case stopCas old =>
    split_ifs at ht <;> cases ht
    · unfold Source.stopTakesEffect
      cases old <;> exact ⟨fun _ => rfl, fun _ hc => ⟨hc, rfl⟩⟩
    · unfold Source.stopTest
      split_ifs <;> exact hsame _
  case stopStoreId a =>
    cases ht
    exact ⟨id, fun _ hc => ⟨hc, rfl⟩⟩
  case stopExecute a =>
    cases ht
    exact kept_execute (hobj a)
  case stopStoreDone =>
    cases ht
    exact ⟨fun _ => rfl, fun _ hc => ⟨hc, rfl⟩⟩
  case stopNotify =>
    split_ifs at ht
    cases ht
    exact ⟨id, fun _ hc => ⟨hc, rfl⟩⟩
  case running c =>
    cases ht
    exact hsame _
  case registerLoad c =>
    cases ht
    unfold Source.registerTest
    split_ifs <;> exact hsame _
  case registerCas c old =>
    split_ifs at ht with hcas <;> cases ht
    · refine ⟨fun hs => ?_, fun c' hc' => ⟨?_, rfl⟩⟩
      · rw [hcas.1, hok.2.2.2] at hs
        cases hs
      · have hne : c' ≠ c := by
          rintro rfl
          rw [hok.1] at hc'
          cases hc'
        simpa [Function.update_of_ne hne] using hc'
    · unfold Source.registerTest
      split_ifs <;> exact hsame _
  case registerExecute c =>
    cases ht
    exact kept_execute (hobj _)
  case registerReturn c =>
    cases ht
    exact kept_finish (by simp [hok.1])
  case deregisterCas c old =>
    have hfinish : s.Kept (s.finish addr t c .gone rest) := kept_finish (by simp [hok.1])
    split_ifs at ht with hcas <;> cases ht
    · refine ⟨fun hs => ?_, hfinish.2⟩
      rw [hcas.1, hok.2] at hs
      cases hs
    · unfold Source.deregisterTest
      split
      · exact hsame _
      · exact hfinish
      · exact hsame _
  case deregisterLoadId c =>
    split_ifs at ht <;> cases ht
    · exact kept_finish (by simp [hok.1])
    · exact hsame _
  case deregisterWait c old =>
    split_ifs at ht <;> cases ht
    · exact ⟨id, fun _ hc => ⟨hc, rfl⟩⟩
    · exact hsame _
  case deregisterLoad c =>
    split_ifs at ht <;> cases ht
    · exact kept_finish (by simp [hok.1])
    · exact hsame _

theorem Inv.kept_step (h : s.Inv addr) {a : Act T C} {s' : Source T C A}
    (ht : s.step addr a = some s') : s.Kept s' := by
  cases a with
  | requestStop t =>
    simp only [Source.step] at ht
    split_ifs at ht
    cases ht
    exact ⟨id, fun _ hc => ⟨hc, rfl⟩⟩
  | tryRegister t c =>
    simp only [Source.step] at ht
    split at ht
    case isTrue hen =>
      cases ht
      refine ⟨id, fun c' hc' => ⟨?_, rfl⟩⟩
      have hne : c' ≠ c := by
        rintro rfl
        rw [hen.2.1] at hc'
        cases hc'
      simpa [Function.update_of_ne hne] using hc'
    case isFalse => cases ht
  | deregister t c =>
    simp only [Source.step] at ht
    split_ifs at ht with hen
    cases ht
    refine ⟨id, fun c' hc' => ⟨?_, rfl⟩⟩
    have hne : c' ≠ c := by
      rintro rfl
      rw [hen.2] at hc'
      cases hc'
    simpa [Function.update_of_ne hne] using hc'
  | step t spurious woken =>
    simp only [Source.step] at ht
    split at ht
    case h_1 => cases ht
    case h_2 f rest hst => exact h.kept_frameStep hst ht

/-- One call of `request_stop()` takes effect, each callback is executed at most once and where it
is due, not after its deregistration has returned, and nobody waits inside the callback. -/
theorem stops_once (hs : (system T addr).Reachable s) :
    s.Orderly addr ∧ ∀ as s', (system T addr).run s as = some s' → s.Kept s' := by
  have hi : s.Inv addr := hs.invariant Inv.init fun _ _ _ h _ ht => Inv.step h ht
  refine ⟨hi.orderly, fun as s' hs' => ?_⟩
  have hkept : s'.Inv addr ∧ s.Kept s' :=
    System.exec_invariant (P := fun u => u.Inv addr ∧ s.Kept u)
      (fun u a v hu _ hv => ⟨hu.1.step hv, hu.2.trans (hu.1.kept_step hv)⟩) ⟨hi, .refl s⟩ hs'
  exact hkept.2

/-- Two callbacks live at one address in turn. The first is deregistered before the stop; the second
is executed by one thread while another waits for it in `deregister_callback()`. -/
theorem stops_once_run : ∃ s : Source ℕ ℕ ℕ,
    (s.executions 0 = 0 ∧ s.executions 2 = 1 ∧ s.status 2 = .gone ∧ s.stopTrue = 1) ∧
    s.Orderly (fun c => c % 2) ∧
      ∀ as s', (system ℕ fun c : ℕ => c % 2).run s as = some s' → s.Kept s' := by
  obtain ⟨s, hs, hp⟩ := (system ℕ fun c : ℕ => c % 2).exists_reachable
    [.tryRegister 0 0, .step 0 false 0, .step 0 true 0, .step 0 false 0, .deregister 1 0,
      .step 1 false 0, .tryRegister 1 2, .step 1 false 0, .step 1 false 0, .requestStop 0,
      .requestStop 2, .step 0 false 0, .step 2 false 0, .step 0 false 0, .step 2 false 0,
      .deregister 1 2, .step 1 false 0, .step 1 false 0, .step 1 false 0, .step 0 false 0,
      .step 0 false 0, .step 0 false 0, .step 0 false 0, .step 0 false 0, .step 1 false 0,
      .step 1 false 0]
    (fun s => s.executions 0 = 0 && s.executions 2 = 1 && s.status 2 = .gone && s.stopTrue = 1)
    (by decide +kernel)
  exact ⟨s, by simpa [and_assoc] using hp, stops_once hs⟩

end Source
end Squiz.SingleInplaceStopSource
