import Squiz.SingleInplaceStopSource.Protocol

/-! What the next step of a thread's innermost call may change. -/
namespace Squiz.SingleInplaceStopSource.Source
open Squiz.Lib
variable {T C A : Type} [DecidableEq T] [DecidableEq C] [DecidableEq A] {addr : C → A}
  {s s' : Source T C A} {t : T} {f : Frame C A} {rest : List (Frame C A)}

/-- A thread has made the call `f`. -/
structure Called (s : Source T C A) (t : T) (f : Frame C A) (s' : Source T C A) : Prop where
  stack : s'.stack = Function.update s.stack t (f :: s.stack t)
  word : s'.word = s.word
  winner : s'.winner = s.winner
  executions : s'.executions = s.executions

theorem called_tryRegister {c : C} (ht : s.step addr (.tryRegister t c) = some s') :
    s.Called t (.registerLoad c) s' ∧
      s'.status = Function.update s.status c (.registering t) ∧ s'.stopCalls = s.stopCalls := by
  simp only [Source.step] at ht
  split at ht <;> cases ht
  exact ⟨⟨rfl, rfl, rfl, rfl⟩, rfl, rfl⟩

theorem called_deregister {c : C} (ht : s.step addr (.deregister t c) = some s') :
    s.Called t (.deregisterCas c (.callback (addr c))) s' ∧
      s'.status = Function.update s.status c (.deregistering t) ∧ s'.stopCalls = s.stopCalls := by
  simp only [Source.step] at ht
  split at ht <;> cases ht
  exact ⟨⟨rfl, rfl, rfl, rfl⟩, rfl, rfl⟩

theorem called_requestStop (ht : s.step addr (.requestStop t) = some s') :
    s.Called t .stopLoad s' ∧ s'.status = s.status ∧ s'.stopCalls = s.stopCalls + 1 ∧
      s'.holder = s.holder := by
  simp only [Source.step] at ht
  split at ht <;> cases ht
  exact ⟨⟨rfl, rfl, rfl, rfl⟩, rfl, rfl, rfl⟩

/-- The stacks, after a step of the innermost call `f` of thread `t`. -/
structure Replaced (s : Source T C A) (t : T) (f : Frame C A) (rest : List (Frame C A))
    (s' : Source T C A) : Prop where
  others : ∀ u, u ≠ t → s'.stack u = s.stack u
  /-- the call goes on, has returned, or executes a callback -/
  own : (∃ g, s'.stack t = g :: rest) ∨ s'.stack t = rest ∨
    ∃ c g, s'.stack t = .running c :: g :: rest ∧
      (f.executes = true ∨ ∃ c, f = .registerExecute c)

omit [DecidableEq C] [DecidableEq A] in
theorem replaced_goto {g : Frame C A} (hs : s'.stack = Function.update s.stack t (g :: rest)) :
    s.Replaced t f rest s' where
  others u hu := by rw [hs, Function.update_of_ne hu]
  own := .inl ⟨g, by rw [hs, Function.update_self]⟩

omit [DecidableEq C] [DecidableEq A] in
theorem replaced_pop (hs : s'.stack = Function.update s.stack t rest) :
    s.Replaced t f rest s' where
  others u hu := by rw [hs, Function.update_of_ne hu]
  own := .inr (.inl (by rw [hs, Function.update_self]))

omit [DecidableEq A] in
theorem replaced_execute {a : A} {next : Frame C A}
    (hf : f.executes = true ∨ ∃ c, f = .registerExecute c) :
    s.Replaced t f rest (s.execute t a next rest) := by
  unfold execute
  split
  · next c hc =>
    constructor
    · intro u hu
      exact Function.update_of_ne hu _ _
    · exact .inr (.inr ⟨c, next, Function.update_self .., hf⟩)
  · exact replaced_goto rfl

theorem replaced_deregisterTest {c : C} :
    s.Replaced t f rest (s.deregisterTest addr t c rest) := by
  unfold deregisterTest
  split
  · exact replaced_goto rfl
  · exact replaced_pop rfl
  · exact replaced_goto rfl

theorem replaced_frameStep {spurious : Bool} {woken : ℕ}
    (ht : s.frameStep addr t spurious woken rest f = some s')
    (hst : s.stack t = f :: rest) : s.Replaced t f rest s' := by
  cases f <;> simp only [frameStep] at ht
  case stopLoad =>
    cases ht
    unfold stopTest
    split_ifs
    · exact replaced_pop rfl
    · exact replaced_goto rfl
  case stopCas old =>
    split_ifs at ht <;> cases ht
    · unfold stopTakesEffect
      cases old with
      | callback a => exact replaced_goto rfl
      | _ => exact replaced_pop rfl
    · unfold stopTest
      split_ifs
      · exact replaced_pop rfl
      · exact replaced_goto rfl
  case stopStoreId a | stopStoreDone =>
    cases ht
    exact replaced_goto rfl
  case stopExecute a =>
    cases ht
    exact replaced_execute (.inl rfl)
  case registerExecute c =>
    cases ht
    exact replaced_execute (.inr ⟨c, rfl⟩)
  case stopNotify =>
    split_ifs at ht
    cases ht
    exact replaced_pop rfl
  case running c | registerReturn c =>
    cases ht
    exact replaced_pop rfl
  case registerLoad c =>
    cases ht
    unfold registerTest
    split_ifs <;> exact replaced_goto rfl
  case registerCas c old =>
    split_ifs at ht <;> cases ht
    · exact replaced_pop rfl
    · unfold registerTest
      split_ifs <;> exact replaced_goto rfl
  case deregisterCas c old =>
    split_ifs at ht <;> cases ht
    · exact replaced_pop rfl
    · exact replaced_deregisterTest
  case deregisterLoadId c =>
    split_ifs at ht <;> cases ht
    · exact replaced_pop rfl
    · exact replaced_goto rfl
  case deregisterWait c old =>
    split_ifs at ht <;> cases ht
    · refine ⟨fun _ _ => rfl, .inl ⟨_, hst⟩⟩
    · exact replaced_goto rfl
  case deregisterLoad c =>
    split_ifs at ht <;> cases ht
    · exact replaced_pop rfl
    · exact replaced_goto rfl

/-- The rest of the state, after a step of the call `f` of thread `t`. -/
structure Changed (s : Source T C A) (t : T) (f : Frame C A) (s' : Source T C A) : Prop where
  /-- a call for a callback ends -/
  status : ∀ c, s'.status c = s.status c ∨ s'.stack t = (s.stack t).tail ∧
    (s.status c = .registering t ∧ (s'.status c = .registered ∨ s'.status c = .refused) ∨
      s.status c = .deregistering t ∧ s'.status c = .gone)
  winner : s'.winner = s.winner ∨ f.loops = true ∧ s'.winner = some t
  loops : ∀ g ∈ s'.stack t, g.loops = true → f.loops = true ∧ s'.winner = s.winner
  executions : ∀ c, s'.executions c = s.executions c ∨ .running c ∈ s'.stack t
  done : s.word = .stopRequestedCallbackDone → s'.word = .stopRequestedCallbackDone
  stopCalls : s'.stopCalls = s.stopCalls

omit [DecidableEq A] in
/-- Only the stack changes, and what is left has no `request_stop()` that `f` was not. -/
theorem changed_of_same (h : s.Inv addr) (hst : s.stack t = f :: rest)
    (hstatus : s'.status = s.status) (hwinner : s'.winner = s.winner)
    (hexecutions : s'.executions = s.executions)
    (hdone : s.word = .stopRequestedCallbackDone → s'.word = .stopRequestedCallbackDone)
    (hstopCalls : s'.stopCalls = s.stopCalls)
    (hstack : s'.stack t = rest ∨ ∃ g, s'.stack t = g :: rest ∧ (g.loops = true → f.loops = true)) :
    s.Changed t f s' where
  status c := .inl (by rw [hstatus])
  winner := .inl hwinner
  loops g hg hloops := by
    have hrest : ∀ g ∈ rest, g.loops = false := by
      intro g hg
      have hsuspended := h.suspended hst hg
      cases g <;> first | rfl | cases hsuspended
    rcases hstack with heq | ⟨g', heq, hg'⟩
    · rw [heq] at hg
      rw [hrest g hg] at hloops
      cases hloops
    · rw [heq] at hg
      rcases List.mem_cons.mp hg with rfl | hg
      · exact ⟨hg' hloops, hwinner⟩
      · rw [hrest g hg] at hloops
        cases hloops
  executions c := .inl (by rw [hexecutions])
  done := hdone
  stopCalls := hstopCalls

omit [DecidableEq A] in
theorem changed_goto {g : Frame C A} (h : s.Inv addr) (hst : s.stack t = f :: rest)
    (hg : g.loops = true → f.loops = true) : s.Changed t f (s.goto t (g :: rest)) :=
  changed_of_same h hst rfl rfl rfl id rfl (.inr ⟨g, Function.update_self .., hg⟩)

omit [DecidableEq A] in
theorem changed_pop (h : s.Inv addr) (hst : s.stack t = f :: rest) :
    s.Changed t f (s.goto t rest) :=
  changed_of_same h hst rfl rfl rfl id rfl (.inl (Function.update_self ..))

theorem changed_finish {c : C} {status : Status T} (h : s.Inv addr) (hst : s.stack t = f :: rest)
    (hstatus : s.status c = .registering t ∧ (status = .registered ∨ status = .refused) ∨
      s.status c = .deregistering t ∧ status = .gone) :
    s.Changed t f (s.finish addr t c status rest) := by
  have hpop := changed_pop h hst
  refine ⟨fun c' => ?_, hpop.winner, hpop.loops, hpop.executions, hpop.done, hpop.stopCalls⟩
  by_cases hc : c' = c
  · subst hc
    simp only [finish, goto, hst, Function.update_self, List.tail_cons]
    exact .inr ⟨trivial, hstatus⟩
  · exact .inl (Function.update_of_ne hc _ _)

omit [DecidableEq A] in
theorem changed_execute {a : A} {next : Frame C A} (h : s.Inv addr) (hst : s.stack t = f :: rest)
    (hnext : next.loops = false) : s.Changed t f (s.execute t a next rest) := by
  unfold execute
  split
  · next c hc =>
    have hgoto := changed_goto (g := next) h hst (by simp [hnext])
    refine ⟨fun _ => .inl rfl, hgoto.winner, ?_, fun c' => ?_, hgoto.done, hgoto.stopCalls⟩
    · intro g hg hloops
      simp only [goto, Function.update_self] at hg
      rcases List.mem_cons.mp hg with rfl | hg
      · cases hloops
      · exact hgoto.loops g (by simpa [goto] using hg) hloops
    · by_cases hc' : c' = c
      · subst hc'
        exact .inr (by simp [goto])
      · exact .inl (Function.update_of_ne hc' _ _)
  · exact changed_of_same h hst rfl rfl rfl id rfl
      (.inr ⟨next, Function.update_self .., by simp [hnext]⟩)

omit [DecidableEq A] in
theorem changed_stopTest (h : s.Inv addr) (hst : s.stack t = f :: rest) (hf : f.loops = true) :
    s.Changed t f (s.stopTest t rest) := by
  unfold stopTest
  split_ifs
  · exact changed_pop h hst
  · exact changed_goto h hst fun _ => hf

omit [DecidableEq A] in
theorem changed_registerTest {c : C} (h : s.Inv addr) (hst : s.stack t = f :: rest) :
    s.Changed t f (s.registerTest t c rest) := by
  unfold registerTest
  split_ifs <;> exact changed_goto h hst (by simp [Frame.loops])

theorem changed_deregisterTest {c : C} (h : s.Inv addr) (hst : s.stack t = f :: rest)
    (hc : s.status c = .deregistering t) : s.Changed t f (s.deregisterTest addr t c rest) := by
  unfold deregisterTest
  split
  · exact changed_goto h hst (by simp [Frame.loops])
  · exact changed_finish h hst (.inr ⟨hc, rfl⟩)
  · exact changed_goto h hst (by simp [Frame.loops])

omit [DecidableEq A] in
theorem changed_stopTakesEffect {old : Word A} (h : s.Inv addr)
    (hst : s.stack t = .stopCas old :: rest) (hold : s.word ≠ .stopRequestedCallbackDone) :
    s.Changed t (.stopCas old) (s.stopTakesEffect t old rest) := by
  have hrest : ∀ g ∈ rest, g.loops = false := by
    intro g hg
    have hsuspended := h.suspended hst hg
    cases g <;> first | rfl | cases hsuspended
  have hloops : ∀ g ∈ (s.stopTakesEffect t old rest).stack t, g.loops = false := by
    intro g hg
    unfold stopTakesEffect at hg
    cases old with
    | callback a =>
      simp only [goto, Function.update_self] at hg
      rcases List.mem_cons.mp hg with rfl | hg
      · rfl
      · exact hrest g hg
    | _ =>
      simp only [goto, Function.update_self] at hg
      exact hrest g hg
  constructor
  · intro c
    exact .inl (by unfold stopTakesEffect; cases old <;> rfl)
  · exact .inr ⟨rfl, by unfold stopTakesEffect; cases old <;> rfl⟩
  · intro g hg hloop
    rw [hloops g hg] at hloop
    cases hloop
  · intro c
    exact .inl (by unfold stopTakesEffect; cases old <;> rfl)
  · exact fun hdone => absurd hdone hold
  · unfold stopTakesEffect
    cases old <;> rfl

theorem changed_frameStep {spurious : Bool} {woken : ℕ} (h : s.Inv addr)
    (hst : s.stack t = f :: rest) (ht : s.frameStep addr t spurious woken rest f = some s') :
    s.Changed t f s' := by
  have hok := h.frames t f (by simp [hst])
  cases f <;> simp only [frameStep] at ht
  case stopLoad =>
    cases ht
    exact changed_stopTest h hst rfl
  case stopCas old =>
    split_ifs at ht with hcas <;> cases ht
    · apply changed_stopTakesEffect h hst
      rw [hcas.1]
      rintro rfl
      cases hok
    · exact changed_stopTest h hst rfl
  case stopStoreId a =>
    cases ht
    exact changed_of_same h hst rfl rfl rfl id rfl
      (.inr ⟨_, Function.update_self .., by simp [Frame.loops]⟩)
  case stopStoreDone =>
    cases ht
    exact changed_of_same h hst rfl rfl rfl (fun _ => rfl) rfl
      (.inr ⟨_, Function.update_self .., by simp [Frame.loops]⟩)
  case stopExecute a | registerExecute c =>
    cases ht
    exact changed_execute h hst rfl
  case stopNotify =>
    split_ifs at ht
    cases ht
    exact changed_of_same h hst rfl rfl rfl id rfl (.inl (Function.update_self ..))
  case running c =>
    cases ht
    exact changed_pop h hst
  case registerReturn c =>
    cases ht
    exact changed_finish h hst (.inl ⟨hok.1, .inr rfl⟩)
  case registerLoad c =>
    cases ht
    exact changed_registerTest h hst
  case registerCas c old =>
    split_ifs at ht with hcas <;> cases ht
    · have hfinish : s.Changed t (.registerCas c old) (s.finish addr t c .registered rest) :=
        changed_finish h hst (.inl ⟨hok.1, .inl rfl⟩)
      refine ⟨hfinish.status, hfinish.winner, hfinish.loops, hfinish.executions, ?_,
        hfinish.stopCalls⟩
      intro hdone
      rw [hcas.1, hok.2.2.2] at hdone
      cases hdone
    · exact changed_registerTest h hst
  case deregisterCas c old =>
    split_ifs at ht with hcas <;> cases ht
    · have hfinish : s.Changed t (.deregisterCas c old) (s.finish addr t c .gone rest) :=
        changed_finish h hst (.inr ⟨hok.1, rfl⟩)
      refine ⟨hfinish.status, hfinish.winner, hfinish.loops, hfinish.executions, ?_,
        hfinish.stopCalls⟩
      intro hdone
      rw [hcas.1, hok.2] at hdone
      cases hdone
    · exact changed_deregisterTest h hst hok.1
  case deregisterLoadId c =>
    split_ifs at ht <;> cases ht
    · exact changed_finish h hst (.inr ⟨hok.1, rfl⟩)
    · exact changed_goto h hst (by simp [Frame.loops])
  case deregisterWait c old =>
    split_ifs at ht <;> cases ht
    · exact changed_of_same h hst rfl rfl rfl id rfl (.inr ⟨_, hst, id⟩)
    · exact changed_goto h hst (by simp [Frame.loops])
  case deregisterLoad c =>
    split_ifs at ht <;> cases ht
    · exact changed_finish h hst (.inr ⟨hok.1, rfl⟩)
    · exact changed_goto h hst (by simp [Frame.loops])

theorem holder_frameStep {spurious : Bool} {woken : ℕ}
    (ht : s.frameStep addr t spurious woken rest f = some s') :
    s'.holder = s.holder ∨ s'.holder = none := by
  have hfinish : ∀ (c : C) (status : Status T),
      (s.finish addr t c status rest).holder = s.holder ∨
        (s.finish addr t c status rest).holder = none := by
    intro c status
    simp only [finish]
    split_ifs
    · exact .inr rfl
    · exact .inl rfl
  cases f <;> simp only [frameStep] at ht
  case stopLoad =>
    cases ht
    unfold stopTest
    split_ifs <;> exact .inl rfl
  case stopCas old =>
    split_ifs at ht <;> cases ht
    · unfold stopTakesEffect
      cases old <;> exact .inl rfl
    · unfold stopTest
      split_ifs <;> exact .inl rfl
  case stopStoreId a | stopStoreDone | running c =>
    cases ht
    exact .inl rfl
  case stopExecute a | registerExecute c =>
    cases ht
    unfold execute
    split <;> exact .inl rfl
  case stopNotify =>
    split_ifs at ht
    cases ht
    exact .inl rfl
  case registerReturn c =>
    cases ht
    exact hfinish c .refused
  case registerLoad c =>
    cases ht
    unfold registerTest
    split_ifs <;> exact .inl rfl
  case registerCas c old =>
    split_ifs at ht <;> cases ht
    · exact .inl rfl
    · unfold registerTest
      split_ifs <;> exact .inl rfl
  case deregisterCas c old =>
    split_ifs at ht <;> cases ht
    · exact hfinish c .gone
    · unfold deregisterTest
      split
      · exact .inl rfl
      · exact hfinish c .gone
      · exact .inl rfl
  case deregisterLoadId c =>
    split_ifs at ht <;> cases ht
    · exact hfinish c .gone
    · exact .inl rfl
  case deregisterWait c old =>
    split_ifs at ht <;> cases ht <;> exact .inl rfl
  case deregisterLoad c =>
    split_ifs at ht <;> cases ht
    · exact hfinish c .gone
    · exact .inl rfl

omit [DecidableEq A] in
/-- A thread without a `request_stop()` of its own is the stopping thread only once the callback has
been executed. -/
theorem done_of_stoppingThread {c : C} (h : s.Inv addr) (hst : s.stack t = [f])
    (hf : f.wins = false) (hheld : (s.status c).held = true) (hstop : s.word.stopped = true)
    (hthread : s.stoppingThread = some t) : s.word = .stopRequestedCallbackDone := by
  have htaken := h.taken_of_held hheld hstop
  obtain ⟨w, hwin⟩ := Option.ne_none_iff_exists'.mp (h.stopped_iff.mp hstop)
  have hcount := h.wins w
  rw [if_pos hwin, if_pos hwin] at hcount
  by_cases htrue : s.stopTrue = 1
  · exact (h.returned htrue (by simp [htaken])).2
  · obtain ⟨g, hg, hwins⟩ := List.countP_pos_iff.mp
      (by omega : 0 < (s.stack w).countP Frame.wins)
    have hok := h.frames w g hg
    have hother : w ≠ t := by
      rintro rfl
      rw [hst, List.mem_singleton] at hg
      rw [hg, hf] at hwins
      cases hwins
    -- the winner has stored its own id, or has not stored one
    exfalso
    cases g with
    | stopStoreId a =>
      rw [hok.2.2.1] at hthread
      cases hthread
    | stopExecute a | stopStoreDone =>
      rw [hok.2.2.1] at hthread
      exact hother (Option.some.inj hthread)
    | stopNotify =>
      rw [hok.2.2] at hthread
      exact hother (Option.some.inj hthread)
    | _ => cases hwins

/-- A thread that has nothing else to do on a source whose stop was requested returns from
`deregister_callback()` only when the callback has been executed. -/
theorem done_of_gone {spurious : Bool} {woken : ℕ} {c : C} (h : s.Inv addr)
    (hst : s.stack t = [f]) (hstop : s.word.stopped = true) (hold : s.status c ≠ .gone)
    (ht : s.frameStep addr t spurious woken [] f = some s') (hnew : s'.status c = .gone) :
    s'.word = .stopRequestedCallbackDone := by
  have hderegistering : s.status c = .deregistering t := by
    rcases (changed_frameStep h hst ht).status c with heq | ⟨-, ⟨-, heq | heq⟩ | ⟨heq, -⟩⟩
    · exact absurd (heq ▸ hnew) hold
    · rw [heq] at hnew
      cases hnew
    · rw [heq] at hnew
      cases hnew
    · exact heq
  have hheld : (s.status c).held = true := by rw [hderegistering]; rfl
  have hok := h.frames t f (by simp [hst])
  have hcall : f.isCall c = true := by
    have hcount := h.calls t c
    rw [hst, hderegistering, List.countP_singleton] at hcount
    simpa [Status.calledBy] using hcount
  cases f <;> simp only [Frame.isCall, Bool.false_eq_true, decide_eq_true_eq] at hcall <;>
    subst hcall <;> simp only [frameStep] at ht
  case registerLoad | registerCas | registerExecute | registerReturn =>
    have hstatus := hok.1
    rw [hderegistering] at hstatus
    cases hstatus
  case deregisterCas old =>
    have hcas : s.word ≠ old := by
      rintro rfl
      rw [hok.2] at hstop
      cases hstop
    rw [if_neg fun hcas' => hcas hcas'.1] at ht
    cases ht
    unfold deregisterTest at hnew ⊢
    split at hnew
    · exact absurd hnew hold
    · next hdone => exact hdone
    · exact absurd hnew hold
  case deregisterLoadId =>
    have hdone := fun hthread => done_of_stoppingThread h hst rfl hheld hstop hthread
    split_ifs at ht with hthread <;> cases ht
    · exact hdone hthread
    · exact absurd hnew hold
  case deregisterWait old =>
    split_ifs at ht <;> cases ht
    · exact absurd hnew hold
    · exact absurd hnew hold
  case deregisterLoad =>
    split_ifs at ht with hdone <;> cases ht
    · exact hdone
    · exact absurd hnew hold

end Squiz.SingleInplaceStopSource.Source
