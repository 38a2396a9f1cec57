import Squiz.LinuxOS.IoUringOperation.QueuesProtocol

/-! No operation is forgotten: where the context can do nothing more, an operation that was started
has completed, or it waits for an SQE or for the kernel. -/
namespace Squiz.LinuxOS.IoUringOperation
open Squiz.Lib Squiz.Lib.Word

/-- The I/O thread is in a function that carries a stop request out. -/
def IoPc.stopping : IoPc → Bool
  | .stopLoad | .stopItemLoad | .requestStop | .tryCancel | .acquire | .removeLocal
  | .removeWaiting | .setStopped | .cancel | .deliver _ => true
  | _ => false

namespace Op
variable {s t : Op}

/-- Where a stop request is that was made, or what has become of it. -/
def StopKept (s : Op) : Prop :=
  s.word ≠ 0 ∨ s.remote = .stopLoad ∨ s.remote = .stopAdd ∨ s.io.stopping = true ∨
    s.inCancel = true ∨ 1 ≤ s.cancels ∨ s.completions ≠ []

theorem StopKept.congr (h : s.StopKept) (hword : s.word ≠ 0 → t.word ≠ 0)
    (hremote : t.remote = s.remote) (hio : s.io.stopping = false)
    (hcancel : t.inCancel = s.inCancel) (hcancels : t.cancels = s.cancels)
    (hcompletions : t.completions = s.completions) : t.StopKept := by
  unfold StopKept
  rw [hremote, hcancel, hcancels, hcompletions]
  rcases h with h | h | h | h | h
  · exact .inl (hword h)
  · exact .inr (.inl h)
  · exact .inr (.inr (.inl h))
  · rw [hio] at h
    cases h
  · exact .inr (.inr (.inr (.inr h)))

theorem Inv.word_lt (h : s.Inv) (hio : ∃ cqe, s.io = .completedAdd cqe) : s.word ≤ 2 := by
  obtain ⟨cqe, hio⟩ := hio
  have hok := h.io
  rw [hio] at hok
  rcases hok.2.2.2.2 with hnone | ⟨hword, -⟩
  · rw [hnone.1]
    omega
  · omega

theorem StopKept.ioStep {space : Bool} (h : s.StopKept) (hinv : s.Inv)
    (ht : s.ioStep space = some t) : t.StopKept := by
  cases hio : s.io with
  | idle => simp [Op.ioStep, hio] at ht
  | startLoad | availableLoad | completedLoad cqe | submit =>
    simp only [Op.ioStep, hio, Option.some.injEq] at ht
    subst ht
    exact h.congr id rfl (by rw [hio]; rfl) rfl rfl rfl
  | trySubmit =>
    simp only [Op.ioStep, hio, Option.some.injEq] at ht
    subst ht
    unfold trySubmitSqe
    split_ifs <;> exact h.congr id rfl (by rw [hio]; rfl) rfl rfl rfl
  | completedAdd cqe =>
    have hle := hinv.word_lt ⟨cqe, hio⟩
    have hword : fetchAdd stateBits s.word completedFlag ≠ 0 := by
      rw [fetchAdd_eq_mod, stateBits, completedFlag]
      omega
    simp only [Op.ioStep, hio] at ht
    split at ht <;> cases ht <;> exact .inl hword
  | completedStore cqe old =>
    simp only [Op.ioStep, hio, Option.some.injEq] at ht
    subst ht
    have hok := hinv.io
    rw [hio] at hok
    left
    show old ||| completedFlag ≠ 0
    rw [hok.2.2.2.2]
    decide
  | deliver cqe | setStopped =>
    simp only [Op.ioStep, hio, Option.some.injEq] at ht
    subst ht
    exact .inr (.inr (.inr (.inr (.inr (.inr (by simp [complete]))))))
  | stopLoad =>
    simp only [Op.ioStep, hio, Option.some.injEq] at ht
    subst ht
    by_cases hflag : hasFlag s.word completedFlag = true
    · left
      rintro hzero
      rw [show s.word = 0 from hzero] at hflag
      cases hflag
    · exact .inr (.inr (.inr (.inl (by simp [hflag, IoPc.stopping]))))
  | stopItemLoad =>
    simp only [Op.ioStep, hio, Option.some.injEq] at ht
    subst ht
    exact .inr (.inr (.inr (.inl (by dsimp only; split_ifs <;> rfl))))
  | requestStop =>
    simp only [Op.ioStep, hio, Option.some.injEq] at ht
    subst ht
    unfold requestStopFromIoThread
    exact .inr (.inr (.inr (.inl (by split_ifs <;> rfl))))
  | tryCancel =>
    simp only [Op.ioStep, hio] at ht
    split at ht <;> cases ht
    · exact .inr (.inr (.inr (.inr (.inr (.inl (Nat.le_add_left 1 _))))))
    · exact .inr (.inr (.inr (.inr (.inl rfl))))
  | acquire | removeLocal | removeWaiting =>
    simp only [Op.ioStep, hio, Option.some.injEq] at ht
    subst ht
    exact .inr (.inr (.inr (.inl rfl)))
  | cancel =>
    simp only [Op.ioStep, hio, Option.some.injEq] at ht
    subst ht
    exact .inr (.inr (.inr (.inr (.inr (.inl (Nat.le_add_left 1 _))))))

theorem StopKept.remoteStep (h : s.StopKept) (hinv : s.Inv) (ht : s.remoteStep = some t) :
    t.StopKept := by
  unfold StopKept at h ⊢
  cases hremote : s.remote with
  | idle => simp [Op.remoteStep, hremote] at ht
  | startStoreExecute | startStoreEnqueued | startEnqueue | stopStore | stopEnqueue =>
    simp only [Op.remoteStep, hremote, Option.some.injEq] at ht
    subst ht
    simpa [hremote] using h
  | stopLoad =>
    simp only [Op.remoteStep, hremote, Option.some.injEq] at ht
    subst ht
    by_cases hflag : hasFlag s.word completedFlag = true
    · left
      intro hzero
      rw [show s.word = 0 from hzero] at hflag
      cases hflag
    · exact .inr (.inr (.inl (if_neg hflag)))
  | stopAdd =>
    simp only [Op.remoteStep, hremote, Option.some.injEq] at ht
    subst ht
    left
    have hle : s.word ≤ 2 := by
      rcases hinv.io.stage (by simp [hremote]) with ⟨-, -, hstart⟩ | ⟨-, hstage⟩
      · simp [RemoteStart, hremote] at hstart
      · rcases hstage with ⟨-, -, hnone | ⟨hword, -⟩⟩ | ⟨-, -, -, hposting⟩ |
          ⟨-, -, -, ⟨-, hword, -⟩ | ⟨-, hidle⟩⟩
        · rw [hnone.1]
          omega
        · omega
        · simp [hremote] at hposting
        · omega
        · rw [hremote] at hidle
          cases hidle
    show fetchAdd stateBits s.word stopRequestEnqueuedFlag ≠ 0
    rw [fetchAdd_eq_mod, stateBits, stopRequestEnqueuedFlag]
    omega

theorem stopCalled_ioStep {space : Bool} (ht : s.ioStep space = some t) :
    t.stopCalled = s.stopCalled := by
  cases hio : s.io with
  | idle => simp [Op.ioStep, hio] at ht
  | trySubmit =>
    simp only [Op.ioStep, hio, trySubmitSqe, Option.some.injEq] at ht
    subst ht
    split_ifs <;> rfl
  | completedAdd cqe | tryCancel =>
    simp only [Op.ioStep, hio] at ht
    split at ht <;> cases ht <;> rfl
  | requestStop =>
    simp only [Op.ioStep, hio, requestStopFromIoThread, Option.some.injEq] at ht
    subst ht
    split_ifs <;> rfl
  | _ =>
    simp only [Op.ioStep, hio, Option.some.injEq] at ht
    subst ht
    rfl

/-- A stop request that was made is kept until it was carried out. -/
def KeepsStop (s : Op) : Prop := s.stopCalled = true → s.StopKept

/-- A step from the loop or from `start()`. -/
theorem KeepsStop.congr (h : s.KeepsStop) (hio : s.io = .idle)
    (hcalled : t.stopCalled = s.stopCalled) (hword : t.word = s.word)
    (hremote : t.remote = s.remote) (hcancel : t.inCancel = s.inCancel)
    (hcancels : t.cancels = s.cancels) (hcompletions : t.completions = s.completions) :
    t.KeepsStop := by
  intro hstop
  apply (h (hcalled ▸ hstop)).congr _ hremote (by rw [hio]; rfl) hcancel hcancels hcompletions
  rw [hword]
  exact id

theorem KeepsStop.step {act : Act} (h : s.KeepsStop) (hinv : s.Inv) (ht : s.step act = some t) :
    t.KeepsStop := by
  cases act with
  | io space =>
    intro hcalled
    exact (h (stopCalled_ioStep ht ▸ hcalled)).ioStep hinv ht
  | remote =>
    intro hcalled
    have hsame : t.stopCalled = s.stopCalled := by
      simp only [Op.step] at ht
      unfold Op.remoteStep at ht
      split at ht <;> cases ht <;> rfl
    exact (h (hsame ▸ hcalled)).remoteStep hinv ht
  | stopLocal =>
    simp only [Op.step] at ht
    split at ht <;> cases ht
    exact fun _ => .inr (.inr (.inr (.inl rfl)))
  | stopRemote =>
    simp only [Op.step] at ht
    split at ht <;> cases ht
    exact fun _ => .inr (.inl rfl)
  | startLocal =>
    simp only [Op.step] at ht
    split at ht
    · next hen =>
      cases ht
      exact h.congr hen.2 rfl rfl rfl rfl rfl rfl
    · cases ht
  | startRemote =>
    simp only [Op.step] at ht
    split at ht
    · next hen =>
      cases ht
      intro hcalled
      have hkept := h hcalled
      unfold StopKept at hkept ⊢
      simpa [hen.2] using hkept
    · cases ht
  | acquire =>
    simp only [Op.step] at ht
    split at ht <;> cases ht
    exact h
  | runReady =>
    simp only [Op.step] at ht
    split at ht
    · next hen =>
      cases ht
      unfold execute
      split <;> exact h.congr hen.1 rfl rfl rfl rfl rfl rfl
    · cases ht
  | runWaiting =>
    simp only [Op.step] at ht
    split at ht
    · next hen =>
      cases ht
      unfold submitSqes
      split <;> exact h.congr hen.1 rfl rfl rfl rfl rfl rfl
    · cases ht
  | runCancel =>
    simp only [Op.step] at ht
    split at ht
    · next hen =>
      cases ht
      have hcallback := (hinv.idleOk hen.1).of_inCancel hen.2
      unfold submitCancelSqes
      rcases hcallback.2.2.2 with ⟨-, heq⟩ | ⟨-, heq⟩
      · simp only [heq]
        exact fun _ => .inr (.inr (.inr (.inl rfl)))
      · simp only [heq]
        exact fun _ => .inr (.inr (.inr (.inl rfl)))
    · cases ht
  | runStop =>
    simp only [Op.step] at ht
    split at ht
    · next hen =>
      cases ht
      unfold executeStop
      split <;> exact h.congr hen.1 rfl rfl rfl rfl rfl rfl
    · cases ht
  | cqe cqe =>
    simp only [Op.step] at ht
    split at ht
    · next hen =>
      cases ht
      unfold handleCompletion
      split <;> exact h.congr hen.1 rfl rfl rfl rfl rfl rfl
    · cases ht

theorem keepsStop (hs : system.Reachable s) : s.KeepsStop :=
  (hs.invariant (P := fun s => s.Inv ∧ s.KeepsStop) ⟨inv_init, fun h => by cases h⟩
    fun _ _ _ h _ ht => ⟨h.1.step ht, h.2.step h.1 ht⟩).2

/-- A cancel SQE was enqueued for an operation that no longer races with its stop request. -/
def CancelSubmitted (s : Op) : Prop :=
  s.callback = some .whenOpCompletedNoRacesWithStop → 1 ≤ s.cancels

theorem CancelSubmitted.ioStep {space : Bool} (h : s.CancelSubmitted)
    (ht : s.ioStep space = some t) : t.CancelSubmitted := by
  cases hio : s.io with
  | idle => simp [Op.ioStep, hio] at ht
  | trySubmit =>
    simp only [Op.ioStep, hio, trySubmitSqe, Option.some.injEq] at ht
    subst ht
    split_ifs <;> exact fun hcallback => by cases hcallback
  | submit =>
    simp only [Op.ioStep, hio, Option.some.injEq] at ht
    subst ht
    exact fun hcallback => by cases hcallback
  | completedAdd cqe =>
    simp only [Op.ioStep, hio] at ht
    split at ht <;> cases ht <;> exact h
  | requestStop =>
    simp only [Op.ioStep, hio, requestStopFromIoThread, Option.some.injEq] at ht
    subst ht
    split_ifs <;> exact h
  | tryCancel =>
    simp only [Op.ioStep, hio] at ht
    split at ht <;> cases ht
    · exact fun _ => Nat.le_add_left 1 _
    · exact fun hcallback => by cases hcallback
  | cancel =>
    simp only [Op.ioStep, hio, Option.some.injEq] at ht
    subst ht
    exact fun _ => Nat.le_add_left 1 _
  | _ =>
    simp only [Op.ioStep, hio, Option.some.injEq] at ht
    subst ht
    exact h

theorem CancelSubmitted.step {act : Act} (h : s.CancelSubmitted) (ht : s.step act = some t) :
    t.CancelSubmitted := by
  cases act with
  | io space => exact h.ioStep ht
  | remote =>
    simp only [Op.step] at ht
    unfold Op.remoteStep at ht
    split at ht <;> cases ht <;> first | exact h | exact fun hcallback => by cases hcallback
  | runReady =>
    simp only [Op.step] at ht
    split at ht <;> cases ht
    unfold execute
    split <;> exact h
  | runWaiting =>
    simp only [Op.step] at ht
    split at ht <;> cases ht
    unfold submitSqes
    split <;> exact h
  | runCancel =>
    simp only [Op.step] at ht
    split at ht <;> cases ht
    unfold submitCancelSqes
    split <;> exact h
  | runStop =>
    simp only [Op.step] at ht
    split at ht <;> cases ht
    unfold executeStop
    split <;> exact h
  | cqe cqe =>
    simp only [Op.step] at ht
    split at ht <;> cases ht
    unfold handleCompletion
    split <;> exact h
  | _ =>
    simp only [Op.step] at ht
    split at ht <;> cases ht
    exact h

theorem cancelSubmitted_of_reachable (hs : system.Reachable s) : s.CancelSubmitted :=
  hs.invariant (P := CancelSubmitted) (fun h => by cases h) fun _ _ _ h _ ht => h.step ht

/-- No thread is in a function of the operation, and no loop of the I/O thread will find it. -/
structure Quiet (s : Op) : Prop where
  io : s.io = .idle
  remote : s.remote = .idle
  inRemote : s.inRemote = false
  inReady : s.inReady = false
  inStop : s.inStop = false

theorem Quiet.not_posting (h : s.Quiet) : ¬s.Posting := by
  rintro ⟨-, -, ⟨hremote, -⟩ | ⟨hremote, -⟩ | ⟨-, hstop, -⟩⟩
  · rw [h.remote] at hremote
    cases hremote
  · rw [h.remote] at hremote
    cases hremote
  · rw [h.inStop] at hstop
    cases hstop

theorem Quiet.noStop (h : s.Quiet) (hopen : s.Open) : s.NoStop :=
  hopen.2.2.resolve_right fun hposting => h.not_posting hposting.2

/-- An operation that was started has completed, or it waits for an SQE or for its CQE. -/
theorem Quiet.settled (h : s.Quiet) (hinv : s.Inv) (hstart : s.startCalled = true) :
    s.completions ≠ [] ∨ s.inWaiting = true ∨ s.inCancel = true ∨ s.outstanding = true := by
  rcases hinv.idleOk h.io with ⟨-, hremote⟩ | ⟨-, hplace⟩
  · rcases hremote with ⟨hnot, -⟩ | ⟨-, ⟨hremote, -⟩ | ⟨hremote, -⟩ | ⟨hremote, -⟩⟩
    · rw [hstart] at hnot
      cases hnot
    all_goals
      rw [h.remote] at hremote
      cases hremote
  rcases hplace with ⟨hqueued | hwaiting | hflight, -⟩ | ⟨-, hopen, hword⟩ |
    ⟨-, -, -, -, hposting⟩ | ⟨hflight, -⟩ | ⟨-, -, -, hcancel, -⟩ | ⟨-, -, -, hcancel, -⟩ | hdone
  · rcases hqueued.1 with ⟨hremote, -⟩ | ⟨-, hready⟩
    · rw [h.inRemote] at hremote
      cases hremote
    · rw [h.inReady] at hready
      cases hready
  · exact .inr (.inl hwaiting.2.2.1)
  · exact .inr (.inr (.inr hflight.2.2.2.2.1))
  · have hzero := (h.noStop hopen).1
    omega
  · exact absurd hposting h.not_posting
  · exact .inr (.inr (.inr hflight.2.2.2.2.1))
  · exact .inr (.inr (.inl hcancel))
  · exact .inr (.inr (.inl hcancel))
  · rcases hdone.2 with ⟨-, hcompletions⟩ | ⟨_, -, hcompletions⟩
    · exact .inl (by simp [hcompletions])
    · exact .inl (by simp [hcompletions])

/-- The kernel was asked to cancel an operation that was stopped, or will be when there is an
SQE. -/
theorem Quiet.stop_settled (h : s.Quiet) (hs : system.Reachable s) (hinv : s.Inv)
    (hstop : s.stopCalled = true) :
    s.completions ≠ [] ∨ s.inCancel = true ∨ 1 ≤ s.cancels := by
  have hkept := keepsStop hs hstop
  unfold StopKept at hkept
  simp only [h.remote, h.io, reduceCtorEq, IoPc.stopping, Bool.false_eq_true, false_or] at hkept
  rcases hkept with hword | hcancel | hcancels | hcompletions
  · rcases hinv.idleOk h.io with ⟨hunstarted, -⟩ | ⟨-, hplace⟩
    · exact absurd hunstarted.2.2.1 hword
    rcases hplace with ⟨-, hopen⟩ | ⟨-, hopen, -⟩ | ⟨-, -, -, -, hposting⟩ | ⟨hflight, -⟩ |
      ⟨-, -, -, hcancel, -⟩ | ⟨-, -, -, hcancel, -⟩ | hdone
    · exact absurd (h.noStop hopen).1 hword
    · exact absurd (h.noStop hopen).1 hword
    · exact absurd hposting h.not_posting
    · exact .inr (.inr (cancelSubmitted_of_reachable hs hflight.2.2.2.2.2.2))
    · exact .inr (.inl hcancel)
    · exact .inr (.inl hcancel)
    · rcases hdone.2 with ⟨-, hcompletions⟩ | ⟨_, -, hcompletions⟩
      · exact .inl (by simp [hcompletions])
      · exact .inl (by simp [hcompletions])
  · exact .inr (.inl hcancel)
  · exact .inr (.inr hcancels)
  · exact .inl hcompletions

end Op

variable {A : Type} [DecidableEq A] {a : A}

namespace Context
variable {c c' : Context A} {object : Object}

/-- The I/O thread is in a function of the operation that it is said to be in. -/
def Engaged (c : Context A) : Prop :=
  ∀ a, c.busy = some a → ∃ object, c.objects a = some object ∧ object.op.io ≠ .idle

omit [DecidableEq A] in
theorem Engaged.of_busy (h : c.Engaged) (hbusy : c'.busy = c.busy)
    (hobjects : ∀ a object, c.objects a = some object → object.op.io ≠ .idle →
      ∃ object', c'.objects a = some object' ∧ object'.op.io ≠ .idle) : c'.Engaged := by
  intro a ha
  rw [hbusy] at ha
  obtain ⟨object, ho, hio⟩ := h a ha
  exact hobjects a object ho hio

omit [DecidableEq A] in
theorem engaged_after {op : Op} (hbusy : c'.busy = busyAfter a op)
    (hobject : c'.objects a = some { object with op := op }) : c'.Engaged := by
  intro b hb
  rw [hbusy, busyAfter] at hb
  split_ifs at hb with hio
  cases hb
  exact ⟨_, hobject, hio⟩

omit [DecidableEq A] in
theorem Engaged.acquireRemoteItems (h : c.Engaged) : c.acquireRemoteItems.Engaged := by
  refine h.of_busy rfl ?_
  intro a object ho hio
  refine ⟨{ object with op := object.op.acquireRemoteItems }, ?_, hio⟩
  simp only [Context.acquireRemoteItems, ho, Option.map_some]

theorem Engaged.step {act : ContextAct A} (h : c.Engaged) (ht : c.step act = some c') :
    c'.Engaged := by
  cases act with
  | create a =>
    simp only [Context.step] at ht
    split_ifs at ht with hnone
    cases ht
    refine h.of_busy rfl ?_
    intro b object hb hio
    have hba : b ≠ a := by
      rintro rfl
      rw [hnone] at hb
      cases hb
    exact ⟨object, (Function.update_of_ne hba ..).trans hb, hio⟩
  | destroy a =>
    obtain ⟨object, ho, ht⟩ := Option.bind_eq_some_iff.mp ht
    split_ifs at ht with hen
    cases ht
    refine h.of_busy rfl ?_
    intro b object' hb hio
    have hba : b ≠ a := by
      rintro rfl
      rw [ho] at hb
      cases hb
      exact hio hen.2.1
    exact ⟨object', (Function.update_of_ne hba ..).trans hb, hio⟩
  | op a act =>
    obtain ⟨object, ho, ht⟩ := Option.bind_eq_some_iff.mp ht
    split at ht
    · cases ht
    · split_ifs at ht
      obtain ⟨op, hop, rfl⟩ := Option.map_eq_some_iff.mp ht
      by_cases hremote : act.isRemote = true
      · refine h.of_busy (if_pos hremote) ?_
        intro b object' hb hio
        by_cases hba : b = a
        · subst hba
          rw [ho] at hb
          cases hb
          refine ⟨{ object with op := op }, Function.update_self .., ?_⟩
          rw [Op.remote_io hremote hop]
          exact hio
        · exact ⟨object', (Function.update_of_ne hba ..).trans hb, hio⟩
      · exact engaged_after (if_neg hremote) (Function.update_self ..)
  | submitWakeUp =>
    cases ht
    exact h
  | receive =>
    simp only [Context.step] at ht
    split at ht <;> cases ht
    exact h
  | complete i cqe =>
    obtain ⟨entry, -, rfl⟩ := Option.map_eq_some_iff.mp ht
    exact h
  | process =>
    simp only [Context.step] at ht
    split_ifs at ht with hbusy
    have hnone : ∀ d : Context A, d.busy = none → d.Engaged := by
      intro d hd b hb
      rw [hd] at hb
      cases hb
    split at ht
    · cases ht
    · cases ht
      unfold dispatch
      split
      · exact hnone _ hbusy
      · split
        · exact hnone _ hbusy
        · exact engaged_after rfl (Function.update_self ..)
    · cases ht
      exact hnone _ hbusy

end Context

namespace Queues
variable {q q' : Queues A} {object : Object}

/-- The objects, the rings and the kernel take the steps of a context, and remote items are
acquired. -/
theorem context_of_step {act : QueuesAct A} (ht : q.step act = some q') :
    ∃ c, (c = q.context ∨ ∃ act, q.context.step act = some c) ∧
      (q'.context = c ∨ q'.context = c.acquireRemoteItems) := by
  have hcontext : ∀ act, q.contextStep act = some q' →
      ∃ c, (c = q.context ∨ ∃ act, q.context.step act = some c) ∧
        (q'.context = c ∨ q'.context = c.acquireRemoteItems) := by
    intro act ht
    obtain ⟨c, hc, rfl⟩ := Option.map_eq_some_iff.mp ht
    exact ⟨c, .inr ⟨act, hc⟩, .inl rfl⟩
  have hcall : ∀ (a : A) (act : Act) (r : Queues A), r.context = q.context →
      some (r.call a act) = some q' →
      ∃ c, (c = q.context ∨ ∃ act, q.context.step act = some c) ∧
        (q'.context = c ∨ q'.context = c.acquireRemoteItems) := by
    intro a act r hr ht
    cases ht
    unfold call
    split
    · next c hc => exact ⟨c, .inr ⟨_, hr ▸ hc⟩, .inl rfl⟩
    · exact ⟨q.context, .inl rfl, .inl hr⟩
  cases act with
  | create a | destroy a | submitWakeUp | receive | complete i cqe | process =>
    exact hcontext _ ht
  | op a act =>
    simp only [Queues.step] at ht
    split_ifs at ht
    obtain ⟨object, ho, ht⟩ := Option.bind_eq_some_iff.mp ht
    obtain ⟨c, hc, rfl⟩ := Option.map_eq_some_iff.mp ht
    refine ⟨c, .inr ⟨_, hc⟩, ?_⟩
    unfold link
    cases act with
    | io space =>
      dsimp only
      split
      · split_ifs <;> exact .inl rfl
      · split_ifs <;> exact .inl rfl
      · exact .inr rfl
      all_goals exact .inl rfl
    | remote =>
      dsimp only
      split <;> exact .inl rfl
    | _ => exact .inl rfl
  | acquireRemoteItems =>
    simp only [Queues.step] at ht
    split_ifs at ht
    cases ht
    exact ⟨q.context, .inl rfl, .inr rfl⟩
  | dequeueStopItems =>
    simp only [Queues.step] at ht
    split_ifs at ht
    cases ht
    exact ⟨q.context, .inl rfl, .inl rfl⟩
  | runReady | runStop | runCancel | runWaiting =>
    simp only [Queues.step] at ht
    split at ht
    · cases ht
    · split_ifs at ht
      refine hcall _ _ _ ?_ ht
      rfl

theorem engaged_of_reachable (hq : (system A).Reachable q) : q.context.Engaged := by
  apply hq.invariant (P := fun q => q.context.Engaged)
  · intro a ha
    cases ha
  · intro q act q' h _ ht
    obtain ⟨c, hc, hcontext⟩ := context_of_step ht
    have hengaged : c.Engaged := by
      rcases hc with rfl | ⟨act, hc⟩
      · exact h
      · exact h.step hc
    rcases hcontext with hcontext | hcontext
    · exact hcontext ▸ hengaged
    · exact hcontext ▸ hengaged.acquireRemoteItems

/-- The context can do nothing by itself. -/
def Stuck (q : Queues A) : Prop := ∀ act, QueuesAct.internal act = true → q.step act = none

theorem exists_step_op {act : Act} {op : Op} (hact : act.fromQueue = false)
    (ho : q.context.objects a = some object) (hop : object.op.step act = some op)
    (hen : act.isRemote = true ∨ q.context.busy = some a) : q.step (.op a act) ≠ none := by
  have hc : ∃ c, q.context.step (.op a act) = some c := by
    simp only [Context.step, ho, Option.bind_some]
    cases act with
    | cqe cqe => cases hact
    | _ =>
      dsimp only
      rw [if_pos (hen.imp_right .inr), Context.opStep, hop]
      exact ⟨_, rfl⟩
  obtain ⟨c, hc⟩ := hc
  simp [Queues.step, hact, ho, opStep, hc]

namespace Stuck

theorem io_idle (hstuck : q.Stuck) (h : q.Inv) (ho : q.context.objects a = some object) :
    object.op.io = .idle := by
  by_contra hne
  obtain ⟨op, hop⟩ : ∃ op, object.op.step (.io true) = some op := by
    show ∃ op, object.op.ioStep true = some op
    cases hio : object.op.io with
    | idle => exact absurd hio hne
    | completedAdd cqe =>
      simp only [Op.ioStep, hio]
      split <;> exact ⟨_, rfl⟩
    | _ => exact ⟨_, by simp only [Op.ioStep, hio]; rfl⟩
  exact exists_step_op rfl ho hop (.inr (h.context.busy a object ho hne))
    (hstuck (.op a (.io true)) rfl)

theorem remote_idle (hstuck : q.Stuck) (ho : q.context.objects a = some object) :
    object.op.remote = .idle := by
  by_contra hne
  obtain ⟨op, hop⟩ : ∃ op, object.op.step .remote = some op := by
    show ∃ op, object.op.remoteStep = some op
    cases hremote : object.op.remote with
    | idle => exact absurd hremote hne
    | _ => exact ⟨_, by simp only [Op.remoteStep, hremote]; rfl⟩
  exact exists_step_op rfl ho hop (.inl rfl) (hstuck (.op a .remote) rfl)

theorem not_busy (hstuck : q.Stuck) (h : q.Inv) (hengaged : q.context.Engaged) :
    q.context.busy = none := by
  by_contra hne
  obtain ⟨b, hb⟩ := Option.ne_none_iff_exists'.mp hne
  obtain ⟨object', ho', hio⟩ := hengaged b hb
  exact hio (hstuck.io_idle h ho')

/-- The queues that the loop looks at are empty. -/
theorem queues_empty (hstuck : q.Stuck) (hbusy : q.context.busy = none) :
    q.remote = [] ∧ q.ready = [] ∧ q.stopItems = [] ∧ q.remoteStop = [] := by
  have hstop : q.stopItems = [] := by
    cases hitems : q.stopItems with
    | nil => rfl
    | cons a l =>
      have hstep := hstuck .runStop rfl
      simp [Queues.step, hitems, hbusy] at hstep
  refine ⟨?_, ?_, hstop, ?_⟩
  · by_contra hne
    have hstep := hstuck .acquireRemoteItems rfl
    simp [Queues.step, hbusy, hne] at hstep
  · cases hready : q.ready with
    | nil => rfl
    | cons a l =>
      have hstep := hstuck .runReady rfl
      simp [Queues.step, hready, hbusy] at hstep
  · by_contra hne
    have hstep := hstuck .dequeueStopItems rfl
    simp [Queues.step, hbusy, hstop, hne] at hstep

/-- All SQEs were received by the kernel, and all CQEs were processed. -/
theorem rings_empty (hstuck : q.Stuck) (hbusy : q.context.busy = none) :
    q.context.sq = [] ∧ q.context.cq = [] := by
  constructor
  · cases hsq : q.context.sq with
    | nil => rfl
    | cons entry sq =>
      have hstep := hstuck .receive rfl
      simp [Queues.step, contextStep, Context.step, hsq] at hstep
  · cases hcq : q.context.cq with
    | nil => rfl
    | cons entry cq =>
      have hstep := hstuck .process rfl
      obtain ⟨entry, cqe⟩ := entry
      cases entry <;> simp [Queues.step, contextStep, Context.step, hcq, hbusy] at hstep

theorem quiet (hstuck : q.Stuck) (h : q.Inv) (hengaged : q.context.Engaged)
    (ho : q.context.objects a = some object) : object.op.Quiet := by
  obtain ⟨hremote, hready, hitems, hstop⟩ := hstuck.queues_empty (hstuck.not_busy h hengaged)
  have hflag : ∀ {flag : Object → Bool} {l : List A},
      Enumerates q.context.objects flag l → l = [] → flag object = false := by
    intro flag l henumerates hnil
    by_contra hflag
    have hmem := (henumerates.mem_iff ho).mpr (Bool.of_not_eq_false hflag)
    rw [hnil] at hmem
    cases hmem
  constructor
  · exact hstuck.io_idle h ho
  · exact hstuck.remote_idle ho
  · exact hflag h.listed.remote hremote
  · exact hflag h.listed.ready hready
  · exact hflag h.listed.stop (by rw [hitems, hstop]; rfl)

end Stuck

/-- What has become of an operation when the context can do nothing more. -/
structure Settled (q : Queues A) (a : A) (object : Object) : Prop where
  started : object.op.startCalled = true → object.op.completions ≠ [] ∨ a ∈ q.waiting ∨
    a ∈ q.waitingForCancel ∨ .op a object.id ∈ q.context.kernel
  stopped : object.op.stopCalled = true → object.op.completions ≠ [] ∨ a ∈ q.waitingForCancel ∨
    1 ≤ object.op.cancels

/-- Where the context can do nothing more by itself, an operation that was started has completed, or
it waits for SQEs, or the kernel has its request; and the kernel was asked to cancel one that was
stopped, or that waits for SQEs. -/
theorem nothing_forgotten (hq : (system A).Reachable q) (hstuck : q.Stuck)
    (ho : q.context.objects a = some object) : q.Settled a object := by
  obtain ⟨h, -⟩ := inv_of_reachable hq
  have hengaged := engaged_of_reachable hq
  have hquiet := hstuck.quiet h hengaged ho
  have hop := h.op_inv ho
  constructor
  · intro hstart
    rcases hquiet.settled hop hstart with hcompleted | hwaiting | hcancel | houtstanding
    · exact .inl hcompleted
    · exact .inr (.inl ((h.listed.waiting.mem_iff ho).mpr hwaiting))
    · exact .inr (.inr (.inl ((h.listed.cancel.mem_iff ho).mpr hcancel)))
    · obtain ⟨hsq, hcq⟩ := hstuck.rings_empty (hstuck.not_busy h hengaged)
      have hmatching := h.context.matching_entries a
      rw [Context.expected_eq ho, houtstanding, if_pos rfl, Context.entries, hsq, hcq,
        List.nil_append, List.map_nil, List.append_nil] at hmatching
      have hmem : object.id ∈ matching a q.context.kernel :=
        hmatching.symm.subset (List.mem_singleton_self _)
      obtain ⟨entry, hentry, hid⟩ := List.mem_filterMap.mp hmem
      refine .inr (.inr (.inr ?_))
      cases entry with
      | op b id =>
        dsimp only at hid
        split_ifs at hid with hba
        cases hid
        exact hba ▸ hentry
      | cancel | wakeUp => cases hid
  · intro hstop
    rcases hquiet.stop_settled (h.context.reachable a object ho) hop hstop with
      hcompleted | hcancel | hcancels
    · exact .inl hcompleted
    · exact .inr (.inl ((h.listed.cancel.mem_iff ho).mpr hcancel))
    · exact .inr (.inr hcancels)

theorem stuck_of_idle (hremote : q.remote = []) (hready : q.ready = []) (hitems : q.stopItems = [])
    (hstop : q.remoteStop = []) (hsq : q.context.sq = []) (hcq : q.context.cq = [])
    (hidle : ∀ a object, q.context.objects a = some object →
      object.op.io = .idle ∧ object.op.remote = .idle) : q.Stuck := by
  intro act hinternal
  cases act with
  | op a act =>
    cases ho : q.context.objects a with
    | none => simp [Queues.step, ho]
    | some object =>
      obtain ⟨hio, hr⟩ := hidle a object ho
      cases act with
      | io space =>
        have hnone : object.op.step (.io space) = none := by
          simp only [Op.step, Op.ioStep, hio]
        simp [Queues.step, opStep, Context.step, Context.opStep, ho, hnone]
      | remote =>
        have hnone : object.op.step .remote = none := by
          simp only [Op.step, Op.remoteStep, hr]
        simp [Queues.step, opStep, Context.step, Context.opStep, ho, hnone]
      | _ => cases hinternal
  | receive => simp [Queues.step, contextStep, Context.step, hsq]
  | process => simp [Queues.step, contextStep, Context.step, hcq]
  | acquireRemoteItems => simp [Queues.step, hremote]
  | runReady => simp [Queues.step, hready]
  | dequeueStopItems => simp [Queues.step, hstop]
  | runStop => simp [Queues.step, hitems]
  | _ => cases hinternal

/-- One operation waits for an SQE. The kernel has the request of another one, and was asked to
cancel it. -/
theorem nothing_forgotten_run : ∃ (q : Queues Bool) (object object' : Object),
    ((q.context.objects false = some object ∧ object.op.startCalled = true) ∧
      (q.context.objects true = some object' ∧ object'.op.stopCalled = true)) ∧
    q.Settled false object ∧ q.Settled true object' := by
  obtain ⟨q, hq, hp⟩ := (system Bool).exists_reachable
    [.create false, .create true, .op false .startLocal, .op false (.io false),
      .op true .startRemote, .op true .remote, .op true .remote, .op true .remote,
      .acquireRemoteItems, .runReady, .op true (.io true), .op true (.io true), .op true .stopLocal,
      .op true (.io true), .op true (.io true), .op true (.io true), .receive, .receive]
    (fun q => q.remote = [] && q.ready = [] && q.stopItems = [] && q.remoteStop = [] &&
      q.context.sq = [] && q.context.cq = [] &&
      (q.context.objects false).any (fun object =>
        object.op.io = .idle && object.op.remote = .idle && object.op.startCalled) &&
      (q.context.objects true).any (fun object =>
        object.op.io = .idle && object.op.remote = .idle && object.op.stopCalled))
    (by decide +kernel)
  simp only [Bool.and_eq_true, decide_eq_true_eq, Option.any_eq_true] at hp
  obtain ⟨⟨hlists, object, ho, hobject⟩, object', ho', hobject'⟩ := hp
  obtain ⟨⟨⟨⟨⟨hremote, hready⟩, hitems⟩, hstop⟩, hsq⟩, hcq⟩ := hlists
  have hstuck : q.Stuck := by
    refine stuck_of_idle hremote hready hitems hstop hsq hcq ?_
    intro a object'' ha
    cases a with
    | false =>
      rw [ho] at ha
      cases ha
      exact hobject.1
    | true =>
      rw [ho'] at ha
      cases ha
      exact hobject'.1
  exact ⟨q, object, object', ⟨⟨ho, hobject.2⟩, ho', hobject'.2⟩, nothing_forgotten hq hstuck ho,
    nothing_forgotten hq hstuck ho'⟩

end Queues
end Squiz.LinuxOS.IoUringOperation
