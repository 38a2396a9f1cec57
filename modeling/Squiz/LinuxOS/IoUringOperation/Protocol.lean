import Squiz.LinuxOS.IoUringOperation.Invariant

/-! An `iouring_operation` completes its receiver once, when nothing refers to it any more, with
the result of its CQE. -/
namespace Squiz.LinuxOS.IoUringOperation.Op
open Squiz.Lib Squiz.Lib.Word
variable {s t : Op}

theorem inFlight_submitSqe (h : s.Gone) : s.submitSqe.InFlight .whenOpCompleted := by
  obtain ⟨h1, h2, h3, -, -, h6⟩ := h
  exact ⟨h1, h2, h3, rfl, rfl, h6, rfl⟩

/-- `start()` returns, or has returned. -/
theorem open_of_starting (h : s.Unstarted ∧ s.remote = .idle ∨ s.Open) :
    { s with started := true }.Open := by
  rcases h with ⟨⟨-, -, h1, h2, h3, -, h4, h5⟩, h6⟩ | h
  · exact ⟨rfl, h5, .inl ⟨h1, h2, h3, .inl h6, fun hne => absurd h6 hne⟩⟩
  · exact ⟨rfl, h.2⟩

theorem Closed.of_handling (h : s.Handling) : s.Closed :=
  ⟨h.1.1, h.1.2.2.1, h.2.2, .inr ⟨h.1.2.1, h.1.2.2.2⟩⟩

theorem Done.of_deliver {cqe : Cqe} (hl : s.Landed cqe) (hc : s.Closed) (h : s.completions = []) :
    (s.complete (.ofCqe cqe)).Done :=
  ⟨hc, .inr ⟨cqe, hl, by simp [Op.complete, h]⟩⟩

theorem Open.posting (h : s.Open) (hflag : hasFlag s.word stopRequestEnqueuedFlag = true) :
    s.word = 2 ∧ s.Posting := by
  obtain ⟨-, -, ⟨hw, -⟩ | h⟩ := h
  · simp [hw, hasFlag] at hflag
  · exact h

theorem Open.noStop (h : s.Open) (hflag : ¬hasFlag s.word stopRequestEnqueuedFlag = true) :
    s.NoStop := by
  obtain ⟨-, -, h | ⟨hw, -⟩⟩ := h
  · exact h
  · simp [hw, hasFlag, stopRequestEnqueuedFlag] at hflag

theorem IoOk.ioStep {space : Bool} (h : s.IoOk s.io) (ht : s.ioStep space = some t) :
    t.IoOk t.io := by
  cases hpc : s.io with
  | idle => simp [Op.ioStep, hpc] at ht
  | startLoad | availableLoad =>
    rw [hpc] at h
    obtain ⟨hcalled, hloc, ho⟩ := h
    simp only [Op.ioStep, hpc, Option.some.injEq] at ht
    subst ht
    split
    case isTrue hflag =>
      exact .inr ⟨hcalled, .inr (.inl ⟨hloc, ho, (ho.posting hflag).1⟩)⟩
    case isFalse => exact ⟨hcalled, hloc, .inr ho⟩
  | trySubmit =>
    rw [hpc] at h
    obtain ⟨hcalled, hloc, ho⟩ := h
    simp only [Op.ioStep, hpc, Option.some.injEq] at ht
    subst ht
    have hopen := open_of_starting ho
    cases space with
    | true =>
      exact .inr ⟨hcalled, .inl ⟨.inr (.inr (inFlight_submitSqe hloc.1)), hopen⟩⟩
    | false =>
      obtain ⟨⟨h1, h2, -, h4, h5, h6⟩, h7, -⟩ := hloc
      exact .inr ⟨hcalled, .inl ⟨.inr (.inl ⟨h1, h2, rfl, h7, rfl, h4, h5, h6, rfl⟩), hopen⟩⟩
  | submit =>
    rw [hpc] at h
    obtain ⟨hcalled, hloc, ho⟩ := h
    simp only [Op.ioStep, hpc, Option.some.injEq] at ht
    subst ht
    exact .inr ⟨hcalled, .inl ⟨.inr (.inr (inFlight_submitSqe hloc.1)), open_of_starting ho⟩⟩
  | completedLoad cqe =>
    rw [hpc] at h
    obtain ⟨hcalled, hloc, ho⟩ := h
    simp only [Op.ioStep, hpc, Option.some.injEq] at ht
    subst ht
    split
    case isTrue hflag =>
      have hw := (ho.posting hflag).1
      exact ⟨hcalled, hloc, ho, hw, hw⟩
    case isFalse => exact ⟨hcalled, hloc, ho⟩
  | completedAdd cqe =>
    rw [hpc] at h
    obtain ⟨hcalled, hloc, ho⟩ := h
    simp only [Op.ioStep, hpc] at ht
    split at ht
    case isTrue hflag =>
      obtain ⟨hw, hp⟩ := ho.posting hflag
      cases ht
      have hadd : fetchAdd stateBits s.word completedFlag = 3 := by rw [hw]; rfl
      exact .inr ⟨hcalled, .inr (.inr (.inl ⟨hloc, ho.1, ho.2.1, hadd, hp⟩))⟩
    case isFalse hflag =>
      obtain ⟨hw, h1, h2, h3, h4⟩ := ho.noStop hflag
      cases ht
      have hadd : fetchAdd stateBits s.word completedFlag = 1 := by rw [hw]; rfl
      exact ⟨hcalled, hloc, ⟨ho.1, h1, h2, .inl ⟨h3, hadd, h4⟩⟩, ho.2.1⟩
  | completedStore cqe old =>
    rw [hpc] at h
    obtain ⟨hcalled, hloc, ho, hw, rfl⟩ := h
    simp only [Op.ioStep, hpc, Option.some.injEq] at ht
    subst ht
    obtain ⟨hst, hcomp, h | ⟨-, hp⟩⟩ := ho
    · have hzero := h.1
      omega
    · exact .inr ⟨hcalled, .inr (.inr (.inl ⟨hloc, hst, hcomp, rfl, hp⟩))⟩
  | deliver cqe =>
    rw [hpc] at h
    obtain ⟨hcalled, hloc, hc, hcomp⟩ := h
    simp only [Op.ioStep, hpc, Option.some.injEq] at ht
    subst ht
    exact .inr ⟨hcalled, .inr (.inr (.inr (.inr (.inr (.inr (.of_deliver hloc hc hcomp))))))⟩
  | stopLoad =>
    rw [hpc] at h
    obtain ⟨hcalled, hh, hcancel, ⟨hw, hcomp, hloc⟩ | ⟨hw, hd⟩⟩ := h
    · have hflag : hasFlag s.word completedFlag = false := by rw [hw]; rfl
      simp only [Op.ioStep, hpc, hflag, Option.some.injEq] at ht
      subst ht
      exact ⟨hcalled, ⟨hh, hcomp, hcancel⟩, .inl hloc⟩
    · have hflag : hasFlag s.word completedFlag = true := by rw [hw]; rfl
      simp only [Op.ioStep, hpc, hflag, Option.some.injEq] at ht
      subst ht
      exact .inr ⟨hcalled, .inr (.inr (.inr (.inr (.inr (.inr hd)))))⟩
  | stopItemLoad =>
    rw [hpc] at h
    obtain ⟨hcalled, hh, ⟨hw, hloc⟩ | ⟨hw, hloc⟩⟩ := h
    · have hflag : hasFlag s.word completedFlag = false := by rw [hw]; rfl
      simp only [Op.ioStep, hpc, hflag, Option.some.injEq] at ht
      subst ht
      exact ⟨hcalled, hh, hloc⟩
    · have hflag : hasFlag s.word completedFlag = true := by rw [hw]; rfl
      simp only [Op.ioStep, hpc, hflag, Option.some.injEq] at ht
      subst ht
      exact ⟨hcalled, hloc, .of_handling hh, hh.2.1⟩
  | requestStop =>
    rw [hpc] at h
    obtain ⟨hcalled, hh, hloc⟩ := h
    simp only [Op.ioStep, hpc, Option.some.injEq] at ht
    subst ht
    rcases hloc with (hloc | hloc | hloc) | hloc
    · obtain ⟨-, -, henqueued, -, hsubmitted, -⟩ := id hloc
      rw [requestStopFromIoThread, if_neg (by simp [hsubmitted]), if_pos henqueued]
      exact ⟨hcalled, hh, hloc⟩
    · obtain ⟨-, -, -, henqueued, hwaiting, hsubmitted, -⟩ := id hloc
      rw [requestStopFromIoThread, if_neg (by simp [hsubmitted]), if_neg (by simp [henqueued]),
        if_pos hwaiting]
      exact ⟨hcalled, hh, hloc⟩
    · obtain ⟨-, -, -, hsubmitted, -⟩ := id hloc
      rw [requestStopFromIoThread, if_pos hsubmitted]
      exact ⟨hcalled, hh, hloc⟩
    · obtain ⟨⟨-, -, -, hsubmitted, -⟩, henqueued, hwaiting⟩ := id hloc
      rw [requestStopFromIoThread, if_neg (by simp [hsubmitted]), if_neg (by simp [henqueued]),
        if_neg (by simp [hwaiting])]
      exact ⟨hcalled, hh, hloc.1⟩
  | tryCancel =>
    rw [hpc] at h
    obtain ⟨hcalled, hh, h1, h2, h3, h4, h5, h6, -⟩ := h
    simp only [Op.ioStep, hpc] at ht
    cases space with
    | true =>
      cases ht
      exact .inr ⟨hcalled, .inr (.inr (.inr (.inl ⟨⟨h1, h2, h3, h4, h5, h6, rfl⟩, hh⟩)))⟩
    | false =>
      cases ht
      exact .inr ⟨hcalled, .inr (.inr (.inr (.inr (.inl
        ⟨⟨h1, h2, h3, h4, h5, h6, rfl⟩, hh.1, hh.2.1, rfl, rfl⟩))))⟩
  | acquire =>
    rw [hpc] at h
    obtain ⟨hcalled, hh, hq, hloc⟩ := h
    simp only [Op.ioStep, hpc, Option.some.injEq] at ht
    subst ht
    have hready : (s.inReady || s.inRemote) = true := by
      rcases hq with ⟨h1, h2⟩ | ⟨h1, h2⟩ <;> simp [h1, h2]
    exact ⟨hcalled, hh, ⟨.inr ⟨rfl, hready⟩, hloc⟩, hready⟩
  | removeLocal =>
    rw [hpc] at h
    obtain ⟨hcalled, hh, ⟨hq, h1, h2, h3, h4, h5, h6, h7⟩, hready⟩ := h
    simp only [Op.ioStep, hpc, Option.some.injEq] at ht
    subst ht
    have hremote : s.inRemote = false := by
      rcases hq with ⟨-, hq⟩ | ⟨hq, -⟩
      · rw [hready] at hq
        cases hq
      · exact hq
    exact ⟨hcalled, hh, hremote, rfl, h1, h4, h5, h6⟩
  | removeWaiting =>
    rw [hpc] at h
    obtain ⟨hcalled, hh, h1, h2, -, -, -, h4, h5, h6, -⟩ := h
    simp only [Op.ioStep, hpc, Option.some.injEq] at ht
    subst ht
    exact ⟨hcalled, hh, h1, h2, rfl, h4, h5, h6⟩
  | setStopped =>
    rw [hpc] at h
    obtain ⟨hcalled, hh, hloc⟩ := h
    simp only [Op.ioStep, hpc, Option.some.injEq] at ht
    subst ht
    have hclosed : s.Closed := .of_handling hh
    have hdone : (s.complete .stopped).Done :=
      ⟨hclosed, .inl ⟨hloc, by simp [Op.complete, hh.2.1]⟩⟩
    exact .inr ⟨hcalled, .inr (.inr (.inr (.inr (.inr (.inr hdone)))))⟩
  | cancel =>
    rw [hpc] at h
    obtain ⟨hcalled, hh, h1, h2, h3, h4, h5, h6, -⟩ := h
    simp only [Op.ioStep, hpc, Option.some.injEq] at ht
    subst ht
    exact .inr ⟨hcalled, .inr (.inr (.inr (.inl ⟨⟨h1, h2, h3, h4, h5, h6, rfl⟩, hh⟩)))⟩

/-- Before `start()` was called the I/O thread is not at the operation. -/
theorem IoOk.of_not_called {pc : IoPc} (h : s.IoOk pc) (hcalled : s.startCalled = false) :
    pc = .idle ∧ s.Unstarted ∧ s.remote = .idle ∧ s.remoteEnqueued = false := by
  have hne : s.startCalled ≠ true := by simp [hcalled]
  cases pc with
  | idle =>
    rcases h with ⟨hu, ⟨-, hs⟩ | ⟨hs, -⟩⟩ | ⟨hs, -⟩
    · exact ⟨rfl, hu, hs⟩
    · exact absurd hs hne
    · exact absurd hs hne
  | _ => exact absurd h.1 hne

theorem Inv.startLocal (h : s.Inv) (ht : s.step .startLocal = some t) : t.Inv := by
  simp only [Op.step] at ht
  split at ht
  case isTrue hen =>
    cases ht
    obtain ⟨-, hu, hr, he⟩ := h.io.of_not_called hen.1
    exact ⟨⟨rfl, ⟨hu.1, he, hu.2.1⟩, .inl ⟨hu, hr⟩⟩, h.ok⟩
  case isFalse => cases ht

theorem Inv.startRemote (h : s.Inv) (ht : s.step .startRemote = some t) : t.Inv := by
  simp only [Op.step] at ht
  split at ht
  case isTrue hen =>
    cases ht
    obtain ⟨hio, hu, -, he⟩ := h.io.of_not_called hen.1
    refine ⟨?_, h.ok⟩
    simp only [hio]
    exact .inl ⟨hu, .inr ⟨rfl, .inl ⟨rfl, he⟩⟩⟩
  case isFalse => cases ht

/-- An operation that was started has not been asked to stop: it goes on, or has completed. -/
theorem IoOk.of_not_stopped (h : s.IdleOk) (hst : s.started = true) (hstop : s.stopCalled = false) :
    s.startCalled = true ∧ s.remote = .idle ∧
      (s.word = 0 ∧ s.inStop = false ∧ s.inCancel = false ∧ s.completions = [] ∧ s.Stoppable ∨
        s.word = 1 ∧ s.Done) := by
  have hne : s.stopCalled ≠ true := by simp [hstop]
  have hposting : ¬s.Posting := fun hp => hne hp.1
  have hhandled : ¬s.Handled := fun hh => hne hh.2.1
  have hidle : (s.remote ≠ .idle → s.stopCalled = true) → s.remote = .idle := fun hr => by
    by_contra hnot
    exact hne (hr hnot)
  rcases h with ⟨hu, -⟩ | ⟨hcalled, h⟩
  · rw [hu.2.2.2.2.2.1] at hst
    cases hst
  rcases h with ⟨hloc, -, hcomp, ⟨hw, h1, h2, -, hr⟩ | ⟨-, hp⟩⟩ | ⟨-, ho, hw⟩ | ⟨-, -, -, -, hp⟩ |
    ⟨-, hh, -⟩ | ⟨-, hh, -⟩ | ⟨-, hh, -⟩ | hd
  · exact ⟨hcalled, hidle hr, .inl ⟨hw, h1, h2, hcomp, hloc⟩⟩
  · exact absurd hp hposting
  · rcases ho with ⟨-, -, ⟨hzero, -⟩ | ⟨-, hp⟩⟩
    · omega
    · exact absurd hp hposting
  · exact absurd hp hposting
  · exact absurd hh hhandled
  · exact absurd hh hhandled
  · exact absurd hh hhandled
  · obtain ⟨⟨-, -, -, ⟨-, hw, hr⟩ | ⟨hs, -⟩⟩, -⟩ := id hd
    · exact ⟨hcalled, hidle hr, .inr ⟨hw, hd⟩⟩
    · exact absurd hs hne

theorem Inv.stopLocal (h : s.Inv) (ht : s.step .stopLocal = some t) : t.Inv := by
  simp only [Op.step] at ht
  split at ht
  case isTrue hen =>
    obtain ⟨hst, hstop, hio⟩ := hen
    cases ht
    have hidle := h.io
    rw [hio] at hidle
    obtain ⟨hcalled, hr, ⟨hw, h1, h2, hcomp, hloc⟩ | ⟨hw, hclosed, hloc⟩⟩ :=
      IoOk.of_not_stopped hidle hst hstop
    · exact ⟨⟨hcalled, ⟨hst, rfl, h1, hr⟩, h2, .inl ⟨hw, hcomp, hloc⟩⟩, h.ok⟩
    · obtain ⟨-, h1, h2, -⟩ := id hclosed
      exact ⟨⟨hcalled, ⟨hst, rfl, h1, hr⟩, h2,
        .inr ⟨hw, ⟨hst, h1, h2, .inr ⟨rfl, hr⟩⟩, hloc⟩⟩, h.ok⟩
  case isFalse => cases ht

theorem Inv.stopRemote (h : s.Inv) (ht : s.step .stopRemote = some t) : t.Inv := by
  simp only [Op.step] at ht
  split at ht
  case isTrue hen =>
    obtain ⟨hst, hstop, hr⟩ := hen
    cases ht
    have hne : s.stopCalled ≠ true := by simp [hstop]
    have hunstarted : ¬s.Unstarted := fun hu => by
      rw [hu.2.2.2.2.2.1] at hst
      cases hst
    refine ⟨h.io.stopRemote (fun hh => hne hh.2.1) hunstarted (fun ho => ?_)
      (fun _ hp => absurd hp.1 hne) fun hc => ?_, h.ok⟩
    · obtain ⟨-, hcomp, ⟨hw, h1, h2, -, -⟩ | ⟨-, hp⟩⟩ := ho
      · exact ⟨id, hst, hcomp, .inl ⟨hw, h1, h2, .inr (.inl rfl), fun _ => rfl⟩⟩
      · exact absurd hp.1 hne
    · obtain ⟨-, h1, h2, ⟨-, hw, -⟩ | ⟨hs, -⟩⟩ := hc
      · exact ⟨hst, h1, h2, .inl ⟨.inr (.inl rfl), hw, fun _ => rfl⟩⟩
      · exact absurd hs hne
  case isFalse => cases ht

theorem IdleOk.of_queued (h : s.IdleOk) (hq : ¬(s.inRemote = false ∧ s.inReady = false)) :
    s.startCalled = true ∧ s.Queued ∧ s.Open := by
  rcases h with ⟨hu, -⟩ | ⟨hcalled, h⟩
  · exact absurd ⟨hu.1.1, hu.1.2.1⟩ hq
  rcases h with ⟨hloc | hloc | hloc, ho⟩ | ⟨hloc, -⟩ | ⟨hloc, -⟩ | ⟨hloc, -⟩ | ⟨hloc, -⟩ |
    ⟨hloc, -⟩ | ⟨-, ⟨hloc, -⟩ | ⟨_, hloc, -⟩⟩
  · exact ⟨hcalled, hloc, ho⟩
  · exact absurd ⟨hloc.1, hloc.2.1⟩ hq
  · exact absurd ⟨hloc.1, hloc.2.1⟩ hq
  · exact absurd ⟨hloc.1.1, hloc.1.2.1⟩ hq
  all_goals exact absurd ⟨hloc.1, hloc.2.1⟩ hq

theorem IdleOk.of_waiting (h : s.IdleOk) (hw : s.inWaiting = true) :
    s.startCalled = true ∧ s.Waiting ∧ s.Open := by
  have hne : s.inWaiting ≠ false := by simp [hw]
  rcases h with ⟨hu, -⟩ | ⟨hcalled, h⟩
  · exact absurd hu.1.2.2.1 hne
  rcases h with ⟨hloc | hloc | hloc, ho⟩ | ⟨hloc, -⟩ | ⟨hloc, -⟩ | ⟨hloc, -⟩ | ⟨hloc, -⟩ |
    ⟨hloc, -⟩ | ⟨-, ⟨hloc, -⟩ | ⟨_, hloc, -⟩⟩
  · exact absurd hloc.2.1 hne
  · exact ⟨hcalled, hloc, ho⟩
  · exact absurd hloc.2.2.1 hne
  · exact absurd hloc.1.2.2.1 hne
  all_goals exact absurd hloc.2.2.1 hne

theorem IdleOk.of_outstanding (h : s.IdleOk) (ho : s.outstanding = true) :
    s.startCalled = true ∧ s.completions = [] ∧
      (s.InFlight .whenOpCompleted ∧ s.Open ∨
        s.InFlight .whenOpCompletedNoRacesWithStop ∧ s.Handling ∨
        s.InFlight .whenOpCompletedWithStopWaitingForSqes ∧ s.Handled ∧ s.inCancel = true ∧
          s.stopCallback = some .whenSqesAvailableForStop) := by
  have hne : s.outstanding ≠ false := by simp [ho]
  rcases h with ⟨hu, -⟩ | ⟨hcalled, h⟩
  · exact absurd hu.1.2.2.2.2.1 hne
  rcases h with ⟨hloc | hloc | hloc, ho⟩ | ⟨hloc, -⟩ | ⟨hloc, -⟩ | ⟨hloc, hh⟩ |
    ⟨hloc, hh, hcomp, hcancel⟩ | ⟨hloc, -⟩ | ⟨-, ⟨hloc, -⟩ | ⟨_, hloc, -⟩⟩
  · exact absurd hloc.2.2.2.2.2.1 hne
  · exact absurd hloc.2.2.2.2.2.2.1 hne
  · exact ⟨hcalled, ho.2.1, .inl ⟨hloc, ho⟩⟩
  · exact absurd hloc.1.2.2.2.2.1 hne
  · exact absurd hloc.2.2.2.2.1 hne
  · exact ⟨hcalled, hh.2.1, .inr (.inl ⟨hloc, hh⟩)⟩
  · exact ⟨hcalled, hcomp, .inr (.inr ⟨hloc, hh, hcancel⟩)⟩
  all_goals exact absurd hloc.2.2.2.2.1 hne

theorem IdleOk.of_inCancel (h : s.IdleOk) (hc : s.inCancel = true) :
    s.startCalled = true ∧ s.Handled ∧ s.completions = [] ∧
      (s.InFlight .whenOpCompletedWithStopWaitingForSqes ∧
          s.stopCallback = some .whenSqesAvailableForStop ∨
        s.Landed s.result ∧
          s.stopCallback = some .whenSqesAvailableForStopAlreadyCompleted) := by
  have hne : s.inCancel ≠ false := by simp [hc]
  have hopen : ¬s.Open := by
    rintro ⟨-, -, ⟨-, -, h, -⟩ | ⟨-, -, h, -⟩⟩ <;> exact absurd h hne
  rcases h with ⟨hu, -⟩ | ⟨hcalled, h⟩
  · exact absurd hu.2.2.2.2.1 hne
  rcases h with ⟨-, h⟩ | ⟨-, h, -⟩ | ⟨-, -, -, -, hp⟩ | ⟨-, hh⟩ | ⟨hloc, hh, hcomp, -, hcb⟩ |
    ⟨hloc, hh, hcomp, -, hcb⟩ | ⟨hd, -⟩
  · exact absurd h hopen
  · exact absurd h hopen
  · exact absurd hp.2.1 hne
  · exact absurd hh.2.2 hne
  · exact ⟨hcalled, hh, hcomp, .inl ⟨hloc, hcb⟩⟩
  · exact ⟨hcalled, hh, hcomp, .inr ⟨hloc, hcb⟩⟩
  · exact absurd hd.2.2.1 hne

theorem Posting.of_inStop (h : s.Posting) (hi : s.inStop = true) :
    s.stopCalled = true ∧ s.inCancel = false ∧ s.remote = .idle ∧
      s.stopCallback = some .whenStopRequestOnIoThread := by
  obtain ⟨hs, hc, ⟨-, h⟩ | ⟨-, h, -⟩ | ⟨hr, -, hcb⟩⟩ := h
  · simp [hi] at h
  · simp [hi] at h
  · exact ⟨hs, hc, hr, hcb⟩

theorem IdleOk.of_inStop (h : s.IdleOk) (hi : s.inStop = true) :
    s.startCalled = true ∧ s.started = true ∧ s.completions = [] ∧ s.Posting ∧
      (s.word = 2 ∧ (s.Stoppable ∨ s.Nowhere) ∨ s.word = 3 ∧ s.Landed s.result) := by
  have hne : s.inStop ≠ false := by simp [hi]
  have hopen : s.Open → s.word = 2 ∧ s.Posting := by
    rintro ⟨-, -, ⟨-, h, -⟩ | h⟩
    · exact absurd h hne
    · exact h
  rcases h with ⟨hu, -⟩ | ⟨hcalled, h⟩
  · exact absurd hu.2.2.2.1 hne
  rcases h with ⟨hloc, h⟩ | ⟨hloc, h, -⟩ | ⟨hloc, hst, hcomp, hw, hp⟩ | ⟨-, hh⟩ | ⟨-, hh, -⟩ |
    ⟨-, hh, -⟩ | ⟨hd, -⟩
  · exact ⟨hcalled, h.1, h.2.1, (hopen h).2, .inl ⟨(hopen h).1, .inl hloc⟩⟩
  · exact ⟨hcalled, h.1, h.2.1, (hopen h).2, .inl ⟨(hopen h).1, .inr hloc⟩⟩
  · exact ⟨hcalled, hst, hcomp, hp, .inr ⟨hw, hloc⟩⟩
  · exact absurd hh.1.2.2.1 hne
  · exact absurd hh.2.2.1 hne
  · exact absurd hh.2.2.1 hne
  · exact absurd hd.2.1 hne

theorem Inv.idleOk (h : s.Inv) (hio : s.io = .idle) : s.IdleOk := by
  have hidle := h.io
  rwa [hio] at hidle

theorem Inv.acquire (h : s.Inv) (ht : s.step .acquire = some t) : t.Inv := by
  simp only [Op.step] at ht
  split at ht
  case isTrue hio =>
    cases ht
    by_cases hr : s.inRemote = false
    · have hsame : s.acquireRemoteItems = s := by
        rw [acquireRemoteItems, hr, Bool.or_false, ← hr]
      rw [hsame]
      exact h
    obtain ⟨hcalled, ⟨-, hloc⟩, ho⟩ := (h.idleOk hio).of_queued fun hq => hr hq.1
    have hready : (s.inReady || s.inRemote) = true := by simp [hr]
    refine ⟨?_, h.ok⟩
    simp only [acquireRemoteItems, hio]
    exact .inr ⟨hcalled, .inl ⟨.inl ⟨.inr ⟨rfl, hready⟩, hloc⟩, ho⟩⟩
  case isFalse => cases ht

theorem Inv.runReady (h : s.Inv) (ht : s.step .runReady = some t) : t.Inv := by
  simp only [Op.step] at ht
  split at ht
  case isTrue hen =>
    obtain ⟨hio, hready⟩ := hen
    cases ht
    have hne : s.inReady ≠ false := by simp [hready]
    obtain ⟨hcalled, ⟨hq, h1, -, h3, h4, h5, h6, hcallback⟩, ho⟩ :=
      (h.idleOk hio).of_queued fun hq => hne hq.2
    have hremote : s.inRemote = false := by
      rcases hq with ⟨-, hq⟩ | ⟨hq, -⟩
      · exact absurd hq hne
      · exact hq
    simp only [execute, hcallback]
    exact ⟨⟨hcalled, ⟨⟨hremote, rfl, h1, h4, h5, h6⟩, rfl, h3⟩, ho⟩, h.ok⟩
  case isFalse => cases ht

theorem Inv.runWaiting (h : s.Inv) (ht : s.step .runWaiting = some t) : t.Inv := by
  simp only [Op.step] at ht
  split at ht
  case isTrue hen =>
    obtain ⟨hio, hwaiting⟩ := hen
    cases ht
    obtain ⟨hcalled, ⟨h1, h2, -, h3, -, h4, h5, h6, hcallback⟩, ho⟩ :=
      (h.idleOk hio).of_waiting hwaiting
    simp only [submitSqes, hcallback]
    exact ⟨⟨hcalled, ⟨⟨h1, h2, rfl, h4, h5, h6⟩, h3, rfl⟩, ho⟩, h.ok⟩
  case isFalse => cases ht

theorem Inv.runCancel (h : s.Inv) (ht : s.step .runCancel = some t) : t.Inv := by
  simp only [Op.step] at ht
  split at ht
  case isTrue hen =>
    obtain ⟨hio, hcancel⟩ := hen
    cases ht
    obtain ⟨hcalled, hh, hcomp, ⟨hloc, hcb⟩ | ⟨hloc, hcb⟩⟩ := (h.idleOk hio).of_inCancel hcancel
    · simp only [submitCancelSqes, hcb]
      exact ⟨⟨hcalled, ⟨hh, hcomp, rfl⟩, hloc⟩, h.ok⟩
    · simp only [submitCancelSqes, hcb]
      exact ⟨⟨hcalled, hloc, ⟨hh.1, hh.2.2.1, rfl, .inr ⟨hh.2.1, hh.2.2.2⟩⟩, hcomp⟩, h.ok⟩
  case isFalse => cases ht

theorem Inv.runStop (h : s.Inv) (ht : s.step .runStop = some t) : t.Inv := by
  simp only [Op.step] at ht
  split at ht
  case isTrue hen =>
    obtain ⟨hio, hstop⟩ := hen
    cases ht
    obtain ⟨hcalled, hst, hcomp, hp, hloc⟩ := (h.idleOk hio).of_inStop hstop
    obtain ⟨hs, hc, hr, hcb⟩ := hp.of_inStop hstop
    simp only [executeStop, hcb]
    exact ⟨⟨hcalled, ⟨⟨hst, hs, rfl, hr⟩, hcomp, hc⟩, hloc⟩, h.ok⟩
  case isFalse => cases ht

theorem Inv.handleCompletion {cqe : Cqe} (h : s.Inv) (ht : s.step (.cqe cqe) = some t) :
    t.Inv := by
  simp only [Op.step] at ht
  split at ht
  case isTrue hen =>
    obtain ⟨hio, houtstanding⟩ := hen
    cases ht
    obtain ⟨hcalled, hcomp, hstage⟩ := (h.idleOk hio).of_outstanding houtstanding
    rcases hstage with ⟨⟨h1, h2, h3, h4, -, -, hcb⟩, ho⟩ | ⟨⟨h1, h2, h3, h4, -, -, hcb⟩, hh⟩ |
      ⟨⟨h1, h2, h3, h4, -, -, hcb⟩, hh, hcancel, -⟩
    · simp only [Op.handleCompletion, hcb]
      exact ⟨⟨hcalled, ⟨h1, h2, h3, h4, rfl, rfl⟩, ho⟩, h.ok⟩
    · simp only [Op.handleCompletion, hcb]
      have hclosed : s.Closed := .of_handling hh
      exact ⟨⟨hcalled, ⟨h1, h2, h3, h4, rfl, rfl⟩, hclosed, hcomp⟩, h.ok⟩
    · simp only [Op.handleCompletion, hcb]
      refine ⟨?_, h.ok⟩
      simp only [hio]
      exact .inr ⟨hcalled, .inr (.inr (.inr (.inr (.inr (.inl
        ⟨⟨h1, h2, h3, h4, rfl, rfl⟩, hh, hcomp, hcancel, rfl⟩)))))⟩
  case isFalse => cases ht

theorem ioStep_fault {space : Bool} (ht : s.ioStep space = some t) : t.fault = s.fault := by
  unfold Op.ioStep at ht
  split at ht
  case h_1 => cases ht
  case h_3 =>
    cases ht
    cases space <;> rfl
  case h_7 => split at ht <;> cases ht <;> rfl
  case h_12 =>
    cases ht
    unfold requestStopFromIoThread
    split_ifs <;> rfl
  case h_13 => split at ht <;> cases ht <;> rfl
  all_goals
    cases ht
    rfl

theorem remoteStep_fault (ht : s.remoteStep = some t) : t.fault = s.fault := by
  unfold Op.remoteStep at ht
  split at ht
  case h_1 => cases ht
  all_goals
    cases ht
    rfl

theorem Inv.step {a : Act} (h : s.Inv) (ht : s.step a = some t) : t.Inv := by
  cases a with
  | startLocal => exact h.startLocal ht
  | startRemote => exact h.startRemote ht
  | stopLocal => exact h.stopLocal ht
  | stopRemote => exact h.stopRemote ht
  | acquire => exact h.acquire ht
  | runReady => exact h.runReady ht
  | runWaiting => exact h.runWaiting ht
  | runCancel => exact h.runCancel ht
  | runStop => exact h.runStop ht
  | cqe cqe => exact h.handleCompletion ht
  | io space => exact ⟨h.io.ioStep ht, (ioStep_fault ht).trans h.ok⟩
  | remote => exact ⟨h.io.remoteStep ht, (remoteStep_fault ht).trans h.ok⟩

/-- In no queue, with no CQE to come and no thread about to put it in a queue. -/
structure Clear (s : Op) : Prop where
  inRemote : s.inRemote = false
  inReady : s.inReady = false
  inWaiting : s.inWaiting = false
  inCancel : s.inCancel = false
  inStop : s.inStop = false
  outstanding : s.outstanding = false
  remote : s.RemoteLate

structure Orderly (s : Op) : Prop where
  completed_once : s.completions.length ≤ 1
  /-- What is taken out of a queue is in that queue. -/
  removes_ready : s.io = .removeLocal → s.inReady = true
  removes_waiting : s.io = .removeWaiting → s.inWaiting = true
  /-- Nothing refers to an operation that completes its receiver, or has done so. -/
  clear : (s.io = .setStopped ∨ (∃ cqe, s.io = .deliver cqe) ∨ s.completions ≠ []) → s.Clear
  /-- Once it was submitted, an operation completes with what its CQE says. -/
  result : s.sqeSubmitted = true → ∀ c ∈ s.completions, ∃ cqe, s.cqe = some cqe ∧
    c = .ofCqe cqe ∧ (cqe.1 ≠ -ECANCELED → c = .complete cqe)
  ok : s.fault = false

theorem Signal.ofCqe_of_ne {cqe : Cqe} (h : cqe.1 ≠ -ECANCELED) :
    Signal.ofCqe cqe = .complete cqe := if_neg h

theorem Closed.remoteLate (h : s.Closed) : s.RemoteLate := by
  obtain ⟨-, -, -, ⟨h, -⟩ | ⟨-, h⟩⟩ := h
  · exact h
  · exact .inl h

theorem Closed.clear (h : s.Closed) (h1 : s.inRemote = false) (h2 : s.inReady = false)
    (h3 : s.inWaiting = false) (h4 : s.outstanding = false) : s.Clear :=
  ⟨h1, h2, h3, h.2.2.1, h.2.1, h4, h.remoteLate⟩

theorem Done.clear (h : s.Done) : s.Clear := by
  obtain ⟨hc, ⟨⟨h1, h2, h3, -, h4, -⟩, -⟩ | ⟨_, ⟨h1, h2, h3, -, h4, -⟩, -⟩⟩ := h
  · exact hc.clear h1 h2 h3 h4
  · exact hc.clear h1 h2 h3 h4

/-- The receiver was not completed, or the operation is done. -/
theorem IoOk.done {pc : IoPc} (h : s.IoOk pc) : s.completions = [] ∨ s.Done := by
  cases pc with
  | idle =>
    rcases h with ⟨hu, -⟩ | ⟨-, h⟩
    · exact .inl hu.2.2.2.2.2.2.2
    rcases h with ⟨-, h⟩ | ⟨-, h, -⟩ | ⟨-, -, h, -⟩ | ⟨-, h⟩ | ⟨-, -, h, -⟩ | ⟨-, -, h, -⟩ | h
    · exact .inl h.2.1
    · exact .inl h.2.1
    · exact .inl h
    · exact .inl h.2.1
    · exact .inl h
    · exact .inl h
    · exact .inr h
  | startLoad | availableLoad | completedLoad cqe | completedAdd cqe => exact .inl h.2.2.2.1
  | trySubmit | submit =>
    obtain ⟨-, -, h | h⟩ := h
    · exact .inl h.1.2.2.2.2.2.2.2
    · exact .inl h.2.1
  | completedStore cqe old => exact .inl h.2.2.1.2.1
  | deliver cqe => exact .inl h.2.2.2
  | stopLoad =>
    obtain ⟨-, -, -, ⟨-, h, -⟩ | ⟨-, h⟩⟩ := h
    · exact .inl h
    · exact .inr h
  | _ => exact .inl h.2.1.2.1

theorem Inv.orderly (h : s.Inv) : s.Orderly where
  completed_once := by
    rcases h.io.done with hd | ⟨-, ⟨-, hd⟩ | ⟨_, -, hd⟩⟩ <;> simp [hd]
  removes_ready hpc := by
    have hio := h.io
    rw [hpc] at hio
    exact hio.2.2.2
  removes_waiting hpc := by
    have hio := h.io
    rw [hpc] at hio
    exact hio.2.2.2.2.1
  clear := by
    have hio := h.io
    rintro (hpc | ⟨cqe, hpc⟩ | hne)
    · rw [hpc] at hio
      obtain ⟨-, hh, h1, h2, h3, -, h4, -⟩ := hio
      exact (Closed.of_handling hh).clear h1 h2 h3 h4
    · rw [hpc] at hio
      obtain ⟨-, ⟨h1, h2, h3, -, h4, -⟩, hc, -⟩ := hio
      exact hc.clear h1 h2 h3 h4
    · rcases hio.done with hd | hd
      · exact absurd hd hne
      · exact hd.clear
  result hsubmitted c hc := by
    rcases h.io.done with hd | ⟨-, ⟨hloc, -⟩ | ⟨cqe, hloc, hd⟩⟩
    · simp [hd] at hc
    · rw [hloc.2.2.2.1] at hsubmitted
      cases hsubmitted
    · rw [hd, List.mem_singleton] at hc
      exact ⟨cqe, hloc.2.2.2.2.2, hc, fun hne => hc.trans (Signal.ofCqe_of_ne hne)⟩
  ok := h.ok

/-- The receiver is completed at most once, when nothing refers to the operation any more, and with
the result of the CQE where the operation was submitted. -/
theorem completes_when_unlinked (hs : system.Reachable s) : s.Orderly :=
  Inv.orderly (hs.invariant inv_init fun _ _ _ h _ ht => h.step ht)

/-- Without space for a cancel SQE the stop request waits, the CQE comes first, and its result is
delivered when the cancel is taken from its queue. -/
theorem completes_when_unlinked_run :
    ∃ s : Op, (s.completions = [.complete (7, 0)] ∧ s.cancels = 0) ∧ s.Orderly := by
  obtain ⟨s, hs, hp⟩ := system.exists_reachable
    [.startRemote, .remote, .remote, .remote, .acquire, .runReady, .io false, .io false,
      .runWaiting, .stopRemote, .remote, .io true, .io true, .remote, .remote, .remote, .runStop,
      .io true, .io true, .io false, .cqe (7, 0), .runCancel, .io true]
    (fun s => s.completions = [.complete (7, 0)] && s.cancels = 0) (by decide +kernel)
  exact ⟨s, by simpa using hp, completes_when_unlinked hs⟩

end Squiz.LinuxOS.IoUringOperation.Op
