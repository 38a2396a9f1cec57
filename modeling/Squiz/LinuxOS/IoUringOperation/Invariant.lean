import Squiz.LinuxOS.IoUringOperation.Op

/-! Where the operation and its stop request can be, for each place of the I/O thread. -/
namespace Squiz.LinuxOS.IoUringOperation.Op
open Squiz.Lib Squiz.Lib.Word

/-- In no queue that is linked through `next`, and not submitted. -/
def Gone (s : Op) : Prop :=
  s.inRemote = false ∧ s.inReady = false ∧ s.inWaiting = false ∧ s.sqeSubmitted = false ∧
    s.outstanding = false ∧ s.cqe = none

/-- About to be queued or submitted, or left to the stop item. -/
def Nowhere (s : Op) : Prop := s.Gone ∧ s.remoteEnqueued = false ∧ s.waitingForSqe = false

/-- On the way to the I/O thread. -/
def Queued (s : Op) : Prop :=
  (s.inRemote = true ∧ s.inReady = false ∨ s.inRemote = false ∧ s.inReady = true) ∧
    s.inWaiting = false ∧ s.remoteEnqueued = true ∧ s.waitingForSqe = false ∧
    s.sqeSubmitted = false ∧ s.outstanding = false ∧ s.cqe = none ∧
    s.callback = some .whenOnIoThread

def Waiting (s : Op) : Prop :=
  s.inRemote = false ∧ s.inReady = false ∧ s.inWaiting = true ∧ s.remoteEnqueued = false ∧
    s.waitingForSqe = true ∧ s.sqeSubmitted = false ∧ s.outstanding = false ∧ s.cqe = none ∧
    s.callback = some .whenSqesAvailable

/-- Submitted, and its CQE is still to come. -/
def InFlight (s : Op) (callback : Callback) : Prop :=
  s.inRemote = false ∧ s.inReady = false ∧ s.inWaiting = false ∧ s.sqeSubmitted = true ∧
    s.outstanding = true ∧ s.cqe = none ∧ s.callback = some callback

/-- Its CQE was processed. -/
def Landed (s : Op) (cqe : Cqe) : Prop :=
  s.inRemote = false ∧ s.inReady = false ∧ s.inWaiting = false ∧ s.sqeSubmitted = true ∧
    s.outstanding = false ∧ s.cqe = some cqe

/-- The remote thread is in `request_stop`, or no stop was requested there. -/
def RemoteLate (s : Op) : Prop := s.remote = .idle ∨ s.remote = .stopLoad ∨ s.remote = .stopAdd

/-- No stop request has got as far as the word. -/
def NoStop (s : Op) : Prop :=
  s.word = 0 ∧ s.inStop = false ∧ s.inCancel = false ∧ s.RemoteLate ∧
    (s.remote ≠ .idle → s.stopCalled = true)

/-- The remote thread has set its flag in the word, and its stop item was not executed yet. -/
def Posting (s : Op) : Prop :=
  s.stopCalled = true ∧ s.inCancel = false ∧
    (s.remote = .stopStore ∧ s.inStop = false ∨
      s.remote = .stopEnqueue ∧ s.inStop = false ∧
        s.stopCallback = some .whenStopRequestOnIoThread ∨
      s.remote = .idle ∧ s.inStop = true ∧ s.stopCallback = some .whenStopRequestOnIoThread)

/-- The operation goes on, whether or not a stop item is on its way. -/
def Open (s : Op) : Prop :=
  s.started = true ∧ s.completions = [] ∧ (s.NoStop ∨ s.word = 2 ∧ s.Posting)

/-- The stop request was, or is being, carried out on the I/O thread. -/
def Handled (s : Op) : Prop :=
  s.started = true ∧ s.stopCalled = true ∧ s.inStop = false ∧ s.remote = .idle

/-- The stop request is being carried out, before anything was done for it. -/
def Handling (s : Op) : Prop := s.Handled ∧ s.completions = [] ∧ s.inCancel = false

/-- Nothing refers to the operation. -/
def Closed (s : Op) : Prop :=
  s.started = true ∧ s.inStop = false ∧ s.inCancel = false ∧
    (s.RemoteLate ∧ s.word = 1 ∧ (s.remote ≠ .idle → s.stopCalled = true) ∨
      s.stopCalled = true ∧ s.remote = .idle)

def Done (s : Op) : Prop :=
  s.Closed ∧ (s.Gone ∧ s.completions = [.stopped] ∨
    ∃ cqe, s.Landed cqe ∧ s.completions = [.ofCqe cqe])

/-- `start()` was not called, or is at it. -/
def Unstarted (s : Op) : Prop :=
  s.Gone ∧ s.waitingForSqe = false ∧ s.word = 0 ∧ s.inStop = false ∧ s.inCancel = false ∧
    s.started = false ∧ s.stopCalled = false ∧ s.completions = []

/-- The remote thread is at `start()`, or nothing was called. -/
def RemoteStart (s : Op) : Prop :=
  s.startCalled = false ∧ s.remote = .idle ∧ s.remoteEnqueued = false ∨
    s.startCalled = true ∧
      (s.remote = .startStoreExecute ∧ s.remoteEnqueued = false ∨
        s.remote = .startStoreEnqueued ∧ s.remoteEnqueued = false ∧
          s.callback = some .whenOnIoThread ∨
        s.remote = .startEnqueue ∧ s.remoteEnqueued = true ∧ s.callback = some .whenOnIoThread)

/-- Nothing was done for a stop request yet, and the CQE was not processed. -/
def Stoppable (s : Op) : Prop := s.Queued ∨ s.Waiting ∨ s.InFlight .whenOpCompleted

def IdleOk (s : Op) : Prop :=
  s.Unstarted ∧ s.RemoteStart ∨
    s.startCalled = true ∧
      (s.Stoppable ∧ s.Open ∨
        s.Nowhere ∧ s.Open ∧ s.word = 2 ∨
        s.Landed s.result ∧ s.started = true ∧ s.completions = [] ∧ s.word = 3 ∧ s.Posting ∨
        s.InFlight .whenOpCompletedNoRacesWithStop ∧ s.Handling ∨
        s.InFlight .whenOpCompletedWithStopWaitingForSqes ∧ s.Handled ∧ s.completions = [] ∧
          s.inCancel = true ∧ s.stopCallback = some .whenSqesAvailableForStop ∨
        s.Landed s.result ∧ s.Handled ∧ s.completions = [] ∧ s.inCancel = true ∧
          s.stopCallback = some .whenSqesAvailableForStopAlreadyCompleted ∨
        s.Done)

def IoOk (s : Op) : IoPc → Prop
  | .idle => s.IdleOk
  | .startLoad | .availableLoad => s.startCalled = true ∧ s.Nowhere ∧ s.Open
  | .trySubmit | .submit => s.startCalled = true ∧ s.Nowhere ∧
      (s.Unstarted ∧ s.remote = .idle ∨ s.Open)
  | .completedLoad cqe | .completedAdd cqe => s.startCalled = true ∧ s.Landed cqe ∧ s.Open
  | .completedStore cqe old =>
    s.startCalled = true ∧ s.Landed cqe ∧ s.Open ∧ s.word = 2 ∧ old = 2
  | .deliver cqe => s.startCalled = true ∧ s.Landed cqe ∧ s.Closed ∧ s.completions = []
  | .stopLoad => s.startCalled = true ∧ s.Handled ∧ s.inCancel = false ∧
      (s.word = 0 ∧ s.completions = [] ∧ s.Stoppable ∨ s.word = 1 ∧ s.Done)
  | .stopItemLoad => s.startCalled = true ∧ s.Handling ∧
      (s.word = 2 ∧ (s.Stoppable ∨ s.Nowhere) ∨ s.word = 3 ∧ s.Landed s.result)
  | .requestStop => s.startCalled = true ∧ s.Handling ∧ (s.Stoppable ∨ s.Nowhere)
  | .tryCancel => s.startCalled = true ∧ s.Handling ∧ s.InFlight .whenOpCompleted
  | .acquire => s.startCalled = true ∧ s.Handling ∧ s.Queued
  | .removeLocal => s.startCalled = true ∧ s.Handling ∧ s.Queued ∧ s.inReady = true
  | .removeWaiting => s.startCalled = true ∧ s.Handling ∧ s.Waiting
  | .setStopped => s.startCalled = true ∧ s.Handling ∧ s.Gone
  | .cancel => s.startCalled = true ∧ s.Handling ∧ s.InFlight .whenOpCompletedWithStopWaitingForSqes

structure Inv (s : Op) : Prop where
  io : s.IoOk s.io
  ok : s.fault = false

theorem inv_init : Inv {} where
  io := .inl ⟨⟨rfl, rfl, rfl, rfl, rfl, rfl⟩ |> fun h => ⟨h, rfl, rfl, rfl, rfl, rfl, rfl, rfl⟩,
    .inl ⟨rfl, rfl, rfl⟩⟩
  ok := rfl

variable {s t : Op}

/-- What `request_stop` does on the remote thread, at whatever stage it finds the operation. -/
theorem IoOk.stopRemote {pc : IoPc} {w : ℕ} {r : RemotePc} {c : Option StopCallback} {i b : Bool}
    (h : s.IoOk pc) (hhandled : ¬s.Handled) (hstart : ¬s.Unstarted)
    (hopen : s.Open → (s.word = 2 → w = 2) ∧
      { s with word := w, remote := r, stopCallback := c, inStop := i, stopCalled := b }.Open)
    (hposting : s.word = 3 → s.Posting → w = 3 ∧
      { s with word := w, remote := r, stopCallback := c, inStop := i, stopCalled := b }.Posting)
    (hclosed : s.Closed →
      { s with word := w, remote := r, stopCallback := c, inStop := i, stopCalled := b }.Closed) :
    { s with word := w, remote := r, stopCallback := c, inStop := i, stopCalled := b }.IoOk
      pc := by
  cases pc with
  | idle =>
    rcases h with ⟨h, -⟩ | ⟨hcalled, h⟩
    · exact absurd h hstart
    rcases h with ⟨hloc, h⟩ | ⟨hloc, h, hw⟩ | ⟨hloc, hst, hc, hw, h⟩ | ⟨-, h⟩ | ⟨-, h, -⟩ |
      ⟨-, h, -⟩ | ⟨h, hloc⟩
    · exact .inr ⟨hcalled, .inl ⟨hloc, (hopen h).2⟩⟩
    · exact .inr ⟨hcalled, .inr (.inl ⟨hloc, (hopen h).2, (hopen h).1 hw⟩)⟩
    · obtain ⟨hw', hp⟩ := hposting hw h
      exact .inr ⟨hcalled, .inr (.inr (.inl ⟨hloc, hst, hc, hw', hp⟩))⟩
    · exact absurd h.1 hhandled
    · exact absurd h hhandled
    · exact absurd h hhandled
    · exact .inr ⟨hcalled, .inr (.inr (.inr (.inr (.inr (.inr ⟨hclosed h, hloc⟩)))))⟩
  | startLoad | availableLoad | completedLoad cqe | completedAdd cqe =>
    exact ⟨h.1, h.2.1, (hopen h.2.2).2⟩
  | trySubmit | submit =>
    obtain ⟨hcalled, hloc, h | h⟩ := h
    · exact absurd h.1 hstart
    · exact ⟨hcalled, hloc, .inr (hopen h).2⟩
  | completedStore cqe old =>
    obtain ⟨hcalled, hloc, h, hw, hold⟩ := h
    exact ⟨hcalled, hloc, (hopen h).2, (hopen h).1 hw, hold⟩
  | deliver cqe => exact ⟨h.1, h.2.1, hclosed h.2.2.1, h.2.2.2⟩
  | stopLoad => exact absurd h.2.1 hhandled
  | _ => exact absurd h.2.1.1 hhandled

/-- A remote thread that is at a call is at `start()`, or at `request_stop()` at a stage that
depends on what the operation has come to. -/
theorem IoOk.stage {pc : IoPc} (h : s.IoOk pc) (hr : s.remote ≠ .idle) :
    pc = .idle ∧ s.Unstarted ∧ s.RemoteStart ∨
      ¬s.Unstarted ∧ (s.Open ∨ s.word = 3 ∧ s.Posting ∨ s.Closed) := by
  have hhandled : ¬s.Handled := fun hh => hr hh.2.2.2
  have hopen : s.Open → ¬s.Unstarted := fun ho hu => by
    have hst := ho.1
    rw [hu.2.2.2.2.2.1] at hst
    cases hst
  have hclosed : s.Closed → ¬s.Unstarted := fun hc hu => by
    have hst := hc.1
    rw [hu.2.2.2.2.2.1] at hst
    cases hst
  cases pc with
  | idle =>
    rcases h with ⟨hu, hs⟩ | ⟨-, h⟩
    · exact .inl ⟨rfl, hu, hs⟩
    right
    rcases h with ⟨-, h⟩ | ⟨-, h, -⟩ | ⟨-, hst, -, hw, h⟩ | ⟨-, h⟩ | ⟨-, h, -⟩ | ⟨-, h, -⟩ | ⟨h, -⟩
    · exact ⟨hopen h, .inl h⟩
    · exact ⟨hopen h, .inl h⟩
    · refine ⟨fun hu => ?_, .inr (.inl ⟨hw, h⟩)⟩
      rw [hu.2.2.2.2.2.1] at hst
      cases hst
    · exact absurd h.1 hhandled
    · exact absurd h hhandled
    · exact absurd h hhandled
    · exact ⟨hclosed h, .inr (.inr h)⟩
  | startLoad | availableLoad | completedLoad cqe | completedAdd cqe =>
    exact .inr ⟨hopen h.2.2, .inl h.2.2⟩
  | trySubmit | submit =>
    obtain ⟨-, -, h | h⟩ := h
    · exact absurd h.2 hr
    · exact .inr ⟨hopen h, .inl h⟩
  | completedStore cqe old => exact .inr ⟨hopen h.2.2.1, .inl h.2.2.1⟩
  | deliver cqe => exact .inr ⟨hclosed h.2.2.1, .inr (.inr h.2.2.1)⟩
  | stopLoad => exact absurd h.2.1 hhandled
  | _ => exact absurd h.2.1.1 hhandled

theorem IoOk.remoteStep (h : s.IoOk s.io) (ht : s.remoteStep = some t) : t.IoOk t.io := by
  by_cases hr : s.remote = .idle
  · simp [Op.remoteStep, hr] at ht
  rcases h.stage hr with ⟨hio, hu, hs⟩ | ⟨hu, hstage⟩
  · -- at `start()`
    obtain ⟨-, hs, -⟩ | ⟨hcalled, ⟨hs, he⟩ | ⟨hs, he, hc⟩ | ⟨hs, he, hc⟩⟩ := hs
    · exact absurd hs hr
    · simp only [Op.remoteStep, hs, Option.some.injEq] at ht
      subst ht
      simp only [hio]
      exact .inl ⟨hu, .inr ⟨hcalled, .inr (.inl ⟨rfl, he, rfl⟩)⟩⟩
    · simp only [Op.remoteStep, hs, Option.some.injEq] at ht
      subst ht
      simp only [hio]
      exact .inl ⟨hu, .inr ⟨hcalled, .inr (.inr ⟨rfl, rfl, hc⟩)⟩⟩
    · simp only [Op.remoteStep, hs, Option.some.injEq] at ht
      subst ht
      simp only [hio]
      obtain ⟨⟨h1, h2, h3, h4, h5, h6⟩, h7, h8, h9, h10, h11, h12, h13⟩ := hu
      refine .inr ⟨hcalled, .inl ⟨.inl ⟨.inl ⟨rfl, h2⟩, h3, he, h7, h4, h5, h6, hc⟩, rfl, h13,
        .inl ⟨h8, h9, h10, .inl rfl, ?_⟩⟩⟩
      simp
  · -- at `request_stop()`
    have hhandled : ¬s.Handled := fun hh => hr hh.2.2.2
    cases hpc : s.remote with
    | idle => exact absurd hpc hr
    | startStoreExecute | startStoreEnqueued | startEnqueue =>
      simp [Open, NoStop, Posting, Closed, RemoteLate, hpc] at hstage
    | stopLoad =>
      simp only [Op.remoteStep, hpc, Option.some.injEq] at ht
      subst ht
      refine h.stopRemote hhandled hu (fun ho => ?_) (fun _ hp => ?_) fun hc => ?_
      · obtain ⟨hst, hcomp, ⟨hw, h1, h2, -, h3⟩ | ⟨-, -, -, hp⟩⟩ := ho
        · refine ⟨fun hw' => by omega, hst, hcomp, .inl ⟨hw, h1, h2, ?_, fun _ => h3 hr⟩⟩
          simp [hw, hasFlag, completedFlag, RemoteLate]
        · simp [hpc] at hp
      · simp [Posting, hpc] at hp
      · obtain ⟨hst, h1, h2, ⟨-, hw, h3⟩ | ⟨-, hidle⟩⟩ := hc
        · refine ⟨hst, h1, h2, .inl ⟨?_, hw, fun _ => h3 hr⟩⟩
          simp [hw, hasFlag, completedFlag, RemoteLate]
        · exact absurd hidle hr
    | stopAdd =>
      simp only [Op.remoteStep, hpc, Option.some.injEq] at ht
      subst ht
      refine h.stopRemote hhandled hu (fun ho => ?_) (fun _ hp => ?_) fun hc => ?_
      · obtain ⟨hst, hcomp, ⟨hw, h1, h2, -, h3⟩ | ⟨-, -, -, hp⟩⟩ := ho
        · refine ⟨fun hw' => by omega, hst, hcomp, .inr ⟨?_, h3 hr, h2, .inl ⟨?_, h1⟩⟩⟩
          · simp [hw, fetchAdd, stateBits, stopRequestEnqueuedFlag]
          · simp [hw, hasFlag, completedFlag]
        · simp [hpc] at hp
      · simp [Posting, hpc] at hp
      · obtain ⟨hst, h1, h2, ⟨-, hw, h3⟩ | ⟨-, hidle⟩⟩ := hc
        · refine ⟨hst, h1, h2, .inr ⟨h3 hr, ?_⟩⟩
          simp [hw, hasFlag, completedFlag]
        · exact absurd hidle hr
    | stopStore =>
      simp only [Op.remoteStep, hpc, Option.some.injEq] at ht
      subst ht
      have hpost : s.Posting → Posting { s with
          stopCallback := some .whenStopRequestOnIoThread, remote := .stopEnqueue } := by
        rintro ⟨h1, h2, ⟨-, h3⟩ | ⟨h3, -⟩ | ⟨h3, -⟩⟩
        · exact ⟨h1, h2, .inr (.inl ⟨rfl, h3, rfl⟩)⟩
        · simp [hpc] at h3
        · simp [hpc] at h3
      refine h.stopRemote hhandled hu (fun ho => ?_) (fun hw hp => ⟨hw, hpost hp⟩) fun hc => ?_
      · obtain ⟨hst, hcomp, ⟨-, -, -, hlate, -⟩ | ⟨hw, hp⟩⟩ := ho
        · simp [RemoteLate, hpc] at hlate
        · exact ⟨fun _ => hw, hst, hcomp, .inr ⟨hw, hpost hp⟩⟩
      · simp [Closed, RemoteLate, hpc] at hc
    | stopEnqueue =>
      simp only [Op.remoteStep, hpc, Option.some.injEq] at ht
      subst ht
      have hpost : s.Posting → Posting { s with inStop := true, remote := .idle } := by
        rintro ⟨h1, h2, ⟨h3, -⟩ | ⟨-, -, h3⟩ | ⟨h3, -⟩⟩
        · simp [hpc] at h3
        · exact ⟨h1, h2, .inr (.inr ⟨rfl, rfl, h3⟩)⟩
        · simp [hpc] at h3
      refine h.stopRemote hhandled hu (fun ho => ?_) (fun hw hp => ⟨hw, hpost hp⟩) fun hc => ?_
      · obtain ⟨hst, hcomp, ⟨-, -, -, hlate, -⟩ | ⟨hw, hp⟩⟩ := ho
        · simp [RemoteLate, hpc] at hlate
        · exact ⟨fun _ => hw, hst, hcomp, .inr ⟨hw, hpost hp⟩⟩
      · simp [Closed, RemoteLate, hpc] at hc

end Squiz.LinuxOS.IoUringOperation.Op
