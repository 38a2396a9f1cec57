import Squiz.LinuxOS.ScheduleAt

/-! When a stop request leaves a `schedule_at` operation in the right queues. -/
namespace Squiz.LinuxOS.ScheduleAt
open Squiz.Lib Squiz.Lib.Word

namespace Op

/-- What the claimed protocol keeps: one completion, and each removal from the queue that the
operation is in. -/
structure Safe (s : Op) : Prop where
  completedOnce : s.completions.length ≤ 1
  removeLocal : s.io = .removeLocal → s.inReady = true
  removeTimeOp : s.io = .removeTimeOp → s.inTimer = true
  completing : ∀ signal, s.io = .complete signal →
    s.inRemote = false ∧ s.inReady = false ∧ s.inTimer = false ∧ s.inStop = false

/-- `when_timer_elapsed` stores `execute_stop` without having set `completed_flag`, while the remote
thread has set its flag and not yet stored `execute_stop`. -/
def earlyStore (s : Op) : Act → Bool
  | .io => decide (s.io = .elapsedStoreStop) && decide (s.remote = .stopStore) &&
      !hasFlag s.word completedFlag
  | _ => false

/-- In no queue that is linked through `next`. -/
def Unqueued (s : Op) : Prop := s.inRemote = false ∧ s.inReady = false ∧ s.inTimer = false

/-- On the way to the I/O thread. -/
def Queued (s : Op) : Prop :=
  (s.inRemote = true ∧ s.inReady = false ∨ s.inRemote = false ∧ s.inReady = true) ∧
    s.inTimer = false ∧ s.remoteEnqueued = true ∧ s.execute = some .whenOnIoContext

def Timed (s : Op) : Prop :=
  s.inRemote = false ∧ s.inReady = false ∧ s.inTimer = true ∧ s.remoteEnqueued = false ∧
    s.execute = some .whenTimerElapsed

def Elapsed (s : Op) : Prop := s.Unqueued ∧ s.remoteEnqueued = false

/-- The remote thread is in `request_stop`, or no stop was requested there. -/
def RemoteLate (s : Op) : Prop := s.remote = .idle ∨ s.remote = .stopLoad ∨ s.remote = .stopAdd

/-- No stop request has got as far as the word. -/
def NoStop (s : Op) : Prop :=
  s.word = 0 ∧ s.inStop = false ∧ s.RemoteLate ∧ (s.remote ≠ .idle → s.stopCalled = true)

/-- The remote thread has set its flag in the word, and its stop item was not executed yet. -/
def Posting (s : Op) : Prop :=
  s.stopCalled = true ∧
    (s.remote = .stopStore ∧ s.inStop = false ∨
      s.remote = .stopEnqueue ∧ s.inStop = false ∧ s.executeStop.isSome = true ∨
      s.remote = .idle ∧ s.inStop = true ∧ s.executeStop.isSome = true)

/-- The stop item will run `on_stop_before_complete`. -/
def WithBefore (s : Op) : Prop :=
  s.remote ≠ .stopStore → s.executeStop = some .onStopBeforeComplete

/-- The operation goes on, whether or not a stop item is on its way. -/
def Open (s : Op) : Prop :=
  s.completions = [] ∧ s.started = true ∧ (s.NoStop ∨ s.word = 1 ∧ s.Posting ∧ s.WithBefore)

/-- The timer has elapsed and the completion is left to the stop item. -/
def Parked (s : Op) : Prop :=
  s.completions = [] ∧ s.started = true ∧ s.Elapsed ∧ s.Posting ∧
    (s.word = 1 ∧ s.remote ≠ .stopStore ∧ s.executeStop = some .onStopAfterComplete ∨ s.word = 3)

/-- The stop request is being carried out on the I/O thread. -/
def Handling (s : Op) : Prop :=
  s.completions = [] ∧ s.started = true ∧ s.stopCalled = true ∧ s.inStop = false ∧
    s.remote = .idle ∧ s.word ∈ [0, 1, 3]

/-- The operation has completed, or is to complete with a value: a stop request finds
`completed_flag`, or was carried out. -/
def Closed (s : Op) : Prop :=
  s.started = true ∧ s.Unqueued ∧ s.inStop = false ∧
    (s.RemoteLate ∧ s.word = 2 ∧ (s.remote ≠ .idle → s.stopCalled = true) ∨
      s.stopCalled = true ∧ s.remote = .idle)

/-- `start_impl()` was not called, or is at it on the remote thread. -/
def Unstarted (s : Op) : Prop :=
  s.Unqueued ∧ s.word = 0 ∧ s.inStop = false ∧ s.started = false ∧ s.stopCalled = false ∧
    s.completions = []

def IoOk (s : Op) : IoPc → Prop
  | .idle =>
    s.Unstarted ∧ (s.startCalled = false ∧ s.remote = .idle ∨
        s.startCalled = true ∧ (s.remote = .startStoreEnqueued ∨
          s.remote = .startStoreExecute ∧ s.remoteEnqueued = true ∨
          s.remote = .startEnqueue ∧ s.remoteEnqueued = true ∧
            s.execute = some .whenOnIoContext)) ∨
      s.startCalled = true ∧ (s.Queued ∧ s.Open ∨ s.Timed ∧ s.Open ∨ s.Parked ∨
        s.completions.length = 1 ∧ s.Closed)
  | .storeEnqueued => s.startCalled = true ∧ s.Unqueued ∧
      (s.Unstarted ∧ s.remote = .idle ∨ s.Open)
  | .storeExecute => s.startCalled = true ∧ s.Elapsed ∧ (s.Unstarted ∧ s.remote = .idle ∨ s.Open)
  | .scheduleAt => s.startCalled = true ∧ s.Elapsed ∧ s.execute = some .whenTimerElapsed ∧
      (s.Unstarted ∧ s.remote = .idle ∨ s.Open)
  | .elapsedLoad | .elapsedAdd => s.startCalled = true ∧ s.Elapsed ∧ s.Open
  | .elapsedStoreStop => s.startCalled = true ∧ s.completions = [] ∧ s.started = true ∧
      s.Elapsed ∧ s.Posting ∧ (s.word = 1 ∨ s.word = 3)
  | .stopLoad => s.startCalled = true ∧
      ((s.Queued ∨ s.Timed) ∧ s.Handling ∧ s.word = 0 ∨
        s.completions.length = 1 ∧ s.Closed ∧ s.word = 2 ∧ s.stopCalled = true ∧
          s.remote = .idle)
  | .readEnqueued => s.startCalled = true ∧ s.Handling ∧
      (s.Queued ∨ s.Timed ∧ s.word ≠ 3 ∨ s.Elapsed ∧ s.word = 3)
  | .acquire => s.startCalled = true ∧ s.Handling ∧ s.Queued
  | .removeLocal => s.startCalled = true ∧ s.Handling ∧ s.Queued ∧ s.inReady = true
  | .loadCompleted => s.startCalled = true ∧ s.Handling ∧
      (s.Timed ∧ s.word ≠ 3 ∨ s.Elapsed ∧ s.word = 3)
  | .removeTimeOp => s.startCalled = true ∧ s.Handling ∧ s.Timed
  | .complete _ => s.startCalled = true ∧ s.completions = [] ∧ s.Closed

abbrev Inv (s : Op) : Prop := s.IoOk s.io

variable {s t : Op}

theorem Inv.safe (hi : s.Inv) : s.Safe where
  completedOnce := by
    cases hpc : s.io with
    | idle =>
      rw [Inv, hpc] at hi
      rcases hi with ⟨⟨-, -, -, -, -, h⟩, -⟩ |
        ⟨-, ⟨-, h, -⟩ | ⟨-, h, -⟩ | ⟨h, -⟩ | ⟨h, -⟩⟩ <;> simp [h]
    | storeEnqueued | storeExecute =>
      rw [Inv, hpc] at hi
      rcases hi with ⟨-, -, ⟨⟨-, -, -, -, -, h⟩, -⟩ | ⟨h, -⟩⟩ <;> simp [h]
    | scheduleAt =>
      rw [Inv, hpc] at hi
      rcases hi with ⟨-, -, -, ⟨⟨-, -, -, -, -, h⟩, -⟩ | ⟨h, -⟩⟩ <;> simp [h]
    | elapsedLoad | elapsedAdd =>
      rw [Inv, hpc] at hi
      simp [hi.2.2.1]
    | elapsedStoreStop =>
      rw [Inv, hpc] at hi
      simp [hi.2.1]
    | stopLoad =>
      rw [Inv, hpc] at hi
      rcases hi with ⟨-, ⟨-, h, -⟩ | ⟨h, -⟩⟩
      · simp [h.1]
      · exact h.le
    | readEnqueued | acquire | removeLocal | loadCompleted | removeTimeOp =>
      rw [Inv, hpc] at hi
      simp [hi.2.1.1]
    | complete signal =>
      rw [Inv, hpc] at hi
      simp [hi.2.1]
  removeLocal := by
    intro hpc
    rw [Inv, hpc] at hi
    exact hi.2.2.2
  removeTimeOp := by
    intro hpc
    rw [Inv, hpc] at hi
    exact hi.2.2.2.2.1
  completing := by
    intro signal hpc
    rw [Inv, hpc] at hi
    obtain ⟨-, -, -, ⟨h1, h2, h3⟩, h4, -⟩ := hi
    exact ⟨h1, h2, h3, h4⟩

theorem Inv.of_io {p : IoPc} (hpc : s.io = p) (h : s.IoOk p) : s.Inv := by
  rwa [Inv, hpc]

theorem Inv.initial : Inv {} :=
  .inl ⟨⟨⟨rfl, rfl, rfl⟩, rfl, rfl, rfl, rfl, rfl⟩, .inl ⟨rfl, rfl⟩⟩

/-! Steps of the remote thread -/

/-- What the remote thread's `request_stop` leaves alone. -/
def RemoteSame (s t : Op) : Prop :=
  t.io = s.io ∧ t.remoteEnqueued = s.remoteEnqueued ∧ t.execute = s.execute ∧
    t.inRemote = s.inRemote ∧ t.inReady = s.inReady ∧ t.inTimer = s.inTimer ∧
    t.startCalled = s.startCalled ∧ t.started = s.started ∧ t.stopCalled = s.stopCalled ∧
    t.completions = s.completions

theorem RemoteSame.queues (h : RemoteSame s t) : (t.Queued ↔ s.Queued) ∧ (t.Timed ↔ s.Timed) ∧
    (t.Elapsed ↔ s.Elapsed) ∧ (t.Unqueued ↔ s.Unqueued) := by
  obtain ⟨-, h1, h2, h3, h4, h5, -⟩ := h
  unfold Queued Timed Elapsed Unqueued
  rw [h1, h2, h3, h4, h5]
  exact ⟨Iff.rfl, Iff.rfl, Iff.rfl, Iff.rfl⟩

/-- A step of `request_stop` on the remote thread, while the timer has not elapsed. -/
theorem Open.remote (h : s.Open) (ht : s.remoteStep = some t) : t.Open ∧ RemoteSame s t := by
  obtain ⟨hnil, hstarted, h⟩ := h
  unfold remoteStep at ht
  rcases h with ⟨hword, hstop, hlate, hcalled⟩ | ⟨hword, ⟨hcalled, hposting⟩, hbefore⟩
  · rcases hlate with hr | hr | hr
    · rw [hr] at ht
      cases ht
    · rw [hr, hword] at ht
      cases ht
      exact ⟨⟨hnil, hstarted, .inl ⟨rfl, hstop, .inr (.inr rfl),
        fun _ => hcalled (by simp [hr])⟩⟩, rfl, rfl, rfl, rfl, rfl, rfl, rfl, rfl, rfl, rfl⟩
    · rw [hr, hword] at ht
      cases ht
      exact ⟨⟨hnil, hstarted, .inr ⟨rfl, ⟨hcalled (by simp [hr]), .inl ⟨rfl, hstop⟩⟩,
        fun hne => absurd rfl hne⟩⟩, rfl, rfl, rfl, rfl, rfl, rfl, rfl, rfl, rfl, rfl⟩
  · rcases hposting with ⟨hr, hstop⟩ | ⟨hr, hstop, hsome⟩ | ⟨hr, -⟩
    · rw [hr] at ht
      cases ht
      exact ⟨⟨hnil, hstarted, .inr ⟨hword, ⟨hcalled, .inr (.inl ⟨rfl, hstop, rfl⟩)⟩,
        fun _ => rfl⟩⟩, rfl, rfl, rfl, rfl, rfl, rfl, rfl, rfl, rfl, rfl⟩
    · rw [hr] at ht
      cases ht
      exact ⟨⟨hnil, hstarted, .inr ⟨hword, ⟨hcalled, .inr (.inr ⟨rfl, rfl, hsome⟩)⟩,
        fun _ => hbefore (by simp [hr])⟩⟩, rfl, rfl, rfl, rfl, rfl, rfl, rfl, rfl, rfl, rfl⟩
    · rw [hr] at ht
      cases ht

/-- A step of `request_stop` after its flag was set. -/
theorem Posting.remote (h : s.Posting) (ht : s.remoteStep = some t) :
    t.Posting ∧ RemoteSame s t ∧ t.word = s.word ∧
      (s.remote ≠ .stopStore → t.remote ≠ .stopStore ∧ t.executeStop = s.executeStop) := by
  obtain ⟨hcalled, hposting⟩ := h
  unfold remoteStep at ht
  rcases hposting with ⟨hr, hstop⟩ | ⟨hr, hstop, hsome⟩ | ⟨hr, -⟩
  · rw [hr] at ht
    cases ht
    exact ⟨⟨hcalled, .inr (.inl ⟨rfl, hstop, rfl⟩)⟩,
      ⟨rfl, rfl, rfl, rfl, rfl, rfl, rfl, rfl, rfl, rfl⟩, rfl, fun hne => absurd hr hne⟩
  · rw [hr] at ht
    cases ht
    exact ⟨⟨hcalled, .inr (.inr ⟨rfl, rfl, hsome⟩)⟩,
      ⟨rfl, rfl, rfl, rfl, rfl, rfl, rfl, rfl, rfl, rfl⟩, rfl, fun _ => ⟨by simp, rfl⟩⟩
  · rw [hr] at ht
    cases ht

theorem Parked.remote (h : s.Parked) (ht : s.remoteStep = some t) :
    t.Parked ∧ RemoteSame s t := by
  obtain ⟨hnil, hstarted, helapsed, hposting, hword⟩ := h
  obtain ⟨hposting', hsame, hword', hkeep⟩ := hposting.remote ht
  obtain ⟨-, -, -, -, -, -, -, h8, -, h10⟩ := id hsame
  refine ⟨⟨h10.trans hnil, h8.trans hstarted, hsame.queues.2.2.1.mpr helapsed, hposting', ?_⟩,
    hsame⟩
  rcases hword with ⟨h1, hr, hafter⟩ | h3
  · obtain ⟨hr', hstop'⟩ := hkeep hr
    exact .inl ⟨hword'.trans h1, hr', hstop'.trans hafter⟩
  · exact .inr (hword'.trans h3)

/-- A stop request that comes too late. -/
theorem Closed.remote (h : s.Closed) (ht : s.remoteStep = some t) :
    t.Closed ∧ RemoteSame s t := by
  obtain ⟨hstarted, hqueues, hstop, h⟩ := h
  unfold remoteStep at ht
  rcases h with ⟨hlate, hword, hcalled⟩ | ⟨-, hr⟩
  · rcases hlate with hr | hr | hr
    · rw [hr] at ht
      cases ht
    · have hcalled := hcalled (by simp [hr])
      rw [hr, hword] at ht
      cases ht
      exact ⟨⟨hstarted, hqueues, hstop, .inr ⟨hcalled, rfl⟩⟩,
        rfl, rfl, rfl, rfl, rfl, rfl, rfl, rfl, rfl, rfl⟩
    · have hcalled := hcalled (by simp [hr])
      rw [hr, hword] at ht
      cases ht
      exact ⟨⟨hstarted, hqueues, hstop, .inr ⟨hcalled, rfl⟩⟩,
        rfl, rfl, rfl, rfl, rfl, rfl, rfl, rfl, rfl, rfl⟩
  · rw [hr] at ht
    cases ht

/-- Where the remote thread is not in a call, it takes no step. -/
theorem remoteStep_idle (h : s.remote = .idle) : s.remoteStep = none := by
  unfold remoteStep
  rw [h]

theorem Inv.remoteStep (hi : s.Inv) (ht : s.remoteStep = some t) : t.Inv := by
  have hbusy : s.remote ≠ .idle := by
    intro hr
    rw [remoteStep_idle hr] at ht
    cases ht
  cases hpc : s.io with
  | idle =>
    rw [Inv, hpc] at hi
    rcases hi with ⟨hun, ⟨-, hr⟩ | ⟨hcalled, hr⟩⟩ | ⟨hcalled, h | h | h | h⟩
    · exact absurd hr hbusy
    · -- `start_impl()` on the remote thread
      unfold Op.remoteStep at ht
      rcases hr with hr | ⟨hr, henq⟩ | ⟨hr, henq, hexe⟩
      · rw [hr] at ht
        cases ht
        rw [Inv, hpc]
        exact .inl ⟨hun, .inr ⟨hcalled, .inr (.inl ⟨rfl, rfl⟩)⟩⟩
      · rw [hr] at ht
        cases ht
        rw [Inv, hpc]
        exact .inl ⟨hun, .inr ⟨hcalled, .inr (.inr ⟨rfl, henq, rfl⟩)⟩⟩
      · rw [hr] at ht
        cases ht
        rw [Inv, hpc]
        obtain ⟨⟨-, hready, htimer⟩, hword, hstop, -, -, hnil⟩ := hun
        exact .inr ⟨hcalled, .inl ⟨⟨.inl ⟨rfl, hready⟩, htimer, henq, hexe⟩, hnil, rfl,
          .inl ⟨hword, hstop, .inl rfl, fun hne => absurd rfl hne⟩⟩⟩
    · obtain ⟨hopen, hsame⟩ := h.2.remote ht
      rw [Inv, hsame.1, hpc]
      exact .inr ⟨hsame.2.2.2.2.2.2.1.trans hcalled, .inl ⟨hsame.queues.1.mpr h.1, hopen⟩⟩
    · obtain ⟨hopen, hsame⟩ := h.2.remote ht
      rw [Inv, hsame.1, hpc]
      exact .inr ⟨hsame.2.2.2.2.2.2.1.trans hcalled,
        .inr (.inl ⟨hsame.queues.2.1.mpr h.1, hopen⟩)⟩
    · obtain ⟨hparked, hsame⟩ := h.remote ht
      rw [Inv, hsame.1, hpc]
      exact .inr ⟨hsame.2.2.2.2.2.2.1.trans hcalled, .inr (.inr (.inl hparked))⟩
    · obtain ⟨hclosed, hsame⟩ := h.2.remote ht
      rw [Inv, hsame.1, hpc]
      refine .inr ⟨hsame.2.2.2.2.2.2.1.trans hcalled, .inr (.inr (.inr ⟨?_, hclosed⟩))⟩
      rw [hsame.2.2.2.2.2.2.2.2.2]
      exact h.1
  | storeEnqueued =>
    rw [Inv, hpc] at hi
    obtain ⟨hcalled, hqueues, ⟨-, hr⟩ | h⟩ := hi
    · exact absurd hr hbusy
    · obtain ⟨hopen, hsame⟩ := h.remote ht
      rw [Inv, hsame.1, hpc]
      exact ⟨hsame.2.2.2.2.2.2.1.trans hcalled, hsame.queues.2.2.2.mpr hqueues, .inr hopen⟩
  | storeExecute =>
    rw [Inv, hpc] at hi
    obtain ⟨hcalled, hqueues, ⟨-, hr⟩ | h⟩ := hi
    · exact absurd hr hbusy
    · obtain ⟨hopen, hsame⟩ := h.remote ht
      rw [Inv, hsame.1, hpc]
      exact ⟨hsame.2.2.2.2.2.2.1.trans hcalled, hsame.queues.2.2.1.mpr hqueues, .inr hopen⟩
  | scheduleAt =>
    rw [Inv, hpc] at hi
    obtain ⟨hcalled, hqueues, hexe, ⟨-, hr⟩ | h⟩ := hi
    · exact absurd hr hbusy
    · obtain ⟨hopen, hsame⟩ := h.remote ht
      rw [Inv, hsame.1, hpc]
      exact ⟨hsame.2.2.2.2.2.2.1.trans hcalled, hsame.queues.2.2.1.mpr hqueues,
        hsame.2.2.1.trans hexe, .inr hopen⟩
  | elapsedLoad | elapsedAdd =>
    rw [Inv, hpc] at hi
    obtain ⟨hcalled, helapsed, h⟩ := hi
    obtain ⟨hopen, hsame⟩ := h.remote ht
    rw [Inv, hsame.1, hpc]
    exact ⟨hsame.2.2.2.2.2.2.1.trans hcalled, hsame.queues.2.2.1.mpr helapsed, hopen⟩
  | elapsedStoreStop =>
    rw [Inv, hpc] at hi
    obtain ⟨hcalled, hnil, hstarted, helapsed, hposting, hword⟩ := hi
    obtain ⟨hposting', hsame, hword', -⟩ := hposting.remote ht
    rw [Inv, hsame.1, hpc]
    obtain ⟨-, -, -, -, -, -, h7, h8, -, h10⟩ := id hsame
    refine ⟨h7.trans hcalled, h10.trans hnil, h8.trans hstarted,
      hsame.queues.2.2.1.mpr helapsed, hposting', ?_⟩
    rwa [hword']
  | stopLoad =>
    rw [Inv, hpc] at hi
    obtain ⟨-, ⟨-, h, -⟩ | ⟨-, -, -, -, hr⟩⟩ := hi
    · exact absurd h.2.2.2.2.1 hbusy
    · exact absurd hr hbusy
  | readEnqueued | acquire | removeLocal | loadCompleted | removeTimeOp =>
    rw [Inv, hpc] at hi
    exact absurd hi.2.1.2.2.2.2.1 hbusy
  | complete signal =>
    rw [Inv, hpc] at hi
    obtain ⟨hcalled, hnil, hclosed⟩ := hi
    obtain ⟨hclosed', hsame⟩ := hclosed.remote ht
    rw [Inv, hsame.1, hpc]
    obtain ⟨-, -, -, -, -, -, h7, -, -, h10⟩ := id hsame
    exact ⟨h7.trans hcalled, h10.trans hnil, hclosed'⟩

/-! Steps of the I/O thread -/

theorem Inv.startLocal (hi : s.Inv) (hcalled : s.startCalled = false) (hpc : s.io = .idle) :
    Inv { s with startCalled := true, io := .storeEnqueued } := by
  rw [Inv, hpc] at hi
  rcases hi with ⟨hun, ⟨-, hr⟩ | ⟨h, -⟩⟩ | ⟨h, -⟩
  · exact ⟨rfl, hun.1, .inl ⟨hun, hr⟩⟩
  · rw [hcalled] at h
    cases h
  · rw [hcalled] at h
    cases h

theorem Inv.startRemote (hi : s.Inv) (hcalled : s.startCalled = false) :
    Inv { s with startCalled := true, remote := .startStoreEnqueued } := by
  have hno : s.startCalled ≠ true := by simp [hcalled]
  cases hpc : s.io with
  | idle =>
    rw [Inv, hpc] at hi
    rcases hi with ⟨hun, -⟩ | ⟨h, -⟩
    · exact Inv.of_io rfl (.inl ⟨hun, .inr ⟨rfl, .inl rfl⟩⟩)
    · exact absurd h hno
  | _ =>
    rw [Inv, hpc] at hi
    exact absurd hi.1 hno

/-- Before any `request_stop()`, an operation that goes on has none in its word. -/
theorem Open.handling (h : s.Open) (hcalled : s.stopCalled = false) :
    Handling { s with stopCalled := true, io := .stopLoad } ∧ s.word = 0 := by
  obtain ⟨hnil, hstarted, ⟨hword, hstop, -, hr⟩ | ⟨-, ⟨h, -⟩, -⟩⟩ := h
  · have hidle : s.remote = .idle := by
      by_contra hne
      have := hr hne
      rw [hcalled] at this
      cases this
    exact ⟨⟨hnil, hstarted, rfl, hstop, hidle, by simp [hword]⟩, hword⟩
  · rw [hcalled] at h
    cases h

theorem Inv.stopLocal (hi : s.Inv) (hstarted : s.started = true) (hcalled : s.stopCalled = false)
    (hpc : s.io = .idle) : Inv { s with stopCalled := true, io := .stopLoad } := by
  rw [Inv, hpc] at hi
  rcases hi with ⟨⟨-, -, -, h, -⟩, -⟩ | ⟨hc, ⟨hq, h⟩ | ⟨hq, h⟩ | ⟨-, -, -, ⟨h, -⟩, -⟩ | ⟨hlen, h⟩⟩
  · rw [hstarted] at h
    cases h
  · obtain ⟨hhandling, hword⟩ := h.handling hcalled
    exact ⟨hc, .inl ⟨.inl hq, hhandling, hword⟩⟩
  · obtain ⟨hhandling, hword⟩ := h.handling hcalled
    exact ⟨hc, .inl ⟨.inr hq, hhandling, hword⟩⟩
  · rw [hcalled] at h
    cases h
  · obtain ⟨hst, hqueues, hstop, ⟨-, hword, hr⟩ | ⟨h, -⟩⟩ := h
    · have hidle : s.remote = .idle := by
        by_contra hne
        have := hr hne
        rw [hcalled] at this
        cases this
      exact ⟨hc, .inr ⟨hlen, ⟨hst, hqueues, hstop, .inr ⟨rfl, hidle⟩⟩, hword, rfl, hidle⟩⟩
    · rw [hcalled] at h
      cases h

theorem Open.stopRemote (h : s.Open) (hcalled : s.stopCalled = false) :
    Open { s with stopCalled := true, remote := .stopLoad } := by
  obtain ⟨hnil, hstarted, ⟨hword, hstop, -, -⟩ | ⟨-, ⟨h, -⟩, -⟩⟩ := h
  · exact ⟨hnil, hstarted, .inl ⟨hword, hstop, .inr (.inl rfl), fun _ => rfl⟩⟩
  · rw [hcalled] at h
    cases h

theorem Closed.stopRemote (h : s.Closed) (hcalled : s.stopCalled = false) :
    Closed { s with stopCalled := true, remote := .stopLoad } := by
  obtain ⟨hstarted, hqueues, hstop, ⟨-, hword, -⟩ | ⟨h, -⟩⟩ := h
  · exact ⟨hstarted, hqueues, hstop, .inl ⟨.inr (.inl rfl), hword, fun _ => rfl⟩⟩
  · rw [hcalled] at h
    cases h

theorem Inv.stopRemote (hi : s.Inv) (hstarted : s.started = true) (hcalled : s.stopCalled = false) :
    Inv { s with stopCalled := true, remote := .stopLoad } := by
  have hno : s.stopCalled ≠ true := by simp [hcalled]
  have hun : ¬ s.Unstarted := by
    rintro ⟨-, -, -, h, -⟩
    rw [hstarted] at h
    cases h
  cases hpc : s.io with
  | idle =>
    rw [Inv, hpc] at hi
    refine Inv.of_io rfl ?_
    rcases hi with ⟨h, -⟩ | ⟨hc, ⟨hq, h⟩ | ⟨hq, h⟩ | ⟨-, -, -, ⟨h, -⟩, -⟩ | ⟨hlen, h⟩⟩
    · exact absurd h hun
    · exact .inr ⟨hc, .inl ⟨hq, h.stopRemote hcalled⟩⟩
    · exact .inr ⟨hc, .inr (.inl ⟨hq, h.stopRemote hcalled⟩)⟩
    · exact absurd h hno
    · exact .inr ⟨hc, .inr (.inr (.inr ⟨hlen, h.stopRemote hcalled⟩))⟩
  | storeEnqueued | storeExecute =>
    rw [Inv, hpc] at hi
    refine Inv.of_io rfl ?_
    obtain ⟨hc, hq, ⟨h, -⟩ | h⟩ := hi
    · exact absurd h hun
    · exact ⟨hc, hq, .inr (h.stopRemote hcalled)⟩
  | scheduleAt =>
    rw [Inv, hpc] at hi
    refine Inv.of_io rfl ?_
    obtain ⟨hc, hq, hexe, ⟨h, -⟩ | h⟩ := hi
    · exact absurd h hun
    · exact ⟨hc, hq, hexe, .inr (h.stopRemote hcalled)⟩
  | elapsedLoad | elapsedAdd =>
    rw [Inv, hpc] at hi
    obtain ⟨hc, hq, h⟩ := hi
    exact Inv.of_io rfl ⟨hc, hq, h.stopRemote hcalled⟩
  | elapsedStoreStop =>
    rw [Inv, hpc] at hi
    exact absurd hi.2.2.2.2.1.1 hno
  | stopLoad =>
    rw [Inv, hpc] at hi
    obtain ⟨-, ⟨-, h, -⟩ | ⟨-, -, -, h, -⟩⟩ := hi
    · exact absurd h.2.2.1 hno
    · exact absurd h hno
  | readEnqueued | acquire | removeLocal | loadCompleted | removeTimeOp =>
    rw [Inv, hpc] at hi
    exact absurd hi.2.1.2.2.1 hno
  | complete signal =>
    rw [Inv, hpc] at hi
    obtain ⟨hc, hnil, h⟩ := hi
    exact Inv.of_io rfl ⟨hc, hnil, h.stopRemote hcalled⟩

/-- `acquire_remote_items()` leaves the operation where its record says it is. -/
theorem Queued.acquire (h : s.Queued) :
    Queued s.acquireRemoteItems ∧ s.acquireRemoteItems.inReady = true := by
  obtain ⟨hq, htimer, henq, hexe⟩ := h
  have hready : (s.inReady || s.inRemote) = true := by
    rcases hq with ⟨h1, -⟩ | ⟨-, h2⟩
    · simp [h1]
    · simp [h2]
  exact ⟨⟨.inr ⟨rfl, hready⟩, htimer, henq, hexe⟩, hready⟩

theorem acquire_of_not_remote (h : s.inRemote = false) : s.acquireRemoteItems = s := by
  unfold acquireRemoteItems
  rw [h, Bool.or_false, ← h]

theorem Inv.acquire (hi : s.Inv) (hpc : s.io = .idle) : s.acquireRemoteItems.Inv := by
  rw [Inv, hpc] at hi
  refine Inv.of_io hpc ?_
  rcases hi with ⟨hun, h⟩ | ⟨hc, ⟨hq, h⟩ | ⟨hq, h⟩ | h | ⟨hlen, h⟩⟩
  · rw [acquire_of_not_remote hun.1.1]
    exact .inl ⟨hun, h⟩
  · exact .inr ⟨hc, .inl ⟨hq.acquire.1, h⟩⟩
  · rw [acquire_of_not_remote hq.1]
    exact .inr ⟨hc, .inr (.inl ⟨hq, h⟩)⟩
  · rw [acquire_of_not_remote h.2.2.1.1.1]
    exact .inr ⟨hc, .inr (.inr (.inl h))⟩
  · rw [acquire_of_not_remote h.2.1.1]
    exact .inr ⟨hc, .inr (.inr (.inr ⟨hlen, h⟩))⟩

theorem Inv.runReady (hi : s.Inv) (hpc : s.io = .idle) (hready : s.inReady = true)
    (ht : dispatch { s with inReady := false } = some t) : t.Inv := by
  rw [Inv, hpc] at hi
  have hno : s.inReady ≠ false := by simp [hready]
  rcases hi with ⟨hun, -⟩ | ⟨hc, ⟨⟨hq, htimer, henq, hexe⟩, h⟩ | ⟨⟨-, h, -⟩, -⟩ | h | ⟨-, h⟩⟩
  · exact absurd hun.1.2.1 hno
  · have hremote : s.inRemote = false := by
      rcases hq with ⟨-, h⟩ | ⟨h, -⟩
      · exact absurd h hno
      · exact h
    simp only [dispatch, hexe] at ht
    cases ht
    exact ⟨hc, ⟨hremote, rfl, htimer⟩, .inr h⟩
  · exact absurd h hno
  · exact absurd h.2.2.1.1.2.1 hno
  · exact absurd h.2.1.2.1 hno

theorem Inv.expire (hi : s.Inv) (hpc : s.io = .idle) (htimer : s.inTimer = true)
    (ht : dispatch { s with inTimer := false } = some t) : t.Inv := by
  rw [Inv, hpc] at hi
  have hno : s.inTimer ≠ false := by simp [htimer]
  rcases hi with ⟨hun, -⟩ |
    ⟨hc, ⟨⟨-, h, -⟩, -⟩ | ⟨⟨hremote, hready, -, henq, hexe⟩, h⟩ | h | ⟨-, h⟩⟩
  · exact absurd hun.1.2.2 hno
  · exact absurd h hno
  · simp only [dispatch, hexe] at ht
    cases ht
    exact ⟨hc, ⟨⟨hremote, hready, rfl⟩, henq⟩, h⟩
  · exact absurd h.2.2.1.1.2.2 hno
  · exact absurd h.2.1.2.2 hno

/-- The stop item is executed: the remote thread has returned. -/
theorem Posting.handled (h : s.Posting) (hstop : s.inStop = true) :
    s.stopCalled = true ∧ s.remote = .idle := by
  obtain ⟨hcalled, ⟨-, h⟩ | ⟨-, h, -⟩ | ⟨hr, -⟩⟩ := h
  · rw [hstop] at h
    cases h
  · rw [hstop] at h
    cases h
  · exact ⟨hcalled, hr⟩

theorem Inv.runStop (hi : s.Inv) (hpc : s.io = .idle) (hstop : s.inStop = true)
    (ht : dispatchStop { s with inStop := false } = some t) : t.Inv := by
  rw [Inv, hpc] at hi
  have hno : s.inStop ≠ false := by simp [hstop]
  have hopen : s.Open → s.word = 1 ∧ s.completions = [] ∧ s.started = true ∧
      s.stopCalled = true ∧ s.remote = .idle ∧
      s.executeStop = some .onStopBeforeComplete := by
    rintro ⟨hnil, hstarted, ⟨-, h, -⟩ | ⟨hword, hposting, hbefore⟩⟩
    · exact absurd h hno
    · obtain ⟨hcalled, hr⟩ := hposting.handled hstop
      exact ⟨hword, hnil, hstarted, hcalled, hr, hbefore (by simp [hr])⟩
  rcases hi with ⟨hun, -⟩ | ⟨hc, ⟨hq, h⟩ | ⟨hq, h⟩ | ⟨hnil, hstarted, helapsed, hposting, hword⟩ |
    ⟨-, h⟩⟩
  · exact absurd hun.2.2.1 hno
  · obtain ⟨hword, hnil, hstarted, hcalled, hr, hexe⟩ := hopen h
    simp only [dispatchStop, hexe] at ht
    cases ht
    exact ⟨hc, ⟨hnil, hstarted, hcalled, rfl, hr, by simp [hword]⟩, .inl hq⟩
  · obtain ⟨hword, hnil, hstarted, hcalled, hr, hexe⟩ := hopen h
    simp only [dispatchStop, hexe] at ht
    cases ht
    exact ⟨hc, ⟨hnil, hstarted, hcalled, rfl, hr, by simp [hword]⟩,
      .inr (.inl ⟨hq, by simp [hword]⟩)⟩
  · obtain ⟨hcalled, hr⟩ := hposting.handled hstop
    have hclosed : Closed { s with inStop := false, io := .complete .stopped } :=
      ⟨hstarted, helapsed.1, rfl, .inr ⟨hcalled, hr⟩⟩
    rcases hword with ⟨-, -, hafter⟩ | hword
    · simp only [dispatchStop, hafter] at ht
      cases ht
      exact ⟨hc, hnil, hclosed⟩
    · cases hexe : s.executeStop with
      | none => simp [dispatchStop, hexe] at ht
      | some f =>
        simp only [dispatchStop, hexe] at ht
        cases f with
        | onStopBeforeComplete =>
          cases ht
          exact ⟨hc, ⟨hnil, hstarted, hcalled, rfl, hr, by simp [hword]⟩,
            .inr (.inr ⟨helapsed, hword⟩)⟩
        | onStopAfterComplete =>
          cases ht
          exact ⟨hc, hnil, hclosed⟩
  · exact absurd h.2.2.1 hno

/-- The I/O thread is through with the stop request. -/
theorem Handling.closed (h : s.Handling) (hq : t.Unqueued) (h1 : t.started = s.started)
    (h2 : t.inStop = s.inStop) (h3 : t.stopCalled = s.stopCalled) (h4 : t.remote = s.remote) :
    t.Closed := by
  obtain ⟨-, hstarted, hcalled, hstop, hr, -⟩ := h
  exact ⟨h1.trans hstarted, hq, h2.trans hstop, .inr ⟨h3.trans hcalled, h4.trans hr⟩⟩

theorem Inv.ioStep (hi : s.Inv) (hok : s.earlyStore .io = false) (ht : s.ioStep = some t) :
    t.Inv := by
  unfold Op.ioStep at ht
  split at ht
  · cases ht
  · next hpc =>
    cases ht
    rw [Inv, hpc] at hi
    obtain ⟨hc, hq, h⟩ := hi
    exact ⟨hc, ⟨hq, rfl⟩, h⟩
  · next hpc =>
    cases ht
    rw [Inv, hpc] at hi
    obtain ⟨hc, hq, h⟩ := hi
    exact ⟨hc, hq, rfl, h⟩
  · next hpc =>
    cases ht
    rw [Inv, hpc] at hi
    obtain ⟨hc, ⟨⟨hremote, hready, -⟩, henq⟩, hexe, h⟩ := hi
    refine .inr ⟨hc, .inr (.inl ⟨⟨hremote, hready, rfl, henq, hexe⟩, ?_⟩)⟩
    rcases h with ⟨⟨-, hword, hstop, -, -, hnil⟩, hr⟩ | ⟨hnil, -, h⟩
    · exact ⟨hnil, rfl, .inl ⟨hword, hstop, .inl hr, fun hne => absurd hr hne⟩⟩
    · exact ⟨hnil, rfl, h⟩
  · next hpc =>
    cases ht
    rw [Inv, hpc] at hi
    obtain ⟨hc, helapsed, hnil, hstarted, h⟩ := hi
    rcases h with h | ⟨hword, hposting, hbefore⟩
    · rw [h.1]
      exact ⟨hc, helapsed, hnil, hstarted, .inl ⟨rfl, h.2⟩⟩
    · rw [hword]
      exact ⟨hc, hnil, hstarted, helapsed, hposting, .inl rfl⟩
  · next hpc =>
    cases ht
    rw [Inv, hpc] at hi
    obtain ⟨hc, helapsed, hnil, hstarted, ⟨hword, hstop, hlate, hcalled⟩ | ⟨hword, hposting, -⟩⟩ :=
      hi
    · rw [hword]
      exact ⟨hc, hnil, hstarted, helapsed.1, hstop, .inl ⟨hlate, rfl, hcalled⟩⟩
    · rw [hword]
      exact ⟨hc, hnil, hstarted, helapsed, hposting, .inr rfl⟩
  · next hpc =>
    cases ht
    rw [Inv, hpc] at hi
    obtain ⟨hc, hnil, hstarted, helapsed, ⟨hcalled, hposting⟩, hword⟩ := hi
    have hposting' : Posting
        { s with executeStop := some .onStopAfterComplete, io := .idle } := by
      refine ⟨hcalled, ?_⟩
      rcases hposting with h | ⟨hr, hstop, -⟩ | ⟨hr, hstop, -⟩
      · exact .inl h
      · exact .inr (.inl ⟨hr, hstop, rfl⟩)
      · exact .inr (.inr ⟨hr, hstop, rfl⟩)
    refine .inr ⟨hc, .inr (.inr (.inl ⟨hnil, hstarted, helapsed, hposting', ?_⟩))⟩
    rcases hword with hword | hword
    · refine .inl ⟨hword, fun hr => ?_, rfl⟩
      have hr' : s.remote = .stopStore := hr
      simp [earlyStore, hpc, hr', hword, hasFlag, completedFlag] at hok
    · exact .inr hword
  · next hpc =>
    cases ht
    rw [Inv, hpc] at hi
    obtain ⟨hc, ⟨hq, hhandling, hword⟩ | ⟨hlen, hclosed, hword, -⟩⟩ := hi
    · rw [hword]
      refine ⟨hc, ?_, ?_⟩
      · obtain ⟨h1, h2, h3, h4, h5, -⟩ := hhandling
        exact ⟨h1, h2, h3, h4, h5, by simp⟩
      · rcases hq with hq | hq
        · exact .inl hq
        · exact .inr (.inl ⟨hq, by simp⟩)
    · exact Inv.of_io (p := .idle) (if_pos (by rw [hword]; decide))
        (.inr ⟨hc, .inr (.inr (.inr ⟨hlen, hclosed⟩))⟩)
  · next hpc =>
    cases ht
    rw [Inv, hpc] at hi
    obtain ⟨hc, hhandling, hq | ⟨hq, hword⟩ | ⟨hq, hword⟩⟩ := hi
    · exact Inv.of_io (p := .acquire) (if_pos hq.2.2.1) ⟨hc, hhandling, hq⟩
    · exact Inv.of_io (p := .loadCompleted) (if_neg (by simp [hq.2.2.2.1]))
        ⟨hc, hhandling, .inl ⟨hq, hword⟩⟩
    · exact Inv.of_io (p := .loadCompleted) (if_neg (by simp [hq.2]))
        ⟨hc, hhandling, .inr ⟨hq, hword⟩⟩
  · next hpc =>
    cases ht
    rw [Inv, hpc] at hi
    obtain ⟨hc, hhandling, hq⟩ := hi
    exact ⟨hc, hhandling, hq.acquire.1, hq.acquire.2⟩
  · next hpc =>
    cases ht
    rw [Inv, hpc] at hi
    obtain ⟨hc, hhandling, ⟨hq, htimer, -⟩, hready⟩ := hi
    have hremote : s.inRemote = false := by
      rcases hq with ⟨-, h⟩ | ⟨h, -⟩
      · rw [hready] at h
        cases h
      · exact h
    exact ⟨hc, hhandling.1, hhandling.closed ⟨hremote, rfl, htimer⟩ rfl rfl rfl rfl⟩
  · next hpc =>
    cases ht
    rw [Inv, hpc] at hi
    obtain ⟨hc, hhandling, ⟨hq, hword⟩ | ⟨hq, hword⟩⟩ := hi
    · have hflag : hasFlag s.word completedFlag = false := by
        have hmem := hhandling.2.2.2.2.2
        simp only [List.mem_cons, List.not_mem_nil, or_false] at hmem
        rcases hmem with h | h | h
        · rw [h]
          decide
        · rw [h]
          decide
        · exact absurd h hword
      rw [hflag]
      exact ⟨hc, hhandling, hq⟩
    · have hflag : hasFlag s.word completedFlag = true := by
        rw [hword]
        decide
      rw [hflag]
      exact ⟨hc, hhandling.1, hhandling.closed hq.1 rfl rfl rfl rfl⟩
  · next hpc =>
    cases ht
    rw [Inv, hpc] at hi
    obtain ⟨hc, hhandling, hremote, hready, -⟩ := hi
    exact ⟨hc, hhandling.1, hhandling.closed ⟨hremote, hready, rfl⟩ rfl rfl rfl rfl⟩
  · next signal hpc =>
    cases ht
    rw [Inv, hpc] at hi
    obtain ⟨hc, hnil, hclosed⟩ := hi
    exact .inr ⟨hc, .inr (.inr (.inr ⟨by simp [hnil], hclosed⟩))⟩

/-! Every run -/

theorem Inv.step (hi : s.Inv) {a : Act} (hok : s.earlyStore a = false) (ht : s.step a = some t) :
    t.Inv := by
  cases a with
  | startLocal =>
    simp only [Op.step] at ht
    split_ifs at ht with h
    cases ht
    exact hi.startLocal h.1 h.2
  | startRemote =>
    simp only [Op.step] at ht
    split_ifs at ht with h
    cases ht
    exact hi.startRemote h.1
  | stopLocal =>
    simp only [Op.step] at ht
    split_ifs at ht with h
    cases ht
    exact hi.stopLocal h.1 h.2.1 h.2.2
  | stopRemote =>
    simp only [Op.step] at ht
    split_ifs at ht with h
    cases ht
    exact hi.stopRemote h.1 h.2.1
  | acquire =>
    simp only [Op.step] at ht
    split_ifs at ht with h
    cases ht
    exact hi.acquire h
  | runReady =>
    simp only [Op.step] at ht
    split_ifs at ht with h
    exact hi.runReady h.1 h.2 ht
  | expire =>
    simp only [Op.step] at ht
    split_ifs at ht with h
    exact hi.expire h.1 h.2 ht
  | runStop =>
    simp only [Op.step] at ht
    split_ifs at ht with h
    exact hi.runStop h.1 h.2 ht
  | io => exact hi.ioStep hok ht
  | remote => exact hi.remoteStep ht

/-- An early store leads to the removal of an operation that is not in the timer queue. -/
theorem Inv.unsafe_after (hi : s.Inv) (hbad : s.earlyStore .io = true)
    (ht : s.step .io = some t) :
    ∃ u, system.run t [.remote, .remote, .runStop, .io, .io] = some u ∧ ¬ u.Safe := by
  simp only [earlyStore, Bool.and_eq_true, decide_eq_true_eq, Bool.not_eq_true'] at hbad
  obtain ⟨⟨hpc, hr⟩, hflag⟩ := hbad
  rw [Inv, hpc] at hi
  obtain ⟨-, -, -, ⟨⟨-, -, htimer⟩, henq⟩, -, hword⟩ := hi
  have hone : s.word = 1 := by
    rcases hword with h | h
    · exact h
    · rw [h] at hflag
      cases hflag
  obtain ⟨word, remoteEnqueued, execute, executeStop, inRemote, inReady, inTimer, inStop, io,
    remote, startCalled, started, stopCalled, completions⟩ := s
  simp only at hpc hr henq htimer hone
  subst hpc hr henq htimer hone
  cases ht
  refine ⟨⟨1, false, execute, some .onStopBeforeComplete, inRemote, inReady, false, false,
    .removeTimeOp, .idle, startCalled, started, stopCalled, completions⟩, ?_, fun hsafe => ?_⟩
  · simp [System.run, System.exec, system, Op.step, Op.remoteStep, Op.ioStep, dispatchStop, hasFlag,
      completedFlag]
  · have htimer := hsafe.removeTimeOp rfl
    cases htimer

/-- The protocol is safe in every run in which `when_timer_elapsed` does not leave the completion to
a stop item, with `completed_flag` clear, before the remote thread has stored `execute_stop`; and
the first step that does so is followed by one that removes the operation from a queue it is
not in. -/
theorem stops_safely_when (s t : Op) :
    (system.Reaches (fun s a => s.earlyStore a = false) s → s.Safe) ∧
    (system.Reaches (fun s a => s.earlyStore a = false) s → s.earlyStore .io = true →
      s.step .io = some t → ∃ as u, system.run t as = some u ∧ ¬ u.Safe) := by
  have hinv : system.Reaches (fun s a => s.earlyStore a = false) s → s.Inv := fun hs =>
    hs.invariant (P := Inv) Inv.initial fun u a v hu hok hv => hu.step hok hv
  constructor
  · intro hs
    exact (hinv hs).safe
  · intro hs hbad ht
    exact ⟨_, (hinv hs).unsafe_after hbad ht⟩

/-- The remote thread has stored `execute_stop` when the timer elapses, and the stop item completes
the operation. -/
theorem stops_safely_when_run : ∃ s, system.Reaches (fun s a => s.earlyStore a = false) s ∧
    s.completions = [.stopped] ∧ s.Safe := by
  obtain ⟨s, hs, hp⟩ := system.exists_reaches (fun s a => s.earlyStore a = false)
    [.startRemote, .remote, .remote, .remote, .acquire, .runReady, .io, .io, .io, .stopRemote,
      .remote, .remote, .remote, .expire, .io, .io, .remote, .runStop, .io]
    (fun s => decide (s.completions = [.stopped])) (by decide +kernel)
  exact ⟨s, hs, of_decide_eq_true hp, (stops_safely_when s s).1 hs⟩

/-- The timer elapses after the remote thread has set its flag and before it stores
`execute_stop`: the stop item removes an operation from the timer queue that is not there. -/
theorem stops_safely_fails : ∃ s, system.Reachable s ∧ ¬ s.Safe := by
  obtain ⟨s, hs, hp⟩ := system.exists_reachable
    [.startLocal, .io, .io, .io, .stopRemote, .remote, .remote, .expire, .io, .io, .remote, .remote,
      .runStop, .io, .io]
    (fun s => s.io = .removeTimeOp ∧ s.inTimer = false) (by decide +kernel)
  simp only [decide_eq_true_eq] at hp
  refine ⟨s, hs, fun hsafe => ?_⟩
  have htimer := hsafe.removeTimeOp hp.1
  rw [hp.2] at htimer
  cases htimer

end Op
end Squiz.LinuxOS.ScheduleAt
