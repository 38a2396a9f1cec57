import Squiz.CountingScope.Future

/-! A spawned future is destroyed once, and completes its receiver once if it was started. -/
namespace Squiz.CountingScope.Future
open Squiz.Lib Squiz.Lib.Word

variable {C : Config} {R X : Type}

/-- What the source finds, when it completes, that it is to do about the future-state. -/
inductive Fate where
  /-- store the result and leave the state to the consumer -/
  | keep
  /-- destroy the state -/
  | discard
  /-- destroy the state and complete the receiver with the result -/
  | deliver
  /-- leave the state and the receiver to `request_stop()`, which won the race on `flags_` -/
  | delegate
  /-- destroy the state and complete the receiver with `set_stopped` for `request_stop()` -/
  | finalize
  /-- nothing more: the source has completed and the consumer destroys the state, or has -/
  | taken
  deriving DecidableEq

/-- `state_` as the consumer has left it, `completed_flag` apart. -/
def Fate.Base (C : Config) : Fate → ℕ → Prop
  | .keep, w => w = 0 ∨ C.isStoppable = true ∧ (w = 2 ∨ w = 6)
  | .discard, w => C.isStoppable = true ∧ (w = 10 ∨ w = 14) ∨
      C.isStoppable = false ∧ (w = 2 ∨ w = 6)
  | .deliver, w | .delegate, w | .finalize, w => w = 4
  | .taken, _ => True

namespace FutureState

/-- What the source's `set_result` passes to the receiver's. -/
def Given (s : FutureState R X) (o : Outcome R X) : Prop :=
  ∃ c, s.completion = some c ∧
    (o = .result c.result ∨ ∃ x, c.storeThrows = some x ∧ o = .exceptionPtr x)

/-- The source's result, or the exception from moving it. -/
def Gives (s : FutureState R X) (o : Outcome R X) : Prop :=
  ∃ c, s.completion = some c ∧
    (o = .result c.result ∨
      ∃ x, (c.storeThrows = some x ∨ c.passThrows = some x) ∧ o = .exceptionPtr x)

/-- What the receiver is completed with when the race on `flags_` is over. -/
def Final (s : FutureState R X) (o : Outcome R X) : Prop :=
  (s.stopWon = true → o = .stopped) ∧ (s.stopWon = false → s.Gives o)

def Alive (s : FutureState R X) : Prop := s.destroyed = 0 ∧ s.released = 0

def Gone (s : FutureState R X) : Prop := s.destroyed = 1 ∧ s.released = 1

/-- The receiver was not completed. -/
def Fresh (s : FutureState R X) : Prop := s.delivered = [] ∧ s.opState = true

/-- The receiver was completed with `o`. -/
def Delivered (s : FutureState R X) (o : Outcome R X) : Prop :=
  s.delivered = [o] ∧ s.opState = false

/-- The source has not set `completed_flag`. -/
def Unpublished (s : FutureState R X) (fate : Fate) (w f : ℕ) : Prop :=
  s.Alive ∧ s.word = w ∧ (fate ≠ .discard → s.flags = f ∧ s.Fresh) ∧ fate ≠ .taken

/-- The source has set `completed_flag` and is in the race on `flags_`. -/
def Racing (s : FutureState R X) (fate : Fate) (w f : ℕ) : Prop :=
  s.Alive ∧ s.word = w + 1 ∧ s.flags = f ∧ s.Fresh ∧
    (fate = .deliver ∨ fate = .delegate ∨ fate = .finalize)

/-- The source destroys the state and does `k` after it. -/
def Concluding (C : Config) (s : FutureState R X) : Fate → Option (Outcome R X) → Prop
  | .discard, none => True
  | .deliver, some o => s.Gives o ∧ s.Fresh ∧ (C.isStopPossible = true → s.flags = 1)
  | .finalize, some o => o = .stopped ∧ s.Fresh
  | _, _ => False

def SourceOk (C : Config) (s : FutureState R X) (fate : Fate) (w f : ℕ) : Pc R X → Prop
  | .running => s.completion = none ∧ s.Unpublished fate w f
  | .beginSetResult | .storeResult => s.completion.isSome = true ∧ s.Unpublished fate w f
  | .storeDiscarded oldState => s.completion.isSome = true ∧ s.Unpublished fate w f ∧
      fate = .discard ∧ oldState = w
  | .storeInvoked => s.completion.isSome = true ∧ s.Unpublished fate w f ∧
      fate = .deliver ∧ C.isStopPossible = false
  | .publish => (∃ o, s.result = some o ∧ s.Given o) ∧ s.Unpublished fate w f
  | .setResult o => s.Given o ∧ s.Racing fate w f
  | .loadFlags o | .addCompleted o => s.Given o ∧ s.Racing fate w f ∧ C.isStopPossible = true
  | .destroy k => s.completion.isSome = true ∧ s.Alive ∧ s.word = w + 1 ∧ s.Concluding C fate k
  | .releaseScope k => s.completion.isSome = true ∧ s.destroyed = 1 ∧ s.released = 0 ∧
      s.Concluding C fate k
  | .complete o => s.completion.isSome = true ∧ s.Gone ∧ s.Concluding C fate (some o)
  | .done => s.completion.isSome = true ∧
      match fate with
      | .keep => (∃ o, s.result = some o ∧ s.Given o) ∧ s.Alive ∧ s.word = w + 1 ∧ s.flags = f ∧
          s.Fresh
      | .discard => s.Gone
      | .deliver => s.Gone ∧ (C.isStopPossible = true → s.flags = 1) ∧
          ∃ o, s.Delivered o ∧ s.Gives o
      | .delegate => s.Alive ∧ s.word = w + 1 ∧ s.flags = f + 1 ∧ s.Fresh
      | .finalize => s.Gone ∧ s.Delivered .stopped
      | .taken => True
  | _ => False

/-- The receiver is registered, and no stop was requested. -/
def Registered (C : Config) (s : FutureState R X) : Prop :=
  s.started = true ∧ s.receiver = true ∧ s.isStopPossible = C.isStopPossible ∧
    s.stopWon = false ∧ s.sourceStops = 0

/-- `request_stop()` has won the race on `flags_`. -/
def StopWon (C : Config) (s : FutureState R X) : Prop :=
  s.started = true ∧ s.receiver = true ∧ s.isStopPossible = C.isStopPossible ∧
    C.isStopPossible = true ∧ s.stopCalled = true ∧ s.stopWon = true

/-- The future is or was dropped without being started. -/
def Unstarted (s : FutureState R X) : Prop :=
  s.started = false ∧ s.receiver = false ∧ s.stopCalled = false ∧ s.stopWon = false

/-- The consumer has detached, and does `k` when it is through. -/
def Leaving (C : Config) (s : FutureState R X) : Option (Outcome R X) → ℕ → ℕ → Prop
  | none, w, f => s.Unstarted ∧ w = 2 ∧ f = 0
  | some o, w, f => s.StopWon C ∧ o = .stopped ∧ w = 6 ∧ f = 2

/-- The consumer destroys the state and does `k` after it. -/
def Taking (C : Config) (s : FutureState R X) : Option (Outcome R X) → Prop
  | none => s.Unstarted ∧ s.Fresh ∧ s.sourceStops ≤ 1
  | some o => s.started = true ∧ s.Final o ∧ s.Fresh ∧ s.sourceStops ≤ 1 ∧
      (C.isStopPossible = true → s.flags ≠ 0)

/-- The consumer has destroyed the state and is through. -/
def Taken (C : Config) (s : FutureState R X) : Prop :=
  s.Gone ∧ s.sourceStops ≤ 1 ∧
    (s.Unstarted ∧ s.delivered = [] ∨
      s.started = true ∧ (C.isStopPossible = true → s.flags ≠ 0) ∧
        ∃ o, s.Delivered o ∧ s.Final o)

/-- The consumer delivers the stored result in `start()`. -/
def Inline (C : Config) (s : FutureState R X) (fate : Fate) (w : ℕ) : Prop :=
  fate = .taken ∧ s.Registered C ∧ s.stopCalled = false ∧ s.Alive ∧ s.Fresh ∧ s.word = w ∧
    s.flags = 0

def ConsumerOk (C : Config) (s : FutureState R X) (fate : Fate) (w f : ℕ) : Pc R X → Prop
  | .idle | .detachLoad | .detachAdd => fate = .keep ∧ w = 0 ∧ f = 0 ∧ s.Unstarted ∧
      s.sourceStops = 0
  | .setReceiver => fate = .keep ∧ w = 0 ∧ f = 0 ∧ s.started = true ∧ s.receiver = false ∧
      s.stopCalled = false ∧ s.stopWon = false ∧ s.sourceStops = 0
  | .receiverLoad | .receiverAdd => fate = .keep ∧ w = 0 ∧ f = 0 ∧ s.Registered C ∧
      s.stopCalled = false
  | .receiverStore => s.Inline C fate 1 ∧ ∃ o, s.result = some o ∧ s.Given o
  | .deliverStored => s.Inline C fate 5 ∧ ∃ o, s.result = some o ∧ s.Given o
  | .setResult o => s.Inline C fate 5 ∧ s.Given o
  | .loadFlags o | .addCompleted o => s.Inline C fate 5 ∧ s.Given o ∧ C.isStopPossible = true
  | .requestStop k => fate = .keep ∧ C.isStoppable = true ∧ s.Leaving C k w f ∧ s.sourceStops = 0
  | .inRequestStop k | .stopLoadState k | .stopAddDone k => fate = .keep ∧
      C.isStoppable = true ∧ s.Leaving C k w f ∧ s.sourceStops = 1
  | .destroy k => fate = .taken ∧ s.Alive ∧ hasFlag s.word completedFlag = true ∧ s.Taking C k
  | .releaseScope k => fate = .taken ∧ s.destroyed = 1 ∧ s.released = 0 ∧ s.Taking C k
  | .complete o => fate = .taken ∧ s.Gone ∧ s.Taking C (some o) ∨
      fate = .discard ∧ Fate.Base C .discard w ∧ s.StopWon C ∧ s.sourceStops ≤ 1 ∧
        o = .stopped ∧ s.Fresh
  | .stopLoadFlags | .stopExchange => s.stopCalled = true ∧ C.isStopPossible = true ∧
      (fate = .deliver ∧ w = 4 ∧ f = 0 ∧ s.Registered C ∨
        fate = .taken ∧ s.started = true ∧ s.Taken C)
  | .tryDetachLoad | .lostLoadFlags | .lostAddDone => fate = .delegate ∧ w = 4 ∧ f = 2 ∧
      s.StopWon C ∧ s.sourceStops = 0
  | .tryDetachExchange oldState => fate = .delegate ∧ w = 4 ∧ f = 2 ∧ s.StopWon C ∧
      s.sourceStops = 0 ∧ oldState = 4
  | .done => fate = .discard ∧ Fate.Base C .discard w ∧ s.sourceStops ≤ 1 ∧
      (s.Unstarted ∧ s.delivered = [] ∨ s.StopWon C ∧ s.Delivered .stopped) ∨
    fate = .deliver ∧ w = 4 ∧ f = 0 ∧ s.Registered C ∨
    fate = .finalize ∧ w = 4 ∧ f = 6 ∧ s.StopWon C ∧ s.sourceStops = 0 ∨
    fate = .taken ∧ s.Taken C
  | _ => False

def Inv (C : Config) (s : FutureState R X) : Prop :=
  s.fault = false ∧ ∃ fate w f, s.ConsumerOk C fate w f s.consumer ∧
    s.SourceOk C fate w f s.source

variable {s t : FutureState R X} {fate : Fate} {w f : ℕ} {p q : Pc R X} {o : Outcome R X}

@[simp] theorem check_true (s : FutureState R X) : s.check true = s := by
  simp [check]

theorem check_of {b : Bool} (h : b = true) : s.check b = s := by
  rw [h, check_true]

theorem ConsumerOk.base (h : s.ConsumerOk C fate w f q) : Fate.Base C fate w := by
  cases q with
  | requestStop k | inRequestStop k | stopLoadState k | stopAddDone k =>
    obtain ⟨rfl, hstop, hk, -⟩ := h
    cases k with
    | none => exact .inr ⟨hstop, .inl hk.2.1⟩
    | some o => exact .inr ⟨hstop, .inr hk.2.2.1⟩
  | idle | detachLoad | detachAdd | setReceiver | receiverLoad | receiverAdd =>
    obtain ⟨rfl, rfl, -⟩ := h
    exact .inl rfl
  | receiverStore | deliverStored | setResult o | loadFlags o | addCompleted o =>
    obtain ⟨⟨rfl, -⟩, -⟩ := h
    trivial
  | destroy k | releaseScope k =>
    obtain ⟨rfl, -⟩ := h
    trivial
  | complete o =>
    rcases h with ⟨rfl, -⟩ | ⟨rfl, hbase, -⟩
    · trivial
    · exact hbase
  | stopLoadFlags | stopExchange =>
    rcases h with ⟨-, -, ⟨rfl, rfl, -⟩ | ⟨rfl, -⟩⟩
    · rfl
    · trivial
  | tryDetachLoad | lostLoadFlags | lostAddDone | tryDetachExchange old =>
    obtain ⟨rfl, rfl, -⟩ := h
    rfl
  | done =>
    rcases h with ⟨rfl, hbase, -⟩ | ⟨rfl, rfl, -⟩ | ⟨rfl, rfl, -⟩ | ⟨rfl, -⟩
    · exact hbase
    · rfl
    · rfl
    · trivial
  | running | beginSetResult | storeDiscarded old | storeInvoked | storeResult | publish =>
    cases h

/-! The words -/

theorem word_cases (h : Fate.Base C fate w) (hne : fate ≠ .taken) :
    w ∈ [0, 2, 4, 6, 10, 14] := by
  cases fate with
  | keep => rcases h with rfl | ⟨-, rfl | rfl⟩ <;> simp
  | discard => rcases h with ⟨-, rfl | rfl⟩ | ⟨-, rfl | rfl⟩ <;> simp
  | deliver | delegate | finalize =>
    have hw : w = 4 := h
    subst hw
    simp
  | taken => exact absurd rfl hne

theorem fetchAdd_completed (h : w ∈ [0, 2, 4, 6, 10, 14]) :
    fetchAdd wordBits w completedFlag = w + 1 := by
  revert w
  decide

theorem or_completed (h : w ∈ [0, 2, 4, 6, 10, 14]) : w ||| completedFlag = w + 1 := by
  revert w
  decide

theorem not_completed (h : w ∈ [0, 2, 4, 6, 10, 14]) : hasFlag w completedFlag = false := by
  revert w
  decide

theorem completed (h : w ∈ [0, 2, 4, 6, 10, 14]) : hasFlag (w + 1) completedFlag = true := by
  revert w
  decide

theorem isFullyDetached_iff (h : Fate.Base C fate w) (hne : fate ≠ .taken) :
    isFullyDetached C w = true ↔ fate = .discard := by
  unfold isFullyDetached Config.fullyDetachedFlags
  cases fate with
  | keep =>
    rcases h with rfl | ⟨hs, rfl | rfl⟩
    · cases C.isStoppable <;> decide
    · rw [hs]
      decide
    · rw [hs]
      decide
  | discard => rcases h with ⟨hs, rfl | rfl⟩ | ⟨hs, rfl | rfl⟩ <;> rw [hs] <;> decide
  | deliver | delegate | finalize =>
    have hw : w = 4 := h
    subst hw
    cases C.isStoppable <;> decide
  | taken => exact absurd rfl hne

theorem eq_waiting_iff (h : Fate.Base C fate w) (hne : fate ≠ .taken) :
    w = hasWaitingReceiverFlag ↔ fate = .deliver ∨ fate = .delegate ∨ fate = .finalize := by
  cases fate with
  | keep => rcases h with rfl | ⟨-, rfl | rfl⟩ <;> decide
  | discard => rcases h with ⟨-, rfl | rfl⟩ | ⟨-, rfl | rfl⟩ <;> decide
  | deliver | delegate | finalize =>
    have hw : w = 4 := h
    subst hw
    decide
  | taken => exact absurd rfl hne

/-! What one thread's step leaves of what the other thread relies on. -/

/-- The fields that the consumer alone writes. -/
def ConsumerSame (s t : FutureState R X) : Prop :=
  t.started = s.started ∧ t.receiver = s.receiver ∧ t.isStopPossible = s.isStopPossible ∧
    t.stopCalled = s.stopCalled ∧ t.stopWon = s.stopWon ∧ t.sourceStops = s.sourceStops

theorem ConsumerOk.of_source (h : s.ConsumerOk C fate w f q) (hne : fate ≠ .taken)
    (ht : ConsumerSame s t)
    (hd : fate = .discard → t.delivered = s.delivered ∧ t.opState = s.opState) :
    t.ConsumerOk C fate w f q := by
  obtain ⟨h1, h2, h3, h4, h5, h6⟩ := ht
  cases q with
  | complete o =>
    rcases h with ⟨rfl, -⟩ | ⟨rfl, h⟩
    · exact absurd rfl hne
    · obtain ⟨hdel, hop⟩ := hd rfl
      exact .inr ⟨rfl, by simpa only [StopWon, Fresh, h1, h2, h3, h4, h5, h6, hdel, hop] using h⟩
  | stopLoadFlags | stopExchange =>
    obtain ⟨hc, hp, h⟩ := h
    refine ⟨h4.trans hc, hp, ?_⟩
    rcases h with h | ⟨rfl, -⟩
    · exact .inl (by simpa only [Registered, h1, h2, h3, h5, h6] using h)
    · exact absurd rfl hne
  | done =>
    rcases h with ⟨rfl, h⟩ | h | h | ⟨rfl, -⟩
    · obtain ⟨hdel, hop⟩ := hd rfl
      refine .inl ⟨rfl, ?_⟩
      simpa only [Unstarted, StopWon, Delivered, h1, h2, h3, h4, h5, h6, hdel, hop] using h
    · exact .inr (.inl (by simpa only [Registered, h1, h2, h3, h5, h6] using h))
    · exact .inr (.inr (.inl (by simpa only [StopWon, h1, h2, h3, h4, h5, h6] using h)))
    · exact absurd rfl hne
  | receiverStore | deliverStored | setResult o | loadFlags o | addCompleted o =>
    exact absurd h.1.1 hne
  | destroy k | releaseScope k => exact absurd h.1 hne
  | requestStop k | inRequestStop k | stopLoadState k | stopAddDone k =>
    cases k <;>
      simpa only [ConsumerOk, Leaving, Unstarted, StopWon, h1, h2, h3, h4, h5, h6] using h
  | running | beginSetResult | storeDiscarded old | storeInvoked | storeResult | publish =>
    cases h
  | _ => simpa only [ConsumerOk, Unstarted, Registered, StopWon, h1, h2, h3, h4, h5, h6] using h

/-- A source that has more to do finds the state as it is to be. -/
theorem SourceOk.fate_ne (h : s.SourceOk C fate w f p) (hp : p ≠ .done) : fate ≠ .taken := by
  rintro rfl
  cases p with
  | done => exact hp rfl
  | running | beginSetResult | storeResult => exact h.2.2.2.2 rfl
  | storeDiscarded old => cases h.2.2.1
  | storeInvoked => cases h.2.2.1
  | publish => exact h.2.2.2.2 rfl
  | setResult o =>
    rcases h.2.2.2.2.2 with h | h | h <;> cases h
  | loadFlags o | addCompleted o =>
    rcases h.2.1.2.2.2.2 with h | h | h <;> cases h
  | destroy k =>
    have := h.2.2.2
    cases k <;> exact this
  | releaseScope k =>
    have := h.2.2.2
    cases k <;> exact this
  | complete o => exact h.2.2
  | _ => exact h

/-- A step of the source. -/
theorem Inv.sourceMove (hfault : t.fault = false) (hc : s.ConsumerOk C fate w f s.consumer)
    (hne : fate ≠ .taken) (hq : t.consumer = s.consumer) (ht : ConsumerSame s t)
    (hd : fate = .discard → t.delivered = s.delivered ∧ t.opState = s.opState)
    (hs : t.SourceOk C fate w f t.source) : t.Inv C := by
  refine ⟨hfault, fate, w, f, ?_, hs⟩
  rw [hq]
  exact hc.of_source hne ht hd

/-- Where the source is to call the receiver, one is registered, and `flags_` tells how the race
with `request_stop()` stands. -/
theorem ConsumerOk.race (h : s.ConsumerOk C fate w f q)
    (hf : fate = .deliver ∨ fate = .delegate ∨ fate = .finalize) :
    s.receiver = true ∧ s.isStopPossible = C.isStopPossible ∧
      (fate = .deliver ∧ f = 0 ∨
        C.isStopPossible = true ∧ (fate = .delegate ∧ f = 2 ∨ fate = .finalize ∧ f = 6)) := by
  cases q with
  | requestStop k | inRequestStop k | stopLoadState k | stopAddDone k =>
    obtain ⟨rfl, -⟩ := h
    rcases hf with h | h | h <;> cases h
  | idle | detachLoad | detachAdd | setReceiver | receiverLoad | receiverAdd =>
    obtain ⟨rfl, -⟩ := h
    rcases hf with h | h | h <;> cases h
  | receiverStore | deliverStored | setResult o | loadFlags o | addCompleted o =>
    obtain ⟨⟨rfl, -⟩, -⟩ := h
    rcases hf with h | h | h <;> cases h
  | destroy k | releaseScope k =>
    obtain ⟨rfl, -⟩ := h
    rcases hf with h | h | h <;> cases h
  | complete o =>
    rcases h with ⟨rfl, -⟩ | ⟨rfl, -⟩ <;> rcases hf with h | h | h <;> cases h
  | stopLoadFlags | stopExchange =>
    rcases h with ⟨-, -, ⟨rfl, -, rfl, h⟩ | ⟨rfl, -⟩⟩
    · exact ⟨h.2.1, h.2.2.1, .inl ⟨rfl, rfl⟩⟩
    · rcases hf with h | h | h <;> cases h
  | tryDetachLoad | lostLoadFlags | lostAddDone | tryDetachExchange old =>
    obtain ⟨rfl, -, rfl, h, -⟩ := h
    exact ⟨h.2.1, h.2.2.1, .inr ⟨h.2.2.2.1, .inl ⟨rfl, rfl⟩⟩⟩
  | done =>
    rcases h with ⟨rfl, -⟩ | ⟨rfl, -, rfl, h⟩ | ⟨rfl, -, rfl, h, -⟩ | ⟨rfl, -⟩
    · rcases hf with h | h | h <;> cases h
    · exact ⟨h.2.1, h.2.2.1, .inl ⟨rfl, rfl⟩⟩
    · exact ⟨h.2.1, h.2.2.1, .inr ⟨h.2.2.2.1, .inr ⟨rfl, rfl⟩⟩⟩
    · rcases hf with h | h | h <;> cases h
  | running | beginSetResult | storeDiscarded old | storeInvoked | storeResult | publish =>
    cases h

theorem Given.isSome (h : s.Given o) : s.completion.isSome = true := by
  obtain ⟨c, hc, -⟩ := h
  rw [hc]
  rfl

theorem Given.passed (h : s.Given o) :
    s.Gives ((s.completion.map fun c => c.passed o).getD o) := by
  obtain ⟨c, hc, ho⟩ := h
  refine ⟨c, hc, ?_⟩
  simp only [hc, Option.map_some, Option.getD_some, Completion.passed]
  rcases ho with rfl | ⟨x, hx, rfl⟩
  · cases hp : c.passThrows with
    | none => exact .inl rfl
    | some x => exact .inr ⟨x, .inr rfl, rfl⟩
  · exact .inr ⟨x, .inl hx, rfl⟩

theorem stored_given {c : Completion R X} (h : s.completion = some c) : s.Given c.stored := by
  refine ⟨c, h, ?_⟩
  unfold Completion.stored
  cases hs : c.storeThrows with
  | none => exact .inl rfl
  | some x => exact .inr ⟨x, rfl, rfl⟩

/-! Steps of the source -/

section Source
variable (hi : s.Inv C)
include hi

theorem Inv.completes (hp : s.source = .running) (c : Completion R X) :
    Inv C { s with source := .beginSetResult, completion := some c } := by
  obtain ⟨hfault, fate, w, f, hc, hs⟩ := hi
  rw [hp] at hs
  obtain ⟨-, hu⟩ := hs
  exact Inv.sourceMove hfault hc hu.2.2.2 rfl ⟨rfl, rfl, rfl, rfl, rfl, rfl⟩
    (fun _ => ⟨rfl, rfl⟩) ⟨rfl, hu⟩

theorem Inv.beginSetResult (hp : s.source = .beginSetResult) : Inv C (s.tryBeginSetResult C) := by
  obtain ⟨hfault, fate, w, f, hc, hs⟩ := hi
  rw [hp] at hs
  obtain ⟨hsome, hu⟩ := hs
  have hword := hu.2.1
  have hne := hu.2.2.2
  have move : ∀ pc, SourceOk C (s.goto .source pc) fate w f pc → Inv C (s.goto .source pc) :=
    fun pc h => Inv.sourceMove hfault hc hne rfl ⟨rfl, rfl, rfl, rfl, rfl, rfl⟩
      (fun _ => ⟨rfl, rfl⟩) h
  have hbase := hc.base
  unfold tryBeginSetResult
  rw [hword]
  by_cases hd : isFullyDetached C w = true
  · rw [if_pos hd]
    exact move (.storeDiscarded w) ⟨hsome, hu, (isFullyDetached_iff hbase hne).mp hd, rfl⟩
  · rw [if_neg hd]
    by_cases hw : w = hasWaitingReceiverFlag ∧ s.isStopPossible = false
    · rw [if_pos hw]
      obtain ⟨-, hsp, hrace⟩ := hc.race ((eq_waiting_iff hbase hne).mp hw.1)
      have hfalse : C.isStopPossible = false := hsp.symm.trans hw.2
      rcases hrace with ⟨hdeliver, -⟩ | ⟨htrue, -⟩
      · exact move .storeInvoked ⟨hsome, hu, hdeliver, hfalse⟩
      · rw [hfalse] at htrue
        cases htrue
    · rw [if_neg hw]
      exact move .storeResult ⟨hsome, hu⟩

theorem Inv.storeDiscarded {old : ℕ} (hp : s.source = .storeDiscarded old) :
    Inv C ({ s with word := old ||| completedFlag }.goto .source (.destroy none)) := by
  obtain ⟨hfault, fate, w, f, hc, hs⟩ := hi
  rw [hp] at hs
  obtain ⟨hsome, ⟨halive, hword, -, hne⟩, hdiscard, hold⟩ := hs
  refine Inv.sourceMove hfault hc hne rfl ⟨rfl, rfl, rfl, rfl, rfl, rfl⟩ (fun _ => ⟨rfl, rfl⟩) ?_
  refine ⟨hsome, halive, ?_, by rw [hdiscard]; trivial⟩
  rw [hold]
  exact or_completed (word_cases hc.base hne)

theorem Inv.storeInvoked {c : Completion R X} (hp : s.source = .storeInvoked)
    (hcompletion : s.completion = some c) :
    Inv C ({ s with word := hasWaitingReceiverFlag ||| completedFlag }.goto .source
      (.setResult (.result c.result))) := by
  obtain ⟨hfault, fate, w, f, hc, hs⟩ := hi
  rw [hp] at hs
  obtain ⟨-, ⟨halive, hword, hflags, hne⟩, hdeliver, -⟩ := hs
  refine Inv.sourceMove hfault hc hne rfl ⟨rfl, rfl, rfl, rfl, rfl, rfl⟩ (fun _ => ⟨rfl, rfl⟩) ?_
  obtain ⟨hf, hfresh⟩ := hflags (by rw [hdeliver]; simp)
  have hw : w = 4 := by
    have := hc.base
    rwa [hdeliver] at this
  refine ⟨⟨c, hcompletion, .inl rfl⟩, halive, ?_, hf, hfresh, .inl hdeliver⟩
  rw [hw]
  rfl

theorem Inv.storeResult {c : Completion R X} (hp : s.source = .storeResult)
    (hcompletion : s.completion = some c) :
    Inv C ({ s with result := some c.stored }.goto .source .publish) := by
  obtain ⟨hfault, fate, w, f, hc, hs⟩ := hi
  rw [hp] at hs
  obtain ⟨-, hu⟩ := hs
  refine Inv.sourceMove hfault hc hu.2.2.2 rfl ⟨rfl, rfl, rfl, rfl, rfl, rfl⟩
    (fun _ => ⟨rfl, rfl⟩) ?_
  exact ⟨⟨c.stored, rfl, stored_given hcompletion⟩, hu⟩

theorem Inv.publish (hp : s.source = .publish) : Inv C (s.publish C) := by
  obtain ⟨hfault, fate, w, f, hc, hs⟩ := hi
  rw [hp] at hs
  obtain ⟨⟨o, hresult, hgiven⟩, halive, hword, hflags, hne⟩ := hs
  have hbase := hc.base
  have hadd := fetchAdd_completed (word_cases hbase hne)
  have move : ∀ pc, SourceOk C ({ s with word := w + 1 }.goto .source pc) fate w f pc →
      Inv C ({ s with word := w + 1 }.goto .source pc) :=
    fun pc h => Inv.sourceMove hfault hc hne rfl ⟨rfl, rfl, rfl, rfl, rfl, rfl⟩
      (fun _ => ⟨rfl, rfl⟩) h
  unfold FutureState.publish
  simp only [hword, hadd]
  by_cases hw : w = hasWaitingReceiverFlag
  · rw [if_pos hw]
    have hrace := (eq_waiting_iff hbase hne).mp hw
    have hkeep : fate ≠ .discard := by
      rcases hrace with h | h | h <;> rw [h] <;> simp
    obtain ⟨hf, hfresh⟩ := hflags hkeep
    split
    · next o' ho =>
      have hoo : o' = o := Option.some.inj (ho.symm.trans hresult)
      subst hoo
      exact move (.setResult o') ⟨hgiven, halive, rfl, hf, hfresh, hrace⟩
    · next hnone =>
      rw [hresult] at hnone
      cases hnone
  · rw [if_neg hw]
    by_cases hd : isFullyDetached C w = true
    · rw [if_pos hd]
      refine move (.destroy none) ⟨hgiven.isSome, halive, rfl, ?_⟩
      rw [(isFullyDetached_iff hbase hne).mp hd]
      trivial
    · rw [if_neg hd]
      have hfate : fate = .keep := by
        have h1 := mt (isFullyDetached_iff hbase hne).mpr hd
        have h2 := mt (eq_waiting_iff hbase hne).mpr hw
        cases fate <;> simp_all
      obtain ⟨hf, hfresh⟩ := hflags (by rw [hfate]; simp)
      refine move .done ⟨hgiven.isSome, ?_⟩
      rw [hfate]
      exact ⟨⟨o, hresult, hgiven⟩, halive, rfl, hf, hfresh⟩

theorem Inv.sourceDestroy {k : Option (Outcome R X)} (hp : s.source = .destroy k) :
    Inv C (s.destroy .source k) := by
  obtain ⟨hfault, fate, w, f, hc, hs⟩ := hi
  rw [hp] at hs
  have hne := hs.fate_ne (by simp)
  obtain ⟨hsome, halive, hword, hk⟩ := hs
  have hop : (k.isNone || s.opState) = true := by
    cases k with
    | none => rfl
    | some o =>
      cases fate with
      | deliver => simp [hk.2.1.2]
      | finalize => simp [hk.2.2]
      | _ => cases hk
  have hcompleted : hasFlag s.word completedFlag = true := by
    rw [hword]
    exact completed (word_cases hc.base hne)
  unfold FutureState.destroy
  rw [hcompleted, hop, Bool.and_self, check_true]
  refine Inv.sourceMove hfault hc hne rfl ⟨rfl, rfl, rfl, rfl, rfl, rfl⟩ (fun _ => ⟨rfl, rfl⟩) ?_
  refine ⟨hsome, ?_, halive.2, ?_⟩
  · exact congrArg (· + 1) halive.1
  · cases fate <;> cases k <;> exact hk

theorem Inv.sourceRelease {k : Option (Outcome R X)} (hp : s.source = .releaseScope k) :
    Inv C ({ s with released := s.released + 1 }.goto .source (finish k)) := by
  obtain ⟨hfault, fate, w, f, hc, hs⟩ := hi
  rw [hp] at hs
  have hne := hs.fate_ne (by simp)
  obtain ⟨hsome, hdestroyed, hreleased, hk⟩ := hs
  refine Inv.sourceMove hfault hc hne rfl ⟨rfl, rfl, rfl, rfl, rfl, rfl⟩ (fun _ => ⟨rfl, rfl⟩) ?_
  have hgone : s.destroyed = 1 ∧ s.released + 1 = 1 := ⟨hdestroyed, by omega⟩
  cases k with
  | none =>
    cases fate with
    | discard => exact ⟨hsome, hgone⟩
    | _ => cases hk
  | some o =>
    cases fate with
    | deliver | finalize => exact ⟨hsome, hgone, hk⟩
    | _ => cases hk

theorem Inv.sourceComplete (hp : s.source = .complete o) :
    Inv C ({ s with opState := false, delivered := s.delivered ++ [o] }.goto .source .done) := by
  obtain ⟨hfault, fate, w, f, hc, hs⟩ := hi
  rw [hp] at hs
  have hne := hs.fate_ne (by simp)
  obtain ⟨hsome, hgone, hk⟩ := hs
  refine Inv.sourceMove hfault hc hne rfl ⟨rfl, rfl, rfl, rfl, rfl, rfl⟩ ?_ ?_
  · intro hd
    rw [hd] at hk
    cases hk
  · cases fate with
    | deliver =>
      obtain ⟨hgives, ⟨hnil, -⟩, hflags⟩ := hk
      exact ⟨hsome, hgone, hflags, o, ⟨by simp [goto, hnil], rfl⟩, hgives⟩
    | finalize =>
      obtain ⟨rfl, hnil, -⟩ := hk
      exact ⟨hsome, hgone, by simp [goto, hnil], rfl⟩
    | _ => cases hk

end Source

/-- The source passes the result on where it delivers and is through with `flags_`. -/
theorem sourcePass {n : ℕ} (hfault : s.fault = false)
    (hc : s.ConsumerOk C .deliver w f s.consumer) (hgiven : s.Given o)
    (hr : s.Racing .deliver w f) (hflags : C.isStopPossible = true → n = 1) :
    Inv C ({ s with flags := n }.passOn .source o) := by
  obtain ⟨halive, hword, -, hfresh, -⟩ := hr
  refine Inv.sourceMove hfault hc (by simp) rfl ⟨rfl, rfl, rfl, rfl, rfl, rfl⟩
    (fun _ => ⟨rfl, rfl⟩) ?_
  exact ⟨hgiven.isSome, halive, hword, hgiven.passed, hfresh, hflags⟩

theorem Inv.sourceSetResult (hi : s.Inv C) (hp : s.source = .setResult o) :
    Inv C (if C.isStopPossible then (s.check s.receiver).goto .source (.loadFlags o)
      else (s.check s.receiver).passOn .source o) := by
  obtain ⟨hfault, fate, w, f, hc, hs⟩ := hi
  rw [hp] at hs
  obtain ⟨hgiven, hr⟩ := hs
  obtain ⟨hreceiver, -, hrace⟩ := hc.race hr.2.2.2.2
  rw [hreceiver, check_true]
  by_cases hsp : C.isStopPossible = true
  · rw [if_pos hsp]
    have hne : fate ≠ .taken := by
      rcases hr.2.2.2.2 with h | h | h <;> rw [h] <;> simp
    exact Inv.sourceMove hfault hc hne rfl ⟨rfl, rfl, rfl, rfl, rfl, rfl⟩ (fun _ => ⟨rfl, rfl⟩)
      ⟨hgiven, hr, hsp⟩
  · rw [if_neg hsp]
    rcases hrace with ⟨rfl, -⟩ | ⟨htrue, -⟩
    · exact sourcePass (n := s.flags) hfault hc hgiven hr fun h => absurd h hsp
    · exact absurd htrue hsp

/-- `request_stop()` has left the state and the receiver to the source. -/
theorem sourceFinalize {n : ℕ} (hfault : s.fault = false)
    (hc : s.ConsumerOk C .finalize w f s.consumer) (hgiven : s.Given o)
    (hr : s.Racing .finalize w f) :
    Inv C ({ s with flags := n }.goto .source (.destroy (some .stopped))) := by
  obtain ⟨halive, hword, -, hfresh, -⟩ := hr
  refine Inv.sourceMove hfault hc (by simp) rfl ⟨rfl, rfl, rfl, rfl, rfl, rfl⟩
    (fun _ => ⟨rfl, rfl⟩) ?_
  exact ⟨hgiven.isSome, halive, hword, rfl, hfresh⟩

theorem Inv.sourceLoadFlags (hi : s.Inv C) (hp : s.source = .loadFlags o) :
    Inv C (s.loadFlags .source o) := by
  obtain ⟨hfault, fate, w, f, hc, hs⟩ := hi
  rw [hp] at hs
  obtain ⟨hgiven, hr, hsp⟩ := hs
  have hflags : s.flags = f := hr.2.2.1
  obtain ⟨-, -, hrace⟩ := hc.race hr.2.2.2.2
  unfold FutureState.loadFlags
  rw [hflags]
  have hadd : fate ≠ .taken → Inv C (s.goto .source (.addCompleted o)) := by
    intro hne
    exact Inv.sourceMove hfault hc hne rfl ⟨rfl, rfl, rfl, rfl, rfl, rfl⟩ (fun _ => ⟨rfl, rfl⟩)
      ⟨hgiven, hr, hsp⟩
  rcases hrace with ⟨rfl, rfl⟩ | ⟨-, ⟨rfl, rfl⟩ | ⟨rfl, rfl⟩⟩
  · exact hadd (by simp)
  · exact hadd (by simp)
  · exact sourceFinalize (n := s.flags) hfault hc hgiven hr

theorem Inv.sourceAddCompleted (hi : s.Inv C) (hp : s.source = .addCompleted o) :
    Inv C (s.addCompleted .source o) := by
  obtain ⟨hfault, fate, w, f, hc, hs⟩ := hi
  rw [hp] at hs
  obtain ⟨hgiven, hr, hsp⟩ := hs
  have hflags : s.flags = f := hr.2.2.1
  obtain ⟨-, -, hrace⟩ := hc.race hr.2.2.2.2
  unfold FutureState.addCompleted
  rw [hflags]
  rcases hrace with ⟨rfl, rfl⟩ | ⟨-, ⟨rfl, rfl⟩ | ⟨rfl, rfl⟩⟩
  · exact sourcePass (n := 1) hfault hc hgiven hr fun _ => rfl
  · obtain ⟨halive, hword, -, hfresh, -⟩ := hr
    exact Inv.sourceMove hfault hc (by simp) rfl ⟨rfl, rfl, rfl, rfl, rfl, rfl⟩
      (fun _ => ⟨rfl, rfl⟩) ⟨hgiven.isSome, halive, hword, rfl, hfresh⟩
  · exact sourceFinalize (n := 7) hfault hc hgiven hr

/-! Steps of the consumer -/

/-- The fields, apart from the words, that the source relies on. -/
def SourceSame (s t : FutureState R X) : Prop :=
  t.completion = s.completion ∧ t.result = s.result ∧ t.destroyed = s.destroyed ∧
    t.released = s.released ∧ t.delivered = s.delivered ∧ t.opState = s.opState

theorem SourceOk.congr (h : s.SourceOk C fate w f p) (ht : SourceSame s t)
    (hword : t.word = s.word) (hflags : t.flags = s.flags) : t.SourceOk C fate w f p := by
  obtain ⟨h1, h2, h3, h4, h5, h6⟩ := ht
  cases p with
  | running | beginSetResult | storeResult | storeDiscarded old | storeInvoked | publish =>
    simpa only [SourceOk, Unpublished, Given, Alive, Fresh, h1, h2, h3, h4, h5, h6, hword, hflags]
      using h
  | setResult o | loadFlags o | addCompleted o =>
    simpa only [SourceOk, Racing, Given, Alive, Fresh, h1, h2, h3, h4, h5, h6, hword, hflags]
      using h
  | destroy k | releaseScope k =>
    cases fate <;> cases k <;>
      simpa only [SourceOk, Concluding, Gives, Alive, Fresh, h1, h2, h3, h4, h5, h6, hword, hflags]
        using h
  | complete o =>
    cases fate <;>
      simpa only [SourceOk, Concluding, Gives, Gone, Fresh, h1, h2, h3, h4, h5, h6, hword, hflags]
        using h
  | done =>
    cases fate <;>
      simpa only [SourceOk, Given, Gives, Alive, Gone, Fresh, Delivered, h1, h2, h3, h4, h5, h6,
        hword, hflags] using h
  | _ => cases h

/-- What the consumer sees while the source is to leave it the state. -/
theorem SourceOk.keep (h : s.SourceOk C .keep w f p) : s.Alive ∧ s.Fresh ∧ s.flags = f ∧
    (s.word = w ∨ s.word = w + 1 ∧ p = .done ∧ s.completion.isSome = true ∧
      ∃ o, s.result = some o ∧ s.Given o) := by
  cases p with
  | running | beginSetResult | storeResult | publish =>
    obtain ⟨-, halive, hword, hflags, -⟩ := h
    obtain ⟨hf, hfresh⟩ := hflags (by simp)
    exact ⟨halive, hfresh, hf, .inl hword⟩
  | done =>
    obtain ⟨hsome, hresult, halive, hword, hflags, hfresh⟩ := h
    exact ⟨halive, hfresh, hflags, .inr ⟨hword, rfl, hsome, hresult⟩⟩
  | storeDiscarded old | storeInvoked =>
    obtain ⟨-, -, h, -⟩ := h
    cases h
  | setResult o =>
    rcases h.2.2.2.2.2 with h | h | h <;> cases h
  | loadFlags o | addCompleted o =>
    rcases h.2.1.2.2.2.2 with h | h | h <;> cases h
  | destroy k | releaseScope k =>
    obtain ⟨-, -, -, h⟩ := h
    cases k <;> cases h
  | complete o => cases h.2.2
  | _ => cases h

/-- What the consumer sees when it has won the race on `flags_`. -/
theorem SourceOk.delegate (h : s.SourceOk C .delegate w f p) : s.Alive ∧ s.Fresh ∧
    (s.word = w ∧ s.flags = f ∨ s.word = w + 1 ∧
      (s.flags = f ∨ s.flags = f + 1 ∧ p = .done ∧ s.completion.isSome = true)) := by
  cases p with
  | running | beginSetResult | storeResult | publish =>
    obtain ⟨-, halive, hword, hflags, -⟩ := h
    obtain ⟨hf, hfresh⟩ := hflags (by simp)
    exact ⟨halive, hfresh, .inl ⟨hword, hf⟩⟩
  | setResult o =>
    obtain ⟨-, halive, hword, hflags, hfresh, -⟩ := h
    exact ⟨halive, hfresh, .inr ⟨hword, .inl hflags⟩⟩
  | loadFlags o | addCompleted o =>
    obtain ⟨-, ⟨halive, hword, hflags, hfresh, -⟩, -⟩ := h
    exact ⟨halive, hfresh, .inr ⟨hword, .inl hflags⟩⟩
  | done =>
    obtain ⟨hsome, halive, hword, hflags, hfresh⟩ := h
    exact ⟨halive, hfresh, .inr ⟨hword, .inr ⟨hflags, rfl, hsome⟩⟩⟩
  | storeDiscarded old | storeInvoked =>
    obtain ⟨-, -, h, -⟩ := h
    cases h
  | destroy k | releaseScope k =>
    obtain ⟨-, -, -, h⟩ := h
    cases k <;> cases h
  | complete o => cases h.2.2
  | _ => cases h

/-- Before the source has set `completed_flag`, the consumer changes what it will find. -/
theorem SourceOk.retarget {fate' : Fate} {w' : ℕ} (h : s.SourceOk C fate w f p)
    (hfate : fate = .keep ∨ fate = .delegate) (hne : fate' ≠ .taken) (hw : s.word = w)
    (ht : SourceSame s t) (hword : t.word = w') (hflags : t.flags = s.flags) :
    t.SourceOk C fate' w' f p := by
  obtain ⟨h1, h2, h3, h4, h5, h6⟩ := ht
  have hkeep : fate ≠ .discard := by
    rcases hfate with h | h <;> rw [h] <;> simp
  have hu : s.Unpublished fate w f → t.Unpublished fate' w' f := by
    rintro ⟨halive, -, hf, -⟩
    refine ⟨by simpa only [Alive, h3, h4] using halive, hword, fun _ => ?_, hne⟩
    simpa only [Fresh, h5, h6, hflags] using hf hkeep
  cases p with
  | running | beginSetResult | storeResult => exact ⟨by simpa only [h1] using h.1, hu h.2⟩
  | publish => exact ⟨by simpa only [Given, h1, h2] using h.1, hu h.2⟩
  | storeDiscarded old | storeInvoked =>
    obtain ⟨-, -, h, -⟩ := h
    rcases hfate with rfl | rfl <;> cases h
  | setResult o =>
    have := h.2.2.1
    omega
  | loadFlags o | addCompleted o =>
    have := h.2.1.2.1
    omega
  | destroy k =>
    have := h.2.2.1
    omega
  | releaseScope k =>
    obtain ⟨-, -, -, h⟩ := h
    rcases hfate with rfl | rfl <;> cases k <;> cases h
  | complete o =>
    obtain ⟨-, -, h⟩ := h
    rcases hfate with rfl | rfl <;> cases h
  | done =>
    obtain ⟨-, h⟩ := h
    rcases hfate with rfl | rfl
    · have := h.2.2.1
      omega
    · have := h.2.1
      omega
  | _ => cases h

/-- Before the source has set its `completed_flag` in `flags_`, the consumer changes what it will
find there. -/
theorem SourceOk.race {fate' : Fate} {f' : ℕ} (h : s.SourceOk C fate w f p)
    (hfate : fate = .deliver ∧ f = 0 ∧ C.isStopPossible = true ∨ fate = .delegate)
    (hfate' : fate' = .delegate ∨ fate' = .finalize) (hf : s.flags = f)
    (ht : SourceSame s t) (hword : t.word = s.word) (hflags : t.flags = f') :
    t.SourceOk C fate' w f' p ∧ s.Fresh := by
  obtain ⟨h1, h2, h3, h4, h5, h6⟩ := ht
  have hkeep : fate ≠ .discard := by
    rcases hfate with ⟨h, -⟩ | h <;> rw [h] <;> simp
  have hne : fate' ≠ .taken := by
    rcases hfate' with h | h <;> rw [h] <;> simp
  have hu : s.Unpublished fate w f → t.Unpublished fate' w f' ∧ s.Fresh := by
    rintro ⟨halive, hw, hfresh, -⟩
    refine ⟨⟨by simpa only [Alive, h3, h4] using halive, hword.trans hw, fun _ => ⟨hflags, ?_⟩,
      hne⟩, (hfresh hkeep).2⟩
    simpa only [Fresh, h5, h6] using (hfresh hkeep).2
  have hr : s.Racing fate w f → t.Racing fate' w f' ∧ s.Fresh := by
    rintro ⟨halive, hw, -, hfresh, -⟩
    refine ⟨⟨by simpa only [Alive, h3, h4] using halive, hword.trans hw, hflags,
      by simpa only [Fresh, h5, h6] using hfresh, .inr hfate'⟩, hfresh⟩
  have hconcluding : ∀ k, s.Concluding C fate k → False := by
    intro k hk
    rcases hfate with ⟨rfl, rfl, hsp⟩ | rfl
    · cases k with
      | none => cases hk
      | some o =>
        have := hk.2.2 hsp
        omega
    · cases k <;> cases hk
  cases p with
  | running | beginSetResult | storeResult =>
    exact ⟨⟨by simpa only [h1] using h.1, (hu h.2).1⟩, (hu h.2).2⟩
  | publish => exact ⟨⟨by simpa only [Given, h1, h2] using h.1, (hu h.2).1⟩, (hu h.2).2⟩
  | storeDiscarded old =>
    obtain ⟨-, -, h, -⟩ := h
    exact absurd h hkeep
  | storeInvoked =>
    obtain ⟨-, -, h, hfalse⟩ := h
    rcases hfate with ⟨-, -, htrue⟩ | h'
    · rw [hfalse] at htrue
      cases htrue
    · rw [h] at h'
      cases h'
  | setResult o => exact ⟨⟨by simpa only [Given, h1] using h.1, (hr h.2).1⟩, (hr h.2).2⟩
  | loadFlags o | addCompleted o =>
    exact ⟨⟨by simpa only [Given, h1] using h.1, (hr h.2.1).1, h.2.2⟩, (hr h.2.1).2⟩
  | destroy k | releaseScope k => exact (hconcluding k h.2.2.2).elim
  | complete o => exact (hconcluding (some o) h.2.2).elim
  | done =>
    obtain ⟨-, h⟩ := h
    rcases hfate with ⟨rfl, rfl, hsp⟩ | rfl
    · have := h.2.1 hsp
      omega
    · have := h.2.2.1
      omega
  | _ => cases h

/-- A step of the consumer that leaves the words and what the source is to do. -/
theorem Inv.consumerMove (hfault : t.fault = false) (hs : s.SourceOk C fate w f s.source)
    (hp : t.source = s.source) (ht : SourceSame s t) (hword : t.word = s.word)
    (hflags : t.flags = s.flags) (hc : t.ConsumerOk C fate w f t.consumer) : t.Inv C := by
  refine ⟨hfault, fate, w, f, hc, ?_⟩
  rw [hp]
  exact hs.congr ht hword hflags

/-- The consumer takes it on to destroy the state: the source is through. -/
theorem Inv.take (hfault : t.fault = false) (hp : t.source = .done)
    (hsome : t.completion.isSome = true) (hc : t.ConsumerOk C .taken 0 0 t.consumer) :
    t.Inv C := by
  refine ⟨hfault, .taken, 0, 0, hc, ?_⟩
  rw [hp]
  exact ⟨hsome, trivial⟩

/-- What is left to the source once the consumer is to destroy the state. -/
theorem SourceOk.taken (h : s.SourceOk C .taken w f p) :
    p = .done ∧ s.completion.isSome = true := by
  by_cases hp : p = .done
  · subst hp
    exact ⟨rfl, h.1⟩
  · exact absurd rfl (h.fate_ne hp)

theorem StopWon.taking (h : s.StopWon C) (hfresh : s.Fresh) (hflags : s.flags ≠ 0)
    (hstops : s.sourceStops ≤ 1) : s.Taking C (some .stopped) := by
  obtain ⟨hstarted, -, -, -, -, hwon⟩ := h
  refine ⟨hstarted, ⟨fun _ => rfl, ?_⟩, hfresh, hstops, fun _ => hflags⟩
  intro h
  rw [hwon] at h
  cases h

theorem Leaving.taking {k : Option (Outcome R X)} (h : s.Leaving C k w f) (hflags : s.flags = f)
    (hfresh : s.Fresh) (hstops : s.sourceStops ≤ 1) : s.Taking C k := by
  cases k with
  | none => exact ⟨h.1, hfresh, hstops⟩
  | some o =>
    obtain ⟨hwon, rfl, -, rfl⟩ := h
    exact hwon.taking hfresh (by omega) hstops

theorem Leaving.fetchAdd_done {k : Option (Outcome R X)} (h : s.Leaving C k w f) :
    fetchAdd wordBits w stopRequestDoneFlag = w + 8 ∧
      hasFlag (fetchAdd wordBits (w + 1) stopRequestDoneFlag) completedFlag = true ∧
        (w = 2 ∨ w = 6) := by
  cases k with
  | none =>
    obtain ⟨-, rfl, -⟩ := h
    decide
  | some o =>
    obtain ⟨-, -, rfl, -⟩ := h
    decide

/-- A source that discards the state does not look at the receiver. -/
theorem SourceOk.discard_congr (h : s.SourceOk C .discard w f p) (h1 : t.completion = s.completion)
    (h2 : t.result = s.result) (h3 : t.word = s.word) (h4 : t.destroyed = s.destroyed)
    (h5 : t.released = s.released) : t.SourceOk C .discard w f p := by
  cases p with
  | running | beginSetResult | storeResult | storeDiscarded old | publish =>
    simpa [SourceOk, Unpublished, Given, Alive, h1, h2, h3, h4, h5] using h
  | storeInvoked => exact absurd h.2.2.1 (by simp)
  | setResult o => exact absurd h.2.2.2.2.2 (by simp)
  | loadFlags o | addCompleted o => exact absurd h.2.1.2.2.2.2 (by simp)
  | destroy k | releaseScope k =>
    cases k with
    | none => simpa only [SourceOk, Concluding, Alive, h1, h3, h4, h5] using h
    | some o => exact h.2.2.2.elim
  | complete o => exact h.2.2.elim
  | done => simpa only [SourceOk, Gone, h1, h4, h5] using h
  | _ => cases h

section Consumer
variable (hi : s.Inv C)
include hi

theorem Inv.drops (hq : s.consumer = .idle) :
    Inv C (s.goto .consumer (if s.opState then .detachLoad else .done)) := by
  obtain ⟨hfault, fate, w, f, hc, hs⟩ := hi
  rw [hq] at hc
  obtain ⟨rfl, hc⟩ := hc
  rw [if_pos hs.keep.2.1.2]
  exact Inv.consumerMove hfault hs rfl ⟨rfl, rfl, rfl, rfl, rfl, rfl⟩ rfl rfl ⟨rfl, hc⟩

theorem Inv.starts (hq : s.consumer = .idle) :
    Inv C (if s.opState then { s with started := true, consumer := .setReceiver }
      else
        { s with
          started := true
          flags := if C.isStopPossible then OpFlags.completedFlag else s.flags
          consumer := .complete .stopped }) := by
  obtain ⟨hfault, fate, w, f, hc, hs⟩ := hi
  rw [hq] at hc
  obtain ⟨rfl, rfl, rfl, ⟨-, hreceiver, hcalled, hwon⟩, hstops⟩ := hc
  rw [if_pos hs.keep.2.1.2]
  exact Inv.consumerMove hfault hs rfl ⟨rfl, rfl, rfl, rfl, rfl, rfl⟩ rfl rfl
    ⟨rfl, rfl, rfl, rfl, hreceiver, hcalled, hwon, hstops⟩

theorem Inv.requestsStop (hq : s.consumer = .done) (hstarted : s.started = true)
    (hcalled : s.stopCalled = false) (hsp : C.isStopPossible = true) :
    Inv C { s with consumer := .stopLoadFlags, stopCalled := true } := by
  obtain ⟨hfault, fate, w, f, hc, hs⟩ := hi
  rw [hq] at hc
  refine Inv.consumerMove hfault hs rfl ⟨rfl, rfl, rfl, rfl, rfl, rfl⟩ rfl rfl ⟨rfl, hsp, ?_⟩
  rcases hc with ⟨-, -, -, ⟨h, -⟩ | ⟨h, -⟩⟩ | h | ⟨-, -, -, h, -⟩ | ⟨rfl, hgone, hstops, h⟩
  · rw [h.1] at hstarted
    cases hstarted
  · rw [h.2.2.2.2.1] at hcalled
    cases hcalled
  · exact .inl h
  · rw [h.2.2.2.2.1] at hcalled
    cases hcalled
  · refine .inr ⟨rfl, hstarted, hgone, hstops, ?_⟩
    rcases h with ⟨h, -⟩ | h
    · rw [h.1] at hstarted
      cases hstarted
    · exact .inr h

theorem Inv.detachLoad (hq : s.consumer = .detachLoad) : Inv C s.detachLoad := by
  obtain ⟨hfault, fate, w, f, hc, hs⟩ := hi
  rw [hq] at hc
  obtain ⟨rfl, rfl, rfl, hunstarted, hstops⟩ := hc
  obtain ⟨halive, hfresh, hflags, hword⟩ := hs.keep
  unfold FutureState.detachLoad
  rcases hword with hw | ⟨hw, hp, hsome, -⟩
  · rw [hw]
    exact Inv.consumerMove (by simp [goto, check, hfault]; decide) hs rfl
      ⟨rfl, rfl, rfl, rfl, rfl, rfl⟩ rfl rfl ⟨rfl, rfl, rfl, hunstarted, hstops⟩
  · refine Inv.take (by simp [goto, check, hfault, hw]; decide) hp hsome ?_
    simp only [hw]
    exact ⟨rfl, halive, by simp only [check, goto, hw]; decide, hunstarted, hfresh,
      by simp [check, goto, hstops]⟩

theorem Inv.detachAdd (hq : s.consumer = .detachAdd) : Inv C (s.detachAdd C) := by
  obtain ⟨hfault, fate, w, f, hc, hs⟩ := hi
  rw [hq] at hc
  obtain ⟨rfl, rfl, rfl, hunstarted, hstops⟩ := hc
  obtain ⟨halive, hfresh, hflags, hword⟩ := hs.keep
  unfold FutureState.detachAdd
  rcases hword with hw | ⟨hw, hp, hsome, -⟩
  · have hsource : ∀ pc (fate' : Fate), fate' ≠ .taken → SourceOk C
        ({ s with word := 2 }.goto .consumer pc) fate' 2 0 s.source :=
      fun pc fate' hne => hs.retarget (.inl rfl) hne hw ⟨rfl, rfl, rfl, rfl, rfl, rfl⟩ rfl rfl
    rw [hw]
    by_cases hstoppable : C.isStoppable = true
    · refine ⟨hfault, .keep, 2, 0, ?_, hsource _ .keep (by simp)⟩
      simp only [hstoppable]
      exact ⟨rfl, hstoppable, ⟨hunstarted, rfl, rfl⟩, hstops⟩
    · refine ⟨hfault, .discard, 2, 0, ?_, hsource _ .discard (by simp)⟩
      rw [Bool.not_eq_true] at hstoppable
      simp only [hstoppable]
      exact .inl ⟨rfl, .inr ⟨hstoppable, .inl rfl⟩, by simp [goto, hstops],
        .inl ⟨hunstarted, hfresh.1⟩⟩
  · refine Inv.take hfault hp hsome ?_
    simp only [hw]
    exact ⟨rfl, halive, by simp only [goto]; decide, hunstarted, hfresh, by simp [goto, hstops]⟩

theorem Inv.setsReceiver (hq : s.consumer = .setReceiver) : Inv C (s.setReceiver C) := by
  obtain ⟨hfault, fate, w, f, hc, hs⟩ := hi
  rw [hq] at hc
  obtain ⟨rfl, rfl, rfl, hstarted, hreceiver, hcalled, hwon, hstops⟩ := hc
  unfold FutureState.setReceiver
  rw [hreceiver]
  exact Inv.consumerMove (by simp [goto, hfault]) hs rfl ⟨rfl, rfl, rfl, rfl, rfl, rfl⟩ rfl rfl
    ⟨rfl, rfl, rfl, ⟨hstarted, rfl, rfl, hwon, hstops⟩, hcalled⟩

theorem Inv.receiverLoad (hq : s.consumer = .receiverLoad) : Inv C s.receiverLoad := by
  obtain ⟨hfault, fate, w, f, hc, hs⟩ := hi
  rw [hq] at hc
  obtain ⟨rfl, rfl, rfl, hregistered, hcalled⟩ := hc
  obtain ⟨halive, hfresh, hflags, hword⟩ := hs.keep
  unfold FutureState.receiverLoad
  rcases hword with hw | ⟨hw, hp, hsome, hresult⟩
  · rw [hw]
    exact Inv.consumerMove hfault hs rfl ⟨rfl, rfl, rfl, rfl, rfl, rfl⟩ rfl rfl
      ⟨rfl, rfl, rfl, hregistered, hcalled⟩
  · refine Inv.take hfault hp hsome ?_
    simp only [hw]
    exact ⟨⟨rfl, hregistered, hcalled, halive, hfresh, hw, hflags⟩, hresult⟩

theorem Inv.receiverStore (hq : s.consumer = .receiverStore) :
    Inv C ({ s with word := completedFlag ||| hasWaitingReceiverFlag }.goto .consumer
      .deliverStored) := by
  obtain ⟨hfault, fate, w, f, hc, hs⟩ := hi
  rw [hq] at hc
  obtain ⟨⟨rfl, hregistered, hcalled, halive, hfresh, -, hflags⟩, hresult⟩ := hc
  obtain ⟨hp, hsome⟩ := hs.taken
  exact Inv.take hfault hp hsome
    ⟨⟨rfl, hregistered, hcalled, halive, hfresh, rfl, hflags⟩, hresult⟩

theorem Inv.receiverAdd (hq : s.consumer = .receiverAdd) : Inv C s.receiverAdd := by
  obtain ⟨hfault, fate, w, f, hc, hs⟩ := hi
  rw [hq] at hc
  obtain ⟨rfl, rfl, rfl, hregistered, hcalled⟩ := hc
  obtain ⟨halive, hfresh, hflags, hword⟩ := hs.keep
  unfold FutureState.receiverAdd
  rcases hword with hw | ⟨hw, hp, hsome, hresult⟩
  · simp only [hw]
    refine ⟨by simp [goto, check, completedFlag, hfault], .deliver, 4, 0, ?_, ?_⟩
    · exact .inr (.inl ⟨rfl, rfl, rfl, hregistered⟩)
    · exact hs.retarget (.inl rfl) (by simp) hw ⟨rfl, rfl, rfl, rfl, rfl, rfl⟩ rfl rfl
  · simp only [hw]
    exact Inv.take hfault hp hsome
      ⟨⟨rfl, hregistered, hcalled, halive, hfresh, rfl, hflags⟩, hresult⟩

theorem Inv.delivers (hq : s.consumer = .deliverStored) : Inv C s.deliverStored := by
  obtain ⟨hfault, fate, w, f, hc, hs⟩ := hi
  rw [hq] at hc
  obtain ⟨⟨rfl, hinline⟩, o, hresult, hgiven⟩ := hc
  obtain ⟨hp, hsome⟩ := hs.taken
  unfold FutureState.deliverStored
  split
  · next o' ho =>
    have hoo : o' = o := Option.some.inj (ho.symm.trans hresult)
    subst hoo
    exact Inv.take hfault hp hsome ⟨⟨rfl, hinline⟩, hgiven⟩
  · next hnone =>
    rw [hresult] at hnone
    cases hnone

theorem Inv.stopLoadFlags (hq : s.consumer = .stopLoadFlags) :
    Inv C (s.goto .consumer (if s.flags = 0 then .stopExchange else .done)) := by
  obtain ⟨hfault, fate, w, f, hc, hs⟩ := hi
  rw [hq] at hc
  have hdone : s.ConsumerOk C fate w f .done := by
    rcases hc.2.2 with h | ⟨rfl, -, h⟩
    · exact .inr (.inl h)
    · exact .inr (.inr (.inr ⟨rfl, h⟩))
  refine Inv.consumerMove hfault hs rfl ⟨rfl, rfl, rfl, rfl, rfl, rfl⟩ rfl rfl ?_
  by_cases hf : s.flags = 0
  · simp only [hf, if_pos]
    exact hc
  · simp only [if_neg hf]
    exact hdone

theorem Inv.stopExchange (hq : s.consumer = .stopExchange) : Inv C s.stopExchange := by
  obtain ⟨hfault, fate, w, f, hc, hs⟩ := hi
  rw [hq] at hc
  obtain ⟨hcalled, hsp, hc⟩ := hc
  unfold FutureState.stopExchange
  by_cases hf : s.flags = 0
  · rw [if_pos hf]
    rcases hc with ⟨rfl, rfl, rfl, hstarted, hreceiver, hpossible, -, hstops⟩ |
      ⟨rfl, hstarted, -, -, ⟨h, -⟩ | ⟨-, hflags, -⟩⟩
    · obtain ⟨hsource, hfresh⟩ := hs.race
        (t := ({ s with flags := 2, stopWon := true }.goto .consumer .tryDetachLoad))
        (.inl ⟨rfl, rfl, hsp⟩) (.inl rfl) hf ⟨rfl, rfl, rfl, rfl, rfl, rfl⟩ rfl rfl
      rw [check_of hfresh.2]
      exact ⟨hfault, .delegate, 4, 2,
        ⟨rfl, rfl, rfl, ⟨hstarted, hreceiver, hpossible, hsp, hcalled, rfl⟩, hstops⟩, hsource⟩
    · rw [h.1] at hstarted
      cases hstarted
    · exact absurd hf (hflags hsp)
  · rw [if_neg hf]
    refine Inv.consumerMove hfault hs rfl ⟨rfl, rfl, rfl, rfl, rfl, rfl⟩ rfl rfl ?_
    rcases hc with h | ⟨rfl, -, h⟩
    · exact .inr (.inl h)
    · exact .inr (.inr (.inr ⟨rfl, h⟩))

theorem Inv.tryDetachLoad (hq : s.consumer = .tryDetachLoad) : Inv C s.tryDetachLoad := by
  obtain ⟨hfault, fate, w, f, hc, hs⟩ := hi
  rw [hq] at hc
  obtain ⟨rfl, rfl, rfl, hwon, hstops⟩ := hc
  have hpossible : s.isStopPossible = true := hwon.2.2.1.trans hwon.2.2.2.1
  have hwaiting : (s.isStopPossible && hasFlag s.word hasWaitingReceiverFlag) = true := by
    rw [hpossible]
    rcases hs.delegate.2.2 with ⟨hw, -⟩ | ⟨hw, -⟩ <;> rw [hw] <;> decide
  unfold FutureState.tryDetachLoad
  simp only [check_of hwaiting]
  rcases hs.delegate.2.2 with ⟨hw, -⟩ | ⟨hw, -⟩
  · have hcompleted : hasFlag s.word completedFlag = false := by
      rw [hw]
      decide
    rw [hcompleted, if_neg (by simp), check_of (by simp [hw, hasWaitingReceiverFlag])]
    exact Inv.consumerMove hfault hs rfl ⟨rfl, rfl, rfl, rfl, rfl, rfl⟩ rfl rfl
      ⟨rfl, rfl, rfl, hwon, hstops, hw⟩
  · have hcompleted : hasFlag s.word completedFlag = true := by
      rw [hw]
      decide
    rw [if_pos hcompleted]
    exact Inv.consumerMove hfault hs rfl ⟨rfl, rfl, rfl, rfl, rfl, rfl⟩ rfl rfl
      ⟨rfl, rfl, rfl, hwon, hstops⟩

theorem Inv.tryDetachExchange {old : ℕ} (hq : s.consumer = .tryDetachExchange old) :
    Inv C (s.tryDetachExchange C old) := by
  obtain ⟨hfault, fate, w, f, hc, hs⟩ := hi
  rw [hq] at hc
  obtain ⟨rfl, rfl, rfl, hwon, hstops, rfl⟩ := hc
  obtain ⟨halive, hfresh, hword⟩ := hs.delegate
  unfold FutureState.tryDetachExchange
  by_cases hw : s.word = 4
  · have hflags : s.flags = 2 := by
      rcases hword with ⟨-, h⟩ | ⟨h, -⟩
      · exact h
      · omega
    have hsource : ∀ pc (fate' : Fate), fate' ≠ .taken → SourceOk C
        ({ s with word := 6 }.goto .consumer pc) fate' 6 2 s.source :=
      fun pc fate' hne => hs.retarget (.inr rfl) hne hw ⟨rfl, rfl, rfl, rfl, rfl, rfl⟩ rfl rfl
    rw [if_pos hw]
    by_cases hstoppable : C.isStoppable = true
    · rw [if_pos hstoppable]
      exact ⟨hfault, .keep, 6, 2, ⟨rfl, hstoppable, ⟨hwon, rfl, rfl, rfl⟩, hstops⟩,
        hsource _ .keep (by simp)⟩
    · rw [if_neg hstoppable]
      refine ⟨hfault, .discard, 6, 2, .inr ⟨rfl, .inr ⟨?_, .inr rfl⟩, hwon, ?_, rfl, hfresh⟩,
        hsource _ .discard (by simp)⟩
      · simpa using hstoppable
      · simp [goto, hstops]
  · have hw5 : s.word = 5 := by
      rcases hword with ⟨h, -⟩ | ⟨h, -⟩
      · exact absurd h hw
      · exact h
    rw [if_neg hw, check_of (by rw [hw5]; decide)]
    exact Inv.consumerMove hfault hs rfl ⟨rfl, rfl, rfl, rfl, rfl, rfl⟩ rfl rfl
      ⟨rfl, rfl, rfl, hwon, hstops⟩

theorem Inv.requestStops {k : Option (Outcome R X)} (hq : s.consumer = .requestStop k) :
    Inv C ({ s with sourceStops := s.sourceStops + 1 }.goto .consumer (.inRequestStop k)) := by
  obtain ⟨hfault, fate, w, f, hc, hs⟩ := hi
  rw [hq] at hc
  obtain ⟨rfl, hstoppable, hleaving, hstops⟩ := hc
  refine Inv.consumerMove hfault hs rfl ⟨rfl, rfl, rfl, rfl, rfl, rfl⟩ rfl rfl
    ⟨rfl, hstoppable, ?_, ?_⟩
  · cases k <;> exact hleaving
  · simp [goto, hstops]

theorem Inv.requestStopReturns {k : Option (Outcome R X)} (hq : s.consumer = .inRequestStop k) :
    Inv C (s.goto .consumer (.stopLoadState k)) := by
  obtain ⟨hfault, fate, w, f, hc, hs⟩ := hi
  rw [hq] at hc
  obtain ⟨rfl, hstoppable, hleaving, hstops⟩ := hc
  refine Inv.consumerMove hfault hs rfl ⟨rfl, rfl, rfl, rfl, rfl, rfl⟩ rfl rfl
    ⟨rfl, hstoppable, ?_, hstops⟩
  cases k <;> exact hleaving

theorem Inv.stopLoadState {k : Option (Outcome R X)} (hq : s.consumer = .stopLoadState k) :
    Inv C (s.stopLoadState k) := by
  obtain ⟨hfault, fate, w, f, hc, hs⟩ := hi
  rw [hq] at hc
  have hw := word_cases hc.base (by rw [hc.1]; simp)
  obtain ⟨rfl, hstoppable, hleaving, hstops⟩ := hc
  obtain ⟨halive, hfresh, hflags, hword⟩ := hs.keep
  unfold FutureState.stopLoadState
  rcases hword with hword | ⟨hword, hp, hsome, -⟩
  · rw [hword, not_completed hw]
    refine Inv.consumerMove hfault hs rfl ⟨rfl, rfl, rfl, rfl, rfl, rfl⟩ rfl rfl
      ⟨rfl, hstoppable, ?_, hstops⟩
    cases k <;> exact hleaving
  · rw [if_pos (by rw [hword]; exact completed hw)]
    refine Inv.take hfault hp hsome ⟨rfl, halive, ?_, ?_⟩
    · simp only [goto, hword]
      exact completed hw
    · exact hleaving.taking hflags hfresh hstops.le

theorem Inv.stopAddDone {k : Option (Outcome R X)} (hq : s.consumer = .stopAddDone k) :
    Inv C (s.stopAddDone k) := by
  obtain ⟨hfault, fate, w, f, hc, hs⟩ := hi
  rw [hq] at hc
  have hw := word_cases hc.base (by rw [hc.1]; simp)
  obtain ⟨rfl, hstoppable, hleaving, hstops⟩ := hc
  obtain ⟨halive, hfresh, hflags, hword⟩ := hs.keep
  have hadd := hleaving.fetchAdd_done
  unfold FutureState.stopAddDone
  rcases hword with hword | ⟨hword, hp, hsome, -⟩
  · -- the source will find the state fully detached
    rw [hword, not_completed hw, hadd.1]
    have hbase : Fate.Base C .discard (w + 8) := .inl ⟨hstoppable, by have := hadd.2.2; omega⟩
    refine ⟨hfault, .discard, w + 8, f, ?_, ?_⟩
    · cases k with
      | none =>
        exact .inl ⟨rfl, hbase, hstops.le, .inl ⟨hleaving.1, hfresh.1⟩⟩
      | some o =>
        exact .inr ⟨rfl, hbase, hleaving.1, hstops.le, hleaving.2.1, hfresh⟩
    · exact hs.retarget (.inl rfl) (by simp) hword ⟨rfl, rfl, rfl, rfl, rfl, rfl⟩ rfl rfl
  · rw [if_pos (by rw [hword]; exact completed hw)]
    refine Inv.take hfault hp hsome ⟨rfl, halive, ?_, ?_⟩
    · simp only [goto, hword]
      exact hadd.2.1
    · exact hleaving.taking hflags hfresh hstops.le

theorem Inv.lostLoadFlags (hq : s.consumer = .lostLoadFlags) : Inv C s.lostLoadFlags := by
  obtain ⟨hfault, fate, w, f, hc, hs⟩ := hi
  rw [hq] at hc
  obtain ⟨rfl, rfl, rfl, hwon, hstops⟩ := hc
  obtain ⟨halive, hfresh, hword⟩ := hs.delegate
  have hcontinue : s.flags = 2 → Inv C s.lostLoadFlags := by
    intro hf
    unfold FutureState.lostLoadFlags
    rw [hf]
    exact Inv.consumerMove hfault hs rfl ⟨rfl, rfl, rfl, rfl, rfl, rfl⟩ rfl rfl
      ⟨rfl, rfl, rfl, hwon, hstops⟩
  rcases hword with ⟨-, hf⟩ | ⟨hw, hf | ⟨hf, hp, hsome⟩⟩
  · exact hcontinue hf
  · exact hcontinue hf
  · unfold FutureState.lostLoadFlags
    rw [if_pos (by rw [hf]; decide)]
    refine Inv.take hfault hp hsome ⟨rfl, halive, ?_, ?_⟩
    · simp only [goto, hw]
      decide
    · exact hwon.taking hfresh (by simp [hf]) (by simp [hstops])

theorem Inv.lostAddDone (hq : s.consumer = .lostAddDone) : Inv C s.lostAddDone := by
  obtain ⟨hfault, fate, w, f, hc, hs⟩ := hi
  rw [hq] at hc
  obtain ⟨rfl, rfl, rfl, hwon, hstops⟩ := hc
  obtain ⟨halive, hfresh, hword⟩ := hs.delegate
  have hdefer : s.flags = 2 → Inv C s.lostAddDone := by
    intro hf
    unfold FutureState.lostAddDone
    rw [hf]
    refine ⟨hfault, .finalize, 4, 6, .inr (.inr (.inl ⟨rfl, rfl, rfl, hwon, hstops⟩)), ?_⟩
    exact (hs.race (t := ({ s with flags := 6 }.goto .consumer .done)) (.inr rfl) (.inr rfl) hf
      ⟨rfl, rfl, rfl, rfl, rfl, rfl⟩ rfl rfl).1
  rcases hword with ⟨-, hf⟩ | ⟨hw, hf | ⟨hf, hp, hsome⟩⟩
  · exact hdefer hf
  · exact hdefer hf
  · unfold FutureState.lostAddDone
    rw [if_pos (by rw [hf]; decide), hf]
    refine Inv.take hfault hp hsome ⟨rfl, halive, ?_, ?_⟩
    · simp only [goto, hw]
      decide
    · have hflags : fetchAdd wordBits 3 OpFlags.stopRequestDoneFlag ≠ 0 := by decide
      exact StopWon.taking
        (s := { s with flags := fetchAdd wordBits 3 OpFlags.stopRequestDoneFlag })
        hwon hfresh hflags (by simp [hstops])

end Consumer

/-! The consumer delivers the result in `start()`, or destroys the state. -/

/-- The consumer is through with `flags_`, and passes the result on. -/
theorem consumerPass {n : ℕ} (hfault : s.fault = false) (hp : s.source = .done)
    (hsome : s.completion.isSome = true) (hinline : s.Inline C .taken 5) (hgiven : s.Given o)
    (hflags : C.isStopPossible = true → n ≠ 0) :
    Inv C ({ s with flags := n }.passOn .consumer o) := by
  obtain ⟨-, hregistered, -, halive, hfresh, hword, -⟩ := hinline
  refine Inv.take hfault hp hsome ⟨rfl, halive, ?_, ?_⟩
  · simp only [passOn, goto, hword]
    decide
  · obtain ⟨hstarted, -, -, hwon, hstops⟩ := hregistered
    refine ⟨hstarted, ⟨?_, fun _ => hgiven.passed⟩, hfresh, by simp [passOn, goto, hstops], hflags⟩
    intro h
    have hwon' : s.stopWon = true := h
    rw [hwon] at hwon'
    cases hwon'

section ConsumerDelivery
variable (hi : s.Inv C)
include hi

theorem Inv.consumerSetResult (hq : s.consumer = .setResult o) :
    Inv C (if C.isStopPossible then (s.check s.receiver).goto .consumer (.loadFlags o)
      else (s.check s.receiver).passOn .consumer o) := by
  obtain ⟨hfault, fate, w, f, hc, hs⟩ := hi
  rw [hq] at hc
  obtain ⟨hinline, hgiven⟩ := hc
  obtain ⟨rfl, hregistered, -⟩ := id hinline
  obtain ⟨hp, hsome⟩ := hs.taken
  rw [check_of hregistered.2.1]
  by_cases hsp : C.isStopPossible = true
  · rw [if_pos hsp]
    exact Inv.take hfault hp hsome ⟨hinline, hgiven, hsp⟩
  · rw [if_neg hsp]
    exact consumerPass (n := s.flags) hfault hp hsome hinline hgiven fun h => absurd h hsp

theorem Inv.consumerLoadFlags (hq : s.consumer = .loadFlags o) :
    Inv C (s.loadFlags .consumer o) := by
  obtain ⟨hfault, fate, w, f, hc, hs⟩ := hi
  rw [hq] at hc
  obtain ⟨hinline, hgiven, hsp⟩ := hc
  obtain ⟨rfl, -, -, -, -, -, hflags⟩ := id hinline
  obtain ⟨hp, hsome⟩ := hs.taken
  unfold FutureState.loadFlags
  rw [if_neg (by rw [hflags]; decide)]
  exact Inv.take hfault hp hsome ⟨hinline, hgiven, hsp⟩

theorem Inv.consumerAddCompleted (hq : s.consumer = .addCompleted o) :
    Inv C (s.addCompleted .consumer o) := by
  obtain ⟨hfault, fate, w, f, hc, hs⟩ := hi
  rw [hq] at hc
  obtain ⟨hinline, hgiven, hsp⟩ := hc
  obtain ⟨rfl, -, -, -, -, -, hflags⟩ := id hinline
  obtain ⟨hp, hsome⟩ := hs.taken
  unfold FutureState.addCompleted decideCompleted
  rw [if_pos hflags, hflags]
  exact consumerPass (n := 1) hfault hp hsome hinline hgiven fun _ => by simp

theorem Inv.consumerDestroy {k : Option (Outcome R X)} (hq : s.consumer = .destroy k) :
    Inv C (s.destroy .consumer k) := by
  obtain ⟨hfault, fate, w, f, hc, hs⟩ := hi
  rw [hq] at hc
  obtain ⟨rfl, halive, hcompleted, htaking⟩ := hc
  obtain ⟨hp, hsome⟩ := hs.taken
  have hop : s.opState = true := by
    cases k with
    | none => exact htaking.2.1.2
    | some o => exact htaking.2.2.1.2
  unfold FutureState.destroy
  rw [check_of (by rw [hcompleted, hop]; simp)]
  refine Inv.take hfault hp hsome ⟨rfl, congrArg (· + 1) halive.1, halive.2, ?_⟩
  cases k <;> exact htaking

theorem Inv.consumerRelease {k : Option (Outcome R X)} (hq : s.consumer = .releaseScope k) :
    Inv C ({ s with released := s.released + 1 }.goto .consumer (finish k)) := by
  obtain ⟨hfault, fate, w, f, hc, hs⟩ := hi
  rw [hq] at hc
  obtain ⟨rfl, hdestroyed, hreleased, htaking⟩ := hc
  obtain ⟨hp, hsome⟩ := hs.taken
  have hgone : s.destroyed = 1 ∧ s.released + 1 = 1 := ⟨hdestroyed, by omega⟩
  refine Inv.take hfault hp hsome ?_
  cases k with
  | none =>
    obtain ⟨hunstarted, hfresh, hstops⟩ := htaking
    exact .inr (.inr (.inr ⟨rfl, hgone, hstops, .inl ⟨hunstarted, hfresh.1⟩⟩))
  | some o => exact .inl ⟨rfl, hgone, htaking⟩

theorem Inv.consumerComplete (hq : s.consumer = .complete o) :
    Inv C ({ s with opState := false, delivered := s.delivered ++ [o] }.goto .consumer .done) := by
  obtain ⟨hfault, fate, w, f, hc, hs⟩ := hi
  rw [hq] at hc
  rcases hc with ⟨rfl, hgone, hstarted, hfinal, hfresh, hstops, hflags⟩ |
    ⟨rfl, hbase, hwon, hstops, rfl, hfresh⟩
  · obtain ⟨hp, hsome⟩ := hs.taken
    exact Inv.take hfault hp hsome (.inr (.inr (.inr ⟨rfl, hgone, hstops,
      .inr ⟨hstarted, hflags, o, ⟨by simp [goto, hfresh.1], rfl⟩, hfinal⟩⟩)))
  · refine ⟨hfault, .discard, w, f, .inl ⟨rfl, hbase, hstops,
      .inr ⟨hwon, by simp [goto, hfresh.1], rfl⟩⟩, ?_⟩
    exact hs.discard_congr rfl rfl rfl rfl rfl

end ConsumerDelivery

/-! Every run -/

theorem Inv.sourceStep (hi : s.Inv C) (hp : s.source = p)
    (ht : s.threadStep C .source p = some t) : t.Inv C := by
  cases p with
  | running | done =>
    cases ht
  | beginSetResult =>
    cases ht
    exact hi.beginSetResult hp
  | storeDiscarded old =>
    cases ht
    exact hi.storeDiscarded hp
  | storeInvoked =>
    obtain ⟨c, hc, hct⟩ := Option.map_eq_some_iff.mp ht
    subst hct
    exact hi.storeInvoked hp hc
  | storeResult =>
    obtain ⟨c, hc, hct⟩ := Option.map_eq_some_iff.mp ht
    subst hct
    exact hi.storeResult hp hc
  | publish =>
    cases ht
    exact hi.publish hp
  | setResult o =>
    cases ht
    exact hi.sourceSetResult hp
  | loadFlags o =>
    cases ht
    exact hi.sourceLoadFlags hp
  | addCompleted o =>
    cases ht
    exact hi.sourceAddCompleted hp
  | destroy k =>
    cases ht
    exact hi.sourceDestroy hp
  | releaseScope k =>
    cases ht
    exact hi.sourceRelease hp
  | complete o =>
    cases ht
    exact hi.sourceComplete hp
  | _ =>
    obtain ⟨-, fate, w, f, -, hs⟩ := hi
    rw [hp] at hs
    cases hs

theorem Inv.consumerStep (hi : s.Inv C) (hq : s.consumer = q)
    (ht : s.threadStep C .consumer q = some t) : t.Inv C := by
  cases q with
  | idle | done =>
    cases ht
  | detachLoad =>
    cases ht
    exact hi.detachLoad hq
  | detachAdd =>
    cases ht
    exact hi.detachAdd hq
  | setReceiver =>
    cases ht
    exact hi.setsReceiver hq
  | receiverLoad =>
    cases ht
    exact hi.receiverLoad hq
  | receiverStore =>
    cases ht
    exact hi.receiverStore hq
  | receiverAdd =>
    cases ht
    exact hi.receiverAdd hq
  | deliverStored =>
    cases ht
    exact hi.delivers hq
  | stopLoadFlags =>
    cases ht
    exact hi.stopLoadFlags hq
  | stopExchange =>
    cases ht
    exact hi.stopExchange hq
  | tryDetachLoad =>
    cases ht
    exact hi.tryDetachLoad hq
  | tryDetachExchange old =>
    cases ht
    exact hi.tryDetachExchange hq
  | requestStop k =>
    cases ht
    exact hi.requestStops hq
  | inRequestStop k =>
    cases ht
    exact hi.requestStopReturns hq
  | stopLoadState k =>
    cases ht
    exact hi.stopLoadState hq
  | stopAddDone k =>
    cases ht
    exact hi.stopAddDone hq
  | lostLoadFlags =>
    cases ht
    exact hi.lostLoadFlags hq
  | lostAddDone =>
    cases ht
    exact hi.lostAddDone hq
  | setResult o =>
    cases ht
    exact hi.consumerSetResult hq
  | loadFlags o =>
    cases ht
    exact hi.consumerLoadFlags hq
  | addCompleted o =>
    cases ht
    exact hi.consumerAddCompleted hq
  | destroy k =>
    cases ht
    exact hi.consumerDestroy hq
  | releaseScope k =>
    cases ht
    exact hi.consumerRelease hq
  | complete o =>
    cases ht
    exact hi.consumerComplete hq
  | _ =>
    obtain ⟨-, fate, w, f, hc, -⟩ := hi
    rw [hq] at hc
    cases hc

/-- The state is there for a thread that is to access it or is in the source's `request_stop()`. -/
theorem Inv.alive (hi : s.Inv C) (t : Thread) (h : (s.pc t).usesState = true) :
    s.destroyed = 0 := by
  obtain ⟨-, fate, w, f, hc, hs⟩ := hi
  cases t with
  | source =>
    have hu : s.source.usesState = true := h
    cases hp : s.source with
    | running | beginSetResult | storeResult | publish =>
      rw [hp] at hs
      exact hs.2.1.1
    | storeDiscarded old | storeInvoked =>
      rw [hp] at hs
      exact hs.2.1.1.1
    | setResult o =>
      rw [hp] at hs
      exact hs.2.1.1
    | destroy k =>
      rw [hp] at hs
      exact hs.2.1.1
    | loadFlags o | addCompleted o | releaseScope k | complete o | done =>
      rw [hp] at hu
      cases hu
    | _ =>
      rw [hp] at hs
      cases hs
  | consumer =>
    have hu : s.consumer.usesState = true := h
    cases hq : s.consumer with
    | detachLoad | detachAdd | setReceiver | receiverLoad | receiverAdd =>
      rw [hq] at hc
      obtain ⟨rfl, -⟩ := hc
      exact hs.keep.1.1
    | requestStop k | inRequestStop k | stopLoadState k | stopAddDone k =>
      rw [hq] at hc
      obtain ⟨rfl, -⟩ := hc
      exact hs.keep.1.1
    | receiverStore | deliverStored | setResult o =>
      rw [hq] at hc
      exact hc.1.2.2.2.1.1
    | tryDetachLoad | tryDetachExchange old =>
      rw [hq] at hc
      obtain ⟨rfl, -⟩ := hc
      exact hs.delegate.1.1
    | destroy k =>
      rw [hq] at hc
      exact hc.2.1.1
    | idle | loadFlags o | addCompleted o | releaseScope k | complete o | stopLoadFlags
    | stopExchange | lostLoadFlags | lostAddDone | done =>
      rw [hq] at hu
      cases hu
    | _ =>
      rw [hq] at hc
      cases hc

theorem Inv.initial : Inv C ({} : FutureState R X) := by
  refine ⟨rfl, .keep, 0, 0, ⟨rfl, rfl, rfl, ⟨rfl, rfl, rfl, rfl⟩, rfl⟩, rfl, ⟨rfl, rfl⟩, rfl,
    ?_, ?_⟩
  · exact fun _ => ⟨rfl, rfl, rfl⟩
  · simp

theorem Inv.step (hi : s.Inv C) {a : Act R X} (ht : s.step C a = some t) : t.Inv C := by
  cases a with
  | complete c =>
    simp only [FutureState.step] at ht
    split at ht
    · next hp =>
      cases ht
      exact hi.completes hp c
    · cases ht
  | drop =>
    simp only [FutureState.step] at ht
    split at ht
    · next hq =>
      cases ht
      exact hi.drops hq
    · cases ht
  | start =>
    simp only [FutureState.step] at ht
    split at ht
    · next hq =>
      cases ht
      exact hi.starts hq
    · cases ht
  | requestStop =>
    simp only [FutureState.step] at ht
    split at ht
    · next hq =>
      by_cases hok : s.started = true ∧ s.stopCalled = false ∧ C.isStopPossible = true
      · rw [if_pos hok] at ht
        cases ht
        exact hi.requestsStop hq hok.1 hok.2.1 hok.2.2
      · rw [if_neg hok] at ht
        cases ht
    · cases ht
  | step thread =>
    obtain ⟨u, hu, hut⟩ := Option.map_eq_some_iff.mp ht
    have haccess : (!((s.pc thread).usesState && decide (0 < s.destroyed))) = true := by
      cases hp : (s.pc thread).usesState with
      | false => rfl
      | true => simp [hi.alive thread hp]
    rw [check_of haccess] at hut
    subst hut
    cases thread with
    | source => exact hi.sourceStep rfl hu
    | consumer => exact hi.consumerStep rfl hu

theorem inv_of_reaches {ok : FutureState R X → Act R X → Prop} (hs : (system C R X).Reaches ok s) :
    s.Inv C :=
  hs.invariant Inv.initial fun _ _ _ hi _ ht => hi.step ht

end FutureState

/-! How many steps are left -/

def Pc.rank : Pc R X → ℕ
  | .idle => 16
  | .detachLoad | .setReceiver => 15
  | .detachAdd | .receiverLoad | .stopLoadFlags => 14
  | .receiverStore | .receiverAdd | .stopExchange => 13
  | .running | .deliverStored | .tryDetachLoad => 12
  | .beginSetResult | .tryDetachExchange _ => 11
  | .storeDiscarded _ | .storeInvoked | .storeResult | .requestStop _ => 10
  | .publish | .inRequestStop _ => 9
  | .setResult _ | .stopLoadState _ => 8
  | .loadFlags _ | .stopAddDone _ | .lostLoadFlags => 7
  | .addCompleted _ | .lostAddDone => 6
  | .destroy _ => 5
  | .releaseScope _ => 4
  | .complete _ => 3
  | .done => 0

namespace FutureState
variable {s t u : FutureState R X} {p q : Pc R X} {o : Outcome R X}

def rank (s : FutureState R X) : ℕ :=
  s.source.rank + s.consumer.rank + if s.stopCalled then 0 else 15

/-- Thread `t` gets on, and the step does nothing else that counts. -/
theorem goto_rank {t : Thread} {pc : Pc R X} (hpc : s.pc t = p) (hp : u.source = s.source)
    (hq : u.consumer = s.consumer) (hcalled : u.stopCalled = s.stopCalled)
    (h : pc.rank < p.rank) : (u.goto t pc).rank < s.rank := by
  subst hpc
  unfold rank
  cases t with
  | source =>
    have hlt : pc.rank < s.source.rank := h
    simp only [goto, hq, hcalled]
    omega
  | consumer =>
    have hlt : pc.rank < s.consumer.rank := h
    simp only [goto, hp, hcalled]
    omega

theorem finish_rank (k : Option (Outcome R X)) {n : ℕ} (h : 3 < n) : (finish k).rank < n := by
  cases k with
  | none => exact lt_trans (by simp [finish, Pc.rank]) h
  | some o => exact h

theorem decideCompleted_rank {t : Thread} {old : ℕ} (hpc : s.pc t = p) (hp : u.source = s.source)
    (hq : u.consumer = s.consumer) (hcalled : u.stopCalled = s.stopCalled) (h : 5 < p.rank) :
    (u.decideCompleted t o old).rank < s.rank := by
  have hdone : (Pc.done : Pc R X).rank < p.rank := lt_trans (by simp [Pc.rank]) h
  unfold decideCompleted
  split_ifs
  · exact goto_rank hpc hp hq hcalled h
  · exact goto_rank hpc hp hq hcalled hdone
  · exact goto_rank hpc hp hq hcalled h
  · change (u.goto t .done).rank < s.rank
    exact goto_rank hpc hp hq hcalled hdone

theorem setResult_rank {t : Thread} {b : Bool} (hpc : s.pc t = .setResult o) :
    (if b then (s.check s.receiver).goto t (.loadFlags o)
      else (s.check s.receiver).passOn t o).rank < s.rank := by
  split_ifs <;> exact goto_rank hpc rfl rfl rfl (by simp [Pc.rank])

theorem loadFlags_rank {t : Thread} (hpc : s.pc t = .loadFlags o) :
    (s.loadFlags t o).rank < s.rank := by
  unfold loadFlags
  split_ifs
  · exact decideCompleted_rank hpc rfl rfl rfl (by simp [Pc.rank])
  · exact goto_rank hpc rfl rfl rfl (by simp [Pc.rank])

/-- Each step of a thread brings it closer to its end. -/
theorem sourceStep_rank (hi : s.Inv C) (hp : s.source = p)
    (ht : s.threadStep C .source p = some t) : t.rank < s.rank := by
  have hpc : s.pc .source = p := hp
  cases p with
  | running | done => cases ht
  | beginSetResult =>
    cases ht
    unfold tryBeginSetResult
    split_ifs <;> exact goto_rank hpc rfl rfl rfl (by simp [Pc.rank])
  | storeDiscarded old =>
    cases ht
    exact goto_rank hpc rfl rfl rfl (by simp [Pc.rank])
  | storeInvoked | storeResult =>
    obtain ⟨c, -, hct⟩ := Option.map_eq_some_iff.mp ht
    subst hct
    exact goto_rank hpc rfl rfl rfl (by simp [Pc.rank])
  | publish =>
    cases ht
    unfold FutureState.publish
    split_ifs
    · split
      · exact goto_rank hpc rfl rfl rfl (by simp [Pc.rank])
      · change ({ s with word := fetchAdd wordBits s.word completedFlag }.goto .source .done).rank <
          s.rank
        exact goto_rank hpc rfl rfl rfl (by simp [Pc.rank])
    · exact goto_rank hpc rfl rfl rfl (by simp [Pc.rank])
    · exact goto_rank hpc rfl rfl rfl (by simp [Pc.rank])
  | setResult o =>
    cases ht
    exact setResult_rank hpc
  | loadFlags o =>
    cases ht
    exact loadFlags_rank hpc
  | addCompleted o =>
    cases ht
    exact decideCompleted_rank hpc rfl rfl rfl (by simp [Pc.rank])
  | destroy k =>
    cases ht
    exact goto_rank hpc rfl rfl rfl (by simp [Pc.rank])
  | releaseScope k =>
    cases ht
    exact goto_rank hpc rfl rfl rfl (finish_rank k (by simp [Pc.rank]))
  | complete o =>
    cases ht
    exact goto_rank hpc rfl rfl rfl (by simp [Pc.rank])
  | _ =>
    obtain ⟨-, fate, w, f, -, hs⟩ := hi
    rw [hp] at hs
    cases hs

theorem consumerStep_rank (hi : s.Inv C) (hq : s.consumer = q)
    (ht : s.threadStep C .consumer q = some t) : t.rank < s.rank := by
  have hpc : s.pc .consumer = q := hq
  cases q with
  | idle | done => cases ht
  | detachAdd =>
    cases ht
    refine goto_rank hpc rfl rfl rfl ?_
    split_ifs <;> simp [Pc.rank]
  | setResult o =>
    cases ht
    exact setResult_rank hpc
  | loadFlags o =>
    cases ht
    exact loadFlags_rank hpc
  | addCompleted o =>
    cases ht
    exact decideCompleted_rank hpc rfl rfl rfl (by simp [Pc.rank])
  | receiverAdd =>
    cases ht
    unfold FutureState.receiverAdd
    split_ifs <;> exact goto_rank hpc rfl rfl rfl (by simp [Pc.rank])
  | deliverStored =>
    cases ht
    unfold FutureState.deliverStored
    split
    · exact goto_rank hpc rfl rfl rfl (by simp [Pc.rank])
    · change (s.goto .consumer .done).rank < s.rank
      exact goto_rank hpc rfl rfl rfl (by simp [Pc.rank])
  | stopExchange =>
    cases ht
    unfold FutureState.stopExchange
    split_ifs <;> exact goto_rank hpc rfl rfl rfl (by simp [Pc.rank])
  | tryDetachLoad =>
    cases ht
    unfold FutureState.tryDetachLoad
    split_ifs <;> exact goto_rank hpc rfl rfl rfl (by simp [Pc.rank])
  | tryDetachExchange old =>
    cases ht
    unfold FutureState.tryDetachExchange
    split_ifs <;> exact goto_rank hpc rfl rfl rfl (by simp [Pc.rank])
  | stopAddDone k =>
    cases ht
    refine goto_rank hpc rfl rfl rfl ?_
    split_ifs
    · simp [Pc.rank]
    · exact finish_rank k (by simp [Pc.rank])
  | releaseScope k =>
    cases ht
    exact goto_rank hpc rfl rfl rfl (finish_rank k (by simp [Pc.rank]))
  | detachLoad | receiverLoad | stopLoadFlags | stopLoadState k | lostLoadFlags | lostAddDone =>
    cases ht
    refine goto_rank hpc rfl rfl rfl ?_
    split_ifs <;> simp [Pc.rank]
  | setReceiver | receiverStore | requestStop k | inRequestStop k | destroy k | complete o =>
    cases ht
    exact goto_rank hpc rfl rfl rfl (by simp [Pc.rank])
  | _ =>
    obtain ⟨-, fate, w, f, hc, -⟩ := hi
    rw [hq] at hc
    cases hc

theorem rank_step (hi : s.Inv C) {a : Act R X} (ht : s.step C a = some t) : t.rank < s.rank := by
  cases a with
  | complete c =>
    simp only [step] at ht
    split at ht
    · next hp =>
      cases ht
      simp only [rank, hp, Pc.rank]
      omega
    · cases ht
  | drop =>
    simp only [step] at ht
    split at ht
    · next hq =>
      cases ht
      have hpc : s.pc .consumer = .idle := hq
      refine goto_rank hpc rfl rfl rfl ?_
      split_ifs <;> simp [Pc.rank]
    · cases ht
  | start =>
    simp only [step] at ht
    split at ht
    · next hq =>
      cases ht
      split_ifs <;> simp only [rank, hq, Pc.rank] <;> omega
    · cases ht
  | requestStop =>
    simp only [step] at ht
    split at ht
    · next hq =>
      by_cases hok : s.started = true ∧ s.stopCalled = false ∧ C.isStopPossible = true
      · rw [if_pos hok] at ht
        cases ht
        simp only [rank, hq, hok.2.1, Pc.rank]
        simp
      · rw [if_neg hok] at ht
        cases ht
    · cases ht
  | step thread =>
    obtain ⟨u, hu, hut⟩ := Option.map_eq_some_iff.mp ht
    subst hut
    change u.rank < s.rank
    cases thread with
    | source => exact sourceStep_rank hi rfl hu
    | consumer => exact consumerStep_rank hi rfl hu

/-! What the invariant says of a state -/

theorem ConsumerOk.sourceStops_le {fate : Fate} {w f : ℕ} (h : s.ConsumerOk C fate w f q) :
    s.sourceStops ≤ 1 := by
  cases q with
  | idle | detachLoad | detachAdd =>
    obtain ⟨-, -, -, -, hstops⟩ := h
    omega
  | setReceiver =>
    obtain ⟨-, -, -, -, -, -, -, hstops⟩ := h
    omega
  | receiverLoad | receiverAdd =>
    obtain ⟨-, -, -, ⟨-, -, -, -, hstops⟩, -⟩ := h
    omega
  | receiverStore | deliverStored | setResult o | loadFlags o | addCompleted o =>
    obtain ⟨⟨-, ⟨-, -, -, -, hstops⟩, -⟩, -⟩ := h
    omega
  | requestStop k | inRequestStop k | stopLoadState k | stopAddDone k =>
    obtain ⟨-, -, -, hstops⟩ := h
    omega
  | destroy k | releaseScope k =>
    obtain ⟨-, -, -, h⟩ := h
    cases k with
    | none => exact h.2.2
    | some o => exact h.2.2.2.1
  | complete o =>
    rcases h with ⟨-, -, h⟩ | ⟨-, -, -, hstops, -⟩
    · exact h.2.2.2.1
    · exact hstops
  | stopLoadFlags | stopExchange =>
    rcases h with ⟨-, -, ⟨-, -, -, -, -, -, -, hstops⟩ | ⟨-, -, -, hstops, -⟩⟩
    · omega
    · exact hstops
  | tryDetachLoad | lostLoadFlags | lostAddDone =>
    obtain ⟨-, -, -, -, hstops⟩ := h
    omega
  | tryDetachExchange old =>
    obtain ⟨-, -, -, -, hstops, -⟩ := h
    omega
  | done =>
    rcases h with ⟨-, -, hstops, -⟩ | ⟨-, -, -, -, -, -, -, hstops⟩ | ⟨-, -, -, -, hstops⟩ |
      ⟨-, -, hstops, -⟩
    · exact hstops
    · omega
    · omega
    · exact hstops
  | running | beginSetResult | storeDiscarded old | storeInvoked | storeResult | publish =>
    cases h

/-- The consumer's part of the state's life, once the source has nothing to do with it. -/
theorem ConsumerOk.taken {w f : ℕ} (h : s.ConsumerOk C .taken w f q) :
    (s.Alive ∨ s.destroyed = 1 ∧ s.released = 0 ∨ s.Gone) ∧
      (s.delivered = [] ∨ s.started = true ∧ ∃ o, s.Delivered o ∧ s.Final o) := by
  cases q with
  | receiverStore | deliverStored | setResult o | loadFlags o | addCompleted o =>
    obtain ⟨⟨-, -, -, halive, hfresh, -⟩, -⟩ := h
    exact ⟨.inl halive, .inl hfresh.1⟩
  | destroy k =>
    obtain ⟨-, halive, -, h⟩ := h
    refine ⟨.inl halive, .inl ?_⟩
    cases k with
    | none => exact h.2.1.1
    | some o => exact h.2.2.1.1
  | releaseScope k =>
    obtain ⟨-, hdestroyed, hreleased, h⟩ := h
    refine ⟨.inr (.inl ⟨hdestroyed, hreleased⟩), .inl ?_⟩
    cases k with
    | none => exact h.2.1.1
    | some o => exact h.2.2.1.1
  | complete o =>
    rcases h with ⟨-, hgone, -, -, hfresh, -⟩ | ⟨h, -⟩
    · exact ⟨.inr (.inr hgone), .inl hfresh.1⟩
    · cases h
  | stopLoadFlags | stopExchange =>
    obtain ⟨-, -, ⟨h, -⟩ | ⟨-, -, hgone, -, ⟨-, hnil⟩ | ⟨hstarted, -, hdel⟩⟩⟩ := h
    · cases h
    · exact ⟨.inr (.inr hgone), .inl hnil⟩
    · exact ⟨.inr (.inr hgone), .inr ⟨hstarted, hdel⟩⟩
  | done =>
    rcases h with ⟨h, -⟩ | ⟨h, -⟩ | ⟨h, -⟩ | ⟨-, hgone, -, ⟨-, hnil⟩ | ⟨hstarted, -, hdel⟩⟩
    · cases h
    · cases h
    · cases h
    · exact ⟨.inr (.inr hgone), .inl hnil⟩
    · exact ⟨.inr (.inr hgone), .inr ⟨hstarted, hdel⟩⟩
  | requestStop k | inRequestStop k | stopLoadState k | stopAddDone k => cases h.1
  | idle | detachLoad | detachAdd | setReceiver | receiverLoad | receiverAdd => cases h.1
  | tryDetachLoad | tryDetachExchange old | lostLoadFlags | lostAddDone => cases h.1
  | _ => cases h

/-- The state is destroyed once, and then gives up its reference to the scope. -/
theorem Inv.life (hi : s.Inv C) : s.Alive ∨ s.destroyed = 1 ∧ s.released = 0 ∨ s.Gone := by
  obtain ⟨-, fate, w, f, hc, hs⟩ := hi
  cases hp : s.source with
  | running | beginSetResult | storeResult | publish =>
    rw [hp] at hs
    exact .inl hs.2.1
  | storeDiscarded old | storeInvoked =>
    rw [hp] at hs
    exact .inl hs.2.1.1
  | setResult o =>
    rw [hp] at hs
    exact .inl hs.2.1
  | loadFlags o | addCompleted o =>
    rw [hp] at hs
    exact .inl hs.2.1.1
  | destroy k =>
    rw [hp] at hs
    exact .inl hs.2.1
  | releaseScope k =>
    rw [hp] at hs
    exact .inr (.inl ⟨hs.2.1, hs.2.2.1⟩)
  | complete o =>
    rw [hp] at hs
    exact .inr (.inr hs.2.1)
  | done =>
    rw [hp] at hs
    cases fate with
    | keep => exact .inl hs.2.2.1
    | discard => exact .inr (.inr hs.2)
    | deliver => exact .inr (.inr hs.2.1)
    | delegate => exact .inl hs.2.1
    | finalize => exact .inr (.inr hs.2.1)
    | taken => exact hc.taken.1
  | _ =>
    rw [hp] at hs
    cases hs

/-- The receiver was not completed, or once and as the race on `flags_` went. -/
def Settled (s : FutureState R X) : Prop :=
  s.delivered = [] ∨ s.started = true ∧ ∃ o, s.Delivered o ∧ s.Final o

theorem StopWon.final (h : s.StopWon C) : s.Final .stopped := by
  refine ⟨fun _ => rfl, fun hwon => ?_⟩
  rw [h.2.2.2.2.2] at hwon
  cases hwon

theorem ConsumerOk.discard {w f : ℕ} (h : s.ConsumerOk C .discard w f q) : s.Settled := by
  cases q with
  | complete o =>
    rcases h with ⟨h, -⟩ | ⟨-, -, -, -, -, hfresh⟩
    · cases h
    · exact .inl hfresh.1
  | done =>
    rcases h with ⟨-, -, -, ⟨-, hnil⟩ | ⟨hwon, hdel⟩⟩ | ⟨h, -⟩ | ⟨h, -⟩ | ⟨h, -⟩
    · exact .inl hnil
    · exact .inr ⟨hwon.1, .stopped, hdel, hwon.final⟩
    · cases h
    · cases h
    · cases h
  | stopLoadFlags | stopExchange =>
    obtain ⟨-, -, ⟨h, -⟩ | ⟨h, -⟩⟩ := h <;> cases h
  | receiverStore | deliverStored | setResult o | loadFlags o | addCompleted o => cases h.1.1
  | idle | detachLoad | detachAdd | setReceiver | receiverLoad | receiverAdd => cases h.1
  | requestStop k | inRequestStop k | stopLoadState k | stopAddDone k => cases h.1
  | destroy k | releaseScope k => cases h.1
  | tryDetachLoad | tryDetachExchange old | lostLoadFlags | lostAddDone => cases h.1
  | _ => cases h

/-- Where the source is to complete the receiver itself, the future was started, and the fate tells
who has won the race so far. -/
theorem ConsumerOk.started {fate : Fate} {w f : ℕ} (h : s.ConsumerOk C fate w f q)
    (hf : fate = .deliver ∨ fate = .finalize) :
    s.started = true ∧ s.stopWon = decide (fate = .finalize) := by
  cases q with
  | complete o =>
    rcases h with ⟨rfl, -⟩ | ⟨rfl, -⟩ <;> rcases hf with h | h <;> cases h
  | done =>
    rcases h with ⟨rfl, -⟩ | ⟨rfl, -, -, h⟩ | ⟨rfl, -, -, h, -⟩ | ⟨rfl, -⟩
    · rcases hf with h | h <;> cases h
    · exact ⟨h.1, h.2.2.2.1⟩
    · exact ⟨h.1, h.2.2.2.2.2⟩
    · rcases hf with h | h <;> cases h
  | stopLoadFlags | stopExchange =>
    obtain ⟨-, -, ⟨rfl, -, -, h⟩ | ⟨rfl, -⟩⟩ := h
    · exact ⟨h.1, h.2.2.2.1⟩
    · rcases hf with h | h <;> cases h
  | receiverStore | deliverStored | setResult o | loadFlags o | addCompleted o =>
    obtain ⟨⟨rfl, -⟩, -⟩ := h
    rcases hf with h | h <;> cases h
  | idle | detachLoad | detachAdd | setReceiver | receiverLoad | receiverAdd =>
    obtain ⟨rfl, -⟩ := h
    rcases hf with h | h <;> cases h
  | requestStop k | inRequestStop k | stopLoadState k | stopAddDone k =>
    obtain ⟨rfl, -⟩ := h
    rcases hf with h | h <;> cases h
  | destroy k | releaseScope k =>
    obtain ⟨rfl, -⟩ := h
    rcases hf with h | h <;> cases h
  | tryDetachLoad | tryDetachExchange old | lostLoadFlags | lostAddDone =>
    obtain ⟨rfl, -⟩ := h
    rcases hf with h | h <;> cases h
  | _ => cases h

/-- A source that is to complete the receiver has not done so before its end. -/
theorem SourceOk.fresh {fate : Fate} {w f : ℕ} (h : s.SourceOk C fate w f p)
    (hf : fate = .deliver ∨ fate = .finalize) (hp : p ≠ .done) : s.Fresh := by
  have hkeep : fate ≠ .discard := by
    rcases hf with h | h <;> rw [h] <;> simp
  have hconcluding : ∀ k, s.Concluding C fate k → s.Fresh := by
    intro k hk
    rcases hf with rfl | rfl
    · cases k with
      | none => cases hk
      | some o => exact hk.2.1
    · cases k with
      | none => cases hk
      | some o => exact hk.2
  cases p with
  | running | beginSetResult | storeResult | publish => exact (h.2.2.2.1 hkeep).2
  | storeDiscarded old | storeInvoked => exact (h.2.1.2.2.1 hkeep).2
  | setResult o => exact h.2.2.2.2.1
  | loadFlags o | addCompleted o => exact h.2.1.2.2.2.1
  | destroy k | releaseScope k => exact hconcluding k h.2.2.2
  | complete o => exact hconcluding (some o) h.2.2
  | done => exact absurd rfl hp
  | _ => cases h

theorem Inv.settled (hi : s.Inv C) : s.Settled := by
  obtain ⟨-, fate, w, f, hc, hs⟩ := hi
  cases fate with
  | keep => exact .inl hs.keep.2.1.1
  | delegate => exact .inl hs.delegate.2.1.1
  | taken => exact hc.taken.2
  | discard => exact hc.discard
  | deliver =>
    by_cases hp : s.source = .done
    · rw [hp] at hs
      obtain ⟨-, -, -, o, hdel, hgives⟩ := hs
      obtain ⟨hstarted, hwon⟩ := hc.started (.inl rfl)
      refine .inr ⟨hstarted, o, hdel, fun h => ?_, fun _ => hgives⟩
      rw [hwon] at h
      cases h
    · exact .inl (hs.fresh (.inl rfl) hp).1
  | finalize =>
    by_cases hp : s.source = .done
    · rw [hp] at hs
      obtain ⟨-, -, hdel⟩ := hs
      obtain ⟨hstarted, hwon⟩ := hc.started (.inr rfl)
      refine .inr ⟨hstarted, .stopped, hdel, fun _ => rfl, fun h => ?_⟩
      rw [hwon] at h
      cases h
    · exact .inl (hs.fresh (.inr rfl) hp).1

/-- The source has completed, and nothing is left to do but, possibly, a `request_stop()` on the
future operation. -/
def Quiescent (C : Config) (s : FutureState R X) : Prop :=
  s.source ≠ .running ∧ ∀ a : Act R X, a ≠ .requestStop → s.step C a = none

/-- The whole promise of a spawned future about one reachable state. -/
structure Kept (C : Config) (s : FutureState R X) : Prop where
  destroyedOnce : s.destroyed ≤ 1
  /-- the state outlives the source's `request_stop()`, and every access that is still to come -/
  destroyedLast : ∀ t, (s.pc t).usesState = true → s.destroyed = 0
  sourceStopsOnce : s.sourceStops ≤ 1
  /-- the reference to the scope is released after the state is destroyed -/
  released : s.released ≤ s.destroyed
  deliveredOnce : s.delivered.length ≤ 1
  unstarted : s.started = false → s.delivered = []
  outcome : ∀ o ∈ s.delivered, s.Final o
  /-- in the end all this has happened -/
  atEnd : s.Quiescent C → s.destroyed = 1 ∧ s.released = 1 ∧
    (s.started = true → s.delivered.length = 1)
  noFault : s.fault = false

theorem Quiescent.consumer_done (hi : s.Inv C) (h : s.Quiescent C) : s.consumer = .done := by
  have hdrop := h.2 .drop (by simp)
  have hstep := h.2 (.step .consumer) (by simp)
  obtain ⟨-, fate, w, f, hc, -⟩ := hi
  simp only [step, pc, Option.map_eq_none_iff] at hdrop hstep
  cases hq : s.consumer with
  | done => rfl
  | idle => simp [hq] at hdrop
  | running | beginSetResult | storeDiscarded old | storeInvoked | storeResult | publish =>
    rw [hq] at hc
    cases hc
  | _ => simp [hq, threadStep] at hstep

theorem Quiescent.source_done (hi : s.Inv C) (h : s.Quiescent C) : s.source = .done := by
  have hstep := h.2 (.step .source) (by simp)
  obtain ⟨-, fate, w, f, -, hs⟩ := hi
  simp only [step, pc, Option.map_eq_none_iff] at hstep
  cases hp : s.source with
  | done => rfl
  | running => exact absurd hp h.1
  | storeInvoked | storeResult =>
    rw [hp] at hs hstep
    obtain ⟨c, hc⟩ := Option.isSome_iff_exists.mp hs.1
    simp [threadStep, hc] at hstep
  | beginSetResult | storeDiscarded old | publish | setResult o | loadFlags o | addCompleted o
  | destroy k | releaseScope k | complete o => simp [hp, threadStep] at hstep
  | _ =>
    rw [hp] at hs
    cases hs

theorem Inv.atEnd (hi : s.Inv C) (h : s.Quiescent C) :
    s.Gone ∧ (s.started = true → s.delivered.length = 1) := by
  have hq := h.consumer_done hi
  have hp := h.source_done hi
  obtain ⟨-, fate, w, f, hc, hs⟩ := hi
  rw [hq] at hc
  rw [hp] at hs
  rcases hc with ⟨rfl, -, -, hc⟩ | ⟨rfl, -⟩ | ⟨rfl, -⟩ | ⟨rfl, hgone, -, hc⟩
  · refine ⟨hs.2, fun hstarted => ?_⟩
    rcases hc with ⟨⟨hnot, -⟩, -⟩ | ⟨-, hdel, -⟩
    · rw [hnot] at hstarted
      cases hstarted
    · rw [hdel]
      rfl
  · obtain ⟨-, hgone, -, o, ⟨hdel, -⟩, -⟩ := hs
    exact ⟨hgone, fun _ => by rw [hdel]; rfl⟩
  · obtain ⟨-, hgone, hdel, -⟩ := hs
    exact ⟨hgone, fun _ => by rw [hdel]; rfl⟩
  · refine ⟨hgone, fun hstarted => ?_⟩
    rcases hc with ⟨⟨hnot, -⟩, -⟩ | ⟨-, -, o, ⟨hdel, -⟩, -⟩
    · rw [hnot] at hstarted
      cases hstarted
    · rw [hdel]
      rfl

theorem Inv.kept (hi : s.Inv C) : s.Kept C where
  destroyedOnce := by
    rcases hi.life with h | h | h
    · exact h.1.le.trans (Nat.zero_le 1)
    · exact h.1.le
    · exact h.1.le
  destroyedLast := hi.alive
  sourceStopsOnce := by
    obtain ⟨-, fate, w, f, hc, -⟩ := hi
    exact hc.sourceStops_le
  released := by
    rcases hi.life with ⟨h1, h2⟩ | ⟨h1, h2⟩ | ⟨h1, h2⟩ <;> omega
  deliveredOnce := by
    rcases hi.settled with h | ⟨-, o, ⟨h, -⟩, -⟩ <;> simp [h]
  unstarted := by
    intro hnot
    rcases hi.settled with h | ⟨hstarted, -⟩
    · exact h
    · rw [hnot] at hstarted
      cases hstarted
  outcome := by
    intro o ho
    rcases hi.settled with h | ⟨-, o', ⟨h, -⟩, hfinal⟩
    · rw [h] at ho
      cases ho
    · rw [h, List.mem_singleton] at ho
      rwa [ho]
  atEnd := by
    intro h
    obtain ⟨hgone, hdel⟩ := hi.atEnd h
    exact ⟨hgone.1, hgone.2, hdel⟩
  noFault := hi.1

/-- Over every interleaving of the source's completion with dropping the future, or starting it
and asking it to stop, for any source and receiver; and every run comes to its end. -/
theorem spawn_future_kept (hs : (system C R X).Reachable s) :
    s.Kept C ∧ ∀ as t, (system C R X).run s as = some t → as.length ≤ s.rank := by
  have hi := inv_of_reaches hs
  refine ⟨hi.kept, fun as t ht => ?_⟩
  have hle := System.exec_length_le (P := Inv C) rank
    (fun _ _ _ hu hv => ⟨hu.step hv, rank_step hu hv⟩) hi ht
  omega

/-- The future is started before the source completes, and is asked to stop while the source calls
the receiver. -/
def stopDuringCompletion : List (Act ℕ ℕ) :=
  [.start, .step .consumer, .step .consumer, .step .consumer, .complete ⟨7, none, none⟩,
    .step .source, .step .source, .step .source, .requestStop, .step .consumer, .step .consumer,
    .step .source, .step .source, .step .source, .step .consumer, .step .consumer, .step .consumer,
    .step .consumer, .step .consumer]

theorem spawn_future_kept_run : ∃ s : FutureState ℕ ℕ, s.delivered = [.stopped] ∧
    s.Kept ⟨true, true⟩ ∧
      ∀ as t, (system ⟨true, true⟩ ℕ ℕ).run s as = some t → as.length ≤ s.rank := by
  obtain ⟨s, hs, hp⟩ := (system ⟨true, true⟩ ℕ ℕ).exists_reachable stopDuringCompletion
    (fun s => s.delivered = [.stopped]) (by decide +kernel)
  exact ⟨s, by simpa using hp, spawn_future_kept hs⟩

/-- The source's result is not what arrives when moving its datums to the receiver throws. -/
theorem result_is_replaced : ∃ s : FutureState ℕ ℕ, (system ⟨true, true⟩ ℕ ℕ).Reachable s ∧
    s.stopWon = false ∧ s.completion.map (·.result) = some 7 ∧ s.delivered = [.exceptionPtr 9] := by
  obtain ⟨s, hs, hp⟩ := (system ⟨true, true⟩ ℕ ℕ).exists_reachable
    [.start, .step .consumer, .step .consumer, .step .consumer, .complete ⟨7, none, some 9⟩,
      .step .source, .step .source, .step .source, .step .source, .step .source, .step .source,
      .step .source, .step .source, .step .source]
    (fun s => s.stopWon = false ∧ s.completion.map (·.result) = some 7 ∧
      s.delivered = [.exceptionPtr 9]) (by decide +kernel)
  exact ⟨s, hs, by simpa using hp⟩

end FutureState
end Squiz.CountingScope.Future
