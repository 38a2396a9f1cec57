import Squiz.StopTokenSender.Steps

/-! `stop_token_op` completes once, after it has unsubscribed, and no two threads wait for each
other. -/
namespace Squiz.StopTokenSender
open Squiz.Lib Squiz.Lib.Processes

/-- The steps that are not the callers' choice: those of a function that was called, and the
invocation of a callback that is subscribed to a signalled token. -/
def Act.owed {θ : Type*} : Act θ → Bool
  | .signal | .callStart _ | .requestStop _ => false
  | _ => true

namespace Op
variable {θ : Type*} [DecidableEq θ]

/-- Nothing is left to do. -/
def Ended (s : Op θ) : Prop := ∀ a : Act θ, a.owed = true → s.step a = none

/-- Thread `a` waits in the destructor of the callback for thread `b`, which is invoking it. -/
def Waits (s : Op θ) (a b : θ) : Prop :=
  ∃ p, s.thread p = some a ∧ s.finish p = some .wait ∧ s.invoking = true ∧
    s.thread .callback = some b ∧ a ≠ b

structure Orderly (s : Op θ) : Prop where
  deliveredOnce : s.delivered.length ≤ 1
  /-- If a stop is requested on the token or on the started operation, it completes. -/
  deliveredAtEnd : s.Ended → s.start ≠ .notCalled → s.signalled = true ∨ s.stop ≠ .notCalled →
    s.delivered.length = 1
  /-- `early`: the token was signalled before `start()` looked. -/
  signal : ∀ r ∈ s.delivered,
    r = if s.start.early ∨ callbackFirst s.added then .value else .stopped
  unsubscribed : s.delivered ≠ [] → s.callback = .empty
  resetAfterEmplace : ∀ p, s.finish p ≠ none → s.start.emplacing = false
  /-- A thread that another one waits for does not wait. -/
  noMutualWait : ∀ a b c, s.Waits a b → ¬ s.Waits b c

section
omit [DecidableEq θ]
variable {s : Op θ}

theorem Inv.unsubscribed (hi : s.Inv) (h : s.delivered ≠ []) : s.callback = .empty := by
  have hpos : 0 < s.delivered.length := List.length_pos_iff.mpr h
  rw [hi.callback, if_neg]
  unfold unsubscriptions
  omega

theorem Inv.not_emplacing (hi : s.Inv) {p : Party} (hp : s.finish p ≠ none) :
    s.start.emplacing = false := by
  have hone := (hi.finishing hp).1
  have hset := (hi.finishing hp).2.2.1
  by_contra hne
  have hzero : s.completions = 0 := by
    apply hi.completions_eq_zero
    · intro h
      rw [h] at hne
      exact hne rfl
    · cases hs : s.start <;> rw [hs] at hne <;> first | rfl | exact absurd rfl hne
  omega

/-- A waiting thread waits for the one that invokes the callback, which does not wait. -/
theorem Waits.not_waits {a b c : θ} (h : s.Waits a b) : ¬ s.Waits b c := by
  obtain ⟨-, -, -, -, hb, -⟩ := h
  rintro ⟨-, -, -, -, hc, hne⟩
  rw [hb] at hc
  cases hc
  exact hne rfl

end

variable {s t : Op θ}

/-! Where an operation that has nothing left to do stands. -/

theorem Ended.callback (h : s.Ended) : s.invocation = .notCalled ∨ s.invocation = .added := by
  have hstep := h .callback rfl
  cases hpc : s.invocation with
  | notCalled => exact .inl rfl
  | fetchAdd => simp [Op.step, hpc] at hstep
  | added => exact .inr rfl

theorem Ended.not_invoking (h : s.Ended) (hi : s.Inv) : s.invoking = false := by
  by_contra hne
  have hinvoking : s.invoking = true := by simpa using hne
  have hadded : s.invocation = .added := by
    rcases h.callback with hnot | hadded
    · exact absurd hnot (hi.invoking hinvoking)
    · exact hadded
  have hfinish : s.finish .callback = none := by
    have hstep := h (.finish .callback) rfl
    simp only [Op.step, finishStep] at hstep
    split at hstep
    · assumption
    · cases hstep
    · -- the invocation does not wait for itself
      simp [invokedElsewhere] at hstep
    · cases hstep
  have hstep := h .returnCallback rfl
  simp [Op.step, hinvoking, hadded, hfinish] at hstep

theorem Ended.finish_eq_none (h : s.Ended) (hi : s.Inv) (p : Party) : s.finish p = none := by
  have hstep := h (.finish p) rfl
  simp only [Op.step, finishStep] at hstep
  split at hstep
  · assumption
  · cases hstep
  · simp [invokedElsewhere, h.not_invoking hi] at hstep
  · cases hstep

theorem Ended.start (h : s.Ended) (hi : s.Inv) :
    s.start = .notCalled ∨ s.start = .added ∨ s.start = .returnedEarly := by
  have hstep := h .start rfl
  cases hpc : s.start <;> simp [Op.step, startStep, hpc, h.not_invoking hi] at hstep ⊢

theorem Ended.stop (h : s.Ended) : s.stop = .notCalled ∨ s.stop = .added := by
  have hstep := h .stop rfl
  cases hpc : s.stop with
  | notCalled => exact .inl rfl
  | fetchAdd => simp [Op.step, hpc] at hstep
  | added => exact .inr rfl

/-- The callback of a signalled token was invoked to the end, or is not subscribed any more. -/
theorem Ended.invoked (h : s.Ended) (hsignalled : s.signalled = true) (thread : θ) :
    s.invocation = .added ∨ s.subscribed = false := by
  rcases h.callback with hpc | hpc
  · right
    have hstep := h (.invoke thread) rfl
    simpa [Op.step, hpc, hsignalled] using hstep
  · exact .inl hpc

theorem Inv.deliveredAtEnd (hi : s.Inv) (h : s.Ended) (hstarted : s.start ≠ .notCalled)
    (hstop : s.signalled = true ∨ s.stop ≠ .notCalled) : s.delivered.length = 1 := by
  have hcompletions : s.completions = s.delivered.length := by
    have hcount : count Option.isSome s.finish = 0 :=
      count_eq_zero.mpr fun p => by rw [h.finish_eq_none hi p]; rfl
    unfold completions
    omega
  have honce := hi.once
  rcases h.start hi with hpc | hpc | hpc
  · exact absurd hpc hstarted
  · have hone : s.completions ≠ 0 := by
      intro hzero
      have hundecided : ¬ s.Decided := by
        intro hdecided
        rw [if_pos hdecided, hpc] at honce
        simp at honce
        omega
      have hmem : Party.start ∈ s.added := hi.startAdded.mpr hpc
      rcases hstop with hsignalled | hcalled
      · obtain ⟨thread, -⟩ := Option.ne_none_iff_exists'.mp (hi.started hstarted)
        rcases h.invoked hsignalled thread with hinvoked | hsubscribed
        · exact hundecided (.inr ⟨hmem, .inl (hi.callbackAdded.mpr hinvoked)⟩)
        · rw [hi.subscribed (by rw [hpc]; rfl) hzero] at hsubscribed
          cases hsubscribed
      · rcases h.stop with hnot | hadded
        · exact hcalled hnot
        · exact hundecided (.inr ⟨hmem, .inr (hi.stopAdded.mpr hadded)⟩)
    have hle := hi.completions_le
    omega
  · rw [hpc, if_pos (.inl (by rw [hpc]; rfl))] at honce
    simp at honce
    omega

theorem Inv.orderly (hi : s.Inv) : s.Orderly where
  deliveredOnce := by
    have hle := hi.completions_le
    unfold completions at hle
    omega
  deliveredAtEnd := hi.deliveredAtEnd
  signal := hi.outcome
  unsubscribed := hi.unsubscribed
  resetAfterEmplace := fun _ hp => hi.not_emplacing hp
  noMutualWait := fun _ _ _ h => h.not_waits

/-! Every run is finite. -/

end Op

/-- Steps left to `start()`, with those after its `fetch_add`. -/
def StartPc.rank : StartPc → ℕ
  | .notCalled => 9
  | .stopRequested => 8
  | .emplace => 7
  | .subscribe => 6
  | .subscribed => 5
  | .fetchAdd => 4
  | .setValue => 1
  | .added | .returnedEarly => 0

def CallPc.rank : CallPc → ℕ
  | .notCalled => 6
  | .fetchAdd => 4
  | .added => 0

def Finish.rank : Option Finish → ℕ
  | none => 0
  | some .complete => 1
  | some .wait => 2
  | some .unsubscribe => 3

namespace Op
variable {θ : Type*} [DecidableEq θ] {s t : Op θ}

def rank (s : Op θ) : ℕ :=
  (!s.signalled).toNat + s.start.rank + s.invocation.rank + s.invoking.toNat + s.stop.rank +
    (Finish.rank (s.finish .start) + Finish.rank (s.finish .callback) +
      Finish.rank (s.finish .requestStop))

omit [DecidableEq θ] in
/-- After its `fetch_add` a function has three steps left at most. -/
theorem rank_fetchAddFlag (p : Party) : (s.fetchAddFlag p).rank ≤ s.rank + 3 := by
  cases p <;> simp only [rank, fetchAddFlag, Function.update_self, ne_eq, reduceCtorEq,
    not_false_eq_true, Function.update_of_ne] <;> split_ifs <;> simp only [Finish.rank] <;> omega

theorem rank_startStep (ht : s.startStep = some t) : t.rank < s.rank := by
  unfold startStep at ht
  cases hpc : s.start with
  | notCalled | added | returnedEarly =>
    rw [hpc] at ht
    cases ht
  | stopRequested =>
    simp only [hpc] at ht
    cases ht
    simp only [rank, hpc]
    split_ifs <;> simp [StartPc.rank]
  | setValue | emplace | subscribe =>
    simp only [hpc] at ht
    cases ht
    simp [rank, hpc, StartPc.rank]
  | subscribed =>
    simp only [hpc] at ht
    split_ifs at ht
    cases ht
    simp [rank, hpc, StartPc.rank]
  | fetchAdd =>
    simp only [hpc] at ht
    cases ht
    have hle := rank_fetchAddFlag (s := s) .start
    simp only [rank, fetchAddFlag_start, hpc, StartPc.rank] at hle ⊢
    omega

theorem rank_finishStep {p : Party} (ht : s.finishStep p = some t) : t.rank < s.rank := by
  unfold finishStep at ht
  cases hp : s.finish p with
  | none =>
    rw [hp] at ht
    cases ht
  | some f =>
    cases f with
    | unsubscribe | complete =>
      simp only [hp] at ht
      cases ht
      cases p <;> simp [rank, hp, Finish.rank]
    | wait =>
      simp only [hp] at ht
      split_ifs at ht
      cases ht
      cases p <;> simp [rank, hp, Finish.rank]

theorem rank_step {a : Act θ} (ht : s.step a = some t) : t.rank < s.rank := by
  cases a with
  | signal =>
    simp only [Op.step] at ht
    split_ifs at ht with hsignalled
    cases ht
    simp [rank, hsignalled]
  | callStart thread =>
    simp only [Op.step] at ht
    split_ifs at ht with hpc
    cases ht
    simp [rank, hpc, StartPc.rank, setThread]
  | start => exact rank_startStep ht
  | invoke thread =>
    simp only [Op.step] at ht
    split_ifs at ht with hinvoke
    cases ht
    have hle := Bool.toNat_le s.invoking
    simp only [rank, hinvoke.2.2, CallPc.rank, setThread, Bool.toNat_true]
    omega
  | callback =>
    simp only [Op.step] at ht
    split_ifs at ht with hpc
    cases ht
    have hle := rank_fetchAddFlag (s := s) .callback
    simp only [rank, fetchAddFlag_invocation, hpc, CallPc.rank] at hle ⊢
    omega
  | returnCallback =>
    simp only [Op.step] at ht
    split_ifs at ht with hreturn
    cases ht
    simp [rank, hreturn.1]
  | requestStop thread =>
    simp only [Op.step] at ht
    split_ifs at ht with hcall
    cases ht
    simp [rank, hcall.1, CallPc.rank, setThread]
  | stop =>
    simp only [Op.step] at ht
    split_ifs at ht with hpc
    cases ht
    have hle := rank_fetchAddFlag (s := s) .requestStop
    simp only [rank, fetchAddFlag_stop, hpc, CallPc.rank] at hle ⊢
    omega
  | finish p => exact rank_finishStep ht

/-- The receiver is completed once, with the callback destroyed; by value if the token was signalled
before `start()` looked or the callback's flag came first; and every run comes to an end. -/
theorem completes_unsubscribed {s : Op θ} (hs : (system θ).Reachable s) :
    s.Orderly ∧ ∀ as t, (system θ).run s as = some t → as.length ≤ s.rank := by
  have hi : s.Inv := hs.invariant Inv.init fun _ _ _ h _ ht => Inv.step h ht
  constructor
  · exact hi.orderly
  · intro as t ht
    have hle := System.exec_length_le (P := Inv) rank
      (fun _ _ _ hv ht => ⟨Inv.step hv ht, rank_step ht⟩) hi ht
    omega

/-- Thread 1 invokes the callback while thread 0 constructs it; thread 0 waits for the invocation
and completes the receiver, and a later stop request on thread 2 does nothing. -/
theorem completes_unsubscribed_run : ∃ s : Op ℕ, s.delivered = [.value] ∧ s.stop = .added ∧
    s.Orderly ∧ ∀ as t, (system ℕ).run s as = some t → as.length ≤ s.rank := by
  obtain ⟨s, hs, hp⟩ := (system ℕ).exists_reachable
    [.callStart 0, .start, .start, .start, .signal, .invoke 1, .start, .callback, .start,
      .finish .start, .returnCallback, .finish .start, .finish .start, .requestStop 2, .stop]
    (fun s => s.delivered = [.value] ∧ s.stop = .added) (by decide +kernel)
  simp only [decide_eq_true_eq] at hp
  exact ⟨s, hp.1, hp.2, completes_unsubscribed hs⟩

/-- With a token signalled before `start()` the receiver gets a value and no flag is set. -/
theorem completes_without_callback :
    ¬ ∀ s : Op ℕ, (system ℕ).Reachable s →
      ∀ r ∈ s.delivered, r = if callbackFirst s.added then .value else .stopped := by
  intro h
  obtain ⟨s, hs, hp⟩ := (system ℕ).exists_reachable [.signal, .callStart 0, .start, .start]
    (fun s => s.delivered = [.value] ∧ s.added = []) (by decide +kernel)
  simp only [decide_eq_true_eq] at hp
  have hvalue := h s hs .value (by simp [hp.1])
  rw [hp.2] at hvalue
  cases hvalue

end Op
end Squiz.StopTokenSender
