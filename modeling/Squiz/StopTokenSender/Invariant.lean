import Squiz.Lib.Processes
import Squiz.StopTokenSender.Op

/-! The invariant of `stop_token_op`: which flags were added, who completes the receiver, and what
the optional callback holds. -/
namespace Squiz.StopTokenSender
open Squiz.Lib Squiz.Lib.Word Squiz.Lib.Processes

instance : Fintype Party where
  elems := {.start, .callback, .requestStop}
  complete := by
    intro p
    cases p <;> decide

/-- `on_stop_callback()` added its flag, and `request_stop()` had not added its own. -/
def callbackFirst : List Party → Bool
  | [] | .requestStop :: _ => false
  | .callback :: _ => true
  | .start :: added => callbackFirst added

theorem callbackFirst_of_notMem {added : List Party} (h : Party.requestStop ∉ added) :
    callbackFirst added = decide (Party.callback ∈ added) := by
  induction added with
  | nil => rfl
  | cons p added ih =>
    cases p with
    | start => simpa [callbackFirst] using ih (List.not_mem_of_not_mem_cons h)
    | callback => simp [callbackFirst]
    | requestStop => simp at h

/-- After the flag of `request_stop()` no flag changes the answer. -/
theorem callbackFirst_append_of_mem {added : List Party} (h : Party.requestStop ∈ added)
    (p : Party) : callbackFirst (added ++ [p]) = callbackFirst added := by
  induction added with
  | nil => cases h
  | cons q added ih =>
    cases q with
    | start => exact ih (by simpa using h)
    | callback => rfl
    | requestStop => rfl

/-- The flag of `request_stop()` itself does not change it. -/
theorem callbackFirst_append_requestStop (added : List Party) :
    callbackFirst (added ++ [.requestStop]) = callbackFirst added := by
  induction added with
  | nil => rfl
  | cons q added ih =>
    cases q with
    | start => exact ih
    | callback => rfl
    | requestStop => rfl

namespace StartPc

/-- The callback is or was subscribed to the token. -/
def hasSubscribed : StartPc → Bool
  | subscribed | fetchAdd | added => true
  | _ => false

/-- `callback_.emplace` is about to be called or still running. -/
def emplacing : StartPc → Bool
  | emplace | subscribe | subscribed => true
  | _ => false

/-- A stop was requested on the token before `start()` looked. -/
def early : StartPc → Bool
  | setValue | returnedEarly => true
  | _ => false

/-- The optional `callback_` as `start()` leaves it. -/
def leaves : StartPc → Callback
  | subscribe | subscribed => .constructing
  | fetchAdd | added => .constructed
  | _ => .empty

end StartPc

namespace Op
variable {θ : Type*}

/-- The operation completes once the callback is constructed and one of the others has come. -/
def Decided (s : Op θ) : Prop :=
  s.start.early = true ∨
    Party.start ∈ s.added ∧ (Party.callback ∈ s.added ∨ Party.requestStop ∈ s.added)

instance (s : Op θ) : Decidable s.Decided := inferInstanceAs (Decidable (_ ∨ _))

/-- The completion as the order of the flags determines it. -/
def outcome (s : Op θ) : Signal :=
  if s.start.early ∨ callbackFirst s.added then .value else .stopped

/-- Completions made and under way, without the one of `setValue`. -/
def completions (s : Op θ) : ℕ := s.delivered.length + count Option.isSome s.finish

/-- Completions made and those with nothing left but the call. -/
def unsubscriptions (s : Op θ) : ℕ :=
  s.delivered.length + count (fun f => decide (f = some Finish.complete)) s.finish

structure Inv (s : Op θ) : Prop where
  started : s.start ≠ .notCalled → s.thread .start ≠ none
  startAdded : Party.start ∈ s.added ↔ s.start = .added
  callbackAdded : Party.callback ∈ s.added ↔ s.invocation = .added
  stopAdded : Party.requestStop ∈ s.added ↔ s.stop = .added
  word : s.word = (decide (Party.start ∈ s.added)).toNat +
    2 * (decide (Party.callback ∈ s.added)).toNat +
    4 * (decide (Party.requestStop ∈ s.added)).toNat
  finishAdded : ∀ p, s.finish p ≠ none → p ∈ s.added
  invoking : s.invoking = true → s.invocation ≠ .notCalled
  stopLast : s.stop ≠ .notCalled → s.start = .added ∨ s.start = .returnedEarly
  notSubscribed : s.start.hasSubscribed = false → s.subscribed = false ∧ s.invocation = .notCalled
  once : s.completions + (decide (s.start = .setValue)).toNat =
    if s.Decided then 1 else 0
  signal : ∀ p, s.finish p ≠ none → p.signal = s.outcome
  outcome : ∀ r ∈ s.delivered, r = s.outcome
  subscribed : s.start.hasSubscribed = true → s.completions = 0 → s.subscribed = true
  callback : s.callback = if s.unsubscriptions = 0 then s.start.leaves else .empty

theorem Inv.init [DecidableEq θ] : (system θ).init.Inv := by
  have hsome : count Option.isSome (fun _ : Party => (none : Option Finish)) = 0 :=
    count_eq_zero.mpr fun _ => rfl
  have hcomplete : count (fun f => decide (f = some Finish.complete))
      (fun _ : Party => (none : Option Finish)) = 0 := count_eq_zero.mpr fun _ => rfl
  constructor
  case signal | finishAdded =>
    intro p hp
    exact absurd rfl hp
  all_goals
    simp [system, completions, unsubscriptions, Decided, hsome, hcomplete, StartPc.early,
      StartPc.hasSubscribed, StartPc.leaves]

variable {s t : Op θ} {p q : Party}

theorem Inv.completions_le (hi : s.Inv) : s.completions ≤ 1 := by
  have honce := hi.once
  split_ifs at honce <;> omega

theorem unsubscriptions_le : s.unsubscriptions ≤ s.completions := by
  have hle : count (fun f => decide (f = some Finish.complete)) s.finish ≤
      count Option.isSome s.finish := by
    apply count_le_count
    intro f hf
    rw [decide_eq_true_eq] at hf
    rw [hf]
    rfl
  unfold unsubscriptions completions
  omega

/-- The function that completes the receiver is the only one, and no other has. -/
theorem Inv.finishing (hi : s.Inv) (hp : s.finish p ≠ none) :
    s.completions = 1 ∧ s.delivered = [] ∧ s.start ≠ .setValue ∧
      ∀ q, q ≠ p → s.finish q = none := by
  have honce := hi.completions_le
  have hpos : 1 ≤ count Option.isSome s.finish :=
    count_pos (i := p) (Option.isSome_iff_ne_none.mpr hp)
  have hvalue : (decide (s.start = .setValue)).toNat + s.completions ≤ 1 := by
    have honce := hi.once
    split_ifs at honce <;> omega
  unfold completions at honce hvalue ⊢
  refine ⟨by omega, ?_, ?_, ?_⟩
  · exact List.length_eq_zero_iff.mp (by omega)
  · intro hset
    rw [hset] at hvalue
    simp at hvalue
    omega
  · intro q hq
    have hother := others_of_count_le_one (p := Option.isSome) (f := s.finish) (by omega)
      (Option.isSome_iff_ne_none.mpr hp) hq
    simpa using hother

/-- With no completion made or under way no function goes on after its `fetch_add`. -/
theorem finish_eq_none (h : s.completions = 0) (p : Party) : s.finish p = none := by
  have hcount : count Option.isSome s.finish = 0 := by
    unfold completions at h
    omega
  simpa using count_eq_zero.mp hcount p

theorem delivered_eq_nil (h : s.completions = 0) : s.delivered = [] := by
  unfold completions at h
  exact List.length_eq_zero_iff.mp (by omega)

/-! What the old state of a `fetch_add` tells the function. -/

theorem Inv.completesOn_start (hi : s.Inv) (h : Party.start ∉ s.added)
    (hstop : Party.requestStop ∉ s.added) :
    s.word = Party.start.completesOn ↔ Party.callback ∈ s.added := by
  rw [hi.word]
  by_cases hcallback : Party.callback ∈ s.added <;>
    simp [h, hstop, hcallback, Party.completesOn, stopCallbackInvokedFlag]

theorem Inv.completesOn_callback (hi : s.Inv) (h : Party.callback ∉ s.added) :
    s.word = Party.callback.completesOn ↔
      Party.start ∈ s.added ∧ Party.requestStop ∉ s.added := by
  rw [hi.word]
  by_cases hstart : Party.start ∈ s.added <;> by_cases hstop : Party.requestStop ∈ s.added <;>
    simp [h, hstart, hstop, Party.completesOn, callbackConstructionCompleteFlag]

theorem Inv.completesOn_requestStop (hi : s.Inv) (h : Party.requestStop ∉ s.added) :
    s.word = Party.requestStop.completesOn ↔
      Party.start ∈ s.added ∧ Party.callback ∉ s.added := by
  rw [hi.word]
  by_cases hstart : Party.start ∈ s.added <;> by_cases hcallback : Party.callback ∈ s.added <;>
    simp [h, hstart, hcallback, Party.completesOn, callbackConstructionCompleteFlag]

/-- The `fetch_add` never carries into another flag. -/
theorem Inv.word_fetchAddFlag (hi : s.Inv) (hp : p ∉ s.added) :
    (s.fetchAddFlag p).word = (decide (Party.start ∈ s.added ++ [p])).toNat +
      2 * (decide (Party.callback ∈ s.added ++ [p])).toNat +
      4 * (decide (Party.requestStop ∈ s.added ++ [p])).toNat := by
  have hlt : s.word + p.flag < 2 ^ stateBits := by
    rw [hi.word]
    have h1 := Bool.toNat_le (decide (Party.start ∈ s.added))
    have h2 := Bool.toNat_le (decide (Party.callback ∈ s.added))
    have h3 := Bool.toNat_le (decide (Party.requestStop ∈ s.added))
    cases p <;> simp only [Party.flag, callbackConstructionCompleteFlag, stopCallbackInvokedFlag,
      stopRequestedFlag, stateBits] <;> omega
  show fetchAdd stateBits s.word p.flag = _
  rw [fetchAdd_of_lt hlt, hi.word]
  cases p with
  | start => simp [hp, Party.flag, callbackConstructionCompleteFlag]; omega
  | callback => simp [hp, Party.flag, stopCallbackInvokedFlag]; omega
  | requestStop => simp [hp, Party.flag, stopRequestedFlag]

end Op
end Squiz.StopTokenSender
