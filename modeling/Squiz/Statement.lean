import Squiz.Lib.System
import Squiz.Lib.Word
import Squiz.Detail.StoreResult

/-! `statement_op` over a stoppable child: `start()`, one `request_stop()`, the child's completion
and the destructor, which pass the child and its result on through one word of flags. -/
namespace Squiz.Statement
open Squiz.Lib Squiz.Lib.Word Squiz.Detail

def completedFlag : ℕ := 1
def stopRequestActiveFlag : ℕ := 2

/-- Width of `flags`. -/
def flagBits : ℕ := 8

variable {R X : Type}

/-- A call of `set_result`, and whether some of its datums are passed by reference. -/
structure Completion (R X : Type) extends Detail.Completion R X where
  needToCopyDatums : Bool
  deriving DecidableEq

inductive StartPc where
  | notCalled | inChild | returned
  deriving DecidableEq

/-- Progress of `request_stop()`. -/
inductive StopPc where
  | notCalled
  | load
  | add
  /-- about to call the child's `request_stop()` -/
  | callChild
  | inChild
  | sub
  | destruct
  | deliver
  | returned
  /-- returned, because the `fetch_add` found the operation completed -/
  | tooLate
  deriving DecidableEq

/-- Progress of `set_result`. -/
inductive SetPc (R X : Type) where
  | notCalled
  | cas (c : Completion R X)
  /-- the copy of the datums once the operation is marked completed -/
  | copy (c : Completion R X)
  | destruct (r : Result R X)
  | deliver (r : Result R X)
  | destructStored
  | deliverStored
  | store (c : Completion R X)
  | add
  /-- returned after completing the receiver -/
  | returned
  /-- returned and left the result to `request_stop()` -/
  | deferred
  deriving DecidableEq

structure Op (R X : Type) where
  flags : ℕ := 0
  /-- `state_.result` -/
  result : Option (Result R X) := none
  start : StartPc := .notCalled
  stop : StopPc := .notCalled
  set : SetPc R X := .notCalled
  /-- the child's completion -/
  completion : Option (Completion R X) := none
  /-- how often the child was destructed -/
  destructs : ℕ := 0
  delivered : List (Result R X) := []
  /-- `~statement_op()` has run -/
  destroyed : Bool := false
  /-- `deliver_result` found no result -/
  fault : Bool := false

namespace Op

/-- `child_base::destruct()` -/
def destruct (s : Op R X) : Op R X := { s with destructs := s.destructs + 1 }

def deliverResult (s : Op R X) : Op R X :=
  match s.result with
  | some r => { s with delivered := s.delivered ++ [r] }
  | none => { s with fault := true }

def stopStep (s : Op R X) : Option (Op R X) :=
  match s.stop with
  | .notCalled | .returned | .tooLate => none
  | .load => some { s with stop := if s.flags ≠ 0 then .returned else .add }
  | .add =>
    some { s with
      flags := fetchAdd flagBits s.flags stopRequestActiveFlag
      stop := if s.flags = 0 then .callChild else .tooLate }
  | .callChild => some { s with stop := .inChild }
  | .inChild => some { s with stop := .sub }
  | .sub =>
    some { s with
      flags := fetchSub flagBits s.flags stopRequestActiveFlag
      stop := if s.flags = stopRequestActiveFlag + completedFlag then .destruct else .returned }
  | .destruct => some { s.destruct with stop := .deliver }
  | .deliver => some { s.deliverResult with stop := .returned }

def setStep (s : Op R X) : Option (Op R X) :=
  match s.set with
  | .notCalled | .returned | .deferred => none
  | .cas c =>
    if s.flags = 0 then
      some { s with
        flags := completedFlag
        set := if c.needToCopyDatums then .copy c else .destruct (.child c.result) }
    else some { s with set := .store c }
  | .copy c =>
    match c.throws with
    | none => some { s with result := some (.child c.result), set := .destructStored }
    | some x => some { s with set := .destruct (.exceptionPtr x) }
  | .destruct r => some { s.destruct with set := .deliver r }
  | .deliver r => some { s with delivered := s.delivered ++ [r], set := .returned }
  | .destructStored => some { s.destruct with set := .deliverStored }
  | .deliverStored => some { s.deliverResult with set := .returned }
  | .store c => some { s with result := some (storeResult c.toCompletion), set := .add }
  | .add =>
    some { s with
      flags := fetchAdd flagBits s.flags completedFlag
      set := if s.flags = 0 then .destructStored else .deferred }

/-- The receiver may destroy the operation once it is completed and no `request_stop()` runs; the
owner may also destroy it before `start()`. -/
def mayDestroy (s : Op R X) : Bool :=
  decide (s.start = .notCalled) ||
    (!s.delivered.isEmpty && (decide (s.stop = .notCalled) || decide (s.stop = .returned) ||
      decide (s.stop = .tooLate)))

/-- `~statement_op()` -/
def destroy (s : Op R X) : Op R X :=
  if s.flags = 0 then { s.destruct with destroyed := true } else { s with destroyed := true }

end Op

inductive Act (R X : Type) where
  /-- the call of `start()`, and then its return from the child's `start()` -/
  | start
  /-- the call of `request_stop()` -/
  | requestStop
  /-- its next step -/
  | stop
  /-- the child completes: it calls `set_result` -/
  | complete (c : Completion R X)
  /-- the next step of `set_result` -/
  | set
  | destroy

def Op.step (s : Op R X) : Act R X → Option (Op R X)
  | .start =>
    match s.start with
    | .notCalled => if s.destroyed then none else some { s with start := .inChild }
    | .inChild => some { s with start := .returned }
    | .returned => none
  | .requestStop =>
    if s.stop = .notCalled ∧ s.start = .returned ∧ s.destroyed = false then
      some { s with stop := .load }
    else none
  | .stop => s.stopStep
  | .complete c =>
    match s.set, s.start with
    | .notCalled, .inChild | .notCalled, .returned =>
      some { s with set := .cas c, completion := some c }
    | _, _ => none
  | .set => s.setStep
  | .destroy => if s.destroyed = false ∧ s.mayDestroy = true then some s.destroy else none

def system (R X : Type) : System (Op R X) (Act R X) := ⟨{}, Op.step⟩

/-! How far `set_result` and `request_stop()` are fixes the flags, the stored result and who still
has to destruct the child. -/

namespace SetPc

/-- `completed_flag` has been set. -/
@[simp] def completed : SetPc R X → Bool
  | .notCalled | .cas _ | .store _ | .add => false
  | _ => true

/-- `set_result` is to destruct the child and complete the receiver, or has done so. -/
@[simp] def owns : SetPc R X → Bool
  | .copy _ | .destruct _ | .deliver _ | .destructStored | .deliverStored | .returned => true
  | _ => false

/-- What the program counter says about the completion and the stored result. -/
@[simp] def Ok (pc : SetPc R X) (completion : Option (Completion R X))
    (result : Option (Result R X)) : Prop :=
  match pc with
  | .notCalled => completion = none
  | .cas c | .copy c | .store c => completion = some c
  | .destruct r | .deliver r => ∃ c, completion = some c ∧ c.Gives r
  | .add | .destructStored | .deliverStored | .deferred =>
    ∃ c r, completion = some c ∧ result = some r ∧ c.Gives r
  | .returned => True

end SetPc

namespace StopPc

/-- `stop_request_active_flag` is set, for good where `request_stop()` came too late. -/
@[simp] def active : StopPc → Bool
  | .callChild | .inChild | .sub | .tooLate => true
  | _ => false

/-- `set_result` has left the child and the receiver to `request_stop()`. -/
@[simp] def owns : StopPc → Bool
  | .destruct | .deliver => true
  | _ => false

end StopPc

/-- Where `request_stop()` can be for a given `set_result`. -/
@[simp] def Joint (set : SetPc R X) (stop : StopPc) : Prop :=
  match set with
  | .notCalled | .cas _ => stop ≠ .tooLate ∧ stop.owns = false
  | .store _ | .add => stop = .returned ∨ (stop.active = true ∧ stop ≠ .tooLate)
  | .deferred => stop = .returned ∨ (stop.active = true ∧ stop ≠ .tooLate) ∨ stop.owns = true
  | _ => (stop.active = false ∨ stop = .tooLate) ∧ stop.owns = false

/-- How often `set_result` and `request_stop()` have destructed the child. -/
@[simp] def destructed (set : SetPc R X) (stop : StopPc) : ℕ :=
  match set with
  | .deliver _ | .deliverStored | .returned => 1
  | .deferred => if stop = .deliver ∨ stop = .returned then 1 else 0
  | _ => 0

/-- How often they have completed the receiver. -/
@[simp] def completions (set : SetPc R X) (stop : StopPc) : ℕ :=
  match set with
  | .returned => 1
  | .deferred => if stop = .returned then 1 else 0
  | _ => 0

/-- What the two program counters say about the flags and about the counts, `extra` of which the
destructor of an operation that was never started adds. -/
@[simp] def Phase (flags : ℕ) (set : SetPc R X) (stop : StopPc) (destructs extra delivered : ℕ) :
    Prop :=
  flags = set.completed.toNat + 2 * stop.active.toNat ∧ Joint set stop ∧
    destructs = destructed set stop + extra ∧ delivered = completions set stop

namespace Phase
variable {flags destructs extra delivered : ℕ} {set : SetPc R X} {stop : StopPc}

/-! The steps of `request_stop()`. -/

theorem requestStop (h : Phase flags set .notCalled destructs extra delivered) :
    Phase flags set .load destructs extra delivered := by
  cases set <;> simp_all

theorem load (h : Phase flags set .load destructs extra delivered) :
    Phase flags set (if flags ≠ 0 then .returned else .add) destructs extra delivered := by
  obtain ⟨hflags, hrest⟩ := h
  subst hflags
  cases set <;> simp_all

theorem addActive (h : Phase flags set .add destructs extra delivered) :
    Phase (fetchAdd flagBits flags stopRequestActiveFlag) set
      (if flags = 0 then .callChild else .tooLate) destructs extra delivered := by
  obtain ⟨hflags, hrest⟩ := h
  subst hflags
  cases set <;> simp_all [fetchAdd, flagBits, stopRequestActiveFlag]

theorem callChild (h : Phase flags set .callChild destructs extra delivered) :
    Phase flags set .inChild destructs extra delivered := by
  cases set <;> simp_all

theorem inChild (h : Phase flags set .inChild destructs extra delivered) :
    Phase flags set .sub destructs extra delivered := by
  cases set <;> simp_all

/-- The operation was completed meanwhile exactly where `set_result` deferred the result. -/
theorem subActive (h : Phase flags set .sub destructs extra delivered) :
    Phase (fetchSub flagBits flags stopRequestActiveFlag) set
      (if flags = stopRequestActiveFlag + completedFlag then .destruct else .returned) destructs
      extra delivered := by
  obtain ⟨hflags, hrest⟩ := h
  subst hflags
  cases set <;> simp_all [fetchSub, flagBits, stopRequestActiveFlag, completedFlag]

theorem stopDestruct (h : Phase flags set .destruct destructs extra delivered) :
    Phase flags set .deliver (destructs + 1) extra delivered := by
  cases set <;> simp_all
  omega

theorem deferred (h : Phase flags set .deliver destructs extra delivered) : set = .deferred := by
  cases set <;> simp_all

theorem stopDeliver (h : Phase flags (.deferred : SetPc R X) .deliver destructs extra delivered) :
    Phase flags (.deferred : SetPc R X) .returned destructs extra (delivered + 1) := by
  simp_all

/-! The steps of `set_result`. -/

/-- The `compare_exchange` succeeds: `set_result` owns the child and the receiver. -/
theorem complete {c : Completion R X} {set' : SetPc R X}
    (hset : set' = .copy c ∨ ∃ r, set' = .destruct r)
    (h : Phase 0 (.cas c) stop destructs extra delivered) :
    Phase completedFlag set' stop destructs extra delivered := by
  rcases hset with rfl | ⟨r, rfl⟩ <;> cases stop <;> simp_all [completedFlag]

/-- It fails: `request_stop()` is active or has returned. -/
theorem store {c : Completion R X} (hflags : flags ≠ 0)
    (h : Phase flags (.cas c) stop destructs extra delivered) :
    Phase flags (.store c) stop destructs extra delivered := by
  cases stop <;> simp_all

/-- The flags are zero exactly where `request_stop()` has taken its flag back. -/
theorem addCompleted (h : Phase flags (.add : SetPc R X) stop destructs extra delivered) :
    Phase (fetchAdd flagBits flags completedFlag)
      (if flags = 0 then .destructStored else .deferred : SetPc R X) stop destructs extra
      delivered := by
  cases stop <;> simp_all [fetchAdd, flagBits, completedFlag]

theorem destruct {r : Result R X} (h : Phase flags (.destruct r) stop destructs extra delivered) :
    Phase flags (.deliver r) stop (destructs + 1) extra delivered := by
  obtain ⟨hflags, hjoint, hdestructs, hdelivered⟩ := h
  exact ⟨hflags, hjoint, by simp_all; omega, hdelivered⟩

theorem deliver {r : Result R X} (h : Phase flags (.deliver r) stop destructs extra delivered) :
    Phase flags (.returned : SetPc R X) stop destructs extra (delivered + 1) := by
  obtain ⟨hflags, hjoint, hdestructs, hdelivered⟩ := h
  exact ⟨hflags, hjoint, hdestructs, by simp_all⟩

/-! What the counts say. -/

theorem destructed_le : destructed set stop ≤ 1 := by
  cases set <;> simp only [destructed] <;> first | omega | (split_ifs <;> omega)

theorem completions_le : completions set stop ≤ 1 := by
  cases set <;> simp only [completions] <;> first | omega | (split_ifs <;> omega)

/-- Who has completed the receiver. -/
theorem completed_of_pos (h : 0 < completions set stop) :
    set = .returned ∨ set = .deferred ∧ stop = .returned := by
  cases set <;> simp only [completions, reduceCtorEq, false_and, or_false, false_or, true_and,
    lt_self_iff_false] at h ⊢
  by_contra hne
  rw [if_neg hne] at h
  omega

/-- The child was destructed before. -/
theorem destructed_of_completed (h : set = .returned ∨ set = .deferred ∧ stop = .returned) :
    destructed set stop = 1 := by
  rcases h with rfl | ⟨rfl, rfl⟩ <;> simp

/-- While `request_stop()` calls the child, it exists. -/
theorem not_destructed (h : Joint set stop) (hstop : stop = .callChild ∨ stop = .inChild) :
    destructed set stop = 0 := by
  rcases hstop with rfl | rfl <;> cases set <;> simp_all

end Phase

namespace Op

/-- Destructs by a destructor that runs without `start()`. -/
@[simp] def destroyedUnstarted (s : Op R X) : ℕ :=
  (s.destroyed && decide (s.start = .notCalled)).toNat

structure Inv (s : Op R X) : Prop where
  phase : Phase s.flags s.set s.stop s.destructs s.destroyedUnstarted s.delivered.length
  ok : s.set.Ok s.completion s.result
  gives : ∀ r ∈ s.delivered, ∃ c, s.completion = some c ∧ c.Gives r
  unstarted : s.start = .notCalled → s.set = .notCalled
  unstopped : s.start ≠ .returned → s.stop = .notCalled
  destroyed : s.destroyed = true → s.start = .notCalled ∨ s.delivered ≠ []
  noFault : s.fault = false

namespace Inv
variable {s t : Op R X}

theorem init : Inv (system R X).init where
  phase := by simp [system]
  ok := rfl
  gives _ hr := nomatch hr
  unstarted _ := rfl
  unstopped _ := rfl
  destroyed hd := nomatch hd
  noFault := rfl

/-- The stored result is delivered by whoever finds it. -/
theorem deliverResult_eq {r : Result R X} (hr : s.result = some r) :
    s.deliverResult = { s with delivered := s.delivered ++ [r] } := by
  unfold deliverResult
  rw [hr]

theorem stop (h : Inv s) (ht : s.stopStep = some t) : Inv t := by
  have hphase := h.phase
  have hstart : s.start = .returned := by
    by_contra hne
    rw [stopStep, h.unstopped hne] at ht
    cases ht
  cases hpc : s.stop <;> rw [hpc] at hphase <;> simp only [stopStep, hpc] at ht <;> cases ht
  case load =>
    exact { h with
      phase := hphase.load
      unstopped := fun hne => absurd hstart hne }
  case add =>
    exact { h with
      phase := hphase.addActive
      unstopped := fun hne => absurd hstart hne }
  case callChild =>
    exact { h with
      phase := hphase.callChild
      unstopped := fun hne => absurd hstart hne }
  case inChild =>
    exact { h with
      phase := hphase.inChild
      unstopped := fun hne => absurd hstart hne }
  case sub =>
    exact { h with
      phase := hphase.subActive
      unstopped := fun hne => absurd hstart hne }
  case destruct =>
    exact { h with
      phase := hphase.stopDestruct
      unstopped := fun hne => absurd hstart hne }
  case deliver =>
    have hset : s.set = .deferred := hphase.deferred
    have hok := h.ok
    rw [hset] at hok hphase
    obtain ⟨c, r, hc, hr, hgives⟩ := hok
    rw [deliverResult_eq hr]
    exact { h with
      phase := by
        rw [List.length_append, hset]
        exact hphase.stopDeliver
      gives := by
        intro r' hr'
        rcases List.mem_append.mp hr' with hr' | hr'
        · exact h.gives r' hr'
        · cases List.mem_singleton.mp hr'
          exact ⟨c, hc, hgives⟩
      unstopped := fun hne => absurd hstart hne
      destroyed := fun _ => .inr (by simp) }

theorem set (h : Inv s) (ht : s.setStep = some t) : Inv t := by
  have hphase := h.phase
  have hok := h.ok
  have hstart : s.start ≠ .notCalled := by
    intro hn
    rw [setStep, h.unstarted hn] at ht
    cases ht
  have hgives : ∀ r c, s.completion = some c → c.Gives r →
      ∀ r' ∈ s.delivered ++ [r], ∃ c', s.completion = some c' ∧ c'.Gives r' := by
    intro r c hc hr r' hr'
    rcases List.mem_append.mp hr' with hr' | hr'
    · exact h.gives r' hr'
    · cases List.mem_singleton.mp hr'
      exact ⟨c, hc, hr⟩
  cases hpc : s.set <;> rw [hpc] at hphase hok <;> simp only [setStep, hpc] at ht
  case notCalled | returned | deferred => cases ht
  case cas c =>
    by_cases hz : s.flags = 0
    · rw [if_pos hz] at ht
      cases ht
      rw [hz] at hphase
      exact { h with
        phase := by
          apply hphase.complete
          split_ifs
          · exact .inl rfl
          · exact .inr ⟨_, rfl⟩
        ok := by
          cases hcopy : c.needToCopyDatums
          · exact ⟨c, hok, .inl rfl⟩
          · exact hok
        unstarted := fun hn => absurd hn hstart }
    · rw [if_neg hz] at ht
      cases ht
      exact { h with
        phase := hphase.store hz
        ok := hok
        unstarted := fun hn => absurd hn hstart }
  case copy c =>
    cases hthrows : c.throws with
    | none =>
      simp only [hthrows] at ht
      cases ht
      exact { h with
        phase := hphase
        ok := ⟨c, _, hok, rfl, .inl rfl⟩
        unstarted := fun hn => absurd hn hstart }
    | some x =>
      simp only [hthrows] at ht
      cases ht
      exact { h with
        phase := hphase
        ok := ⟨c, hok, .inr ⟨x, hthrows, rfl⟩⟩
        unstarted := fun hn => absurd hn hstart }
  case destruct r =>
    cases ht
    exact { h with
      phase := hphase.destruct
      ok := hok
      unstarted := fun hn => absurd hn hstart }
  case deliver r =>
    cases ht
    obtain ⟨c, hc, hr⟩ := hok
    exact { h with
      phase := by
        rw [List.length_append]
        exact hphase.deliver
      ok := trivial
      gives := hgives r c hc hr
      unstarted := fun hn => absurd hn hstart
      destroyed := fun _ => .inr (by simp) }
  case destructStored =>
    cases ht
    -- the counts do not see whether the result is stored
    obtain ⟨c, r, hc, hr, hcr⟩ := hok
    have hphase : Phase s.flags (.destruct r) s.stop s.destructs s.destroyedUnstarted
      s.delivered.length := hphase
    exact { h with
      phase := hphase.destruct
      ok := ⟨c, r, hc, hr, hcr⟩
      unstarted := fun hn => absurd hn hstart }
  case deliverStored =>
    cases ht
    obtain ⟨c, r, hc, hr, hcr⟩ := hok
    rw [deliverResult_eq hr]
    have hphase : Phase s.flags (.deliver r) s.stop s.destructs s.destroyedUnstarted
      s.delivered.length := hphase
    exact { h with
      phase := by
        rw [List.length_append]
        exact hphase.deliver
      ok := trivial
      gives := hgives r c hc hcr
      unstarted := fun hn => absurd hn hstart
      destroyed := fun _ => .inr (by simp) }
  case store c =>
    cases ht
    exact { h with
      phase := hphase
      ok := ⟨c, _, hok, rfl, gives_storeResult _⟩
      unstarted := fun hn => absurd hn hstart }
  case add =>
    cases ht
    exact { h with
      phase := hphase.addCompleted
      ok := by
        by_cases hz : s.flags = 0
        · simp only [if_pos hz]
          exact hok
        · simp only [if_neg hz]
          exact hok
      unstarted := fun hn => absurd hn hstart }

/-- Before `start()` nothing has happened. -/
theorem set_stop_of_notCalled (h : Inv s) (hstart : s.start = .notCalled) :
    s.set = .notCalled ∧ s.stop = .notCalled :=
  ⟨h.unstarted hstart, h.unstopped (by rw [hstart]; decide)⟩

/-- Before the child completes the receiver is not completed. -/
theorem delivered_of_notCalled (h : Inv s) (hset : s.set = .notCalled) : s.delivered = [] := by
  have hdelivered := h.phase.2.2.2
  rw [hset] at hdelivered
  exact List.length_eq_zero_iff.mp hdelivered

theorem start (h : Inv s) (ht : s.step .start = some t) : Inv t := by
  simp only [Op.step] at ht
  cases hpc : s.start with
  | notCalled =>
    obtain ⟨hset, hstop⟩ := h.set_stop_of_notCalled hpc
    rw [hpc] at ht
    cases hd : s.destroyed with
    | true => simp [hd] at ht
    | false =>
      simp only [hd, Bool.false_eq_true, if_false] at ht
      cases ht
      exact { h with
        phase := by simpa [destroyedUnstarted, hd] using h.phase
        unstarted := fun hn => nomatch hn
        unstopped := fun _ => hstop
        destroyed := fun hyes => nomatch hyes }
  | inChild =>
    have hstop := h.unstopped (by simp [hpc])
    have hdest := h.destroyed
    rw [hpc] at ht hdest
    cases ht
    exact { h with
      phase := by simpa [destroyedUnstarted, hpc] using h.phase
      unstarted := fun hn => nomatch hn
      unstopped := fun _ => hstop
      destroyed := fun hyes => .inr ((hdest hyes).resolve_left (by decide)) }
  | returned =>
    rw [hpc] at ht
    cases ht

theorem requestStop (h : Inv s) (ht : s.step .requestStop = some t) : Inv t := by
  have hphase := h.phase
  simp only [Op.step] at ht
  split_ifs at ht with hen
  obtain ⟨hstop, hstart, -⟩ := hen
  rw [hstop] at hphase
  cases ht
  exact { h with
    phase := hphase.requestStop
    unstopped := fun hne => absurd hstart hne }

theorem complete (h : Inv s) {c : Completion R X} (ht : s.step (.complete c) = some t) : Inv t := by
  have hphase := h.phase
  simp only [Op.step] at ht
  split at ht
  case h_3 => cases ht
  all_goals
    rename_i hset hstart
    cases ht
    rw [hset] at hphase
    exact { h with
      phase := hphase
      ok := rfl
      gives := by
        intro r hr
        rw [show s.delivered = [] from h.delivered_of_notCalled hset] at hr
        cases hr
      unstarted := fun hn => by rw [show s.start = .notCalled from hn] at hstart; cases hstart }

/-- Who has completed the receiver. -/
theorem completed_of_delivered (h : Inv s) (hne : s.delivered ≠ []) :
    s.set = .returned ∨ s.set = .deferred ∧ s.stop = .returned := by
  apply Phase.completed_of_pos
  rw [← h.phase.2.2.2]
  exact List.length_pos_iff.mpr hne

/-- The flags tell the destructor whether the child is still to be destructed. -/
theorem destroy (h : Inv s) (ht : s.step .destroy = some t) : Inv t := by
  have hphase := h.phase
  simp only [Op.step] at ht
  split_ifs at ht with hen
  obtain ⟨halive, hmay⟩ := hen
  cases ht
  unfold mayDestroy at hmay
  unfold Op.destroy
  by_cases hstart : s.start = .notCalled
  · obtain ⟨hset, hstop⟩ := h.set_stop_of_notCalled hstart
    have hz : s.flags = 0 := by
      rw [hphase.1, hset, hstop]
      rfl
    rw [if_pos hz]
    exact { h with
      phase := by
        obtain ⟨hflags, hjoint, hdestructs, hdelivered⟩ := hphase
        refine ⟨hflags, hjoint, ?_, hdelivered⟩
        simp [Op.destruct, destroyedUnstarted, hdestructs, halive, hstart]
      destroyed := fun _ => .inl hstart }
  · have hdelivered : s.delivered ≠ [] := by
      rintro hnil
      simp [hstart, hnil] at hmay
    have hz : s.flags ≠ 0 := by
      rw [hphase.1]
      rcases h.completed_of_delivered hdelivered with hset | ⟨hset, -⟩ <;> simp [hset]
    rw [if_neg hz]
    exact { h with
      phase := by simpa [destroyedUnstarted, hstart] using hphase
      destroyed := fun _ => .inr hdelivered }

theorem step (h : Inv s) {a : Act R X} (ht : s.step a = some t) : Inv t := by
  cases a with
  | start => exact h.start ht
  | requestStop => exact h.requestStop ht
  | stop => exact h.stop ht
  | complete c => exact h.complete ht
  | set => exact h.set ht
  | destroy => exact h.destroy ht

end Inv

/-! A run ends, and then it has completed the receiver. -/

@[simp] def startRank : StartPc → ℕ
  | .notCalled => 2
  | .inChild => 1
  | .returned => 0

@[simp] def stopRank : StopPc → ℕ
  | .notCalled => 8
  | .load => 7
  | .add => 6
  | .callChild => 5
  | .inChild => 4
  | .sub => 3
  | .destruct => 2
  | .deliver => 1
  | .returned | .tooLate => 0

@[simp] def setRank : SetPc R X → ℕ
  | .notCalled => 6
  | .cas _ => 5
  | .copy _ | .store _ => 4
  | .add => 3
  | .destruct _ | .destructStored => 2
  | .deliver _ | .deliverStored => 1
  | .returned | .deferred => 0

/-- The number of steps that are left at most. -/
def rank (s : Op R X) : ℕ :=
  startRank s.start + stopRank s.stop + setRank s.set + (!s.destroyed).toNat

theorem deliverResult_pcs (s : Op R X) : s.deliverResult.start = s.start ∧
    s.deliverResult.stop = s.stop ∧ s.deliverResult.set = s.set ∧
    s.deliverResult.destroyed = s.destroyed := by
  unfold deliverResult
  cases s.result <;> simp

theorem rank_stop {s t : Op R X} (ht : s.stopStep = some t) : rank t < rank s := by
  obtain ⟨h1, -, h2, h3⟩ := deliverResult_pcs s
  cases hpc : s.stop <;> simp only [stopStep, hpc] at ht <;> cases ht
  case load | add | sub =>
    simp only [rank, hpc]
    split_ifs <;> simp
  case deliver => simp [rank, hpc, h1, h2, h3]
  all_goals simp [rank, hpc, destruct]

theorem rank_set {s t : Op R X} (ht : s.setStep = some t) : rank t < rank s := by
  obtain ⟨h1, h2, -, h3⟩ := deliverResult_pcs s
  cases hpc : s.set <;> simp only [setStep, hpc] at ht
  case notCalled | returned | deferred => cases ht
  case cas c =>
    split_ifs at ht <;> cases ht <;> simp [rank, hpc]
  case copy c =>
    cases hthrows : c.throws <;> simp only [hthrows] at ht <;> cases ht <;> simp [rank, hpc]
  case add =>
    cases ht
    simp only [rank, hpc]
    split_ifs <;> simp
  case deliverStored =>
    cases ht
    simp [rank, hpc, h1, h2, h3]
  all_goals
    cases ht
    simp [rank, hpc, destruct]

theorem rank_step {s t : Op R X} {a : Act R X} (ht : s.step a = some t) : rank t < rank s := by
  cases a <;> simp only [Op.step] at ht
  case stop => exact rank_stop ht
  case set => exact rank_set ht
  case start =>
    cases hpc : s.start <;> simp only [hpc] at ht
    case notCalled =>
      split_ifs at ht
      cases ht
      simp [rank, hpc]
    case inChild =>
      cases ht
      simp [rank, hpc]
    case returned => cases ht
  case requestStop =>
    split_ifs at ht with hen
    cases ht
    simp [rank, hen.1]
  case complete c =>
    split at ht
    case h_3 => cases ht
    all_goals
      rename_i hset _
      cases ht
      simp [rank, hset]
  case destroy =>
    split_ifs at ht with hen
    cases ht
    unfold destroy
    split_ifs <;> simp [rank, destruct, hen.1]

/-- The child has completed and no call on the operation has a step left. -/
def Quiescent (s : Op R X) : Prop :=
  s.completion.isSome = true ∧ s.step .start = none ∧ s.step .stop = none ∧ s.step .set = none

/-- The whole promise of `statement_op` about one reachable state. -/
structure Orderly (s : Op R X) : Prop where
  destructedOnce : s.destructs ≤ 1
  destructedAtEnd : s.destroyed = true → s.destructs = 1
  /-- the child exists when and while its `request_stop()` is called -/
  stopAlive : s.stop = .callChild ∨ s.stop = .inChild → s.destructs = 0
  deliveredOnce : s.delivered.length ≤ 1
  deliveredAfter : s.delivered ≠ [] → s.destructs = 1
  result : ∀ r ∈ s.delivered, ∃ c, s.completion = some c ∧ c.Gives r
  /-- the call that completed the receiver has no step left -/
  noAccess : s.delivered ≠ [] → s.setStep = none ∧ (s.set = .deferred → s.stopStep = none)
  deliveredAtEnd : s.Quiescent → s.delivered.length = 1
  noFault : s.fault = false

theorem Quiescent.set_returned {s : Op R X} (hi : s.Inv) (h : s.Quiescent) :
    s.set = .returned ∨ s.set = .deferred := by
  obtain ⟨hc, -, -, hset⟩ := h
  have hok := hi.ok
  cases hpc : s.set <;> simp only [Op.step, setStep, hpc] at hset
  case notCalled =>
    rw [hpc] at hok
    rw [show s.completion = none from hok] at hc
    cases hc
  case cas c =>
    split_ifs at hset
  case copy c =>
    cases hthrows : c.throws <;> simp [hthrows] at hset
  case returned => exact .inl rfl
  case deferred => exact .inr rfl
  all_goals cases hset

theorem Quiescent.stop_returned {s : Op R X} (h : s.Quiescent) :
    s.stop = .notCalled ∨ s.stop = .returned ∨ s.stop = .tooLate := by
  have hstop := h.2.2.1
  cases hpc : s.stop <;> simp [Op.step, stopStep, hpc] at hstop ⊢

/-- A destructor that destructs the child finds it untouched. -/
theorem Inv.destructed_of_unstarted {s : Op R X} (hi : s.Inv) (h : s.destroyedUnstarted ≠ 0) :
    destructed s.set s.stop = 0 ∧ s.destroyedUnstarted = 1 := by
  have hstart : s.start = .notCalled := by
    by_contra hne
    simp [hne] at h
  have hset := hi.unstarted hstart
  constructor
  · rw [hset]
    rfl
  · have hle := Bool.toNat_le (s.destroyed && decide (s.start = .notCalled))
    unfold destroyedUnstarted at h ⊢
    omega

theorem Inv.orderly {s : Op R X} (hi : s.Inv) : s.Orderly := by
  obtain ⟨-, hjoint, hdestructs, hdelivered⟩ := hi.phase
  have hdestructed : destructed s.set s.stop ≤ 1 := Phase.destructed_le
  have hcompletions : completions s.set s.stop ≤ 1 := Phase.completions_le
  have hunstarted := hi.destructed_of_unstarted
  have hafter : s.delivered ≠ [] → destructed s.set s.stop = 1 := fun hne =>
    Phase.destructed_of_completed (hi.completed_of_delivered hne)
  exact
    { destructedOnce := by omega
      destructedAtEnd := by
        intro hd
        rcases hi.destroyed hd with hstart | hne
        · have hone : s.destroyedUnstarted = 1 := by simp [hd, hstart]
          have hzero := (hunstarted (by omega)).1
          omega
        · have hone := hafter hne
          omega
      stopAlive := by
        intro hstop
        have hreturned : s.start = .returned := by
          by_contra hne
          rw [hi.unstopped hne] at hstop
          simp at hstop
        have hzero : destructed s.set s.stop = 0 := Phase.not_destructed hjoint hstop
        have hextra : s.destroyedUnstarted = 0 := by simp [hreturned]
        omega
      deliveredOnce := by omega
      deliveredAfter := by
        intro hne
        have hone := hafter hne
        omega
      result := hi.gives
      noAccess := by
        intro hne
        rcases hi.completed_of_delivered hne with hset | ⟨hset, hstop⟩
        · simp [setStep, hset]
        · simp [setStep, stopStep, hset, hstop]
      deliveredAtEnd := by
        intro hq
        rcases hq.set_returned hi with hset | hset
        · rw [hdelivered, hset]
          rfl
        · -- with the result deferred `request_stop()` has not come too late
          rw [hset] at hjoint
          rcases hq.stop_returned with hstop | hstop | hstop <;> rw [hstop] at hjoint
          · simp at hjoint
          · rw [hdelivered, hset, hstop]
            rfl
          · simp at hjoint
      noFault := hi.noFault }

/-- The child is destructed once, outside its `request_stop()`, and before the receiver is
completed once. -/
theorem destructs_before_delivery {s : Op R X} (hs : (system R X).Reachable s) :
    s.Orderly ∧ ∀ as t, (system R X).run s as = some t → as.length ≤ s.rank := by
  have hi : s.Inv := hs.invariant Inv.init fun _ _ _ h _ ht => Inv.step h ht
  refine ⟨hi.orderly, fun as t ht => ?_⟩
  have hle := System.exec_length_le (P := fun _ => True) rank
    (fun _ _ _ _ hv => ⟨trivial, rank_step hv⟩) trivial ht
  omega

/-- The child completes inside its `request_stop()`, and copying its result throws. -/
theorem destructs_before_delivery_run : ∃ s : Op ℕ ℕ, s.delivered = [.exceptionPtr 1] ∧
    s.Orderly ∧ ∀ as t, (system ℕ ℕ).run s as = some t → as.length ≤ s.rank := by
  obtain ⟨s, hs, hp⟩ := (system ℕ ℕ).exists_reachable
    [.start, .start, .requestStop, .stop, .stop, .stop, .complete ⟨⟨7, some 1⟩, true⟩, .set, .set,
      .set, .stop, .stop, .stop, .stop, .destroy]
    (fun s => s.delivered = [.exceptionPtr 1]) (by decide +kernel)
  exact ⟨s, by simpa using hp, destructs_before_delivery hs⟩

end Op
end Squiz.Statement
