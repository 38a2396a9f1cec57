import Squiz.Lib.StructuredOperations
import Squiz.WhenAll.Signatures

/-! `when_all_op` as the parent of its children, and its specialisation for children that always
succeed. -/
namespace Squiz.WhenAll
open Squiz.Lib Squiz.Detail Squiz.SigSet Op

variable {N : Arity} {T : Type} [DecidableEq T] {types : DatumTypes T}
  {children : N.Child → Sender T} {stopPossible : Bool}

/-- The child completes with the signature; storing throws only where a move can throw. -/
def Completion.matches (types : DatumTypes T) (sig : Signature T) (c : Completion T Unit) : Bool :=
  decide (c.signature = some sig) && (c.throws.isNone || !sig.nothrowMove types)

theorem Completion.matches_iff {sig : Signature T} {c : Completion T Unit} :
    c.matches types sig = true ↔ c.signature = some sig ∧
      (c.throws.isSome = true → sig.nothrowMove types = false) := by
  unfold Completion.matches
  cases c.throws <;> simp

theorem Signature.completion_matches (sig : Signature T) :
    (Signature.completion none sig : Completion T Unit).matches types sig = true := by
  rw [Completion.matches_iff]
  cases sig <;> exact ⟨rfl, fun h => by cases h⟩

def adapter (N : Arity) (types : DatumTypes T) : Adapter N.Child Unit (Signature T) where
  State := Op N T Unit
  Act := Act N T Unit
  system := system N T Unit
  asksToStop s
    | .stop => decide (s.stop = .idle)
    | _ => false
  spurious _ := false
  delivered s := s.delivered.filterMap (Result.signature types)
  own
    | .complete _ _ => false
    | _ => true
  completes i sig
    | .complete j c => decide (j = i) && c.matches types sig
    | _ => false
  running s i := if s.child i = .running then some () else none
  asked s i := decide (s.stopRequests i ≠ 0)
  stopCalled s := s.stop.requested
  decided s := s.firstFailure.isSome = true

omit [DecidableEq T] in
theorem StopPc.eq_idle {stop : StopPc N} (h : stop.requested = false) : stop = .idle := by
  cases stop with
  | idle => rfl
  | _ => cases h

/-- The runs whose children complete as they have declared, for an environment in which stop is
possible. -/
abbrev Runs (types : DatumTypes T) (children : N.Child → Sender T) : Op N T Unit → Prop :=
  (adapter N types).Reaches (fun _ _ => True) fun i _ sig => sig ∈ children i true

theorem Runs.reaches {s : Op N T Unit} (hs : Runs types children s) :
    (system N T Unit).Reaches (fun _ a => a.Accords types children) s := by
  refine hs.mono ?_
  rintro - a (hown | ⟨i, -, sig, -, hsig, hcompletes⟩)
  · cases a with
    | complete i c => cases hown
    | _ => trivial
  · cases a with
    | complete j c =>
      obtain ⟨hj, hmatches⟩ := Bool.and_eq_true_iff.mp hcompletes
      obtain rfl : j = i := of_decide_eq_true hj
      exact ⟨sig, hsig, Completion.matches_iff.mp hmatches⟩
    | _ => trivial

omit [DecidableEq T] in
theorem Op.completion_accords {s : Op N T Unit}
    (hs : (system N T Unit).Reaches (fun _ a => a.Accords types children) s) :
    ∀ i c, s.completion i = some c → Accords types (children i true) c := by
  refine hs.invariant (P := fun s : Op N T Unit => ∀ i c, s.completion i = some c →
    Accords types (children i true) c) (fun i c hc => by cases hc) ?_
  intro s a t h hok ht i c hc
  rcases Op.step_completion ht hc with hsame | rfl
  · exact h i c hsame
  · exact hok

omit [DecidableEq T] in
/-- A delivered result is a value, an error or a stopped signal. -/
theorem Op.signature_isSome {s : Op N T Unit}
    (hs : (system N T Unit).Reaches (fun _ a => a.Accords types children) s)
    {r : Result T Unit} (hr : r ∈ s.delivered) : (r.signature types).isSome = true := by
  have hcorrect := (Op.inv_of_reaches hs).completesOnce.result r hr
  cases hfirst : s.firstFailure with
  | none =>
    rw [hfirst] at hcorrect
    obtain ⟨vs, -, rfl⟩ := hcorrect
    rfl
  | some i =>
    rw [hfirst] at hcorrect
    obtain ⟨c, f, hc, hf, rfl⟩ := hcorrect
    obtain ⟨sig, -, hsig, -⟩ := Op.completion_accords hs i c hc
    rcases c with ⟨vs, _ | x⟩ | ⟨tag, datums, _ | x⟩ <;> cases hf
    · rfl
    · exact Option.isSome_iff_exists.mpr ⟨sig, hsig⟩
    · rfl

namespace Op
variable {D X : Type} {s t : Op N D X} {a : Act N D X} {i : N.Child}

theorem deliverResult_grows (s : Op N D X) : s.delivered <+: s.deliverResult.delivered := by
  unfold deliverResult
  split
  · exact List.prefix_append _ _
  · split
    · exact List.prefix_append _ _
    · exact List.prefix_rfl

theorem delivered_grows (ht : s.step a = some t) : s.delivered <+: t.delivered := by
  have hdeliver := s.deliverResult_grows
  cases a with
  | start =>
    simp only [step, startStep] at ht
    split at ht <;> cases ht <;> first
      | exact List.prefix_rfl
      | exact hdeliver
  | stop =>
    simp only [step, stopStep] at ht
    split at ht <;> try split_ifs at ht
    all_goals
      cases ht
      try exact List.prefix_rfl
  | complete j c =>
    simp only [step] at ht
    split at ht <;> cases ht
    exact List.prefix_rfl
  | child j =>
    simp only [step, childStep] at ht
    split at ht <;> cases ht
    case h_4 f hpc =>
      unfold setFailureFlag
      split_ifs <;> exact List.prefix_rfl
    case h_8 => exact hdeliver
    all_goals exact List.prefix_rfl

/-- A child runs until it completes. -/
theorem runs_on (ht : s.step a = some t) (hrunning : s.child i = .running)
    (ha : ∀ c, a ≠ .complete i c) : t.child i = .running := by
  cases a with
  | start =>
    simp only [step, startStep] at ht
    split at ht <;> cases ht
    case h_1 k hpc =>
      change Function.update s.child k .running i = .running
      rw [Function.update_apply, hrunning, ite_self]
    case h_4 =>
      change s.deliverResult.child i = .running
      rw [s.deliverResult_pcs.2.2]
      exact hrunning
    all_goals exact hrunning
  | stop =>
    simp only [step, stopStep] at ht
    split at ht <;> try split_ifs at ht
    all_goals
      cases ht
      try exact hrunning
  | complete j c =>
    have hij : i ≠ j := fun h => ha c (by rw [h])
    simp only [step] at ht
    split at ht <;> cases ht
    change Function.update s.child j _ i = .running
    rwa [Function.update_of_ne hij]
  | child j =>
    obtain ⟨-, -, pc, hchild, -⟩ := childStep_pcs ht
    have hij : i ≠ j := by
      rintro rfl
      simp [step, childStep, hrunning] at ht
    rwa [hchild, Function.update_of_ne hij]

/-! Whoever wants the children to stop, one of the threads has begun to call `request_stop()`, or
no child runs. -/

theorem deliverResult_forwarder (s : Op N D X) : s.deliverResult.forwarder = s.forwarder := by
  unfold deliverResult
  split
  · rfl
  · split <;> rfl

/-- After `start()` a failure or a stop request makes a result of the children unwanted. -/
def Unwanted (s : Op N D X) : Prop :=
  s.start.published = true ∧ (s.firstFailure.isSome = true ∨ s.stop.requested = true) ∧
    ∃ i, s.child i = .running

theorem Unwanted.of_same (h : t.Unwanted) (hstart : t.start.published = s.start.published)
    (hfailure : t.firstFailure = s.firstFailure) (hstop : t.stop.requested = s.stop.requested)
    (hchild : ∀ i, t.child i = .running → s.child i = .running) : s.Unwanted := by
  obtain ⟨hpublished, hcause, i, hi⟩ := h
  rw [hstart] at hpublished
  rw [hfailure, hstop] at hcause
  exact ⟨hpublished, hcause, i, hchild i hi⟩

theorem Unwanted.countIncrement_le (h : s.Unwanted) (hi : s.Inv) : countIncrement ≤ s.word := by
  obtain ⟨-, -, i, hrunning⟩ := h
  apply hi.countIncrement_le.mpr
  exact Processes.count_pos (i := i) (by rw [hrunning]; rfl)

theorem start_published (k : N.Child) :
    (((Broadcast.next k).map StartPc.launch).getD .setStarted).published = false ∧
      (((Broadcast.next k).map StartPc.requestStop).getD .done).published = true := by
  cases Broadcast.next k <;> exact ⟨rfl, rfl⟩

theorem stop_requested (k : N.Child) :
    (((Broadcast.next k).map StopPc.requestStop).getD .done).requested = true := by
  cases Broadcast.next k <;> rfl

theorem forwarder_startStep (hi : s.Inv) (h : s.Unwanted → s.forwarder ≠ none)
    (ht : s.startStep = some t) (hu : t.Unwanted) : t.forwarder ≠ none := by
  unfold startStep at ht
  split at ht <;> cases ht
  case h_1 k hpc =>
    have hpublished := hu.1
    rw [(start_published k).1] at hpublished
    cases hpublished
  case h_2 hpc =>
    -- no stop request has come, so it is a failure that makes the results unwanted
    have hrequested : s.stop.requested = false := by
      by_contra hne
      have hdone := hi.stopAfterStart (Bool.of_not_eq_false hne)
      rw [hpc] at hdone
      cases hdone
    obtain ⟨-, hcause, i, hrunning⟩ := hu
    have hfailed : s.firstFailure.isSome = true := by
      rcases hcause with hfailed | hstop
      · exact hfailed
      · exact absurd (hrequested.symm.trans hstop) Bool.false_ne_true
    have hle : countIncrement ≤ s.word := by
      apply hi.countIncrement_le.mpr
      have hrunning : s.child i = .running := hrunning
      exact Processes.count_pos (i := i) (by rw [hrunning]; rfl)
    change (if _ then some Caller.start else s.forwarder) ≠ none
    rw [if_pos ⟨hle, hi.failed_eq.trans hfailed⟩]
    exact Option.some_ne_none _
  case h_3 k hpc =>
    apply h
    exact hu.of_same (by rw [hpc]; exact (start_published k).2) rfl rfl fun _ => id
  case h_4 hpc =>
    change s.deliverResult.forwarder ≠ none
    rw [deliverResult_forwarder]
    apply h
    apply hu.of_same
    · rw [hpc]
      rfl
    · exact s.deliverResult_frame.2
    · exact congrArg StopPc.requested s.deliverResult_pcs.2.1
    · intro i hrunning
      have hrunning : s.deliverResult.child i = .running := hrunning
      rwa [s.deliverResult_pcs.2.2] at hrunning

theorem forwarder_stopStep (hi : s.Inv) (h : s.Unwanted → s.forwarder ≠ none)
    (ht : s.stopStep = some t) (hu : t.Unwanted) : t.forwarder ≠ none := by
  unfold stopStep at ht
  split at ht
  case h_1 hpc =>
    split_ifs at ht with hstart
    cases ht
    obtain ⟨-, -, i, hrunning⟩ := hu
    have hrunning : s.child i = .running := hrunning
    have hle : countIncrement ≤ s.word :=
      hi.countIncrement_le.mpr (Processes.count_pos (i := i) (by rw [hrunning]; rfl))
    change (if (!Word.hasFlag s.word failedFlag && decide (countIncrement ≤ s.word)) = true
      then some Caller.stop else s.forwarder) ≠ none
    cases hfailed : Word.hasFlag s.word failedFlag with
    | false =>
      rw [if_pos (by rw [decide_eq_true hle]; rfl)]
      exact Option.some_ne_none _
    | true =>
      rw [if_neg (by simp)]
      apply h
      exact ⟨by rw [hstart]; rfl, .inl (hi.failed_eq ▸ hfailed), i, hrunning⟩
  case h_2 k hpc =>
    cases ht
    apply h
    exact hu.of_same rfl rfl (by rw [hpc]; exact stop_requested k) fun _ => id
  case h_3 => cases ht

/-- A child of which a result has come does not run any more. -/
theorem running_of_update {p : ChildPc N D X} (hp : p ≠ .running) {j : N.Child}
    (h : Function.update s.child i p j = .running) : s.child j = .running ∧ j ≠ i := by
  rw [Function.update_apply] at h
  split_ifs at h with hj
  · exact absurd h hp
  · exact ⟨h, hj⟩

theorem forwarder_setFailureFlag (hi : s.Inv) (h : s.Unwanted → s.forwarder ≠ none)
    {f : Failure D X} (hpc : s.child i = .setFlag f) (hu : (s.setFailureFlag i f).Unwanted) :
    (s.setFailureFlag i f).forwarder ≠ none := by
  unfold setFailureFlag at hu ⊢
  by_cases hfailed : Word.hasFlag s.word failedFlag = true
  · rw [if_pos hfailed] at hu ⊢
    apply h
    exact hu.of_same rfl rfl rfl fun j hj => (running_of_update (by simp) hj).1
  · rw [if_neg hfailed] at hu ⊢
    obtain ⟨hpublished, -, j, hj⟩ := hu
    have hpublished : s.start.published = true := hpublished
    have hne : ∀ b : Bool, (if b = true then ChildPc.requestStop f N.first else .storeFailure f) ≠
        (.running : ChildPc N D X) := by
      intro b
      cases b <;> simp
    obtain ⟨hrunning, hji⟩ := running_of_update (hne _) hj
    change (if _ = true then some (Caller.child i) else s.forwarder) ≠ none
    cases hrequested : s.stop.requested with
    | true =>
      split_ifs
      · exact Option.some_ne_none _
      · exact h ⟨hpublished, .inr hrequested, j, hrunning⟩
    | false =>
      -- the other child is still counted
      have hle : 2 * countIncrement ≤ s.word := by
        apply hi.twice_countIncrement_le.mpr
        by_contra hlt
        exact hji (Processes.eq_of_count_le_one (p := ChildPc.outstanding) (f := s.child) (i := j)
          (by change s.outstanding ≤ 1; omega) (by rw [hrunning]; rfl)
          (by rw [hpc]; rfl)).symm
      rw [if_pos (by
        rw [hi.started_eq, hi.stop_eq, hpublished, hrequested, decide_eq_true hle]
        rfl)]
      exact Option.some_ne_none _

theorem forwarder_childStep (hi : s.Inv) (h : s.Unwanted → s.forwarder ≠ none)
    (ht : s.childStep i = some t) (hu : t.Unwanted) : t.forwarder ≠ none := by
  unfold childStep at ht
  split at ht
  case h_4 f hpc =>
    cases ht
    exact forwarder_setFailureFlag hi h hpc hu
  case h_8 =>
    cases ht
    change s.deliverResult.forwarder ≠ none
    rw [deliverResult_forwarder]
    apply h
    apply hu.of_same
    · exact congrArg StartPc.published s.deliverResult_pcs.1
    · exact s.deliverResult_frame.2
    · exact congrArg StopPc.requested s.deliverResult_pcs.2.1
    · intro j hj
      have hj : Function.update s.deliverResult.child i .done j = .running := hj
      rw [s.deliverResult_pcs.2.2] at hj
      exact (running_of_update (by simp) hj).1
  case h_3 | h_5 | h_7 =>
    cases ht
    apply h
    refine hu.of_same rfl rfl rfl fun j hj => (running_of_update ?_ hj).1
    first
      | split_ifs <;> simp
      | cases Broadcast.next _ <;> simp
  all_goals
    cases ht
    try exact h (hu.of_same rfl rfl rfl fun j hj => (running_of_update (by simp) hj).1)

theorem done_of_startStep (h : s.startStep = none) : s.start = .done := by
  cases hpc : s.start with
  | done => rfl
  | _ => simp [startStep, hpc] at h

theorem forwarder_of_unwanted (hs : (system N D X).Reachable s) :
    s.Inv ∧ (s.Unwanted → s.forwarder ≠ none) := by
  refine hs.invariant (P := fun s : Op N D X => s.Inv ∧ (s.Unwanted → s.forwarder ≠ none))
    ⟨Inv.initial, fun h => by cases h.1⟩ ?_
  rintro s a t ⟨hi, h⟩ - ht
  refine ⟨hi.step a ht, fun hu => ?_⟩
  cases a with
  | start => exact forwarder_startStep hi h ht hu
  | stop => exact forwarder_stopStep hi h ht hu
  | child i => exact forwarder_childStep hi h ht hu
  | complete i c =>
    change s.step (.complete i c) = some t at ht
    simp only [Op.step] at ht
    split at ht <;> cases ht
    apply h
    refine hu.of_same rfl rfl rfl fun j hj => (running_of_update ?_ hj).1
    cases c with
    | value vs throws => simp [setResult]
    | signal tag datums throws => cases throws <;> simp [setResult]

end Op

/-- The exception that storing a datum may throw is declared, or no storing throws, or the operation
never completes. -/
def ExceptionDeclared (types : DatumTypes T) (children : N.Child → Sender T) : Prop :=
  (∀ i, ∀ sig ∈ children i true, sig.nothrowMove types = true) ∨
    (∃ i, .error types.exceptionPtr ∈ children i true) ∨ ∃ i, children i true = []

/-- What the general operation delivers is declared. -/
theorem adapter_safe (h : allSucceed types children stopPossible = false)
    (hexception : ExceptionDeclared types children) :
    (adapter N types).Safe (fun _ _ => True) (fun i _ sig => sig ∈ children i true)
      fun sig => sig ∈ getCompletionSignatures types children stopPossible where
  params := fun _ _ _ _ _ => trivial
  once := by
    intro s hs
    change (s.delivered.filterMap (Result.signature types)).length ≤ 1
    have hle := List.length_filterMap_le (Result.signature types) s.delivered
    have hone := (Op.inv_of_reaches (Runs.reaches hs)).completesOnce.deliveredOnce
    omega
  declares := by
    intro s hs sig hsig
    obtain ⟨r, hr, hsig⟩ := List.mem_filterMap.mp hsig
    obtain ⟨hmem, hne⟩ := general_delivers (Runs.reaches hs) hr hsig
    rw [mem_getCompletionSignatures h]
    rcases hmem with hvalue | hfailure
    · exact .inl hvalue
    · right
      rcases mem_errorOrStoppedSigs.mp hfailure with hdeclared | ⟨rfl, i, other, hother, hmove⟩
      · exact hdeclared
      · rcases hexception with hnothrow | ⟨j, hj⟩ | ⟨j, hj⟩
        · rw [hnothrow i other hother] at hmove
          cases hmove
        · exact ⟨j, hj, fun vs heq => by cases heq⟩
        · exact absurd hj (hne j)
  terminates :=
    ⟨Op.rank, .of_lt fun _ _ _ hs ht => Op.rank_step (Op.inv_of_reaches (Runs.reaches hs)) ht⟩

theorem adapter_ends (types : DatumTypes T) (children : N.Child → Sender T) :
    (adapter N types).Ends (fun _ _ => True) fun i _ sig => sig ∈ children i true where
  accepts := by
    intro s _ i hrunning _ sig _ _
    have hpc : s.child i = .running := Option.isSome_ite.mp hrunning
    refine ⟨.complete i (Signature.completion none sig), ?_, ?_⟩
    · exact Bool.and_eq_true_iff.mpr
        ⟨decide_eq_true rfl, Signature.completion_matches sig⟩
    · change (s.step (.complete i (Signature.completion none sig))).isSome = true
      simp only [Op.step, hpc, Option.isSome_some]
  ends := by
    intro s hs hstuck hrunning
    have hquiescent : s.Quiescent := by
      intro a ha
      cases a with
      | start => exact hstuck .start rfl rfl
      | stop => exact absurd rfl ha
      | child i => exact hstuck (.child i) rfl rfl
      | complete i c =>
        have hpc : s.child i ≠ .running := fun h => by
          cases (if_pos h).symm.trans (hrunning i)
        simp only [Op.step]
    have hone := (Op.inv_of_reaches (Runs.reaches hs)).completesOnce.deliveredAtEnd hquiescent
    obtain ⟨r, hr⟩ := List.exists_mem_of_length_pos (by omega : 0 < s.delivered.length)
    obtain ⟨sig, hsig⟩ := Option.isSome_iff_exists.mp
      (Op.signature_isSome (Runs.reaches hs) hr)
    exact List.ne_nil_of_mem (List.mem_filterMap.mpr ⟨r, hr, hsig⟩)

theorem adapter_structured (types : DatumTypes T) (children : N.Child → Sender T) :
    (adapter N types).Structured (fun _ _ => True) fun i _ sig => sig ∈ children i true where
  keeps := fun _ _ _ ht hne => ((Op.delivered_grows ht).filterMap _).ne_nil hne
  runs_on := by
    intro s a t i _ ht hother hrunning
    apply Option.isSome_ite.mpr
    apply Op.runs_on ht (Option.isSome_ite.mp hrunning)
    rintro c rfl
    rcases hother with hown | ⟨j, sig, hj, hcompletes⟩
    · cases hown
    · exact hj (of_decide_eq_true (Bool.and_eq_true_iff.mp hcompletes).1).symm
  ended := by
    intro s hs hne i
    apply if_neg
    intro hrunning
    have hnot : ¬ s.Complete := not_complete (i := i) (by rw [hrunning]; rfl)
    have hnil := ((Op.inv_of_reaches (Runs.reaches hs)).undelivered hnot).2
    apply hne
    change s.delivered.filterMap _ = []
    rw [hnil, List.filterMap_nil]

/-- A failure or a request to stop gets the other children stopped. -/
theorem adapter_cancels (types : DatumTypes T) (children : N.Child → Sender T) :
    (adapter N types).Cancels (fun _ _ => True) fun i _ sig => sig ∈ children i true where
  asks := by
    intro s i _ hidle _ _ hcalled
    have hstart : s.start = .done := Op.done_of_startStep (hidle .start rfl rfl)
    have hstop : s.stop = .idle := StopPc.eq_idle hcalled
    refine ⟨.stop, rfl, decide_eq_true hstop, ?_⟩
    change s.stopStep ≠ none
    simp only [Op.stopStep, hstop]
    rw [if_pos hstart]
    exact Option.some_ne_none _
  cancels := by
    intro s i hs hidle hrunning hcause
    have hrunning : s.child i = .running := Option.isSome_ite.mp hrunning
    have hstart : s.start = .done := Op.done_of_startStep (hidle .start rfl rfl)
    obtain ⟨hi, hforwarder⟩ := Op.forwarder_of_unwanted (Runs.reaches hs).reachable
    have hunwanted : s.Unwanted := by
      refine ⟨by rw [hstart]; rfl, ?_, i, hrunning⟩
      exact hcause.symm
    obtain ⟨c, hc⟩ := Option.ne_none_iff_exists'.mp (hforwarder hunwanted)
    -- nobody is still calling
    have hposition : position s.start s.stop s.child c = none := by
      cases c with
      | start => simp only [position, hstart, StartPc.position]
      | stop =>
        cases hpc : s.stop with
        | idle | done => rfl
        | requestStop k =>
          have hnone : s.stopStep = none := hidle .stop rfl (decide_eq_false (by simp [hpc]))
          simp [Op.stopStep, hpc] at hnone
      | child j =>
        have hnone : s.childStep j = none := hidle (.child j) rfl rfl
        cases hpc : s.child j with
        | requestStop f k => simp [Op.childStep, hpc] at hnone
        | _ => simp only [position, hpc, ChildPc.position]
    apply decide_eq_true
    rw [hi.forwarding.finished c hc hposition]
    exact one_ne_zero

namespace AlwaysSucceeds
variable {D : Type}

namespace Op
variable {s t : Op N D} {a : Act N D} {i : N.Child}

theorem deliverValue_grows (s : Op N D) : s.delivered <+: s.deliverValue.delivered := by
  unfold deliverValue
  split
  · exact List.prefix_append _ _
  · exact List.prefix_rfl

theorem delivered_grows (ht : s.step a = some t) : s.delivered <+: t.delivered := by
  have hdeliver := s.deliverValue_grows
  cases a with
  | start =>
    simp only [step, startStep] at ht
    split at ht <;> cases ht
    exact List.prefix_rfl
  | stop =>
    simp only [step, stopStep] at ht
    split at ht <;> try split_ifs at ht
    all_goals
      cases ht
      try exact List.prefix_rfl
  | complete j vs =>
    simp only [step] at ht
    split at ht <;> cases ht
    exact List.prefix_rfl
  | child j =>
    simp only [step, childStep] at ht
    split at ht <;> cases ht <;> first
      | exact List.prefix_rfl
      | exact hdeliver

/-- A child runs until it completes. -/
theorem runs_on (ht : s.step a = some t) (hrunning : s.child i = .running)
    (ha : ∀ vs, a ≠ .complete i vs) : t.child i = .running := by
  cases a with
  | start =>
    simp only [step, startStep] at ht
    split at ht <;> cases ht
    change Function.update s.child _ .running i = .running
    rw [Function.update_apply, hrunning, ite_self]
  | stop =>
    simp only [step, stopStep] at ht
    split at ht <;> try split_ifs at ht
    all_goals
      cases ht
      try exact hrunning
  | complete j vs =>
    have hij : i ≠ j := fun h => ha vs (by rw [h])
    simp only [step] at ht
    split at ht <;> cases ht
    change Function.update s.child j _ i = .running
    rwa [Function.update_of_ne hij]
  | child j =>
    have hij : i ≠ j := by
      rintro rfl
      simp [step, childStep, hrunning] at ht
    simp only [step, childStep] at ht
    split at ht <;> cases ht
    case h_3 =>
      change Function.update s.deliverValue.child j _ i = .running
      rwa [Function.update_of_ne hij, s.deliverValue_pcs.2.2]
    all_goals
      change Function.update s.child j _ i = .running
      rwa [Function.update_of_ne hij]

/-- `request_stop()` calls the children in turn. -/
def Asks (s : Op N D) : Prop :=
  Broadcast.Once (fun (_ : Unit) _ => true) (fun _ => s.stop.position)
    (if s.stop.requested = true then some () else none) s.stopRequests

theorem Asks.of_same (h : s.Asks) (hstop : t.stop = s.stop)
    (hrequests : t.stopRequests = s.stopRequests) : t.Asks := by
  unfold Asks
  rwa [hstop, hrequests]

theorem Asks.stopStep (h : s.Asks) (ht : s.stopStep = some t) : t.Asks := by
  unfold Op.stopStep at ht
  split at ht
  case h_1 hpc =>
    split_ifs at ht
    cases ht
    unfold Asks at h ⊢
    rw [hpc] at h
    exact h.enter (c := ()) rfl rfl fun d hd => absurd rfl hd
  case h_2 k hpc =>
    cases ht
    unfold Asks at h ⊢
    rw [hpc] at h
    have hrequested : (((Broadcast.next k).map StopPc.requestStop).getD .done).requested = true :=
      WhenAll.Op.stop_requested k
    have hposition : (((Broadcast.next k).map StopPc.requestStop).getD .done).position =
        Broadcast.next k := by
      cases Broadcast.next k <;> rfl
    simp only [hrequested, if_true]
    exact h.advance (c := ()) (k := k) rfl hposition fun d hd => absurd rfl hd
  case h_3 => cases ht

theorem Asks.step (h : s.Asks) (ht : s.step a = some t) : t.Asks := by
  have hdeliver : s.deliverValue.stopRequests = s.stopRequests := by
    unfold deliverValue
    split <;> rfl
  cases a with
  | stop => exact h.stopStep ht
  | start =>
    simp only [Op.step, startStep] at ht
    split at ht <;> cases ht
    exact h.of_same rfl rfl
  | complete j vs =>
    simp only [Op.step] at ht
    split at ht <;> cases ht
    exact h.of_same rfl rfl
  | child j =>
    simp only [Op.step, childStep] at ht
    split at ht <;> cases ht
    case h_3 => exact h.of_same s.deliverValue_pcs.2.1 hdeliver
    all_goals exact h.of_same rfl rfl

end Op

def adapter (N : Arity) (T : Type) [DecidableEq T] : Adapter N.Child Unit (Signature T) where
  State := Op N T
  Act := Act N T
  system := system N T
  asksToStop s
    | .stop => decide (s.stop = .idle)
    | _ => false
  spurious _ := false
  delivered s := s.delivered.map .value
  own
    | .complete _ _ => false
    | _ => true
  completes i sig
    | .complete j vs => decide (j = i) && decide (sig = .value vs)
    | _ => false
  running s i := if s.child i = .running then some () else none
  asked s i := decide (s.stopRequests i ≠ 0)
  stopCalled s := s.stop.requested

abbrev Runs (children : N.Child → Sender T) (stopPossible : Bool) : Op N T → Prop :=
  (adapter N T).Reaches (fun _ _ => True) fun i _ sig => sig ∈ children i stopPossible

theorem Runs.reaches {s : Op N T} (hs : Runs children stopPossible s) :
    (system N T).Reaches (fun _ a => a.Accords children stopPossible) s := by
  refine hs.mono ?_
  rintro - a (hown | ⟨i, -, sig, -, hsig, hcompletes⟩)
  · cases a with
    | complete i c => cases hown
    | _ => trivial
  · cases a with
    | complete j vs =>
      obtain ⟨hj, hvs⟩ := Bool.and_eq_true_iff.mp hcompletes
      obtain rfl : j = i := of_decide_eq_true hj
      obtain rfl : sig = .value vs := of_decide_eq_true hvs
      exact hsig
    | _ => trivial

theorem Runs.general {s : Op N T} (hs : Runs children stopPossible s) :
    ∃ t : WhenAll.Op N T Unit, s.Matches t :=
  hs.invariant (P := fun s => ∃ t : WhenAll.Op N T Unit, Op.Matches s t) ⟨_, Op.init_matches⟩
    fun s a s' ⟨t, ht⟩ _ hs' =>
      have ⟨_, t', _, _, ht'⟩ := Op.general_simulates s t a s' ht hs'
      ⟨t', ht'⟩

/-- What the specialisation delivers is declared. -/
theorem adapter_safe (h : allSucceed types children stopPossible = true) :
    (adapter N T).Safe (fun _ _ => True) (fun i _ sig => sig ∈ children i stopPossible)
      fun sig => sig ∈ getCompletionSignatures types children stopPossible where
  params := fun _ _ _ _ _ => trivial
  once := by
    intro s hs
    change (s.delivered.map Signature.value).length ≤ 1
    obtain ⟨t, ht⟩ := Runs.general hs
    rw [List.length_map]
    exact ht.completesOnce.deliveredOnce
  declares := by
    intro s hs sig hsig
    obtain ⟨vs, hvs, rfl⟩ := List.mem_map.mp hsig
    unfold getCompletionSignatures
    rw [if_pos h]
    exact alwaysSucceeds_delivers (Runs.reaches hs) hvs
  terminates := by
    refine ⟨Op.rank, .of_lt fun s a t hs ht => ?_⟩
    obtain ⟨u, hu⟩ := Runs.general hs
    exact hu.rank_step ht

theorem adapter_ends (h : allSucceed types children stopPossible = true) :
    (adapter N T).Ends (fun _ _ => True) fun i _ sig => sig ∈ children i stopPossible where
  accepts := by
    intro s _ i hrunning _ sig _ hsig
    have hpc : s.child i = .running := Option.isSome_ite.mp hrunning
    obtain ⟨vs, rfl, -⟩ := allSucceed_iff.mp h i sig hsig
    refine ⟨.complete i vs, ?_, ?_⟩
    · exact Bool.and_eq_true_iff.mpr ⟨decide_eq_true rfl, decide_eq_true rfl⟩
    · change (s.step (.complete i vs)).isSome = true
      simp only [Op.step, hpc, Option.isSome_some]
  ends := by
    intro s hs hstuck hrunning
    obtain ⟨t, ht⟩ := Runs.general hs
    have hquiescent : s.Quiescent := by
      intro a ha
      cases a with
      | start => exact hstuck .start rfl rfl
      | stop => exact absurd rfl ha
      | child i => exact hstuck (.child i) rfl rfl
      | complete i c =>
        have hpc : s.child i ≠ .running := fun h => by
          cases (if_pos h).symm.trans (hrunning i)
        simp only [Op.step]
    have hone := ht.completesOnce.deliveredAtEnd hquiescent
    exact mt List.map_eq_nil_iff.mp (List.ne_nil_of_length_eq_add_one hone)

theorem adapter_structured (children : N.Child → Sender T) (stopPossible : Bool) :
    (adapter N T).Structured (fun _ _ => True) fun i _ sig => sig ∈ children i stopPossible where
  keeps := fun _ _ _ ht hne => ((Op.delivered_grows ht).map _).ne_nil hne
  runs_on := by
    intro s a t i _ ht hother hrunning
    apply Option.isSome_ite.mpr
    apply Op.runs_on ht (Option.isSome_ite.mp hrunning)
    rintro vs rfl
    rcases hother with hown | ⟨j, sig, hj, hcompletes⟩
    · cases hown
    · exact hj (of_decide_eq_true (Bool.and_eq_true_iff.mp hcompletes).1).symm
  ended := by
    intro s hs hne i
    obtain ⟨t, ht⟩ := Runs.general hs
    apply if_neg
    intro hrunning
    have hgeneral : t.child i = .running := by
      rw [ht.child, hrunning]
      rfl
    have hnot : ¬ t.Complete := WhenAll.Op.not_complete (i := i) (by rw [hgeneral]; rfl)
    have hnil := (ht.inv.undelivered hnot).2
    rw [ht.delivered, List.map_eq_nil_iff] at hnil
    apply hne
    change s.delivered.map _ = []
    rw [hnil, List.map_nil]

/-- A request to stop is passed on to all children. -/
theorem adapter_cancels (children : N.Child → Sender T) (stopPossible : Bool) :
    (adapter N T).Cancels (fun _ _ => True) fun i _ sig => sig ∈ children i stopPossible where
  asks := by
    intro s i _ hidle _ _ hcalled
    have hnone : s.startStep = none := hidle .start rfl rfl
    have hstart : s.start = .done := by
      cases hpc : s.start with
      | done => rfl
      | launch k => simp [Op.startStep, hpc] at hnone
    have hstop : s.stop = .idle := StopPc.eq_idle hcalled
    refine ⟨.stop, rfl, decide_eq_true hstop, ?_⟩
    change s.stopStep ≠ none
    simp only [Op.stopStep, hstop]
    rw [if_pos hstart]
    exact Option.some_ne_none _
  cancels := by
    intro s i hs hidle _ hcause
    have hasks : s.Asks := by
      refine hs.invariant (P := Op.Asks) ?_ fun _ _ _ h _ ht => h.step ht
      exact Broadcast.Once.initial fun _ => rfl
    rcases hcause with hrequested | hdecided
    · have hrequested : s.stop.requested = true := hrequested
      have hposition : s.stop.position = none := by
        cases hpc : s.stop with
        | idle | done => rfl
        | requestStop k =>
          have hnone : s.stopStep = none := hidle .stop rfl (decide_eq_false (by simp [hpc]))
          simp [Op.stopStep, hpc] at hnone
      unfold Op.Asks at hasks
      rw [if_pos hrequested] at hasks
      apply decide_eq_true
      rw [hasks.finished () rfl hposition]
      exact one_ne_zero
    · exact hdecided.elim

end AlwaysSucceeds
end Squiz.WhenAll
