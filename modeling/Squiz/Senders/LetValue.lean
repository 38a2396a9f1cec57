import Squiz.Lib.StructuredOperations
import Squiz.LetValue.Protocol
import Squiz.Senders.Results

/-! `let_value_op` as the parent of its source and of the body that it makes from the source's
values. -/
namespace Squiz.LetValue
open Squiz.Lib Squiz.Detail Squiz.SigSet Op

variable {T : Type} [DecidableEq T]

instance : Finite Child :=
  .of_surjective (fun source : Bool => if source then .source else .body) fun
    | .source => ⟨true, rfl⟩
    | .body => ⟨false, rfl⟩

/-- What is known of the body factory and of the senders it returns, for the types of the values. -/
structure Factory (T : Type) where
  /-- the signatures of the body -/
  body : List T → SigSet T
  /-- `std::is_nothrow_invocable_v` -/
  nothrowInvocable : List T → Bool
  /-- `is_always_nothrow_connectable_v` of the body -/
  nothrowConnectable : List T → Bool

/-- What can throw once the values are accepted. -/
def Stage.mayThrow (types : DatumTypes T) (factory : Factory T) (vs : List T) : Stage → Bool
  | .values => !vs.all types.nothrowMove
  | .factory => !factory.nothrowInvocable vs
  | .connect => !factory.nothrowConnectable vs

/-- `is_body_sender_nothrow_startable` -/
def isBodySenderNothrowStartable (types : DatumTypes T) (factory : Factory T)
    (vs : List T) : Bool :=
  vs.all types.nothrowMove && factory.nothrowInvocable vs && factory.nothrowConnectable vs

/-- `body_completion_sigs_t` -/
def bodyCompletionSigs (types : DatumTypes T) (factory : Factory T) (vs : List T) : SigSet T :=
  merge [addErrorIfMoveCanThrow types (factory.body vs),
    if isBodySenderNothrowStartable types factory vs then [] else [.error types.exceptionPtr]]

/-- `transform_source_signatures` -/
def transformSourceSignatures (types : DatumTypes T) (factory : Factory T) :
    Signature T → SigSet T
  | .value vs => bodyCompletionSigs types factory vs
  | sig => [sig]

/-- `let_value_completion_signatures` -/
def completionSignatures (types : DatumTypes T) (factory : Factory T) (source : SigSet T) :
    SigSet T :=
  merge [[.stopped], errorOrStoppedSignatures source,
    transform (transformSourceSignatures types factory) (valueSignatures source)]

/-- The source completes with the signature. -/
def SourceCompletion.matches (types : DatumTypes T) (factory : Factory T) (sig : Signature T) :
    SourceCompletion (List T) (Signature T) Unit → Bool
  | .value vs throws =>
    decide (sig = .value vs) && throws.all fun thrown => thrown.1.mayThrow types factory vs
  | .other sig' => decide (sig = sig') && decide (sig.tag ≠ .value)

def Outcome.signature (types : DatumTypes T) : Outcome (Signature T) Unit → Signature T
  | .stopped => .stopped
  | .of r => r.signature types

/-- The values that the body is made from. -/
def Op.bodyValues (s : Op (List T) (Signature T) Unit) : List T :=
  match s.completion with
  | some (.value vs _) => vs
  | _ => []

/-- The destructor is left to the owner, who calls it when the operation is over. -/
def adapter (types : DatumTypes T) (factory : Factory T) :
    Adapter Child (List T) (Signature T) where
  State := Op (List T) (Signature T) Unit
  Act := Act (List T) (Signature T) Unit
  system := system (List T) (Signature T) Unit
  asksToStop _
    | .requestStop => true
    | _ => false
  spurious := Act.spurious
  delivered s := s.delivered.map (Outcome.signature types)
  own
    | .completeSource _ | .completeBody _ | .destroy => false
    | _ => true
  completes
    | .source, sig, .completeSource c => c.matches types factory sig
    | .body, sig, .completeBody c => c.matches types sig
    | _, _, _ => false
  running s
    | .source => if s.source = .running then some [] else none
    | .body => if s.body = .running then some s.bodyValues else none
  asked s
    | .source => decide (s.sourceStops ≠ 0)
    | .body => decide (s.bodyStops ≠ 0)
  stopCalled s := decide (s.stop ≠ .notCalled)

/-- The source is made from nothing, a body from values that the source has declared. -/
def Child.Admits (source : SigSet T) (child : Child) (vs : List T) : Prop :=
  match child with
  | .source => True
  | .body => .value vs ∈ source

/-- What the children have declared. -/
def Child.Declares (factory : Factory T) (source : SigSet T) (child : Child) (vs : List T)
    (sig : Signature T) : Prop :=
  match child with
  | .source => sig ∈ source
  | .body => sig ∈ factory.body vs

variable {types : DatumTypes T} {factory : Factory T} {source : SigSet T} {sig : Signature T}

theorem mem_bodyCompletionSigs {vs : List T} : sig ∈ bodyCompletionSigs types factory vs ↔
    sig ∈ addErrorIfMoveCanThrow types (factory.body vs) ∨
      isBodySenderNothrowStartable types factory vs = false ∧ sig = .error types.exceptionPtr := by
  unfold bodyCompletionSigs
  rw [mem_merge]
  simp only [List.mem_cons, List.not_mem_nil, or_false, exists_eq_or_imp, exists_eq_left]
  cases isBodySenderNothrowStartable types factory vs <;> simp

/-- What `let_value_sender` declares. -/
theorem mem_completionSignatures : sig ∈ completionSignatures types factory source ↔
    sig = .stopped ∨ (sig ∈ source ∧ ∀ vs, sig ≠ .value vs) ∨
      ∃ vs, .value vs ∈ source ∧ sig ∈ bodyCompletionSigs types factory vs := by
  unfold completionSignatures
  rw [mem_merge]
  simp only [List.mem_cons, List.not_mem_nil, or_false, exists_eq_or_imp, exists_eq_left,
    mem_errorOrStoppedSignatures, mem_transform]
  refine or_congr_right (or_congr_right ⟨?_, ?_⟩)
  · rintro ⟨other, hother, hsig⟩
    cases other with
    | value vs => exact ⟨vs, mem_valueSignatures.mp hother, hsig⟩
    | error e | stopped =>
      unfold valueSignatures at hother
      rw [mem_transform_onlyTags] at hother
      cases List.mem_singleton.mp hother.2
  · rintro ⟨vs, hvs, hsig⟩
    exact ⟨.value vs, mem_valueSignatures.mpr hvs, hsig⟩

namespace Op
variable {V R X : Type} {s t : Op V R X} {a : Act V R X}

theorem dispatchResult_owner (s : Op V R X) : s.dispatchResult.completion = s.completion ∧
    s.dispatchResult.bodyCompletion = s.bodyCompletion ∧
    s.dispatchResult.destroyed = s.destroyed := by
  unfold dispatchResult
  split <;> exact ⟨rfl, rfl, rfl⟩

theorem requestStopOn_owner (s : Op V R X) (c : Child) :
    (s.requestStopOn c).completion = s.completion ∧
      (s.requestStopOn c).bodyCompletion = s.bodyCompletion ∧
      (s.requestStopOn c).destroyed = s.destroyed := by
  cases c <;> exact ⟨rfl, rfl, rfl⟩

theorem stopStep_children {spurious : Bool} (ht : s.stopStep spurious = some t) :
    t.source = s.source ∧ t.body = s.body := by
  have hrequest : ∀ c,
      (s.requestStopOn c).source = s.source ∧ (s.requestStopOn c).body = s.body := by
    intro c
    cases c <;> exact ⟨rfl, rfl⟩
  simp only [stopStep] at ht
  split at ht <;> try split at ht
  all_goals
    cases ht
    try first
      | exact ⟨rfl, rfl⟩
      | exact hrequest _

theorem dispatchResult_frame (s : Op V R X) : s.delivered <+: s.dispatchResult.delivered ∧
    s.dispatchResult.source = s.source ∧ s.dispatchResult.body = s.body := by
  unfold dispatchResult
  split
  · exact ⟨List.prefix_append _ _, rfl, rfl⟩
  · exact ⟨List.prefix_rfl, rfl, rfl⟩

theorem requestStopOn_frame (s : Op V R X) (c : Child) :
    s.delivered <+: (s.requestStopOn c).delivered ∧
      (s.requestStopOn c).source = s.source ∧ (s.requestStopOn c).body = s.body := by
  cases c <;> exact ⟨List.prefix_rfl, rfl, rfl⟩

theorem sourceStep_frame (ht : s.sourceStep = some t) : s.delivered <+: t.delivered ∧
    (t.body = s.body ∨ t.body = .running) := by
  simp only [sourceStep] at ht
  split at ht <;> try split at ht
  all_goals try split at ht
  all_goals
    cases ht
    try first
      | exact ⟨List.prefix_rfl, .inl rfl⟩
      | exact ⟨List.prefix_append _ _, .inl rfl⟩
      | exact ⟨List.prefix_rfl, .inr rfl⟩
      | exact ⟨(s.requestStopOn_frame _).1, .inl (s.requestStopOn_frame _).2.2⟩
      | exact ⟨s.dispatchResult_frame.1, .inl s.dispatchResult_frame.2.2⟩

theorem sourceStep_body (ht : s.sourceStep = some t) :
    t.body = s.body ∨ s.source = .startBody ∧ t.body = .running := by
  simp only [sourceStep] at ht
  split at ht <;> try split at ht
  all_goals try split at ht
  all_goals
    cases ht
    try first
      | exact .inl rfl
      | exact .inl (s.requestStopOn_frame _).2.2
      | exact .inl s.dispatchResult_frame.2.2
      | exact .inr ⟨by assumption, rfl⟩

theorem sourceStep_stop (ht : s.sourceStep = some t) : t.stop = s.stop := by
  have hdispatch : s.dispatchResult.stop = s.stop := by
    unfold dispatchResult
    split <;> rfl
  have hrequest : ∀ c, (s.requestStopOn c).stop = s.stop := by
    intro c
    cases c <;> rfl
  simp only [sourceStep] at ht
  split at ht <;> try split at ht
  all_goals try split at ht
  all_goals
    cases ht
    try first
      | rfl
      | exact hrequest _
      | exact hdispatch

theorem bodyStep_stop (ht : s.bodyStep = some t) :
    t.stop = s.stop ∧ t.body ≠ .notStarted ∧ t.body ≠ .running := by
  have hdispatch : s.dispatchResult.stop = s.stop := by
    unfold dispatchResult
    split <;> rfl
  simp only [bodyStep] at ht
  split at ht <;> cases ht
  case h_6 | h_9 =>
    refine ⟨rfl, ?_⟩
    dsimp only
    split_ifs <;> simp
  case h_10 => exact ⟨hdispatch, by simp, by simp⟩
  all_goals exact ⟨rfl, by simp, by simp⟩

theorem bodyStep_frame (ht : s.bodyStep = some t) : s.delivered <+: t.delivered ∧
    t.source = s.source := by
  simp only [bodyStep] at ht
  split at ht
  all_goals
    cases ht
    try first
      | exact ⟨List.prefix_rfl, rfl⟩
      | exact ⟨List.prefix_append _ _, rfl⟩
      | exact ⟨s.dispatchResult_frame.1, s.dispatchResult_frame.2.1⟩

theorem delivered_grows (ht : s.step a = some t) : s.delivered <+: t.delivered := by
  cases a with
  | start | requestStop =>
    simp only [step] at ht
    split at ht <;> try split_ifs at ht
    all_goals
      cases ht
      try exact List.prefix_rfl
  | stop spurious =>
    simp only [step, stopStep] at ht
    split at ht <;> try split at ht
    all_goals
      cases ht
      try first
        | exact List.prefix_rfl
        | exact (s.requestStopOn_frame _).1
  | source => exact (sourceStep_frame ht).1
  | body => exact (bodyStep_frame ht).1
  | completeSource c =>
    simp only [step] at ht
    split at ht <;> try split at ht
    all_goals
      cases ht
      try exact List.prefix_rfl
  | completeBody c =>
    simp only [step] at ht
    split at ht <;> cases ht
    exact List.prefix_rfl
  | destroy =>
    simp only [step] at ht
    split_ifs at ht
    cases ht
    unfold destroy
    split <;> exact List.prefix_rfl

/-- The source runs until it completes. -/
theorem source_runs_on (ht : s.step a = some t) (hrunning : s.source = .running)
    (ha : ∀ c, a ≠ .completeSource c) : t.source = .running := by
  cases a with
  | start | requestStop =>
    simp only [step] at ht
    split at ht <;> try split_ifs at ht
    all_goals
      cases ht
      try first
        | rfl
        | exact hrunning
  | stop spurious => exact (stopStep_children ht).1.trans hrunning
  | source => simp [step, sourceStep, hrunning] at ht
  | body => exact (bodyStep_frame ht).2.trans hrunning
  | completeSource c => exact absurd rfl (ha c)
  | completeBody c =>
    simp only [step] at ht
    split at ht <;> cases ht
    exact hrunning
  | destroy =>
    simp only [step] at ht
    split_ifs at ht
    cases ht
    unfold destroy
    split <;> exact hrunning

/-- The body runs until it completes. -/
theorem body_runs_on (ht : s.step a = some t) (hrunning : s.body = .running)
    (ha : ∀ c, a ≠ .completeBody c) : t.body = .running := by
  cases a with
  | start | requestStop =>
    simp only [step] at ht
    split at ht <;> try split_ifs at ht
    all_goals
      cases ht
      try exact hrunning
  | stop spurious => exact (stopStep_children ht).2.trans hrunning
  | source =>
    rcases (sourceStep_frame ht).2 with hsame | hstarted
    · exact hsame.trans hrunning
    · exact hstarted
  | body => simp [step, bodyStep, hrunning] at ht
  | completeSource c =>
    simp only [step] at ht
    split at ht <;> try split at ht
    all_goals
      cases ht
      try exact hrunning
  | completeBody c => exact absurd rfl (ha c)
  | destroy =>
    simp only [step] at ht
    split_ifs at ht
    cases ht
    unfold destroy
    split <;> exact hrunning

/-- While a child runs, nothing was delivered. -/
theorem Inv.undelivered_of_running (hi : s.Inv)
    (hrunning : s.source = .running ∨ s.body = .running) :
    s.delivered = [] := by
  apply List.eq_nil_of_length_eq_zero
  have hj := hi.joint
  rw [hi.deliveries]
  rcases hrunning with hsource | hbody
  · rw [hsource] at hj ⊢
    rw [hj.1]
    rfl
  · rw [hbody] at hj ⊢
    cases hpc : s.source <;> rw [hpc] at hj
    case inStart | addStarted | requestBody | inRequestStop | addDone | returned => rfl
    all_goals cases hj.1

/-! A request to stop that comes too late finds the body completed. -/

def LateOnly (s : Op V R X) : Prop :=
  s.stop = .tooLate → s.body ≠ .notStarted ∧ s.body ≠ .running

theorem Inv.bodyDone_eq (hi : s.Inv) (h : Word.hasFlag s.word bodyDoneFlag = true) :
    s.body ≠ .notStarted ∧ s.body ≠ .running := by
  have hsrc : s.source.phase.srcDone ≤ 1 := by cases s.source.phase <;> simp [Phase.srcDone]
  have hstarted : s.source.phase.bodyStarted ≤ 1 := by
    cases s.source.phase <;> simp [Phase.bodyStarted]
  have hasked : s.stop.asked ≤ 1 := Bool.toNat_le _
  have hrequestDone : s.stopRequestDone.toNat ≤ 1 := Bool.toNat_le _
  have hword := hi.word
  have hzero : ∀ pc : BodyPc R X, pc.done = 0 → s.body ≠ pc := by
    rintro pc hdone hpc
    rw [hpc, hdone] at hword
    rw [hword] at h
    rcases Nat.le_one_iff_eq_zero_or_eq_one.mp hsrc with h0 | h0 <;>
      rcases Nat.le_one_iff_eq_zero_or_eq_one.mp hstarted with h1 | h1 <;>
      rcases Nat.le_one_iff_eq_zero_or_eq_one.mp hasked with h2 | h2 <;>
      rcases Nat.le_one_iff_eq_zero_or_eq_one.mp hrequestDone with h3 | h3 <;>
      rw [h0, h1, h2, h3] at h <;> cases h
  exact ⟨hzero _ rfl, hzero _ rfl⟩

theorem LateOnly.of_same (h : s.LateOnly) (hstop : t.stop = s.stop) (hbody : t.body = s.body) :
    t.LateOnly := by
  unfold LateOnly
  rwa [hstop, hbody]

theorem stopNext_late (hi : s.Inv) : stopNext s.word = .tooLate →
    s.body ≠ .notStarted ∧ s.body ≠ .running := by
  intro h
  apply hi.bodyDone_eq
  unfold stopNext at h
  split_ifs at h with hdone
  exact hdone

theorem LateOnly.step (hi : s.Inv) (h : s.LateOnly) (ht : s.step a = some t) : t.LateOnly := by
  cases a with
  | start | requestStop =>
    simp only [Op.step] at ht
    split at ht <;> try split_ifs at ht
    all_goals
      cases ht
      try first
        | exact h.of_same rfl rfl
        | exact fun hlate => by cases hlate
  | stop spurious =>
    have hbody := (stopStep_children ht).2
    unfold LateOnly
    rw [hbody]
    simp only [Op.step, stopStep] at ht
    split at ht <;> try split at ht
    all_goals
      cases ht
      try first
        | exact stopNext_late hi
        | exact fun hlate => by cases hlate
  | source =>
    intro hlate
    have hstop : t.stop = s.stop := sourceStep_stop ht
    rcases (sourceStep_body ht) with hsame | ⟨hstart, hrunning⟩
    · rw [hsame]
      exact h (hstop ▸ hlate)
    · -- the body is not started twice
      have hjoint := hi.joint
      rw [hstart] at hjoint
      exact absurd hjoint.1 (h (hstop ▸ hlate)).1
  | body =>
    intro hlate
    obtain ⟨hstop, hbody⟩ := bodyStep_stop ht
    exact hbody
  | completeSource c =>
    simp only [Op.step] at ht
    split at ht <;> try split at ht
    all_goals
      cases ht
      try exact h.of_same rfl rfl
  | completeBody c =>
    simp only [Op.step] at ht
    split at ht <;> cases ht
    exact fun _ => ⟨by simp, by simp⟩
  | destroy =>
    simp only [Op.step] at ht
    split_ifs at ht
    cases ht
    apply h.of_same <;>
      · unfold destroy
        split <;> rfl

/-- Only the children's `set_result` bring a completion, and only the owner destroys the
operation. -/
theorem step_owner (ht : s.step a = some t) :
    (t.completion = s.completion ∨ ∃ c, a = .completeSource c ∧ t.completion = some c) ∧
      (t.bodyCompletion = s.bodyCompletion ∨
        ∃ c, a = .completeBody c ∧ t.bodyCompletion = some c) ∧
      (t.destroyed = s.destroyed ∨ a = .destroy) := by
  have hsame : t.completion = s.completion ∧ t.bodyCompletion = s.bodyCompletion ∧
      t.destroyed = s.destroyed →
      (t.completion = s.completion ∨ ∃ c, a = .completeSource c ∧ t.completion = some c) ∧
        (t.bodyCompletion = s.bodyCompletion ∨
          ∃ c, a = .completeBody c ∧ t.bodyCompletion = some c) ∧
        (t.destroyed = s.destroyed ∨ a = .destroy) :=
    fun ⟨h1, h2, h3⟩ => ⟨.inl h1, .inl h2, .inl h3⟩
  cases a with
  | start | requestStop =>
    apply hsame
    simp only [step] at ht
    split at ht <;> try split_ifs at ht
    all_goals
      cases ht
      try exact ⟨rfl, rfl, rfl⟩
  | stop spurious =>
    apply hsame
    simp only [step, stopStep] at ht
    split at ht <;> try split at ht
    all_goals
      cases ht
      try first
        | exact ⟨rfl, rfl, rfl⟩
        | exact requestStopOn_owner s _
  | source =>
    apply hsame
    simp only [step, sourceStep] at ht
    split at ht <;> try split at ht
    all_goals try split at ht
    all_goals
      cases ht
      try first
        | exact ⟨rfl, rfl, rfl⟩
        | exact requestStopOn_owner s _
        | exact dispatchResult_owner s
  | body =>
    apply hsame
    simp only [step, bodyStep] at ht
    split at ht
    all_goals
      cases ht
      try first
        | exact ⟨rfl, rfl, rfl⟩
        | exact dispatchResult_owner s
  | completeSource c =>
    simp only [step] at ht
    split at ht <;> try split at ht
    all_goals
      cases ht
      try exact ⟨.inr ⟨_, rfl, rfl⟩, .inl rfl, .inl rfl⟩
  | completeBody c =>
    simp only [step] at ht
    split at ht <;> cases ht
    exact ⟨.inl rfl, .inr ⟨c, rfl, rfl⟩, .inl rfl⟩
  | destroy =>
    simp only [step] at ht
    split_ifs at ht
    cases ht
    unfold destroy
    split <;> exact ⟨.inl rfl, .inl rfl, .inr rfl⟩

end Op

/-- The runs whose children complete as they have declared. -/
abbrev Runs (types : DatumTypes T) (factory : Factory T) (source : SigSet T) :
    Op (List T) (Signature T) Unit → Prop :=
  (adapter types factory).Reaches (Child.Admits source) (Child.Declares factory source)

/-- What a run knows of its children's completions. -/
structure Known (types : DatumTypes T) (factory : Factory T) (source : SigSet T)
    (s : Op (List T) (Signature T) Unit) : Prop where
  inv : s.Inv
  alive : s.destroyed = false
  completion : ∀ c, s.completion = some c → ∃ sig ∈ source, c.matches types factory sig = true
  bodyCompletion : ∀ c, s.bodyCompletion = some c → ∃ vs, .value vs ∈ source ∧
    ∃ sig ∈ factory.body vs, c.matches types sig = true

theorem Runs.known {s : Op (List T) (Signature T) Unit} (hs : Runs types factory source s) :
    Known types factory source s := by
  refine hs.invariant (P := Known types factory source)
    ⟨Inv.init, rfl, fun c hc => (by cases hc), fun c hc => (by cases hc)⟩ ?_
  intro s a t h hok ht
  obtain ⟨hcompletion, hbody, hdestroyed⟩ := step_owner ht
  refine ⟨h.inv.step ht, ?_, ?_, ?_⟩
  · rcases hdestroyed with hsame | rfl
    · rw [hsame, h.alive]
    · rcases hok with hown | ⟨child, _, _, _, _, hcompletes⟩
      · cases hown
      · cases child <;> cases hcompletes
  · intro c htc
    rcases hcompletion with hsame | ⟨c', rfl, hc'⟩
    · exact h.completion c (hsame ▸ htc)
    · rw [hc'] at htc
      cases htc
      rcases hok with hown | ⟨child, _, sig, _, hsig, hmatches⟩
      · cases hown
      · cases child with
        | source => exact ⟨sig, hsig, hmatches⟩
        | body => cases hmatches
  · intro c htc
    rcases hbody with hsame | ⟨c', rfl, hc'⟩
    · exact h.bodyCompletion c (hsame ▸ htc)
    · rw [hc'] at htc
      cases htc
      rcases hok with hown | ⟨child, vs, sig, hvs, hsig, hmatches⟩
      · cases hown
      · cases child with
        | source => cases hmatches
        | body => exact ⟨vs, hvs, sig, hsig, hmatches⟩

/-- A source that has brought values had declared them. -/
theorem SourceCompletion.value_mem {vs : List T} {throws : Option (Stage × Unit)}
    (h : SourceCompletion.matches types factory sig (.value vs throws) = true) :
    sig = .value vs ∧
      ∀ stage x, throws = some (stage, x) → stage.mayThrow types factory vs = true := by
  obtain ⟨hsig, hthrows⟩ := Bool.and_eq_true_iff.mp h
  refine ⟨of_decide_eq_true hsig, ?_⟩
  rintro stage x rfl
  exact hthrows

theorem SourceCompletion.exists_matches (types : DatumTypes T) (factory : Factory T)
    (sig : Signature T) : ∃ c : SourceCompletion (List T) (Signature T) Unit,
      c.matches types factory sig = true := by
  cases sig with
  | value vs => exact ⟨.value vs none, by simp [SourceCompletion.matches]⟩
  | error e => exact ⟨.other (.error e), by simp [SourceCompletion.matches, Signature.tag]⟩
  | stopped => exact ⟨.other .stopped, by simp [SourceCompletion.matches, Signature.tag]⟩

/-- Once the body was started, the source's values are known. -/
theorem Op.Inv.values_of_body {V R X : Type} {s : Op V R X} (hi : s.Inv)
    (hbody : s.body ≠ .notStarted) : ∃ v throws, s.completion = some (.value v throws) := by
  have hj := hi.joint
  have hok := hi.ok
  cases hpc : s.source <;> rw [hpc] at hj hok
  case inStart | addStarted | requestBody | inRequestStop | addDone | dispatch |
      returnedDispatched | returned => exact hok
  all_goals exact absurd hj.1 hbody

omit [DecidableEq T] in
theorem not_startable {vs : List T} {stage : Stage} (h : stage.mayThrow types factory vs = true) :
    isBodySenderNothrowStartable types factory vs = false := by
  unfold isBodySenderNothrowStartable
  cases stage <;> simp only [Stage.mayThrow, Bool.not_eq_true'] at h <;> simp [h]

/-- What the operation delivers is declared. -/
theorem adapter_safe (types : DatumTypes T) (factory : Factory T) (source : SigSet T) :
    (adapter types factory).Safe (Child.Admits source) (Child.Declares factory source)
      fun sig => sig ∈ completionSignatures types factory source where
  params := by
    intro s hs child vs hrunning
    cases child with
    | source => trivial
    | body =>
      have h := Runs.known hs
      change (if s.body = .running then some (Op.bodyValues s) else none) = some vs at hrunning
      obtain ⟨hpc, hvs⟩ := Option.ite_none_right_eq_some.mp hrunning
      have hne : s.body ≠ .notStarted := by
        rw [hpc]
        exact fun heq => by cases heq
      obtain ⟨v, throws, hcompletion⟩ := h.inv.values_of_body hne
      obtain ⟨sig, hsig, hmatches⟩ := h.completion _ hcompletion
      cases hvs
      obtain ⟨rfl, -⟩ := SourceCompletion.value_mem hmatches
      unfold Op.bodyValues
      rw [hcompletion]
      exact hsig
  once := by
    intro s hs
    change (s.delivered.map (Outcome.signature types)).length ≤ 1
    rw [List.length_map]
    exact (Runs.known hs).inv.orderly.deliveredOnce
  declares := by
    intro s hs sig hsig
    obtain ⟨o, ho, rfl⟩ := List.mem_map.mp hsig
    have h := Runs.known hs
    have hgives := h.inv.gives o ho
    rw [mem_completionSignatures]
    cases o with
    | stopped => exact .inl rfl
    | of r =>
      rcases hgives with ⟨r', hc, rfl⟩ | ⟨-, ⟨vs, stage, x, hc, rfl⟩ | ⟨c, hc, hr⟩⟩
      · obtain ⟨sig, hdeclared, hmatches⟩ := h.completion _ hc
        obtain ⟨hsame, htag⟩ := Bool.and_eq_true_iff.mp hmatches
        obtain rfl : sig = r' := of_decide_eq_true hsame
        refine .inr (.inl ⟨hdeclared, ?_⟩)
        rintro vs rfl
        exact of_decide_eq_true htag rfl
      · obtain ⟨sig, hdeclared, hmatches⟩ := h.completion _ hc
        obtain ⟨rfl, hthrows⟩ := SourceCompletion.value_mem hmatches
        refine .inr (.inr ⟨vs, hdeclared, mem_bodyCompletionSigs.mpr (.inr ⟨?_, rfl⟩)⟩)
        exact not_startable (hthrows stage x rfl)
      · obtain ⟨vs, hvs, sig, hdeclared, hmatches⟩ := h.bodyCompletion c hc
        exact .inr (.inr ⟨vs, hvs, mem_bodyCompletionSigs.mpr (.inl (hr.mem hmatches hdeclared))⟩)
  terminates := by
    refine ⟨rank, fun s a t hs ht => ?_⟩
    have hle : rank t + (!a.spurious).toNat ≤ rank s := rank_step (Runs.known hs).inv ht
    refine ⟨hle, fun heq child hrunning => ?_⟩
    have ha : a.spurious = true := by
      by_contra hne
      rw [Bool.of_not_eq_true hne] at hle
      exact absurd heq (Nat.ne_of_lt hle)
    cases a with
    | stop spurious =>
      obtain ⟨hsource, hbody⟩ := Op.stopStep_children ht
      cases child with
      | source => exact Option.isSome_ite.mpr (hsource ▸ Option.isSome_ite.mp hrunning)
      | body => exact Option.isSome_ite.mpr (hbody ▸ Option.isSome_ite.mp hrunning)
    | _ => cases ha

theorem adapter_ends (types : DatumTypes T) (factory : Factory T) (source : SigSet T) :
    (adapter types factory).Ends (Child.Admits source) (Child.Declares factory source) where
  accepts := by
    intro s hs child hrunning vs sig _ _
    cases child with
    | source =>
      have hpc : s.source = .running := Option.isSome_ite.mp hrunning
      obtain ⟨c, hc⟩ := SourceCompletion.exists_matches types factory sig
      refine ⟨.completeSource c, hc, ?_⟩
      change (s.step (.completeSource c)).isSome = true
      cases c <;> simp only [Op.step, hpc, Option.isSome_some]
    | body =>
      have hpc : s.body = .running := Option.isSome_ite.mp hrunning
      refine ⟨.completeBody ⟨sig, none⟩, Completion.matches_nothrow sig, ?_⟩
      change (s.step (.completeBody ⟨sig, none⟩)).isSome = true
      simp only [Op.step, hpc, Option.isSome_some]
  ends := by
    intro s hs hstuck hrunning
    have h := Runs.known hs
    have hstart : s.step .start = none := hstuck .start rfl rfl
    have hsource : s.source ≠ .running := fun h => by
      cases (if_pos h).symm.trans (hrunning .source)
    have hbody : s.body ≠ .running := fun h => by
      cases (if_pos h).symm.trans (hrunning .body)
    have hcalled : s.start ≠ .notCalled := by
      intro hpc
      simp [Op.step, hpc, h.alive] at hstart
    have hone := h.inv.orderly.deliveredAtEnd
      ⟨hcalled, hstuck .source rfl rfl, hstuck .body rfl rfl, hsource, hbody⟩
    exact mt List.map_eq_nil_iff.mp (List.ne_nil_of_length_eq_add_one hone)

theorem adapter_structured (types : DatumTypes T) (factory : Factory T) (source : SigSet T) :
    (adapter types factory).Structured (Child.Admits source) (Child.Declares factory source) where
  keeps := fun _ _ _ ht hne => ((Op.delivered_grows ht).map _).ne_nil hne
  runs_on := by
    intro s a t child _ ht hother hrunning
    cases child with
    | source =>
      apply Option.isSome_ite.mpr
      apply Op.source_runs_on ht (Option.isSome_ite.mp hrunning)
      rintro c rfl
      rcases hother with hown | ⟨j, sig, hj, hcompletes⟩
      · cases hown
      · cases j with
        | source => exact hj rfl
        | body => cases hcompletes
    | body =>
      apply Option.isSome_ite.mpr
      apply Op.body_runs_on ht (Option.isSome_ite.mp hrunning)
      rintro c rfl
      rcases hother with hown | ⟨j, sig, hj, hcompletes⟩
      · cases hown
      · cases j with
        | source => cases hcompletes
        | body => exact hj rfl
  ended := by
    intro s hs hne child
    have hundelivered := (Runs.known hs).inv.undelivered_of_running
    have hrunning : ¬ (s.source = .running ∨ s.body = .running) := by
      intro h
      apply hne
      change s.delivered.map _ = []
      rw [hundelivered h, List.map_nil]
    cases child with
    | source => exact if_neg fun h => hrunning (.inl h)
    | body => exact if_neg fun h => hrunning (.inr h)

theorem Runs.lateOnly {s : Op (List T) (Signature T) Unit} (hs : Runs types factory source s) :
    s.LateOnly := by
  have hboth := hs.invariant
    (P := fun s : Op (List T) (Signature T) Unit => Runs types factory source s ∧ s.LateOnly)
    ⟨.init, fun h => (by cases h)⟩
    fun s a t ⟨hreach, h⟩ hok ht => ⟨hreach.step hok ht, h.step (Runs.known hreach).inv ht⟩
  exact hboth.2

/-- A request to stop reaches the source or the body, whichever runs. -/
theorem adapter_cancels (types : DatumTypes T) (factory : Factory T) (source : SigSet T) :
    (adapter types factory).Cancels (Child.Admits source) (Child.Declares factory source) where
  asks := by
    intro s child hs _ _ _ hcalled
    have hstop : s.stop = .notCalled := not_not.mp (of_decide_eq_false hcalled)
    refine ⟨.requestStop, rfl, rfl, ?_⟩
    change s.step .requestStop ≠ none
    simp only [Op.step]
    rw [if_pos ⟨hstop, (Runs.known hs).alive⟩]
    exact Option.some_ne_none _
  cancels := by
    intro s child hs hidle hrunning hcause
    have hi := (Runs.known hs).inv
    have hlate := Runs.lateOnly hs
    have hjoint := hi.joint
    have hstuck : s.stopStep false = none := hidle (.stop false) rfl rfl
    rcases hcause with hcalled | hdecided
    · have hcalled : s.stop ≠ .notCalled := of_decide_eq_true hcalled
      have hsourceStops := hi.sourceStops
      have hbodyStops := hi.bodyStops
      cases child with
      | source =>
        have hpc : s.source = .running := Option.isSome_ite.mp hrunning
        rw [hpc] at hjoint
        obtain ⟨hbody, hdeferred, htoBody, -⟩ := hjoint
        change decide (s.sourceStops ≠ 0) = true
        rw [hsourceStops]
        cases hstop : s.stop with
        | notCalled => exact absurd hstop hcalled
        | returnedSource => rfl
        | deferred => exact absurd hstop hdeferred
        | returnedBody =>
          rw [hstop] at htoBody
          cases htoBody
        | tooLate => exact absurd hbody (hlate hstop).1
        | casDeferred old | casSource old =>
          simp only [stopStep, hstop] at hstuck
          split_ifs at hstuck
        | requestBody =>
          simp only [stopStep, hstop] at hstuck
          split at hstuck <;> cases hstuck
        | _ => simp [stopStep, hstop] at hstuck
      | body =>
        have hpc : s.body = .running := Option.isSome_ite.mp hrunning
        have hsource : s.sourceStep = none := hidle .source rfl rfl
        have hfinished : s.source = .returned := by
          cases hsrc : s.source <;> rw [hsrc, hpc] at hjoint
          case inStart | addStarted | requestBody | inRequestStop | addDone =>
            simp [sourceStep, hsrc] at hsource
          all_goals cases hjoint.1
        rw [hfinished] at hjoint hbodyStops
        obtain ⟨-, -, hearly, hdone⟩ := hjoint
        change decide (s.bodyStops ≠ 0) = true
        rw [hbodyStops]
        apply decide_eq_true
        cases hstop : s.stop with
        | notCalled => exact absurd hstop hcalled
        | returnedSource =>
          rw [hstop] at hearly
          cases hearly
        | deferred =>
          rw [hdone.mpr hstop]
          simp
        | returnedBody => simp [StopPc.bodyStops]
        | tooLate => exact absurd hpc (hlate hstop).2
        | casDeferred old | casSource old =>
          simp only [stopStep, hstop] at hstuck
          split_ifs at hstuck
        | requestBody =>
          simp only [stopStep, hstop] at hstuck
          split at hstuck <;> cases hstuck
        | _ => simp [stopStep, hstop] at hstuck
    · exact hdecided.elim

end Squiz.LetValue
