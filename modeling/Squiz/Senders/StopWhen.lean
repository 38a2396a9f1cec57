import Squiz.Lib.StructuredOperations
import Squiz.Senders.Results
import Squiz.StopWhen.RequestStop

/-! `stop_when_op` as the parent of its source and its trigger. -/
namespace Squiz.StopWhen
open Squiz.Lib Squiz.Detail Squiz.SigSet Op

variable {T : Type} [DecidableEq T]

instance : Finite Child :=
  .of_surjective (fun source : Bool => if source then .source else .trigger) fun
    | .source => ⟨true, rfl⟩
    | .trigger => ⟨false, rfl⟩

def adapter (types : DatumTypes T) : Adapter Child Unit (Signature T) where
  State := Op (Signature T) Unit
  Act := Act (Signature T) Unit
  system := system (Signature T) Unit
  asksToStop _
    | .requestStop => true
    | _ => false
  spurious _ := false
  delivered s := s.delivered.map (Result.signature types)
  own
    | .completeSource _ | .completeTrigger => false
    | _ => true
  completes
    | .source, sig, .completeSource c => c.matches types sig
    | .trigger, _, .completeTrigger => true
    | _, _, _ => false
  running s
    | .source => if s.source = .running then some () else none
    | .trigger => if s.trigger = .running then some () else none
  asked s
    | .source => decide (s.sourceStops ≠ 0)
    | .trigger => decide (s.triggerStops ≠ 0)
  stopCalled s := decide (s.stop ≠ .notCalled)
  decided s := s.completion.isSome = true ∨ s.trigger.completed = true

variable {types : DatumTypes T} {sigs triggerSigs : SigSet T}

/-- What the children have declared, for an environment in which stop is possible. -/
def Child.Declares (sigs triggerSigs : SigSet T) (child : Child) (sig : Signature T) : Prop :=
  match child with
  | .source => sig ∈ sigs
  | .trigger => sig ∈ triggerSigs

theorem Op.step_completion {R X : Type} {s t : Op R X} {a : Act R X} (ht : s.step a = some t) :
    t.completion = s.completion ∨ ∃ c, a = .completeSource c ∧ t.completion = some c := by
  have hdeliver : s.deliverResult.completion = s.completion := by
    unfold deliverResult
    split <;> rfl
  have hrequest : ∀ child, (s.requestStopOn child).completion = s.completion := by
    intro child
    cases child <;> rfl
  cases a with
  | completeSource c =>
    simp only [step] at ht
    split at ht <;> cases ht
    exact .inr ⟨c, rfl, rfl⟩
  | completeTrigger | requestStop =>
    simp only [step] at ht
    split_ifs at ht
    cases ht
    exact .inl rfl
  | start | stop | source | trigger =>
    left
    simp only [step, startStep, stopStep, sourceStep, triggerStep] at ht
    split at ht <;> try split_ifs at ht
    all_goals
      cases ht
      try first
        | rfl
        | exact hdeliver
        | exact hrequest _

namespace Op
variable {R X : Type} {s t : Op R X} {a : Act R X}

theorem deliverResult_delivered (s : Op R X) : s.delivered <+: s.deliverResult.delivered := by
  unfold deliverResult
  split
  · exact List.prefix_append _ _
  · exact List.prefix_rfl

theorem requestStopOn_delivered (s : Op R X) (child : Child) :
    (s.requestStopOn child).delivered = s.delivered := by
  cases child <;> rfl

theorem delivered_grows (ht : s.step a = some t) : s.delivered <+: t.delivered := by
  cases a with
  | completeSource c =>
    simp only [step] at ht
    split at ht <;> cases ht
    exact List.prefix_rfl
  | completeTrigger | requestStop =>
    simp only [step] at ht
    split_ifs at ht
    cases ht
    exact List.prefix_rfl
  | start | stop | source | trigger =>
    simp only [step, startStep, stopStep, sourceStep, triggerStep] at ht
    split at ht <;> try split_ifs at ht
    all_goals
      cases ht
      try first
        | exact List.prefix_rfl
        | exact List.prefix_append _ _
        | exact s.deliverResult_delivered
        | exact (s.requestStopOn_delivered _).symm ▸ List.prefix_rfl

/-- The source runs until it completes. -/
theorem source_runs_on (ht : s.step a = some t) (hrunning : s.source = .running)
    (ha : ∀ c, a ≠ .completeSource c) : t.source = .running := by
  cases a with
  | completeSource c => exact absurd rfl (ha c)
  | completeTrigger | requestStop =>
    simp only [step] at ht
    split_ifs at ht
    cases ht
    exact hrunning
  | source => simp [step, sourceStep, hrunning] at ht
  | start | stop | trigger =>
    simp only [step, startStep, stopStep, triggerStep] at ht
    split at ht <;> try split_ifs at ht
    all_goals
      cases ht
      try first
        | rfl
        | exact hrunning
        | exact (deliverResult_pcs s).2.2.1.trans hrunning
        | exact (requestStopOn_pcs s _).2.2.1.trans hrunning

/-- The trigger runs until it completes. -/
theorem trigger_runs_on (ht : s.step a = some t) (hrunning : s.trigger = .running)
    (ha : a ≠ .completeTrigger) : t.trigger = .running := by
  cases a with
  | completeTrigger => exact absurd rfl ha
  | completeSource c =>
    simp only [step] at ht
    split at ht <;> cases ht
    exact hrunning
  | requestStop =>
    simp only [step] at ht
    split_ifs at ht
    cases ht
    exact hrunning
  | trigger => simp [step, triggerStep, hrunning] at ht
  | start | stop | source =>
    simp only [step, startStep, stopStep, sourceStep] at ht
    split at ht <;> try split_ifs at ht
    all_goals
      cases ht
      try first
        | rfl
        | exact hrunning
        | exact (deliverResult_pcs s).2.2.2.trans hrunning
        | exact (requestStopOn_pcs s _).2.2.2.trans hrunning

/-! Whoever has got to request the children to stop calls those that run. -/

/-- Each requester has called a running child or has still to call it. -/
structure Reaching (s : Op R X) : Prop where
  source : s.source = .running → s.requesters ≤ s.sourceStops + s.start.share.callsSource +
    s.stop.share.callsSource + s.trigger.share.callsSource
  trigger : s.trigger = .running → s.requesters ≤ s.triggerStops + s.start.share.callsTrigger +
    s.stop.share.callsTrigger + s.source.share.callsTrigger

/-- The two bounds, with the sums written out. -/
theorem reaching_iff {s : Op R X} : s.Reaching ↔
    (s.source = .running → s.start.share.requesting + s.source.share.requesting +
      s.trigger.share.requesting + s.stop.share.flag + s.stopRequestDone.toNat ≤
        s.sourceStops + s.start.share.callsSource + s.stop.share.callsSource +
          s.trigger.share.callsSource) ∧
    (s.trigger = .running → s.start.share.requesting + s.source.share.requesting +
      s.trigger.share.requesting + s.stop.share.flag + s.stopRequestDone.toNat ≤
        s.triggerStops + s.start.share.callsTrigger + s.stop.share.callsTrigger +
          s.source.share.callsTrigger) :=
  ⟨fun h => ⟨h.source, h.trigger⟩, fun h => ⟨h.1, h.2⟩⟩

theorem Reaching.startStep (hp : s.Open) (hl : s.start.Launched s.source s.trigger)
    (h : s.Reaching) (ht : s.startStep = some t) : t.Reaching := by
  have hword := hp.word
  have hone := hp.oneRequester
  have hstarted := hp.started
  rw [reaching_iff] at h ⊢
  unfold requesters requesting at hone hstarted
  cases hpc : s.start <;> rw [hpc] at hword hone hstarted hl h <;>
    simp only [Op.startStep, hpc] at ht
  case returned | returnedEarly => cases ht
  case notCalled =>
    cases ht
    obtain ⟨hsource, htrigger⟩ := hl
    rw [hsource, htrigger] at hstarted
    simp only [htrigger, StartPc.share_eq, SourcePc.share_eq, TriggerPc.share_eq] at hstarted ⊢
    exact ⟨fun _ => by omega, fun h => by cases h⟩
  case callTrigger =>
    cases ht
    rw [hl.2] at hstarted
    simp only [StartPc.share_eq, TriggerPc.share_eq] at hstarted ⊢
    exact ⟨fun _ => by omega, fun _ => by omega⟩
  case inSource | inTrigger =>
    cases ht
    simp only [StartPc.share_eq] at hstarted ⊢
    exact ⟨fun _ => by omega, fun _ => by omega⟩
  case loadSource | loadBoth =>
    cases ht
    simp only [StartPc.share_eq] at hstarted
    split_ifs <;> simp only [StartPc.share_eq] <;> exact ⟨fun _ => by omega, fun _ => by omega⟩
  case addStarted =>
    cases ht
    have hrequests := hp.sourceRequests
    unfold requesters requesting at hrequests
    rw [hpc] at hrequests
    simp only [StartPc.share_eq] at hword hstarted hrequests
    constructor
    · intro hrunning
      have hrunning : s.source = .running := hrunning
      rw [hrunning] at hword hstarted ⊢
      simp only [SourcePc.share_eq] at hword hstarted ⊢
      have hboth : s.word ≠ sourceCompletedFlag + triggerCompletedFlag := by
        unfold sourceCompletedFlag triggerCompletedFlag
        omega
      have hsource : s.word ≠ sourceCompletedFlag := by
        unfold sourceCompletedFlag
        omega
      rw [if_neg hboth, if_neg hsource]
      split <;> simp only [StartPc.share_eq] <;> omega
    · intro hrunning
      have hrunning : s.trigger = .running := hrunning
      rw [hrunning] at hword hstarted hrequests ⊢
      simp only [TriggerPc.share_eq] at hword hstarted hrequests ⊢
      have hboth : s.word ≠ sourceCompletedFlag + triggerCompletedFlag := by
        unfold sourceCompletedFlag triggerCompletedFlag
        omega
      have htrigger : s.word ≠ triggerCompletedFlag := by
        unfold triggerCompletedFlag
        omega
      rw [if_neg hboth, if_neg htrigger]
      split <;> simp only [StartPc.share_eq] <;> omega
  case requestStop child =>
    cases ht
    cases child <;> simp only [requestStopOn, StartPc.share_eq] at h ⊢ <;>
      exact ⟨fun hrunning => by have := h.1 hrunning; omega,
        fun hrunning => by have := h.2 hrunning; omega⟩
  case inRequestStop child =>
    cases ht
    simp only [StartPc.share_eq] at h ⊢
    exact h
  case addDone =>
    cases ht
    simp only [addStopRequestDone, Bool.toNat_true, StartPc.share_eq] at h hone ⊢
    split_ifs <;> simp only [StartPc.share_eq] <;>
      exact ⟨fun hrunning => by have := h.1 hrunning; omega,
        fun hrunning => by have := h.2 hrunning; omega⟩
  case deliver | deliverEarly =>
    cases ht
    unfold deliverResult
    split <;> exact h

theorem Reaching.stopStep (h : s.Reaching) (ht : s.stopStep = some t) : t.Reaching := by
  rw [reaching_iff] at h ⊢
  cases hpc : s.stop <;> rw [hpc] at h <;> simp only [Op.stopStep, hpc] at ht
  case notCalled | returned | ignored => cases ht
  case cas =>
    split_ifs at ht <;> cases ht <;> simp only [StopPc.share_eq] at h ⊢ <;>
      exact ⟨fun hrunning => by have := h.1 hrunning; omega,
        fun hrunning => by have := h.2 hrunning; omega⟩
  all_goals
    cases ht
    simp only [requestStopOn, StopPc.share_eq] at h ⊢
    exact ⟨fun hrunning => by have := h.1 hrunning; omega,
      fun hrunning => by have := h.2 hrunning; omega⟩

theorem Reaching.sourceStep (hp : s.Open) (h : s.Reaching) (ht : s.sourceStep = some t) :
    t.Reaching := by
  have hone := hp.oneRequester
  rw [reaching_iff] at h ⊢
  unfold requesters requesting at hone
  cases hpc : s.source <;> rw [hpc] at h hone <;> simp only [Op.sourceStep, hpc] at ht
  case notStarted | running | returned | returnedForwarded => cases ht
  case load c =>
    cases ht
    refine ⟨fun hrunning => ?_, fun hrunning => ?_⟩
    · dsimp only at hrunning
      split_ifs at hrunning
    have := h.2 hrunning
    simp only [SourcePc.share_eq] at this ⊢
    split_ifs <;> simp only [SourcePc.share_eq] <;> omega
  case add =>
    cases ht
    refine ⟨fun hrunning => ?_, fun hrunning => ?_⟩
    · dsimp only at hrunning
      split_ifs at hrunning
    have := h.2 hrunning
    simp only [SourcePc.share_eq] at this ⊢
    split_ifs <;> simp only [SourcePc.share_eq] <;> omega
  case addDone =>
    cases ht
    refine ⟨fun hrunning => ?_, fun hrunning => ?_⟩
    · dsimp only at hrunning
      split_ifs at hrunning
    have := h.2 hrunning
    simp only [addStopRequestDone, Bool.toNat_true, SourcePc.share_eq] at this hone ⊢
    split_ifs <;> simp only [SourcePc.share_eq] <;> omega
  case deliver =>
    cases ht
    refine ⟨fun hrunning => (by cases hrunning), fun hrunning => ?_⟩
    have := h.2 ((deliverResult_pcs s).2.2.2.symm.trans hrunning)
    unfold deliverResult
    split <;> exact this
  all_goals
    cases ht
    refine ⟨fun hrunning => (by cases hrunning), fun hrunning => ?_⟩
    have := h.2 hrunning
    simp only [requestStopOn, SourcePc.share_eq] at this ⊢
    omega

theorem Reaching.triggerStep (hp : s.Open) (h : s.Reaching) (ht : s.triggerStep = some t) :
    t.Reaching := by
  have hone := hp.oneRequester
  rw [reaching_iff] at h ⊢
  unfold requesters requesting at hone
  cases hpc : s.trigger <;> rw [hpc] at h hone <;> simp only [Op.triggerStep, hpc] at ht
  case notStarted | running | returned | returnedInline => cases ht
  case load | add =>
    cases ht
    refine ⟨fun hrunning => ?_, fun hrunning => ?_⟩
    swap
    · dsimp only at hrunning
      split_ifs at hrunning
    have := h.1 hrunning
    simp only [TriggerPc.share_eq] at this ⊢
    split_ifs <;> simp only [TriggerPc.share_eq] <;> omega
  case addDone =>
    cases ht
    refine ⟨fun hrunning => ?_, fun hrunning => ?_⟩
    swap
    · dsimp only at hrunning
      split_ifs at hrunning
    have := h.1 hrunning
    simp only [addStopRequestDone, Bool.toNat_true, TriggerPc.share_eq] at this hone ⊢
    split_ifs <;> simp only [TriggerPc.share_eq] <;> omega
  case deliver | deliverInline =>
    cases ht
    refine ⟨fun hrunning => ?_, fun hrunning => (by cases hrunning)⟩
    have := h.1 ((deliverResult_pcs s).2.2.1.symm.trans hrunning)
    unfold deliverResult
    split <;> exact this
  all_goals
    cases ht
    refine ⟨fun hrunning => ?_, fun hrunning => (by cases hrunning)⟩
    have := h.1 hrunning
    simp only [requestStopOn, TriggerPc.share_eq] at this ⊢
    omega

theorem early_of_step (ht : s.step a = some t) (h : s.start.early = true) :
    t.start.early = true := by
  rcases (step_frame ht).1 with rfl | hstart
  · simp only [step, startStep] at ht
    split at ht <;> cases ht
    all_goals
      next hpc => rw [hpc] at h; first | rfl | cases h
  · rwa [hstart]

theorem Reaching.step (hi : s.Inv) (h : s.Reaching) (ht : s.step a = some t) : t.Reaching := by
  have hnext := hi.step ht
  by_cases hrunning : t.source = .running ∨ t.trigger = .running
  swap
  · exact ⟨fun hsource => absurd (.inl hsource) hrunning,
      fun htrigger => absurd (.inr htrigger) hrunning⟩
  have hlate : s.start.early = false := by
    have hnot : t.start.early = false := by
      refine (hnext.open_of ?_).1
      rcases hrunning with hsource | htrigger
      · exact .inl (by simp [hsource])
      · exact .inr (by simp [htrigger])
    by_contra hearly
    rw [early_of_step ht (Bool.not_eq_false _ ▸ hearly)] at hnot
    cases hnot
  have hp : s.Open := by
    have hphase := hi.phase
    rwa [hlate] at hphase
  cases a with
  | start => exact h.startStep hp hi.launched ht
  | stop => exact h.stopStep ht
  | source => exact h.sourceStep hp ht
  | trigger => exact h.triggerStep hp ht
  | requestStop =>
    simp only [Op.step] at ht
    split_ifs at ht with hcalled
    cases ht
    rw [reaching_iff, hcalled.1] at h
    exact reaching_iff.mpr h
  | completeSource c =>
    simp only [Op.step] at ht
    split at ht
    · next hpc =>
      cases ht
      rw [reaching_iff, hpc] at h
      exact reaching_iff.mpr ⟨fun hsource => (by cases hsource), h.2⟩
    · cases ht
  | completeTrigger =>
    simp only [Op.step] at ht
    split_ifs at ht with hpc
    cases ht
    rw [reaching_iff, hpc] at h
    exact reaching_iff.mpr ⟨h.1, fun htrigger => by cases htrigger⟩

/-- A `request_stop()` that does nothing has found that a child had completed. -/
theorem ignored_word (hi : s.Inv) (h : s.stop = .ignored → s.word ≠ childrenStartedFlag)
    (ht : s.step a = some t) : t.stop = .ignored → t.word ≠ childrenStartedFlag := by
  intro hignored
  by_cases hbefore : s.stop = .ignored
  · have hne : s.word ≠ 1 := h hbefore
    have hadd : ∀ k, 2 ≤ k → k ≤ 16 → s.Open → Word.fetchAdd stateBits s.word k ≠ 1 := by
      intro k hlow hhigh hp
      have hlt := hp.word_lt.1
      rw [fetchAdd_stateBits (by omega)]
      omega
    have hdeliver := (deliverResult_frame s).1
    cases a with
    | start =>
      rcases hi.stopped (by simp [hbefore]) with hpc | hpc <;>
        simp [step, startStep, hpc] at ht
    | stop => simp [step, stopStep, hbefore] at ht
    | requestStop => simp [step, hbefore] at ht
    | completeSource c =>
      simp only [step] at ht
      split at ht <;> cases ht
      exact hne
    | completeTrigger =>
      simp only [step] at ht
      split_ifs at ht
      cases ht
      exact hne
    | source =>
      simp only [step] at ht
      have hp : s.source ≠ .returned → s.Open := fun hpc => (hi.open_of (.inl hpc)).2
      cases hpc : s.source <;> simp only [sourceStep, hpc] at ht
      case notStarted | running | returned | returnedForwarded => cases ht
      case add | addDone =>
        cases ht
        exact hadd _ (by decide) (by decide) (hp (by simp [hpc]))
      case deliver =>
        cases ht
        exact hdeliver.trans_ne hne
      all_goals
        cases ht
        exact hne
    | trigger =>
      simp only [step] at ht
      have hp : s.trigger ≠ .notStarted ∧ s.trigger ≠ .returned → s.Open := fun hpc =>
        (hi.open_of (.inr hpc)).2
      cases hpc : s.trigger <;> simp only [triggerStep, hpc] at ht
      case notStarted | running | returned | returnedInline => cases ht
      case add | addDone =>
        cases ht
        exact hadd _ (by decide) (by decide) (hp (by simp [hpc]))
      case deliver | deliverInline =>
        cases ht
        exact hdeliver.trans_ne hne
      all_goals
        cases ht
        exact hne
  · cases a with
    | stop =>
      simp only [step] at ht
      cases hpc : s.stop <;> simp only [stopStep, hpc] at ht <;> try cases ht <;> cases hignored
      split_ifs at ht with hword <;> cases ht
      · cases hignored
      · exact hword
    | requestStop =>
      simp only [step] at ht
      split_ifs at ht
      cases ht
      cases hignored
    | completeSource c =>
      simp only [step] at ht
      split at ht <;> cases ht
      exact absurd hignored hbefore
    | completeTrigger =>
      simp only [step] at ht
      split_ifs at ht
      cases ht
      exact absurd hignored hbefore
    | start | source | trigger =>
      have hdeliver := (deliverResult_pcs s).2.1
      have hrequest : ∀ child, (s.requestStopOn child).stop = s.stop := fun child =>
        (requestStopOn_pcs s child).2.1
      exfalso
      simp only [step, startStep, sourceStep, triggerStep] at ht
      split at ht <;> cases ht
      all_goals
        apply hbefore
        try first
          | exact hignored
          | exact hdeliver.symm.trans hignored
          | exact (hrequest _).symm.trans hignored

/-- While a child runs, nothing was delivered. -/
theorem Inv.undelivered_of_running (hi : s.Inv)
    (hrunning : s.source = .running ∨ s.trigger = .running) :
    s.delivered = [] := by
  have hphase := hi.phase
  apply List.eq_nil_of_length_eq_zero
  split_ifs at hphase
  · rcases hrunning with hsource | htrigger
    · rw [hphase.source] at hsource
      cases hsource
    · rcases hphase.trigger with ⟨hpc, -⟩ | ⟨hpc, -⟩ <;> rw [hpc] at htrigger <;> cases htrigger
  · have hle : s.delivered.length ≤ s.deliveries := Nat.le_add_left _ _
    rcases hrunning with hsource | htrigger
    · have hafter := hphase.afterSource
      rw [hsource] at hafter
      exact Nat.eq_zero_of_le_zero (hle.trans hafter)
    · have hafter := hphase.afterTrigger
      rw [htrigger] at hafter
      exact Nat.eq_zero_of_le_zero (hle.trans hafter)

end Op

/-- The runs whose children complete as they have declared. -/
abbrev Runs (types : DatumTypes T) (sigs triggerSigs : SigSet T) : Op (Signature T) Unit → Prop :=
  (adapter types).Reaches (fun _ _ => True) fun child _ => child.Declares sigs triggerSigs

theorem Runs.inv {s : Op (Signature T) Unit} (hs : Runs types sigs triggerSigs s) : s.Inv ∧
    ∀ c, s.completion = some c → ∃ sig ∈ sigs, c.matches types sig = true := by
  refine hs.invariant (P := fun s : Op (Signature T) Unit => s.Inv ∧
    ∀ c, s.completion = some c → ∃ sig ∈ sigs, c.matches types sig = true)
    ⟨Inv.init, fun c hc => by cases hc⟩ ?_
  rintro s a t ⟨hi, hc⟩ hok ht
  refine ⟨hi.step ht, fun c htc => ?_⟩
  rcases step_completion ht with hsame | ⟨c', rfl, hc'⟩
  · exact hc c (hsame ▸ htc)
  · rw [hc'] at htc
    cases htc
    rcases hok with hown | ⟨child, _, sig, _, hsig, hmatches⟩
    · cases hown
    · cases child with
      | source => exact ⟨sig, hsig, hmatches⟩
      | trigger => cases hmatches

/-- What the operation delivers is its source's result, or an exception from copying it. -/
theorem adapter_safe (types : DatumTypes T) (sigs triggerSigs : SigSet T) :
    (adapter types).Safe (fun _ _ => True) (fun child _ => child.Declares sigs triggerSigs)
      fun sig => sig ∈ addErrorIfMoveCanThrow types sigs where
  params := fun _ _ _ _ _ => trivial
  once := by
    intro s hs
    change (s.delivered.map _).length ≤ 1
    rw [List.length_map]
    exact (Runs.inv hs).1.orderly.deliveredOnce
  declares := by
    intro s hs sig hsig
    obtain ⟨r, hr, rfl⟩ := List.mem_map.mp hsig
    obtain ⟨hi, hcompletion⟩ := Runs.inv hs
    obtain ⟨c, hc, hgives⟩ := hi.gives r hr
    obtain ⟨sig, hsig, hmatches⟩ := hcompletion c hc
    exact hgives.mem hmatches hsig
  terminates := ⟨rank, .of_lt fun _ _ _ hs ht => rank_step (Runs.inv hs).1 ht⟩

theorem adapter_ends (types : DatumTypes T) (sigs triggerSigs : SigSet T) :
    (adapter types).Ends (fun _ _ => True) fun child _ => child.Declares sigs triggerSigs where
  accepts := by
    intro s _ child hrunning _ sig _ _
    cases child with
    | source =>
      have hpc : s.source = .running := Option.isSome_ite.mp hrunning
      refine ⟨.completeSource ⟨sig, none⟩, Completion.matches_nothrow sig, ?_⟩
      change (s.step (.completeSource ⟨sig, none⟩)).isSome = true
      simp only [Op.step, hpc, Option.isSome_some]
    | trigger =>
      have hpc : s.trigger = .running := Option.isSome_ite.mp hrunning
      refine ⟨.completeTrigger, rfl, ?_⟩
      change (s.step .completeTrigger).isSome = true
      simp only [Op.step, hpc, if_true, Option.isSome_some]
  ends := by
    intro s hs hstuck hrunning
    have hsource : s.source ≠ .running := fun h => by
      cases (if_pos h).symm.trans (hrunning .source)
    have htrigger : s.trigger ≠ .running := fun h => by
      cases (if_pos h).symm.trans (hrunning .trigger)
    have hone := (Runs.inv hs).1.orderly.deliveredAtEnd
      ⟨hstuck .start rfl rfl, hstuck .stop rfl rfl, hstuck .source rfl rfl,
        hstuck .trigger rfl rfl, hsource, htrigger⟩
    exact mt List.map_eq_nil_iff.mp (List.ne_nil_of_length_eq_add_one hone)

theorem adapter_structured (types : DatumTypes T) (sigs triggerSigs : SigSet T) :
    (adapter types).Structured (fun _ _ => True)
      fun child _ => child.Declares sigs triggerSigs where
  keeps := fun _ _ _ ht hne => ((Op.delivered_grows ht).map _).ne_nil hne
  runs_on := by
    intro s a t child _ ht hother hrunning
    cases child with
    | source =>
      apply Option.isSome_ite.mpr
      apply Op.source_runs_on ht (Option.isSome_ite.mp hrunning)
      rintro c rfl
      rcases hother with hown | ⟨j, sig, hj, hcompletes⟩
      · cases hown
      · cases j with
        | source => exact hj rfl
        | trigger => cases hcompletes
    | trigger =>
      apply Option.isSome_ite.mpr
      apply Op.trigger_runs_on ht (Option.isSome_ite.mp hrunning)
      rintro rfl
      rcases hother with hown | ⟨j, sig, hj, hcompletes⟩
      · cases hown
      · cases j with
        | source => cases hcompletes
        | trigger => exact hj rfl
  ended := by
    intro s hs hne child
    have hundelivered := (Runs.inv hs).1.undelivered_of_running
    have hrunning : ¬ (s.source = .running ∨ s.trigger = .running) := by
      intro h
      apply hne
      change s.delivered.map _ = []
      rw [hundelivered h, List.map_nil]
    cases child with
    | source => exact if_neg fun h => hrunning (.inl h)
    | trigger => exact if_neg fun h => hrunning (.inr h)

theorem Runs.reaching {s : Op (Signature T) Unit} (hs : Runs types sigs triggerSigs s) :
    s.Reaching ∧ (s.stop = .ignored → s.word ≠ childrenStartedFlag) := by
  have h := hs.invariant (P := fun s : Op (Signature T) Unit => s.Inv ∧ s.Reaching ∧
    (s.stop = .ignored → s.word ≠ childrenStartedFlag))
    ⟨Inv.init, ⟨fun h => (by cases h), fun h => (by cases h)⟩, fun h => by cases h⟩ ?_
  · exact h.2
  · rintro s a t ⟨hi, hreaching, hignored⟩ - ht
    exact ⟨hi.step ht, hreaching.step hi ht, Op.ignored_word hi hignored ht⟩

/-- With a child running and nothing left to do, the request to stop or the completion of the other
child has made somebody request the children to stop. -/
theorem Op.Open.requested {R X : Type} {s : Op R X} (hp : s.Open)
    (hignored : s.stop = .ignored → s.word ≠ childrenStartedFlag)
    (hstart : s.start = .returned)
    (hsource : s.source = .running ∨ s.source = .returned)
    (htrigger : s.trigger = .running ∨ s.trigger = .returned)
    (hstop : s.stop = .notCalled ∨ s.stop = .returned ∨ s.stop = .ignored)
    (hcause : s.stop ≠ .notCalled ∨ s.source = .returned ∨ s.trigger = .returned) :
    1 ≤ s.requesters := by
  have hword := hp.word
  have hsourceRequests := hp.sourceRequests
  have htriggerRequests := hp.triggerRequests
  have hle : s.stop.share.flag + s.stopRequestDone.toNat ≤ s.requesters := by
    unfold requesters
    omega
  rw [hstart] at hword hsourceRequests htriggerRequests
  rcases hcause with hcalled | hreturned | hreturned
  · rcases hstop with hpc | hpc | hpc
    · exact absurd hpc hcalled
    · rw [hpc] at hle
      simp only [StopPc.share_eq] at hle
      omega
    · have hne : s.word ≠ 1 := hignored hpc
      rw [hpc] at hword hle
      simp only [StartPc.share_eq, StopPc.share_eq] at hword hsourceRequests htriggerRequests hle
      rcases hsource with hs | hs <;> rcases htrigger with ht | ht <;>
        rw [hs, ht] at hword <;> rw [hs] at hsourceRequests <;> rw [ht] at htriggerRequests <;>
        simp only [SourcePc.share_eq, TriggerPc.share_eq] at hword hsourceRequests htriggerRequests
      all_goals omega
  · rw [hreturned] at hsourceRequests
    simp only [StartPc.share_eq, SourcePc.share_eq] at hsourceRequests
    omega
  · rw [hreturned] at htriggerRequests
    simp only [StartPc.share_eq, TriggerPc.share_eq] at htriggerRequests
    omega

theorem adapter_cancels (types : DatumTypes T) (sigs triggerSigs : SigSet T) :
    (adapter types).Cancels (fun _ _ => True) fun child _ => child.Declares sigs triggerSigs where
  asks := by
    intro s child _ hidle _ _ hcalled
    have hstop : s.stop = .notCalled := not_not.mp (of_decide_eq_false hcalled)
    have hstart : s.start = .returned ∨ s.start = .returnedEarly := by
      have hnone : s.startStep = none := hidle .start rfl rfl
      cases hpc : s.start <;> simp [Op.startStep, hpc] at hnone ⊢
    refine ⟨.requestStop, rfl, rfl, ?_⟩
    change s.step .requestStop ≠ none
    simp only [Op.step]
    rw [if_pos ⟨hstop, hstart⟩]
    exact Option.some_ne_none _
  cancels := by
    intro s child hs hidle hrunning hcause
    obtain ⟨hreaching, hignored⟩ := Runs.reaching hs
    have hi := (Runs.inv hs).1
    have hnotDone : s.source = .running ∨ s.trigger = .running := by
      cases child with
      | source => exact .inl (Option.isSome_ite.mp hrunning)
      | trigger => exact .inr (Option.isSome_ite.mp hrunning)
    have hundelivered := hi.undelivered_of_running hnotDone
    obtain ⟨hearly, hp⟩ := hi.open_of (by
      rcases hnotDone with hpc | hpc
      · exact .inl (by simp [hpc])
      · exact .inr (by simp [hpc]))
    have hdelivered : s.delivered.length = 0 := by rw [hundelivered, List.length_nil]
    have hstart : s.start = .returned := by
      have hnone : s.startStep = none := hidle .start rfl rfl
      cases hpc : s.start <;> rw [hpc] at hearly <;> simp [Op.startStep, hpc] at hnone ⊢
      cases hearly
    have hstop : s.stop = .notCalled ∨ s.stop = .returned ∨ s.stop = .ignored := by
      have hnone : s.stopStep = none := hidle .stop rfl rfl
      cases hpc : s.stop <;> simp [Op.stopStep, hpc] at hnone ⊢
      split_ifs at hnone
    have hlaunched := hi.launched
    rw [hstart] at hlaunched
    have hsource : s.source = .running ∨ s.source = .returned := by
      have hnone : s.sourceStep = none := hidle .source rfl rfl
      have hdirect := hp.sourceDirect
      cases hpc : s.source <;> rw [hpc] at hdirect hlaunched <;>
        simp [Op.sourceStep, hpc] at hnone ⊢
      · exact hlaunched.1 rfl
      · simp only [SourcePc.share_eq] at hdirect
        omega
    have htrigger : s.trigger = .running ∨ s.trigger = .returned := by
      have hnone : s.triggerStep = none := hidle .trigger rfl rfl
      have hdirect := hp.triggerDirect
      cases hpc : s.trigger <;> rw [hpc] at hdirect hlaunched <;>
        simp [Op.triggerStep, hpc] at hnone ⊢
      · exact hlaunched.2 rfl
      · simp only [TriggerPc.share_eq] at hdirect
        omega
    have hrequested : 1 ≤ s.requesters := by
      refine hp.requested hignored hstart hsource htrigger hstop ?_
      rcases hcause with hcalled | hcompleted | hcompleted
      · exact .inl (of_decide_eq_true hcalled)
      · rcases hsource with hpc | hpc
        · have hok := hi.ok
          rw [hpc] at hok
          have hok : s.completion = none := hok
          rw [hok] at hcompleted
          cases hcompleted
        · exact .inr (.inl hpc)
      · rcases htrigger with hpc | hpc
        · rw [hpc] at hcompleted
          cases hcompleted
        · exact .inr (.inr hpc)
    have hcalls : s.stop.share.callsSource = 0 ∧ s.stop.share.callsTrigger = 0 := by
      rcases hstop with hpc | hpc | hpc <;> rw [hpc] <;> exact ⟨rfl, rfl⟩
    cases child with
    | source =>
      change decide (s.sourceStops ≠ 0) = true
      apply decide_eq_true
      have hle := hreaching.source (Option.isSome_ite.mp hrunning)
      rw [hstart, hcalls.1] at hle
      rcases htrigger with hpc | hpc <;> rw [hpc] at hle <;>
        simp only [StartPc.share_eq, TriggerPc.share_eq] at hle <;> omega
    | trigger =>
      change decide (s.triggerStops ≠ 0) = true
      apply decide_eq_true
      have hle := hreaching.trigger (Option.isSome_ite.mp hrunning)
      rw [hstart, hcalls.2] at hle
      rcases hsource with hpc | hpc <;> rw [hpc] at hle <;>
        simp only [StartPc.share_eq, SourcePc.share_eq] at hle <;> omega

end Squiz.StopWhen
