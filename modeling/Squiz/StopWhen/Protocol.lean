import Squiz.StopWhen.Steps

/-! What `stop_when_op` promises: one completion of the receiver, with the source's result, after
both children have completed and after the last internal call of `request_stop()`. -/
namespace Squiz.StopWhen
open Squiz.Lib Squiz.Lib.Word Squiz.Detail

variable {R X : Type}

@[simp] def StartPc.rank : StartPc → ℕ
  | .notCalled => 11
  | .inSource => 10
  | .loadSource => 9
  | .callTrigger => 8
  | .inTrigger => 7
  | .loadBoth => 6
  | .addStarted => 5
  | .requestStop _ => 4
  | .inRequestStop _ => 3
  | .addDone => 2
  | .deliver | .deliverEarly => 1
  | .returned | .returnedEarly => 0

@[simp] def StopPc.rank : StopPc → ℕ
  | .notCalled => 6
  | .cas => 5
  | .requestSource => 4
  | .inSource => 3
  | .requestTrigger => 2
  | .inTrigger => 1
  | .returned | .ignored => 0

@[simp] def SourcePc.rank : SourcePc R X → ℕ
  | .notStarted => 9
  | .running => 8
  | .load _ => 7
  | .store _ => 6
  | .add => 5
  | .requestTrigger => 4
  | .inTrigger => 3
  | .addDone => 2
  | .deliver | .forward _ => 1
  | .returned | .returnedForwarded => 0

@[simp] def TriggerPc.rank : TriggerPc → ℕ
  | .notStarted => 9
  | .running => 8
  | .load => 7
  | .add => 5
  | .requestSource => 4
  | .inSource => 3
  | .addDone => 2
  | .deliver | .deliverInline => 1
  | .returned | .returnedInline => 0

/-- The trigger has called `set_result`. -/
def TriggerPc.completed : TriggerPc → Bool
  | .notStarted | .running => false
  | _ => true

/-- The `start()` of both children has returned. -/
def StartPc.childrenStarted : StartPc → Bool
  | .notCalled | .inSource | .loadSource | .callTrigger | .inTrigger => false
  | _ => true

theorem StartPc.eq_returned {pc : StartPc} (hflag : pc.share.flag = 1)
    (hrequesting : pc.share.requesting = 0) (hdelivering : pc.share.delivering = 0) :
    pc = .returned := by
  cases pc <;> simp [share] at hflag hrequesting hdelivering ⊢
  case requestStop child => cases child <;> simp at hrequesting

theorem SourcePc.returned_of {pc : SourcePc R X} (hdone : 1 ≤ pc.share.flag + pc.share.direct)
    (hrequesting : pc.share.requesting = 0) (hdelivering : pc.share.delivering = 0) :
    pc = .returned ∨ pc = .returnedForwarded := by
  cases pc <;> simp [share] at hdone hrequesting hdelivering ⊢

theorem TriggerPc.returned_of {pc : TriggerPc} (hdone : 1 ≤ pc.share.flag + pc.share.direct)
    (hrequesting : pc.share.requesting = 0) (hdelivering : pc.share.delivering = 0) :
    pc = .returned ∨ pc = .returnedInline := by
  cases pc <;> simp [share] at hdone hrequesting hdelivering ⊢

namespace Op

/-- The number of steps that are left at most. -/
def rank (s : Op R X) : ℕ := s.start.rank + s.stop.rank + s.source.rank + s.trigger.rank

theorem deliverResult_pcs (s : Op R X) : s.deliverResult.start = s.start ∧
    s.deliverResult.stop = s.stop ∧ s.deliverResult.source = s.source ∧
    s.deliverResult.trigger = s.trigger := by
  unfold deliverResult
  cases s.result <;> simp

theorem requestStopOn_pcs (s : Op R X) (child : Child) : (s.requestStopOn child).start = s.start ∧
    (s.requestStopOn child).stop = s.stop ∧ (s.requestStopOn child).source = s.source ∧
    (s.requestStopOn child).trigger = s.trigger := by
  cases child <;> simp [requestStopOn]

theorem rank_start {s t : Op R X} (hi : s.Inv) (ht : s.startStep = some t) : t.rank < s.rank := by
  obtain ⟨-, h2, h3, h4⟩ := deliverResult_pcs s
  have hl := hi.launched
  cases hpc : s.start <;> rw [hpc] at hl <;> simp only [startStep, hpc] at ht <;> cases ht
  case notCalled => simp [rank, hpc, hl.1]
  case callTrigger => simp [rank, hpc, hl.2]
  case loadSource | loadBoth | addStarted | addDone =>
    simp only [rank, hpc, addStopRequestDone]
    split_ifs <;> simp
  case requestStop child =>
    obtain ⟨-, h2, h3, h4⟩ := requestStopOn_pcs s child
    simp [rank, hpc, h2, h3, h4]
  case deliver | deliverEarly => simp [rank, hpc, h2, h3, h4]
  all_goals simp [rank, hpc]

theorem rank_stop {s t : Op R X} (ht : s.stopStep = some t) : t.rank < s.rank := by
  cases hpc : s.stop <;> simp only [stopStep, hpc] at ht
  case cas => split_ifs at ht <;> cases ht <;> simp [rank, hpc]
  all_goals
    cases ht
    try simp [rank, hpc, requestStopOn]

theorem rank_source {s t : Op R X} (ht : s.sourceStep = some t) : t.rank < s.rank := by
  obtain ⟨h1, h2, -, h4⟩ := deliverResult_pcs s
  cases hpc : s.source <;> simp only [sourceStep, hpc] at ht <;> cases ht
  case load | add | addDone =>
    simp only [rank, hpc, addStopRequestDone]
    split_ifs <;> simp
  case deliver => simp [rank, hpc, h1, h2, h4]
  all_goals simp [rank, hpc, requestStopOn]

theorem rank_trigger {s t : Op R X} (ht : s.triggerStep = some t) : t.rank < s.rank := by
  obtain ⟨h1, h2, h3, -⟩ := deliverResult_pcs s
  cases hpc : s.trigger <;> simp only [triggerStep, hpc] at ht <;> cases ht
  case load | add | addDone =>
    simp only [rank, hpc, addStopRequestDone]
    split_ifs <;> simp
  case deliver | deliverInline => simp [rank, hpc, h1, h2, h3]
  all_goals simp [rank, hpc, requestStopOn]

theorem rank_step {s t : Op R X} {a : Act R X} (hi : s.Inv) (ht : s.step a = some t) :
    t.rank < s.rank := by
  cases a <;> simp only [Op.step] at ht
  case start => exact rank_start hi ht
  case stop => exact rank_stop ht
  case source => exact rank_source ht
  case trigger => exact rank_trigger ht
  case requestStop =>
    split_ifs at ht with hen
    cases ht
    simp [rank, hen.1]
  case completeSource c =>
    split at ht
    case h_2 => cases ht
    rename_i hpc
    cases ht
    simp [rank, hpc]
  case completeTrigger =>
    split_ifs at ht with hpc
    cases ht
    simp [rank, hpc]

/-- No child is running and no call on the operation has a step left. -/
def Quiescent (s : Op R X) : Prop :=
  s.startStep = none ∧ s.stopStep = none ∧ s.sourceStep = none ∧ s.triggerStep = none ∧
    s.source ≠ .running ∧ s.trigger ≠ .running

/-- The whole promise of `stop_when_op` about one reachable state. -/
structure Orderly (s : Op R X) : Prop where
  deliveredOnce : s.delivered.length ≤ 1
  deliveredAtEnd : s.Quiescent → s.delivered.length = 1
  /-- with the source's result -/
  result : ∀ r ∈ s.delivered, ∃ c, s.completion = some c ∧ c.Gives r
  afterTrigger : s.delivered ≠ [] →
    s.trigger.completed = true ∨ s.trigger = .notStarted ∧ s.start = .returnedEarly
  sourceStoppedOnce : s.sourceStops ≤ 1
  triggerStoppedOnce : s.triggerStops ≤ 1
  sourceStarted : s.sourceStops ≠ 0 → s.source ≠ .notStarted ∧ s.start.childrenStarted = true
  triggerStarted : s.triggerStops ≠ 0 → s.trigger ≠ .notStarted ∧ s.start.childrenStarted = true
  /-- only the outer `request_stop()` may still have steps to take -/
  callsEnded : s.delivered ≠ [] →
    s.startStep = none ∧ s.sourceStep = none ∧ s.triggerStep = none
  noFault : s.fault = false

theorem Quiescent.start_returned {s : Op R X} (h : s.Quiescent) :
    s.start = .returned ∨ s.start = .returnedEarly := by
  have hstart := h.1
  cases hpc : s.start <;> simp [startStep, hpc] at hstart ⊢

theorem Quiescent.delivered {s : Op R X} (hi : s.Inv) (h : s.Quiescent) :
    s.delivered.length = 1 := by
  have hp := hi.phase
  have hl := hi.launched
  rcases h.start_returned with hs | hs <;> rw [hs] at hp hl
  · have hp : s.Open := hp
    obtain ⟨-, hstop, hsource, htrigger, hrs, hrt⟩ := h
    obtain ⟨hns, hnt⟩ := hl
    have hs' : s.source = .returned ∨ s.source = .returnedForwarded := by
      cases hpc : s.source <;> simp_all [sourceStep]
    have ht' : s.trigger = .returned ∨ s.trigger = .returnedInline := by
      cases hpc : s.trigger <;> simp_all [triggerStep]
    obtain ⟨-, r, q, d, hr, hq, hd, ho⟩ := open_iff.mp hp
    rcases hs' with hs' | hs' <;> rcases ht' with ht' | ht' <;>
      simp only [hs, hs', ht', StartPc.share_eq, SourcePc.share_eq, TriggerPc.share_eq]
        at hr hq hd ho <;>
      omega
  · have hp : s.Early := hp
    have hd := hp.delivered
    rwa [hs] at hd

theorem Inv.calls_ended {s : Op R X} (hi : s.Inv) (hne : s.delivered ≠ []) :
    (s.start = .returned ∨ s.start = .returnedEarly) ∧
      (s.source = .returned ∨ s.source = .returnedForwarded) ∧
      (s.trigger = .returned ∨ s.trigger = .returnedInline ∨
        s.trigger = .notStarted ∧ s.start = .returnedEarly) := by
  have hpos : 0 < s.delivered.length := List.length_pos_iff.mpr hne
  have hp := hi.phase
  have hsrc := s.source.share_le
  have htrg := s.trigger.share_le
  cases he : s.start.early with
  | true =>
    rw [he] at hp
    have hp : s.Early := hp
    have hstart : s.start = .returnedEarly := by
      have hd := hp.delivered
      by_contra hn
      rw [if_neg hn] at hd
      omega
    refine ⟨.inr hstart, .inl hp.source, ?_⟩
    rcases hp.trigger with ⟨ht, -⟩ | ⟨ht, -⟩
    · exact .inr (.inr ⟨ht, hstart⟩)
    · exact .inl ht
  | false =>
    rw [he] at hp
    have hp : s.Open := hp
    obtain ⟨-, r, q, d, hr, hq, hd, ho⟩ := open_iff.mp hp
    refine ⟨.inl ?_, ?_, ?_⟩
    · refine StartPc.eq_returned (by omega) (by omega) (by omega)
    · exact SourcePc.returned_of (by omega) (by omega) (by omega)
    · rcases @TriggerPc.returned_of s.trigger (by omega) (by omega) (by omega) with ht | ht
      · exact .inl ht
      · exact .inr (.inl ht)

theorem Inv.stops {s : Op R X} (hi : s.Inv) : s.sourceStops ≤ 1 ∧ s.triggerStops ≤ 1 ∧
    (s.sourceStops ≠ 0 ∨ s.triggerStops ≠ 0 → s.start.share.flag = 1) := by
  have hp := hi.phase
  have hflag := s.start.flag_le
  cases he : s.start.early with
  | true =>
    rw [he] at hp
    have hp : s.Early := hp
    obtain ⟨h1, h2⟩ := hp.unstopped
    omega
  | false =>
    rw [he] at hp
    have hp : s.Open := hp
    obtain ⟨-, r, q, d, hr, hq, hd, ho⟩ := open_iff.mp hp
    omega

theorem Inv.orderly {s : Op R X} (hi : s.Inv) : s.Orderly := by
  obtain ⟨hsource, htrigger, hflag⟩ := hi.stops
  have hl := hi.launched
  have hstarted : s.start.share.flag = 1 →
      s.source ≠ .notStarted ∧ s.trigger ≠ .notStarted ∧ s.start.childrenStarted = true := by
    intro hf
    cases hpc : s.start <;> rw [hpc] at hl hf <;>
      simp_all [StartPc.share, StartPc.Launched, StartPc.childrenStarted]
  exact
    { deliveredOnce := by
        have hp := hi.phase
        cases he : s.start.early <;> rw [he] at hp
        · have hp : s.Open := hp
          have hd := hp.oneDelivery
          unfold deliveries at hd
          omega
        · have hp : s.Early := hp
          have hd := hp.delivered
          split_ifs at hd <;> omega
      deliveredAtEnd := fun hq => hq.delivered hi
      result := hi.gives
      afterTrigger := by
        intro hne
        rcases (hi.calls_ended hne).2.2 with ht | ht | ht
        · exact .inl (by simp [ht, TriggerPc.completed])
        · exact .inl (by simp [ht, TriggerPc.completed])
        · exact .inr ht
      sourceStoppedOnce := hsource
      triggerStoppedOnce := htrigger
      sourceStarted := fun hne =>
        ⟨(hstarted (hflag (.inl hne))).1, (hstarted (hflag (.inl hne))).2.2⟩
      triggerStarted := fun hne => (hstarted (hflag (.inr hne))).2
      callsEnded := by
        intro hne
        obtain ⟨hs, hsrc, htrg⟩ := hi.calls_ended hne
        refine ⟨?_, ?_, ?_⟩
        · rcases hs with h | h <;> simp [startStep, h]
        · rcases hsrc with h | h <;> simp [sourceStep, h]
        · rcases htrg with h | h | ⟨h, -⟩ <;> simp [triggerStep, h]
      noFault := hi.noFault }

/-- The receiver is completed once, with the source's result, when both children have completed and
no internal `request_stop()` is left; each child is requested to stop at most once. -/
theorem delivers_after_stops {s : Op R X} (hs : (system R X).Reachable s) :
    s.Orderly ∧ ∀ as t, (system R X).run s as = some t → as.length ≤ s.rank := by
  have hi : s.Inv := hs.invariant Inv.init fun _ _ _ h _ ht => Inv.step h ht
  refine ⟨hi.orderly, fun as t ht => ?_⟩
  have hle := System.exec_length_le (P := Inv) rank
    (fun _ _ _ hv ht => ⟨Inv.step hv ht, rank_step hv ht⟩) hi ht
  omega

/-- The trigger completes after `start()` and requests the source to stop, which then completes
while the request is still running. -/
theorem delivers_after_stops_run : ∃ s : Op ℕ ℕ, s.delivered = [.child 7] ∧
    s.Orderly ∧ ∀ as t, (system ℕ ℕ).run s as = some t → as.length ≤ s.rank := by
  obtain ⟨s, hs, hp⟩ := (system ℕ ℕ).exists_reachable
    [.start, .start, .start, .start, .start, .start, .start, .completeTrigger, .trigger, .trigger,
      .trigger, .completeSource ⟨7, none⟩, .source, .source, .source, .trigger, .trigger, .trigger]
    (fun s => s.delivered = [.child 7]) (by decide +kernel)
  exact ⟨s, by simpa using hp, delivers_after_stops hs⟩

/-- Where copying the source's result does not throw, the receiver is completed with exactly this
result. -/
theorem delivered_eq_of_not_throws {s : Op R X} (hs : (system R X).Reachable s)
    {c : Completion R X} (hc : s.completion = some c) (hthrows : c.throws = none) {r : Result R X}
    (hr : r ∈ s.delivered) : r = .child c.result := by
  have hi : s.Inv := hs.invariant Inv.init fun _ _ _ h _ ht => Inv.step h ht
  obtain ⟨c', hc', hgives⟩ := hi.orderly.result r hr
  rw [hc] at hc'
  cases hc'
  exact hgives.eq_result hthrows

end Op
end Squiz.StopWhen
