import Squiz.StopWhen.Invariant

/-! Every step of `stop_when_op` keeps the invariant. -/
namespace Squiz.StopWhen
open Squiz.Lib Squiz.Lib.Word Squiz.Detail

variable {R X : Type}

theorem StartPc.flag_le (pc : StartPc) : pc.share.flag ≤ 1 := by
  cases pc <;> simp [share]
  case requestStop child => cases child <;> simp

theorem StartPc.Launched.source {start : StartPc} {pc pc' : SourcePc R X} {trigger : TriggerPc}
    (h : start.Launched pc trigger) (hpc : pc ≠ .notStarted) (hpc' : pc' ≠ .notStarted) :
    start.Launched pc' trigger := by
  cases start <;> simp_all [Launched]

theorem StartPc.Launched.trigger {start : StartPc} {source : SourcePc R X} {pc pc' : TriggerPc}
    (h : start.Launched source pc) (hpc : pc ≠ .notStarted) (hpc' : pc' ≠ .notStarted) :
    start.Launched source pc' := by
  cases start <;> simp_all [Launched]

namespace Op

/-- As long as `start()` has not set its flag, a child that has set its own has returned and
nothing was requested or delivered. -/
theorem Open.unstarted {s : Op R X} (h : s.Open) (hflag : s.start.share.flag = 0) :
    (s.stop.share.flag = 0 ∧ s.stopRequestDone = false) ∧
      (s.sourceStops = 0 ∧ s.triggerStops = 0) ∧ s.delivered.length = 0 ∧
      (s.source.share.flag = 1 → s.source = .returned) ∧
      (s.trigger.share.flag = 1 → s.trigger = .returned) := by
  obtain ⟨-, r, q, d, hr, hq, hd, ho, ho', -, hstops⟩ := open_iff.mp h
  have hdone : s.stopRequestDone.toNat = 0 := by omega
  refine ⟨⟨by omega, by simpa using hdone⟩, ⟨by omega, by omega⟩, by omega, fun hf => ?_,
    fun hf => ?_⟩
  · exact SourcePc.eq_returned hf (by omega) (by omega)
  · exact TriggerPc.eq_returned hf (by omega) (by omega)

theorem fetchAdd_stateBits {w k : ℕ} (h : w + k < 256) : fetchAdd stateBits w k = w + k :=
  fetchAdd_of_lt h

theorem Open.word_lt {s : Op R X} (h : s.Open) :
    s.word < 32 ∧ (s.stopRequestDone = false → s.word < 16) := by
  have hsrc := s.source.share_le
  have htrg := s.trigger.share_le
  have hword := h.word
  have hone := h.oneRequester
  have hstart : s.start.share.flag ≤ 1 := s.start.flag_le
  unfold requesters at hone
  refine ⟨by omega, fun hf => ?_⟩
  rw [hf, Bool.toNat_false] at hword
  omega

/-- While a requester has still to set `stop_request_done_flag` nobody else requests or delivers. -/
theorem Open.requesting_one {s : Op R X} (h : s.Open) (hreq : 1 ≤ s.requesting) :
    s.requesting = 1 ∧ s.stopRequestDone = false ∧ s.stop.share.flag = 0 ∧ s.deliveries = 0 ∧
      s.source.share.direct = 0 ∧ s.trigger.share.direct = 0 ∧ s.start.share.flag = 1 ∧
      s.word = 1 + 2 * s.source.share.flag + 4 * s.trigger.share.flag := by
  obtain ⟨hw, r, q, d, hr, hq, hd, ho, ho', hdirect, -⟩ := open_iff.mp h
  have hstart : s.start.share.flag ≤ 1 := s.start.flag_le
  have hr' : s.requesting = r := hr.symm
  have hd' : s.deliveries = d := hd.symm
  have hdone : s.stopRequestDone.toNat = 0 := by omega
  refine ⟨by omega, by simpa using hdone, by omega, by omega, by omega, by omega, by omega,
    by omega⟩

/-- A step that keeps the shares, the word and what was requested and delivered. -/
theorem Open.quiet {s t : Op R X} (h : s.Open)
    (hshares : t.start.share = s.start.share ∧ t.source.share = s.source.share ∧
      t.trigger.share = s.trigger.share ∧ t.stop.share = s.stop.share)
    (hkept : t.word = s.word ∧ t.stopRequestDone = s.stopRequestDone ∧
      t.delivered = s.delivered ∧ t.sourceStops = s.sourceStops ∧
      t.triggerStops = s.triggerStops) : t.Open := by
  obtain ⟨hstart, hsource, htrigger, hstop⟩ := hshares
  obtain ⟨hword, hdone, hdelivered, hsourceStops, htriggerStops⟩ := hkept
  rw [open_iff] at h ⊢
  rw [hstart, hsource, htrigger, hstop, hword, hdone, hdelivered, hsourceStops, htriggerStops]
  exact h

theorem okToComplete_iff {other w : ℕ} :
    okToComplete other w = true ↔ w = 17 + other ∨ w = 9 + other := by
  unfold okToComplete
  rw [Bool.or_eq_true, decide_eq_true_eq, decide_eq_true_eq]
  simp only [childrenStartedFlag, stopRequestDoneFlag, stopRequestedFlag]
  omega

/-- What a child learns from the old state when it sets its flag: `b` is the flag of the other
child, whose weight is `k`, and `c` and `e` are those of the stop requests. If it does not complete
the operation, something is still missing. -/
theorem missing_of_not_complete {w a b c e k : ℕ} (hk : k = 2 ∨ k = 4)
    (hw : w = a + k * b + 8 * c + 16 * e) (ha : a ≤ 1) (hb : b ≤ 1) (hce : c + e ≤ 1)
    (h : ¬ okToComplete k w = true) : a + b + c + e ≤ 2 := by
  rw [okToComplete_iff] at h
  rcases hk with rfl | rfl <;> omega

/-- If it does not request the other child to stop, it is not the first after `start()`. -/
theorem preceded_of_not_first {w a b c e k : ℕ} (hw : w = a + k * b + 8 * c + 16 * e) (ha : a ≤ 1)
    (h : w ≠ childrenStartedFlag) : a ≤ b + c + e := by
  by_contra hlt
  have hzero : b = 0 ∧ c = 0 ∧ e = 0 := by omega
  apply h
  rw [hw, hzero.1, hzero.2.1, hzero.2.2]
  simp only [childrenStartedFlag]
  omega

theorem deliverResult_eq {s : Op R X} {r : Result R X} (hr : s.result = some r) :
    s.deliverResult = { s with delivered := s.delivered ++ [r] } := by
  unfold deliverResult
  rw [hr]

namespace Inv
variable {s t : Op R X}

/-- A completion that has set its flag has stored the result before. -/
theorem stored (h : Inv s) (hflag : s.source.share.flag = 1) :
    ∃ c r, s.completion = some c ∧ s.result = some r ∧ c.Gives r := by
  have hok := h.ok
  cases hpc : s.source <;> rw [hpc] at hok hflag <;> simp [SourcePc.share] at hflag <;> exact hok

theorem gives_append (h : Inv s) {c : Completion R X} {r : Result R X} (hc : s.completion = some c)
    (hgives : c.Gives r) : ∀ r' ∈ s.delivered ++ [r], ∃ c, s.completion = some c ∧ c.Gives r' := by
  intro r' hr'
  rcases List.mem_append.mp hr' with hr' | hr'
  · exact h.gives r' hr'
  · cases List.mem_singleton.mp hr'
    exact ⟨c, hc, hgives⟩

theorem stop_notCalled (h : Inv s) (ht : s.startStep = some t) : s.stop = .notCalled := by
  by_contra hne
  rcases h.stopped hne with hr | hr <;> simp [startStep, hr] at ht

/-- `start()` up to the point where it sets its flag. -/
theorem startChildren (h : Inv s) (ht : s.startStep = some t) (hflag : s.start.share.flag = 0)
    (hadd : s.start ≠ .addStarted) (hearly : s.start.early = false) : Inv t := by
  have hst := h.stop_notCalled ht
  have hl := h.launched
  have hp := h.phase
  have hsrc := s.source.share_le
  have htrg := s.trigger.share_le
  cases hpc : s.start <;> rw [hpc] at hp hl hflag hadd hearly <;>
    simp only [startStep, hpc] at ht
  case addStarted => exact absurd rfl hadd
  case deliverEarly | returnedEarly => cases hearly
  case addDone | deliver | returned | inRequestStop => cases hflag
  case requestStop child => cases child <;> cases hflag
  case notCalled =>
    cases ht
    obtain ⟨hs, htr⟩ := hl
    exact { h with
      phase := Open.quiet hp ⟨by simp only [hpc, StartPc.share_eq],
        by simp only [hs, SourcePc.share_eq], rfl, rfl⟩ ⟨rfl, rfl, rfl, rfl, rfl⟩
      launched := ⟨by simp, htr⟩
      ok := by
        have hok := h.ok
        rw [hs] at hok
        exact hok
      stopped := fun hne => absurd hst hne }
  case inSource | inTrigger =>
    cases ht
    exact { h with
      phase := Open.quiet hp ⟨by simp only [hpc, StartPc.share_eq], rfl, rfl, rfl⟩
        ⟨rfl, rfl, rfl, rfl, rfl⟩
      launched := hl
      stopped := fun hne => absurd hst hne }
  case loadSource =>
    cases ht
    obtain ⟨hw, -⟩ := open_iff.mp hp
    simp only [hpc, StartPc.share_eq] at hw
    obtain ⟨hunrequested, hunstopped, hnone, hreturned, -⟩ :=
      Open.unstarted hp (by simp only [hpc, StartPc.share_eq])
    by_cases hword : s.word = sourceCompletedFlag
    · simp only [if_pos hword]
      exact { h with
        phase :=
          { source := hreturned (by
              rw [hl.2] at hw
              simp only [TriggerPc.share_eq, sourceCompletedFlag] at hw hword
              omega)
            unrequested := hunrequested
            trigger := .inl ⟨hl.2, hword⟩
            unstopped := hunstopped
            delivered := hnone }
        launched := hl.1
        stopped := fun hne => absurd hst hne }
    · simp only [if_neg hword]
      exact { h with
        phase := Open.quiet hp ⟨by simp only [hpc, StartPc.share_eq], rfl, rfl, rfl⟩
          ⟨rfl, rfl, rfl, rfl, rfl⟩
        launched := hl
        stopped := fun hne => absurd hst hne }
  case callTrigger =>
    cases ht
    exact { h with
      phase := Open.quiet hp ⟨by simp only [hpc, StartPc.share_eq], rfl,
        by simp only [hl.2, TriggerPc.share_eq], rfl⟩ ⟨rfl, rfl, rfl, rfl, rfl⟩
      launched := ⟨hl.1, by simp⟩
      stopped := fun hne => absurd hst hne }
  case loadBoth =>
    cases ht
    obtain ⟨hw, -⟩ := open_iff.mp hp
    simp only [hpc, StartPc.share_eq] at hw
    obtain ⟨hunrequested, hunstopped, hnone, hsource, htrigger⟩ :=
      Open.unstarted hp (by simp only [hpc, StartPc.share_eq])
    by_cases hword : s.word = sourceCompletedFlag + triggerCompletedFlag
    · simp only [if_pos hword]
      simp only [sourceCompletedFlag, triggerCompletedFlag] at hword
      exact { h with
        phase :=
          { source := hsource (by omega)
            unrequested := hunrequested
            trigger := .inr ⟨htrigger (by omega), .inl hword⟩
            unstopped := hunstopped
            delivered := hnone }
        launched := hl.1
        stopped := fun hne => absurd hst hne }
    · simp only [if_neg hword]
      exact { h with
        phase := Open.quiet hp ⟨by simp only [hpc, StartPc.share_eq], rfl, rfl, rfl⟩
          ⟨rfl, rfl, rfl, rfl, rfl⟩
        launched := hl
        stopped := fun hne => absurd hst hne }

theorem addStarted (h : Inv s) (hpc : s.start = .addStarted) (ht : s.startStep = some t) :
    Inv t := by
  have hst := h.stop_notCalled ht
  have hl := h.launched
  have hp := h.phase
  have hsrc := s.source.share_le
  have htrg := s.trigger.share_le
  rw [hpc] at hp hl
  simp only [startStep, hpc] at ht
  cases ht
  have hlt := (Open.word_lt hp).1
  obtain ⟨hw, r, q, d, hr, hq, hd, ho⟩ := open_iff.mp hp
  simp only [hpc, StartPc.share_eq] at hw hr hq hd ho
  obtain ⟨hunrequested, hunstopped, hnone, hsource, htrigger⟩ :=
    Open.unstarted hp (by simp only [hpc, StartPc.share_eq])
  simp only [hunrequested] at hw hr hq hd ho
  have hadd : fetchAdd stateBits s.word childrenStartedFlag = s.word + 1 :=
    fetchAdd_stateBits (by simp only [childrenStartedFlag]; omega)
  by_cases hboth : s.word = sourceCompletedFlag + triggerCompletedFlag
  · simp only [if_pos hboth]
    have hsix : s.word = 6 := hboth
    exact { h with
      phase :=
        { source := hsource (by omega)
          unrequested := hunrequested
          trigger := .inr ⟨htrigger (by omega), .inr (by dsimp only; omega)⟩
          unstopped := hunstopped
          delivered := hnone }
      launched := hl.1
      stopped := fun hne => absurd hst hne }
  have hsix : s.word ≠ 6 := hboth
  by_cases hone : s.word = sourceCompletedFlag
  · simp only [if_neg hboth, if_pos hone]
    have htwo : s.word = 2 := hone
    exact { h with
      phase := by
        refine open_iff.mpr ⟨?_, r + 1, q + 1, d, ?_, ?_, ?_, ?_⟩ <;>
          simp only [StartPc.share_eq, hunrequested] <;> omega
      launched := hl
      stopped := fun hne => absurd hst hne }
  have htwo : s.word ≠ 2 := hone
  by_cases hother : s.word = triggerCompletedFlag
  · simp only [if_neg hboth, if_neg hone, if_pos hother]
    have hfour : s.word = 4 := hother
    exact { h with
      phase := by
        refine open_iff.mpr ⟨?_, r + 1, q + 1, d, ?_, ?_, ?_, ?_⟩ <;>
          simp only [StartPc.share_eq, hunrequested] <;> omega
      launched := hl
      stopped := fun hne => absurd hst hne }
  · simp only [if_neg hboth, if_neg hone, if_neg hother]
    have hfour : s.word ≠ 4 := hother
    exact { h with
      phase := by
        refine open_iff.mpr ⟨?_, r, q, d, ?_, ?_, ?_, ?_⟩ <;>
          simp only [StartPc.share_eq, hunrequested] <;> omega
      launched := hl
      stopped := fun hne => absurd hst hne }

theorem start (h : Inv s) (ht : s.startStep = some t) : Inv t := by
  by_cases hadd : s.start = .addStarted
  · exact h.addStarted hadd ht
  by_cases hbefore : s.start.share.flag = 0 ∧ s.start.early = false
  · exact h.startChildren ht hbefore.1 hadd hbefore.2
  have hst := h.stop_notCalled ht
  have hl := h.launched
  have hp := h.phase
  have hsrc := s.source.share_le
  have htrg := s.trigger.share_le
  cases hpc : s.start <;> rw [hpc] at hp hl hbefore <;> simp only [startStep, hpc] at ht
  case returned | returnedEarly => cases ht
  case addStarted => exact absurd hpc hadd
  case notCalled | inSource | loadSource | callTrigger | inTrigger | loadBoth =>
    exact absurd ⟨rfl, rfl⟩ hbefore
  case requestStop child =>
    cases ht
    obtain ⟨hw, r, q, d, hr, hq, hd, ho⟩ := open_iff.mp hp
    cases child <;> simp only [hpc, StartPc.share_eq] at hw hr hq hd ho <;>
      exact { h with
        phase := by
          refine open_iff.mpr ⟨?_, r, q, d, ?_, ?_, ?_, ?_⟩ <;>
            simp only [StartPc.share_eq, requestStopOn] <;> omega
        launched := hl
        stopped := fun hne => absurd hst hne }
  case inRequestStop child =>
    cases ht
    exact { h with
      phase := Open.quiet hp ⟨by simp only [hpc, StartPc.share_eq], rfl, rfl, rfl⟩
        ⟨rfl, rfl, rfl, rfl, rfl⟩
      launched := hl
      stopped := fun hne => absurd hst hne }
  case addDone =>
    cases ht
    obtain ⟨hreq, hdone, hstop, hnone, hsource, htrigger, -, hword⟩ :=
      Open.requesting_one hp (by simp only [requesting, hpc, StartPc.share_eq]; omega)
    obtain ⟨-, r, q, d, hr, hq, hd, ho⟩ := open_iff.mp hp
    simp only [hpc, requesting, deliveries, hdone, StartPc.share_eq] at hr hq hd ho hreq hnone
    have hadd : fetchAdd stateBits s.word stopRequestDoneFlag = s.word + 16 :=
      fetchAdd_stateBits (by simp only [stopRequestDoneFlag]; omega)
    by_cases hboth : s.word = bothCompletedAndStarted
    · simp only [addStopRequestDone, if_pos hboth]
      have hseven : s.word = 7 := hboth
      exact { h with
        phase := by
          refine open_iff.mpr ⟨?_, 0, 1, 1, ?_, ?_, ?_, ?_⟩ <;>
            simp only [StartPc.share_eq, Bool.toNat_true] <;> omega
        launched := hl
        stopped := fun hne => absurd hst hne }
    · simp only [addStopRequestDone, if_neg hboth]
      have hseven : s.word ≠ 7 := hboth
      exact { h with
        phase := by
          refine open_iff.mpr ⟨?_, 0, 1, 0, ?_, ?_, ?_, ?_⟩ <;>
            simp only [StartPc.share_eq, Bool.toNat_true] <;> omega
        launched := hl
        stopped := fun hne => absurd hst hne }
  case deliver =>
    obtain ⟨hw, r, q, d, hr, hq, hd, ho⟩ := open_iff.mp hp
    simp only [hpc, StartPc.share_eq] at hw hr hq hd ho
    obtain ⟨c, x, hc, hres, hgives⟩ := h.stored (by omega)
    rw [deliverResult_eq hres] at ht
    cases ht
    exact { h with
      phase := by
        refine open_iff.mpr ⟨?_, r, q, d, ?_, ?_, ?_, ?_⟩ <;>
          simp only [StartPc.share_eq, List.length_append, List.length_singleton] <;> omega
      launched := hl
      gives := h.gives_append hc hgives
      stopped := fun hne => absurd hst hne }
  case deliverEarly =>
    have hearly : s.Early := hp
    have hnone := hearly.delivered
    obtain ⟨c, r, hc, hres, hgives⟩ := h.stored (by simp only [hearly.source, SourcePc.share_eq])
    rw [deliverResult_eq hres] at ht
    cases ht
    exact { h with
      phase :=
        { hearly with
          delivered := by
            rw [hpc] at hnone
            simp [List.length_append, hnone] }
      launched := hl
      gives := h.gives_append hc hgives
      stopped := fun hne => absurd hst hne }

theorem stop (h : Inv s) (ht : s.stopStep = some t) : Inv t := by
  have hp := h.phase
  have hl := h.launched
  have hstart : s.start = .returned ∨ s.start = .returnedEarly := by
    refine h.stopped fun hn => ?_
    rw [stopStep, hn] at ht
    cases ht
  have hearly : s.start = .returnedEarly → s.stop = .cas ∧ s.word ≠ childrenStartedFlag := by
    intro he
    rw [he] at hp
    have hp : s.Early := hp
    have hflag := hp.unrequested.1
    refine ⟨?_, ?_⟩
    · cases hpc : s.stop <;> rw [hpc] at hflag <;> simp [StopPc.share] at hflag <;>
        simp [stopStep, hpc] at ht ⊢
    · rcases hp.trigger with ⟨-, hw⟩ | ⟨-, hw | hw⟩ <;> simp [hw, childrenStartedFlag]
  have hopen : s.start ≠ .returnedEarly → s.Open := by
    intro hne
    rw [hstart.resolve_right hne] at hp
    exact hp
  cases hpc : s.stop <;> simp only [stopStep, hpc] at ht
  case notCalled | returned | ignored => cases ht
  case cas =>
    by_cases hword : s.word = childrenStartedFlag
    · rw [if_pos hword] at ht
      cases ht
      have hreturned : s.start = .returned := hstart.resolve_right fun he => (hearly he).2 hword
      have hone : s.word = 1 := hword
      have hp := hopen (by simp [hreturned])
      obtain ⟨hw, r, q, d, hr, hq, hd, ho⟩ := open_iff.mp hp
      simp only [hpc, hreturned, StartPc.share_eq, StopPc.share_eq] at hw hr hq hd ho
      exact { h with
        phase := by
          simp only [hreturned]
          refine open_iff.mpr ⟨?_, r, q + 1, d, ?_, ?_, ?_, ?_⟩ <;>
            simp only [StartPc.share_eq, StopPc.share_eq, childrenStartedFlag,
              stopRequestedFlag] <;>
            omega
        stopped := fun _ => hstart }
    · rw [if_neg hword] at ht
      cases ht
      exact { h with
        phase := by
          by_cases he : s.start = .returnedEarly
          · rw [he] at hp ⊢
            have hp : s.Early := hp
            have hnone := hp.delivered
            rw [he] at hnone
            exact { hp with
              unrequested := ⟨rfl, hp.unrequested.2⟩
              delivered := hnone }
          · have hreturned := hstart.resolve_right he
            simp only [hreturned]
            exact (hopen he).quiet
              ⟨by rw [hreturned], rfl, rfl, by simp only [hpc, StopPc.share_eq]⟩
              ⟨rfl, rfl, rfl, rfl, rfl⟩
        stopped := fun _ => hstart }
  all_goals
    cases ht
    have hreturned : s.start = .returned := hstart.resolve_right fun he => by
      have := (hearly he).1
      simp [hpc] at this
    obtain ⟨hw, r, q, d, hr, hq, hd, ho⟩ := open_iff.mp (hopen (by simp [hreturned]))
    simp only [hpc, hreturned, StopPc.share_eq, StartPc.share_eq] at hw hr hq hd ho
    exact { h with
      phase := by
        simp only [hreturned, requestStopOn]
        refine open_iff.mpr ⟨?_, r, q, d, ?_, ?_, ?_, ?_⟩ <;>
          simp only [StartPc.share_eq, StopPc.share_eq] <;> omega
      stopped := fun _ => hstart }

theorem requestStop (h : Inv s) (ht : s.step .requestStop = some t) : Inv t := by
  have hp := h.phase
  simp only [Op.step] at ht
  split_ifs at ht with hen
  obtain ⟨hstop, hstart⟩ := hen
  cases ht
  exact { h with
    phase := by
      rcases hstart with hs | hs <;> rw [hs] at hp ⊢
      · exact Open.quiet hp ⟨by rw [hs], rfl, rfl, by simp only [hstop, StopPc.share_eq]⟩
          ⟨rfl, rfl, rfl, rfl, rfl⟩
      · have hp : s.Early := hp
        have hdelivered := hp.delivered
        rw [hs] at hdelivered
        exact { hp with
          unrequested := ⟨rfl, hp.unrequested.2⟩
          delivered := hdelivered }
    stopped := fun _ => hstart }

/-- A child that has not returned shows that `start()` did not end early. -/
theorem open_of (h : Inv s) (hrun : s.source ≠ .returned ∨
    s.trigger ≠ .notStarted ∧ s.trigger ≠ .returned) : s.start.early = false ∧ s.Open := by
  have hp := h.phase
  cases he : s.start.early with
  | false => exact ⟨rfl, by rwa [he] at hp⟩
  | true =>
    rw [he] at hp
    have hp : s.Early := hp
    rcases hrun with hrun | ⟨hn, hr⟩
    · exact absurd hp.source hrun
    · rcases hp.trigger with ⟨ht, -⟩ | ⟨ht, -⟩
      · exact absurd ht hn
      · exact absurd ht hr

/-- A step of the source's `set_result` keeps the invariant where it keeps the sums. -/
theorem of_source (h : Inv s) (hpc : s.source ≠ .notStarted) {word : ℕ} {pc : SourcePc R X}
    (hearly : s.start.early = false) (hpc' : pc ≠ .notStarted)
    {result : Option (Result R X)} {delivered : List (Result R X)} {triggerStops : ℕ} {done : Bool}
    (hopen : Open { s with
      word := word, source := pc, result := result, delivered := delivered
      triggerStops := triggerStops, stopRequestDone := done })
    (hok : pc.Ok s.completion result)
    (hgives : ∀ r ∈ delivered, ∃ c, s.completion = some c ∧ c.Gives r) :
    Inv { s with
      word := word, source := pc, result := result, delivered := delivered
      triggerStops := triggerStops, stopRequestDone := done } where
  phase := by
    simp only [hearly]
    exact hopen
  launched := h.launched.source hpc hpc'
  ok := hok
  gives := hgives
  stopped := h.stopped
  noFault := h.noFault

theorem source (h : Inv s) (ht : s.sourceStep = some t) : Inv t := by
  have hok := h.ok
  have hnr : s.source ≠ .returned := by
    intro hr
    rw [sourceStep, hr] at ht
    cases ht
  have hns : s.source ≠ .notStarted := by
    intro hr
    rw [sourceStep, hr] at ht
    cases ht
  obtain ⟨hearly, hp⟩ := h.open_of (.inl hnr)
  obtain ⟨hlt, hlt'⟩ := hp.word_lt
  have hstart := s.start.flag_le
  have htrg := s.trigger.share_le
  obtain ⟨hw, r, q, d, hr, hq, hd, ho⟩ := open_iff.mp hp
  cases hpc : s.source <;> rw [hpc] at hok <;> simp only [sourceStep, hpc] at ht
  case notStarted | running | returned | returnedForwarded => cases ht
  case load c =>
    cases ht
    simp only [hpc, SourcePc.share_eq] at hw hr hq hd ho
    by_cases hpass : okToComplete triggerCompletedFlag s.word = true
    · simp only [if_pos hpass]
      have hvalue := okToComplete_iff.mp hpass
      simp only [triggerCompletedFlag] at hvalue
      refine h.of_source hns hearly (by simp) (open_iff.mpr ⟨?_, r, q, d + 1, ?_, ?_, ?_, ?_⟩) hok
        h.gives <;> simp only [SourcePc.share_eq] <;> omega
    · simp only [if_neg hpass]
      refine h.of_source hns hearly (by simp) ?_ hok h.gives
      exact hp.quiet ⟨rfl, by simp only [hpc, SourcePc.share_eq], rfl, rfl⟩
        ⟨rfl, rfl, rfl, rfl, rfl⟩
  case forward c =>
    cases ht
    simp only [hpc, SourcePc.share_eq] at hw hr hq hd ho
    refine h.of_source hns hearly (by simp) (open_iff.mpr ⟨?_, r, q, d, ?_, ?_, ?_, ?_⟩)
      (by simp [SourcePc.Ok, show s.completion = some c from hok])
      (h.gives_append hok c.gives_result) <;>
      simp only [SourcePc.share_eq, List.length_append, List.length_singleton] <;> omega
  case store c =>
    cases ht
    refine h.of_source hns hearly (by simp) ?_ ⟨c, _, hok, rfl, gives_storeResult c⟩ h.gives
    exact hp.quiet ⟨rfl, by simp only [hpc, SourcePc.share_eq], rfl, rfl⟩
      ⟨rfl, rfl, rfl, rfl, rfl⟩
  case add =>
    cases ht
    simp only [hpc, SourcePc.share_eq] at hw hr hq hd ho
    have hadd : fetchAdd stateBits s.word sourceCompletedFlag = s.word + 2 :=
      fetchAdd_stateBits (by simp only [sourceCompletedFlag]; omega)
    rw [hadd]
    have hword : s.word = s.start.share.flag + triggerCompletedFlag * s.trigger.share.flag +
        8 * s.stop.share.flag + 16 * s.stopRequestDone.toNat := by
      simp only [triggerCompletedFlag]
      omega
    by_cases hpass : okToComplete triggerCompletedFlag s.word = true
    · simp only [if_pos hpass]
      have hvalue := okToComplete_iff.mp hpass
      simp only [triggerCompletedFlag] at hvalue
      refine h.of_source hns hearly (by simp) (open_iff.mpr ⟨?_, r, q, d + 1, ?_, ?_, ?_, ?_⟩) hok
        h.gives <;> simp only [SourcePc.share_eq] <;> omega
    have hmissing := missing_of_not_complete (.inr rfl) hword hstart (by omega) (by omega) hpass
    by_cases hstarted : s.word = childrenStartedFlag
    · simp only [if_neg hpass, if_pos hstarted]
      have hone : s.word = 1 := hstarted
      refine h.of_source hns hearly (by simp)
        (open_iff.mpr ⟨?_, r + 1, q + 1, d, ?_, ?_, ?_, ?_⟩) hok h.gives <;>
        simp only [SourcePc.share_eq] <;> omega
    · simp only [if_neg hpass, if_neg hstarted]
      have hpreceded := preceded_of_not_first hword hstart hstarted
      refine h.of_source hns hearly (by simp) (open_iff.mpr ⟨?_, r, q, d, ?_, ?_, ?_, ?_⟩) hok
        h.gives <;> simp only [SourcePc.share_eq] <;> omega
  case requestTrigger =>
    cases ht
    simp only [hpc, SourcePc.share_eq] at hw hr hq hd ho
    simp only [requestStopOn]
    refine h.of_source hns hearly (by simp) (open_iff.mpr ⟨?_, r, q, d, ?_, ?_, ?_, ?_⟩) hok
      h.gives <;> simp only [SourcePc.share_eq] <;> omega
  case inTrigger =>
    cases ht
    refine h.of_source hns hearly (by simp) ?_ hok h.gives
    exact hp.quiet ⟨rfl, by simp only [hpc, SourcePc.share_eq], rfl, rfl⟩
      ⟨rfl, rfl, rfl, rfl, rfl⟩
  case addDone =>
    cases ht
    obtain ⟨hreq, hdone, hstop, hnone, hsource, htrigger, hone, hword⟩ :=
      hp.requesting_one (by simp only [requesting, hpc, SourcePc.share_eq]; omega)
    simp only [hpc, hdone, SourcePc.share_eq] at hr hq hd ho hword
    simp only [hpc, requesting, deliveries, SourcePc.share_eq] at hreq hnone
    have hadd : fetchAdd stateBits s.word stopRequestDoneFlag = s.word + 16 :=
      fetchAdd_stateBits (by simp only [stopRequestDoneFlag]; omega)
    simp only [addStopRequestDone]
    rw [hadd]
    by_cases hboth : s.word = bothCompletedAndStarted
    · simp only [if_pos hboth]
      have hseven : s.word = 7 := hboth
      refine h.of_source hns hearly (by simp) (open_iff.mpr ⟨?_, 0, 1, 1, ?_, ?_, ?_, ?_⟩) hok
        h.gives <;> simp only [SourcePc.share_eq, Bool.toNat_true] <;> omega
    · simp only [if_neg hboth]
      have hseven : s.word ≠ 7 := hboth
      refine h.of_source hns hearly (by simp) (open_iff.mpr ⟨?_, 0, 1, 0, ?_, ?_, ?_, ?_⟩) hok
        h.gives <;> simp only [SourcePc.share_eq, Bool.toNat_true] <;> omega
  case deliver =>
    obtain ⟨c, x, hc, hres, hgives⟩ := hok
    rw [deliverResult_eq hres] at ht
    cases ht
    simp only [hpc, SourcePc.share_eq] at hw hr hq hd ho
    refine h.of_source hns hearly (by simp) (open_iff.mpr ⟨?_, r, q, d, ?_, ?_, ?_, ?_⟩)
      ⟨c, x, hc, hres, hgives⟩ (h.gives_append hc hgives) <;>
      simp only [SourcePc.share_eq, List.length_append, List.length_singleton] <;> omega

/-- A step of the trigger's `set_result` keeps the invariant where it keeps the sums. -/
theorem of_trigger (h : Inv s) (hpc : s.trigger ≠ .notStarted) {word : ℕ} {pc : TriggerPc}
    (hearly : s.start.early = false) (hpc' : pc ≠ .notStarted)
    {delivered : List (Result R X)} {sourceStops : ℕ} {done : Bool}
    (hopen : Open { s with
      word := word, trigger := pc, delivered := delivered
      sourceStops := sourceStops, stopRequestDone := done })
    (hgives : ∀ r ∈ delivered, ∃ c, s.completion = some c ∧ c.Gives r) :
    Inv { s with
      word := word, trigger := pc, delivered := delivered
      sourceStops := sourceStops, stopRequestDone := done } where
  phase := by
    simp only [hearly]
    exact hopen
  launched := h.launched.trigger hpc hpc'
  ok := h.ok
  gives := hgives
  stopped := h.stopped
  noFault := h.noFault

theorem trigger (h : Inv s) (ht : s.triggerStep = some t) : Inv t := by
  have hns : s.trigger ≠ .notStarted := by
    intro hr
    rw [triggerStep, hr] at ht
    cases ht
  have hnr : s.trigger ≠ .returned := by
    intro hr
    rw [triggerStep, hr] at ht
    cases ht
  obtain ⟨hearly, hp⟩ := h.open_of (.inr ⟨hns, hnr⟩)
  obtain ⟨hlt, hlt'⟩ := hp.word_lt
  have hstart := s.start.flag_le
  have hsrc := s.source.share_le
  obtain ⟨hw, r, q, d, hr, hq, hd, ho⟩ := open_iff.mp hp
  cases hpc : s.trigger <;> simp only [triggerStep, hpc] at ht
  case notStarted | running | returned | returnedInline => cases ht
  case load =>
    cases ht
    simp only [hpc, TriggerPc.share_eq] at hw hr hq hd ho
    by_cases hpass : okToComplete sourceCompletedFlag s.word = true
    · simp only [if_pos hpass]
      have hvalue := okToComplete_iff.mp hpass
      simp only [sourceCompletedFlag] at hvalue
      refine h.of_trigger hns hearly (by simp) (open_iff.mpr ⟨?_, r, q, d + 1, ?_, ?_, ?_, ?_⟩)
        h.gives <;> simp only [TriggerPc.share_eq] <;> omega
    · simp only [if_neg hpass]
      refine h.of_trigger hns hearly (by simp) ?_ h.gives
      exact hp.quiet ⟨rfl, rfl, by simp only [hpc, TriggerPc.share_eq], rfl⟩
        ⟨rfl, rfl, rfl, rfl, rfl⟩
  case deliverInline =>
    simp only [hpc, TriggerPc.share_eq] at hw hr hq hd ho
    -- a source that had forwarded its result would have completed the receiver
    obtain ⟨c, x, hc, hres, hgives⟩ := h.stored (by omega)
    rw [deliverResult_eq hres] at ht
    cases ht
    refine h.of_trigger hns hearly (by simp) (open_iff.mpr ⟨?_, r, q, d, ?_, ?_, ?_, ?_⟩)
      (h.gives_append hc hgives) <;>
      simp only [TriggerPc.share_eq, List.length_append, List.length_singleton] <;> omega
  case add =>
    cases ht
    simp only [hpc, TriggerPc.share_eq] at hw hr hq hd ho
    have hadd : fetchAdd stateBits s.word triggerCompletedFlag = s.word + 4 :=
      fetchAdd_stateBits (by simp only [triggerCompletedFlag]; omega)
    rw [hadd]
    have hword : s.word = s.start.share.flag + sourceCompletedFlag * s.source.share.flag +
        8 * s.stop.share.flag + 16 * s.stopRequestDone.toNat := by
      simp only [sourceCompletedFlag]
      omega
    by_cases hpass : okToComplete sourceCompletedFlag s.word = true
    · simp only [if_pos hpass]
      have hvalue := okToComplete_iff.mp hpass
      simp only [sourceCompletedFlag] at hvalue
      refine h.of_trigger hns hearly (by simp) (open_iff.mpr ⟨?_, r, q, d + 1, ?_, ?_, ?_, ?_⟩)
        h.gives <;> simp only [TriggerPc.share_eq] <;> omega
    have hmissing := missing_of_not_complete (.inl rfl) hword hstart (by omega) (by omega) hpass
    by_cases hstarted : s.word = childrenStartedFlag
    · simp only [if_neg hpass, if_pos hstarted]
      have hone : s.word = 1 := hstarted
      refine h.of_trigger hns hearly (by simp)
        (open_iff.mpr ⟨?_, r + 1, q + 1, d, ?_, ?_, ?_, ?_⟩) h.gives <;>
        simp only [TriggerPc.share_eq] <;> omega
    · simp only [if_neg hpass, if_neg hstarted]
      have hpreceded := preceded_of_not_first hword hstart hstarted
      refine h.of_trigger hns hearly (by simp) (open_iff.mpr ⟨?_, r, q, d, ?_, ?_, ?_, ?_⟩)
        h.gives <;> simp only [TriggerPc.share_eq] <;> omega
  case requestSource =>
    cases ht
    simp only [hpc, TriggerPc.share_eq] at hw hr hq hd ho
    simp only [requestStopOn]
    refine h.of_trigger hns hearly (by simp) (open_iff.mpr ⟨?_, r, q, d, ?_, ?_, ?_, ?_⟩)
      h.gives <;> simp only [TriggerPc.share_eq] <;> omega
  case inSource =>
    cases ht
    refine h.of_trigger hns hearly (by simp) ?_ h.gives
    exact hp.quiet ⟨rfl, rfl, by simp only [hpc, TriggerPc.share_eq], rfl⟩
      ⟨rfl, rfl, rfl, rfl, rfl⟩
  case addDone =>
    cases ht
    obtain ⟨hreq, hdone, hstop, hnone, hsource, htrigger, hone, hword⟩ :=
      hp.requesting_one (by simp only [requesting, hpc, TriggerPc.share_eq]; omega)
    simp only [hpc, hdone, TriggerPc.share_eq] at hr hq hd ho hword
    simp only [hpc, requesting, deliveries, TriggerPc.share_eq] at hreq hnone
    have hadd : fetchAdd stateBits s.word stopRequestDoneFlag = s.word + 16 :=
      fetchAdd_stateBits (by simp only [stopRequestDoneFlag]; omega)
    simp only [addStopRequestDone]
    rw [hadd]
    by_cases hboth : s.word = bothCompletedAndStarted
    · simp only [if_pos hboth]
      have hseven : s.word = 7 := hboth
      refine h.of_trigger hns hearly (by simp) (open_iff.mpr ⟨?_, 0, 1, 1, ?_, ?_, ?_, ?_⟩)
        h.gives <;> simp only [TriggerPc.share_eq, Bool.toNat_true] <;> omega
    · simp only [if_neg hboth]
      have hseven : s.word ≠ 7 := hboth
      refine h.of_trigger hns hearly (by simp) (open_iff.mpr ⟨?_, 0, 1, 0, ?_, ?_, ?_, ?_⟩)
        h.gives <;> simp only [TriggerPc.share_eq, Bool.toNat_true] <;> omega
  case deliver =>
    simp only [hpc, TriggerPc.share_eq] at hw hr hq hd ho
    obtain ⟨c, x, hc, hres, hgives⟩ := h.stored (by omega)
    rw [deliverResult_eq hres] at ht
    cases ht
    refine h.of_trigger hns hearly (by simp) (open_iff.mpr ⟨?_, r, q, d, ?_, ?_, ?_, ?_⟩)
      (h.gives_append hc hgives) <;>
      simp only [TriggerPc.share_eq, List.length_append, List.length_singleton] <;> omega

theorem completeSource (h : Inv s) {c : Completion R X} (ht : s.step (.completeSource c) = some t) :
    Inv t := by
  simp only [Op.step] at ht
  split at ht
  case h_2 => cases ht
  rename_i hpc
  cases ht
  obtain ⟨hearly, hp⟩ := h.open_of (.inl (by simp [hpc]))
  obtain ⟨hw, r, q, d, hr, hq, hd, ho⟩ := open_iff.mp hp
  simp only [hpc, SourcePc.share_eq] at hw hr hq hd ho
  -- nothing can have been delivered before
  have hnone : s.delivered = [] := List.length_eq_zero_iff.mp (by omega)
  exact { h with
    phase := by
      simp only [hearly]
      exact hp.quiet ⟨rfl, by simp only [hpc, SourcePc.share_eq], rfl, rfl⟩
        ⟨rfl, rfl, rfl, rfl, rfl⟩
    launched := h.launched.source (by simp [hpc]) (by simp)
    ok := rfl
    gives := by simp [hnone] }

theorem completeTrigger (h : Inv s) (ht : s.step .completeTrigger = some t) : Inv t := by
  simp only [Op.step] at ht
  split_ifs at ht with hpc
  cases ht
  obtain ⟨hearly, hp⟩ := h.open_of (.inr (by simp [hpc]))
  exact { h with
    phase := by
      simp only [hearly]
      exact hp.quiet ⟨rfl, rfl, by simp only [hpc, TriggerPc.share_eq], rfl⟩
        ⟨rfl, rfl, rfl, rfl, rfl⟩
    launched := h.launched.trigger (by simp [hpc]) (by simp) }

theorem init : Inv (system R X).init where
  phase := by
    refine open_iff.mpr ⟨?_, 0, 0, 0, ?_⟩ <;>
      simp [system, StartPc.share, StopPc.share, SourcePc.share, TriggerPc.share]
  launched := ⟨rfl, rfl⟩
  ok := rfl
  gives _ hr := nomatch hr
  stopped hne := absurd rfl hne
  noFault := rfl

theorem step (h : Inv s) {a : Act R X} (ht : s.step a = some t) : Inv t := by
  cases a with
  | start => exact h.start ht
  | requestStop => exact h.requestStop ht
  | stop => exact h.stop ht
  | completeSource c => exact h.completeSource ht
  | source => exact h.source ht
  | completeTrigger => exact h.completeTrigger ht
  | trigger => exact h.trigger ht

end Inv
end Op
end Squiz.StopWhen
