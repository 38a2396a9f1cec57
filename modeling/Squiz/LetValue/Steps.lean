import Squiz.LetValue.Invariant

/-! Every step of `let_value_op` keeps the invariant. -/
namespace Squiz.LetValue
open Squiz.Lib Squiz.Lib.Word Squiz.Detail

variable {V R X : Type}

theorem BodyPc.done_le (pc : BodyPc R X) : pc.done ≤ 1 := by
  cases pc <;> simp [done]

theorem BodyPc.eq_deferred (pc : BodyPc R X) (hheld : pc.held = true) (hdone : pc.done = 1) :
    pc = .deferred := by
  cases pc <;> simp [held, done] at hheld hdone ⊢

theorem BodyPc.ne_of_held (pc : BodyPc R X) (hheld : pc.held = true) (hdone : pc.done ≠ 1) :
    pc ≠ .notStarted ∧ pc ≠ .deferred := by
  cases pc <;> simp [held, done] at hheld hdone ⊢

theorem thrownBy_eq {stage : Stage} {throws : Option (Stage × X)} {x : X}
    (hx : thrownBy stage throws = some x) {completion : Option (SourceCompletion V R X)} {v : V}
    (hv : completion = some (.value v throws)) :
    ∃ v stage, completion = some (.value v (some (stage, x))) := by
  cases throws with
  | none => cases hx
  | some p =>
    obtain ⟨st, y⟩ := p
    simp only [thrownBy] at hx
    split_ifs at hx
    cases hx
    exact ⟨v, st, hv⟩

namespace Op

theorem stopNext_cases (old : ℕ) :
    (stopNext old = .tooLate ∧ hasFlag old bodyDoneFlag = true) ∨
    (stopNext old = .requestBody ∧ hasFlag old bodyDoneFlag = false ∧
      hasFlag old bodyStartedFlag = true) ∨
    ((∃ o, stopNext old = .casDeferred o ∨ stopNext old = .casSource o) ∧
      (stopNext old).Expects) := by
  unfold stopNext
  split_ifs with h1 h2 h3
  · exact .inl ⟨rfl, h1⟩
  · exact .inr (.inl ⟨rfl, by simpa using h1, h2⟩)
  · exact .inr (.inr ⟨⟨old, .inl rfl⟩, by simpa using h1, by simpa using h2, h3⟩)
  · exact .inr (.inr ⟨⟨old, .inr rfl⟩, by simpa using h1, by simpa using h2, by simpa using h3⟩)

namespace Inv
variable {s t : Op V R X}

theorem init : Inv (system V R X).init where
  word := rfl
  joint := ⟨rfl, by simp [system], rfl, rfl⟩
  expects := trivial
  holds := rfl
  alive := rfl
  ok := rfl
  bodyOk := rfl
  deliveries := rfl
  gives _ ho := nomatch ho
  uninvoked _ := rfl
  sourceStops := rfl
  bodyStops := rfl
  unstarted := by simp [system]
  destroyed hd := nomatch hd
  noFault := rfl

/-- While `request_stop()` runs, the operation exists. -/
theorem not_destroyed (h : Inv s) (hstop : s.stop.ended = false) : s.destroyed = false := by
  by_contra hd
  have hended := (h.destroyed (by simpa using hd)).1
  rw [hstop] at hended
  cases hended

/-- Before the stop request has taken effect, the word is made of the stages of source and body. -/
theorem word_unasked (h : Inv s) (hearly : s.stop.early = false) (hdeferred : s.stop ≠ .deferred) :
    (s.source.phase = .waiting ∧ s.word = 0) ∨
    (s.source.phase = .building ∧ s.word = 1) ∨
    (s.source.phase = .starting ∧ (s.word = 1 ∨ s.word = 5)) ∨
    (s.source.phase = .dispatching ∧ s.word = 7) ∨
    (s.source.phase = .finished ∧ (s.word = 3 ∨ s.word = 7)) := by
  have hw := h.word
  have hj := h.joint
  have hasked : s.stop.asked = 0 := by simp [StopPc.asked, hearly, hdeferred]
  have hdone := s.body.done_le
  have hnone : s.body = .notStarted → s.body.done = 0 := fun hb => by rw [hb]; rfl
  have hheld : s.body = .deferred → s.body.done = 1 := fun hb => by rw [hb]; rfl
  rw [hasked] at hw
  cases hph : s.source.phase <;> rw [hph] at hw hj <;>
    simp only [Phase.srcDone, Phase.bodyStarted] at hw
  case waiting | building => simp [hnone hj.1, hj.2.2.2] at hw ⊢; exact hw
  case stopped => exact absurd hj.2.1 (by simp [hearly])
  case starting =>
    simp only [hj.2.2.2, Bool.toNat_false] at hw
    simp
    omega
  case requesting => exact absurd hj.2.1 hdeferred
  case dispatching =>
    have hf : s.stopRequestDone = false := by
      by_contra hne
      exact hdeferred (hj.2.2.2 (by simpa using hne))
    simp [hheld hj.1, hf] at hw ⊢
    exact hw
  case finished =>
    have hf : s.stopRequestDone = false := by
      by_contra hne
      exact hdeferred (hj.2.2.2.mp (by simpa using hne))
    simp only [hf, Bool.toNat_false] at hw
    simp
    omega

/-- A stop request that has no effect yet may move on, to the body's only when `set_result` has
published it. -/
theorem of_stop (h : Inv s) (hearly : s.stop.early = false) (hdeferred : s.stop ≠ .deferred)
    (hstops : s.stop.bodyStops = 0) {pc : StopPc} (hlive : s.destroyed = false)
    (hearly' : pc.early = false) (hdeferred' : pc ≠ .deferred)
    (hbody : pc.toBody = true → s.source.phase = .finished) (hexpects : pc.Expects)
    (hstops' : pc.bodyStops = 0) : Inv { s with stop := pc } :=
  { h with
    word := by
      have hw := h.word
      simpa [StopPc.asked, hearly, hdeferred, hearly', hdeferred'] using hw
    joint := by
      have hj := h.joint
      dsimp only
      cases hph : s.source.phase <;> rw [hph] at hj <;> simp_all [Phase.Joint]
    expects := hexpects
    gives := by
      intro o ho
      have hg := h.gives o ho
      cases o with
      | stopped => exact absurd hg.1 (by simp [hearly])
      | of r => simpa [Gives, hearly, hearly'] using hg
    sourceStops := by
      have hs := h.sourceStops
      have hzero : ∀ stop : StopPc, stop.early = false → stop.sourceStops = 0 := by
        intro stop he
        cases stop <;> simp_all [StopPc.early, StopPc.sourceStops]
      rw [hzero _ hearly] at hs
      dsimp only
      rw [hzero _ hearly', hs]
    bodyStops := by
      have hb := h.bodyStops
      dsimp only
      rw [hstops', hb, hstops]
    destroyed := fun hd => absurd hd (by simp [hlive]) }

/-- What `request_stop()` does next for the current state keeps the invariant. -/
theorem stopNext_word (h : Inv s) (hearly : s.stop.early = false) (hdeferred : s.stop ≠ .deferred)
    (hstops : s.stop.bodyStops = 0) (hlive : s.destroyed = false) :
    Inv { s with stop := stopNext s.word } := by
  have hw := h.word_unasked hearly hdeferred
  rcases stopNext_cases s.word with ⟨hn, hflag⟩ | ⟨hn, hflag, hstarted⟩ | ⟨⟨o, hn | hn⟩, hexpects⟩
  · rw [hn]
    exact h.of_stop hearly hdeferred hstops hlive rfl (by simp) (by simp [StopPc.toBody]) trivial
      rfl
  · rw [hn]
    refine h.of_stop hearly hdeferred hstops hlive rfl (by simp) (fun _ => ?_) trivial rfl
    rcases hw with ⟨-, hw⟩ | ⟨-, hw⟩ | ⟨-, hw | hw⟩ | ⟨-, hw⟩ | ⟨hph, hw⟩
    case inr.inr.inr.inr => exact hph
    all_goals simp [hw, hasFlag, bodyStartedFlag, bodyDoneFlag] at hflag hstarted
  all_goals
    rw [hn] at hexpects ⊢
    exact h.of_stop hearly hdeferred hstops hlive rfl (by simp) (by simp [StopPc.toBody])
      hexpects rfl

theorem index_source (h : Inv s) (hphase : s.source.phase = .waiting ∨ s.source.phase = .stopped) :
    s.childIndex = .child .source := by
  have hh := h.holds
  cases hpc : s.source <;> rw [hpc] at hphase hh <;> simp [SourcePc.phase] at hphase <;>
    simpa [SourcePc.Holds, SourcePc.phase] using hh

theorem index_body (h : Inv s) (hphase : s.source.phase ≠ .waiting ∧ s.source.phase ≠ .stopped ∧
    s.source.phase ≠ .building) : s.childIndex = .child .body := by
  have hh := h.holds
  cases hpc : s.source <;> rw [hpc] at hphase hh <;> simp [SourcePc.phase] at hphase <;>
    simpa [SourcePc.Holds, SourcePc.phase] using hh

theorem alive_eq (h : Inv s) (hlive : s.destroyed = false) {c : Child}
    (hc : s.childIndex = .child c) : s.alive = some c := by
  rw [h.alive, hlive, hc]
  rfl

/-- Before a value is accepted only an error or stopped signal of the source is delivered. -/
theorem gives_waiting (h : Inv s) (hphase : s.source.phase = .waiting) (stop : StopPc) :
    ∀ o ∈ s.delivered, Gives s.completion s.bodyCompletion stop o := by
  intro o ho
  have hj := h.joint
  rw [hphase] at hj
  have hlen := h.deliveries
  rw [hj.1] at hlen
  have hpos : 0 < s.delivered.length := List.length_pos_of_mem ho
  have hok := h.ok
  have hg := h.gives o ho
  cases hpc : s.source <;> rw [hpc] at hphase hlen hok <;>
    simp [SourcePc.phase, SourcePc.deliveries, BodyPc.deliveries] at hphase hlen
  case returnedForwarded =>
    obtain ⟨r, hr⟩ := hok
    cases o with
    | stopped => simp [Gives, hr] at hg
    | of x =>
      have hb := h.bodyOk
      rw [hj.1] at hb
      have hb : s.bodyCompletion = none := hb
      simpa [Gives, hr, hb] using hg
  all_goals simp [hlen] at ho

theorem cas_deferred (h : Inv s) {old : ℕ} (hpc : s.stop = .casDeferred old)
    (hword : s.word = old) (hlive : s.destroyed = false) :
    Inv { s with word := srcDoneFlag + stopRequestedFlag, stop := .deferred } := by
  have hexp := h.expects
  rw [hpc] at hexp
  obtain ⟨h1, h2, h3⟩ := hexp
  have hj := h.joint
  have hw := h.word
  have hearly : s.stop.early = false := by rw [hpc]; rfl
  have hphase : s.word = 1 ∧ (s.source.phase = .building ∨ s.source.phase = .starting) := by
    rcases h.word_unasked hearly (by simp [hpc]) with
      ⟨-, hw⟩ | ⟨hp, hw⟩ | ⟨hp, hw | hw⟩ | ⟨-, hw⟩ | ⟨-, hw | hw⟩
    case inr.inl => exact ⟨hw, .inl hp⟩
    case inr.inr.inl.inl => exact ⟨hw, .inr hp⟩
    all_goals
      rw [← hword, hw] at h1 h2 h3
      simp [hasFlag, bodyStartedFlag, bodyDoneFlag, srcDoneFlag] at h1 h2 h3
  obtain ⟨hone, hphase⟩ := hphase
  exact { h with
    word := by
      rw [hone, hpc] at hw
      rcases hphase with hp | hp <;> rw [hp] at hw hj ⊢ <;>
        simp only [Phase.srcDone, Phase.bodyStarted, hj.2.2.2, Bool.toNat_false] at hw ⊢ <;>
        simp [StopPc.asked, StopPc.early, srcDoneFlag, stopRequestedFlag] at hw ⊢ <;> omega
    joint := by
      rcases hphase with hp | hp <;> rw [hp] at hj ⊢ <;> exact ⟨hj.1, rfl, rfl, hj.2.2.2⟩
    expects := trivial
    gives := by
      intro o ho
      have hg := h.gives o ho
      cases o with
      | stopped => exact absurd hg.1 (by simp [hearly])
      | of r =>
        have hdef : StopPc.deferred.early = false := rfl
        simpa [Gives, hearly, hdef] using hg
    sourceStops := by
      have hs := h.sourceStops
      rw [hpc] at hs
      exact hs
    bodyStops := by
      have hb := h.bodyStops
      rw [hpc] at hb
      exact hb
    destroyed := fun hd => absurd hd (by simp [hlive]) }

theorem cas_source (h : Inv s) {old : ℕ} (hpc : s.stop = .casSource old)
    (hword : s.word = old) (hlive : s.destroyed = false) :
    Inv { s with word := stopRequestedFlag, stop := .requestSource } := by
  have hexp := h.expects
  rw [hpc] at hexp
  obtain ⟨h1, h2, h3⟩ := hexp
  have hj := h.joint
  have hearly : s.stop.early = false := by rw [hpc]; rfl
  have hphase : s.source.phase = .waiting := by
    rcases h.word_unasked hearly (by simp [hpc]) with
      ⟨hp, -⟩ | ⟨hp, hw⟩ | ⟨hp, hw | hw⟩ | ⟨-, hw⟩ | ⟨-, hw | hw⟩
    case inl => exact hp
    all_goals
      rw [← hword, hw] at h1 h2 h3
      simp [hasFlag, bodyStartedFlag, bodyDoneFlag, srcDoneFlag] at h1 h2 h3
  rw [hphase] at hj
  exact { h with
    word := by
      rw [hphase, hj.1, hj.2.2.2]
      rfl
    joint := by
      rw [hphase]
      exact ⟨hj.1, by simp, rfl, hj.2.2.2⟩
    expects := trivial
    gives := h.gives_waiting hphase _
    sourceStops := by
      have hs := h.sourceStops
      rw [hpc] at hs
      exact hs
    bodyStops := by
      have hb := h.bodyStops
      rw [hpc] at hb
      exact hb
    destroyed := fun hd => absurd hd (by simp [hlive]) }

/-- A stop request that has taken effect moves on. -/
theorem stop_forward (h : Inv s) {pc : StopPc} {sourceStops bodyStops : ℕ}
    (hlive : s.destroyed = false) (hearly : pc.early = s.stop.early)
    (hbody : pc.toBody = s.stop.toBody) (hdeferred : s.stop ≠ .deferred ∧ pc ≠ .deferred)
    (hexpects : pc.Expects) (hsource : sourceStops = pc.sourceStops)
    (hstops : bodyStops = s.source.bodyStops + pc.bodyStops + s.stopRequestDone.toNat) :
    Inv { s with stop := pc, sourceStops := sourceStops, bodyStops := bodyStops } :=
  { h with
    word := by
      have hw := h.word
      simpa [StopPc.asked, hearly, hdeferred] using hw
    joint := by
      have hj := h.joint
      dsimp only
      cases hph : s.source.phase <;> rw [hph] at hj <;> simp_all [Phase.Joint]
    expects := hexpects
    gives := by
      intro o ho
      have hg := h.gives o ho
      cases o with
      | stopped => simpa [Gives, hearly] using hg
      | of r => simpa [Gives, hearly] using hg
    sourceStops := hsource
    bodyStops := hstops
    destroyed := fun hd => absurd hd (by simp [hlive]) }

theorem stop (h : Inv s) {spurious : Bool} (ht : s.stopStep spurious = some t) : Inv t := by
  have hj := h.joint
  have hs := h.sourceStops
  have hb := h.bodyStops
  have hlive : s.destroyed = false := by
    refine h.not_destroyed ?_
    cases hpc : s.stop <;> simp [stopStep, hpc] at ht <;> rfl
  cases hpc : s.stop <;> rw [hpc] at hj hs hb <;> simp only [stopStep, hpc] at ht
  case notCalled | returnedSource | deferred | returnedBody | tooLate => cases ht
  case load =>
    cases ht
    exact h.stopNext_word (by rw [hpc]; rfl) (by simp [hpc]) (by rw [hpc]; rfl) hlive
  case casDeferred old =>
    split_ifs at ht with hcas <;> cases ht
    · exact h.cas_deferred hpc hcas.1 hlive
    · exact h.stopNext_word (by rw [hpc]; rfl) (by simp [hpc]) (by rw [hpc]; rfl) hlive
  case casSource old =>
    split_ifs at ht with hcas <;> cases ht
    · exact h.cas_source hpc hcas.1 hlive
    · exact h.stopNext_word (by rw [hpc]; rfl) (by simp [hpc]) (by rw [hpc]; rfl) hlive
  case requestSource =>
    cases ht
    have hphase : s.source.phase = .waiting ∨ s.source.phase = .stopped := by
      cases hph : s.source.phase <;> rw [hph] at hj <;> simp_all [Phase.Joint, StopPc.early]
    have halive := h.alive_eq hlive (h.index_source hphase)
    have hfault : (s.fault || decide (s.alive ≠ some .source)) = s.fault := by simp [halive]
    simp only [requestStopOn, hfault]
    refine h.stop_forward hlive (by rw [hpc]; rfl) (by rw [hpc]; rfl) (by simp [hpc]) trivial ?_ ?_
    · rw [hs]
      rfl
    · rw [hb]
      rfl
  case inSource =>
    cases ht
    exact h.stop_forward hlive (by rw [hpc]; rfl) (by rw [hpc]; rfl) (by simp [hpc]) trivial hs hb
  case requestBody =>
    have hphase : s.source.phase = .finished := by
      cases hph : s.source.phase <;> rw [hph] at hj <;>
        simp_all [Phase.Joint, StopPc.early, StopPc.toBody]
    have hindex := h.index_body (by simp [hphase])
    have halive := h.alive_eq hlive hindex
    have hfault : (s.fault || decide (s.alive ≠ some .body)) = s.fault := by simp [halive]
    simp only [hindex, requestStopOn, hfault] at ht
    cases ht
    rw [← hindex]
    refine h.stop_forward hlive (by rw [hpc]; rfl) (by rw [hpc]; rfl) (by simp [hpc]) trivial hs ?_
    simp only [StopPc.bodyStops] at hb ⊢
    omega
  case inBody =>
    cases ht
    exact h.stop_forward hlive (by rw [hpc]; rfl) (by rw [hpc]; rfl) (by simp [hpc]) trivial hs hb

/-- The source's `set_result` has steps left only before the receiver is completed. -/
theorem undelivered (h : Inv s) (ht : s.sourceStep = some t) :
    s.source ≠ .notStarted ∧ s.delivered = [] ∧ s.destroyed = false := by
  have hj := h.joint
  have hlen := h.deliveries
  have hns : s.source ≠ .notStarted := by
    intro hpc
    rw [sourceStep, hpc] at ht
    cases ht
  have hnil : s.delivered = [] := by
    refine List.length_eq_zero_iff.mp ?_
    have hheld : s.body.held = true → s.body.deliveries = 0 := by
      cases s.body <;> simp [BodyPc.held, BodyPc.deliveries]
    have hzero : s.body.deliveries = 0 := by
      cases hpc : s.source <;> rw [hpc] at hj <;> simp only [sourceStep, hpc] at ht <;>
        simp only [SourcePc.phase, Phase.Joint] at hj
      case notStarted | running | returnedStopped | returnedError | returnedForwarded |
        returnedDispatched | returned => cases ht
      case inStart | addStarted | requestBody | inRequestStop | addDone => exact hheld hj.1
      all_goals
        rw [hj.1]
        rfl
    rw [hlen, hzero]
    cases hpc : s.source <;> simp only [sourceStep, hpc] at ht <;>
      first | rfl | cases ht
  refine ⟨hns, hnil, ?_⟩
  by_contra hd
  rcases (h.destroyed (by simpa using hd)).2 with hd | hd
  · exact hns (h.unstarted.mp hd)
  · exact hd hnil

theorem hasFlag_stopRequested {w k : ℕ} (hw : w = 8 * k) (hk : k ≤ 1) :
    hasFlag w stopRequestedFlag = decide (k = 1) := by
  rcases Nat.le_one_iff_eq_zero_or_eq_one.mp hk with rfl | rfl <;> subst hw <;> rfl

theorem add (h : Inv s) {v : V} {throws : Option (Stage × X)} (hpc : s.source = .add v throws)
    (ht : s.sourceStep = some t) : Inv t := by
  obtain ⟨-, hnil, -⟩ := h.undelivered ht
  have hw := h.word
  have hj := h.joint
  have hh := h.holds
  have hok := h.ok
  have hlen := h.deliveries
  have hun := h.uninvoked
  have hb := h.bodyStops
  have hu := h.unstarted
  rw [hpc] at hw hj hh hok hlen hun hb hu
  obtain ⟨hbody, hdeferred, htoBody, hdone⟩ := hj
  simp only [sourceStep, hpc] at ht
  cases ht
  have hasked : s.stop.asked = s.stop.early.toNat := by simp [StopPc.asked, hdeferred]
  have hle : s.stop.early.toNat ≤ 1 := Bool.toNat_le _
  have hword : s.word = 8 * s.stop.early.toNat := by
    rw [hbody, hdone, hasked] at hw
    simpa [SourcePc.phase, Phase.srcDone, Phase.bodyStarted, BodyPc.done] using hw
  have hadd : fetchAdd stateBits s.word srcDoneFlag = s.word + 1 := by
    refine fetchAdd_of_lt ?_
    simp only [srcDoneFlag, stateBits]
    omega
  rw [hadd, hasFlag_stopRequested hword hle]
  cases hearly : s.stop.early <;> rw [hearly] at hasked hword
  · exact { h with
      word := by
        dsimp only
        rw [hbody, hdone, hasked, hword]
        rfl
      joint := ⟨hbody, hearly, htoBody, hdone⟩
      holds := hh
      ok := hok
      deliveries := hlen
      uninvoked := fun _ => hun rfl
      bodyStops := hb
      unstarted := by simpa using hu }
  · exact { h with
      word := by
        dsimp only
        rw [hbody, hdone, hasked, hword]
        rfl
      joint := ⟨hbody, hearly, hdone⟩
      holds := hh
      ok := ⟨v, throws, hok⟩
      deliveries := hlen
      uninvoked := fun _ => hun rfl
      bodyStops := hb
      unstarted := by simpa using hu }

/-- Completing the receiver from the source's `set_result`. -/
theorem of_deliver (h : Inv s) (ht : s.sourceStep.isSome) {pc : SourcePc V R X} {o : Outcome R X}
    (hphase : pc.phase = s.source.phase)
    (hholds : s.source.Holds s.childIndex → pc.Holds s.childIndex)
    (hok : s.source.Ok s.completion s.values → pc.Ok s.completion s.values)
    (hone : pc.deliveries = 1 ∧ s.source.deliveries = 0 ∧ s.body.deliveries = 0)
    (hun : pc.uninvoked = true → s.source.uninvoked = true)
    (hstops : pc.bodyStops = s.source.bodyStops) (hstarted : pc ≠ .notStarted)
    (hgives : Gives s.completion s.bodyCompletion s.stop o) :
    Inv { s.deliver o with source := pc } := by
  obtain ⟨t, ht⟩ := Option.isSome_iff_exists.mp ht
  obtain ⟨hns, hnil, hlive⟩ := h.undelivered ht
  exact { h with
    word := by
      have hw := h.word
      simpa only [hphase, deliver] using hw
    joint := by
      have hj := h.joint
      simpa only [hphase, deliver] using hj
    holds := hholds h.holds
    ok := hok h.ok
    deliveries := by simp [deliver, hnil, hone]
    gives := by
      intro o' ho'
      simp only [deliver, hnil, List.nil_append, List.mem_singleton] at ho'
      rw [ho']
      exact hgives
    uninvoked := fun hp => h.uninvoked (hun hp)
    bodyStops := by
      have hb := h.bodyStops
      simpa only [hstops, deliver] using hb
    unstarted := by
      have hu := h.unstarted
      simpa [hstarted, hns, deliver] using hu
    destroyed := fun hd => absurd hd (by simp [deliver, hlive]) }

/-- A step of the source's `set_result` that leaves the flags, the child and the receiver alone. -/
theorem of_source (h : Inv s) {old pc : SourcePc V R X} (hpc : s.source = old) {values : Option V}
    {factoryCalls : List V} (hphase : pc.phase = old.phase)
    (hholds : old.Holds s.childIndex → pc.Holds s.childIndex) (hok : pc.Ok s.completion values)
    (hdeliveries : pc.deliveries = old.deliveries)
    (huninvoked : pc.uninvoked = true → factoryCalls = [])
    (hstops : pc.bodyStops = old.bodyStops) (hold : old ≠ .notStarted)
    (hstarted : pc ≠ .notStarted) : Inv { s with values, factoryCalls, source := pc } := by
  subst hpc
  exact { h with
    word := by
      rw [hphase]
      exact h.word
    joint := by
      rw [hphase]
      exact h.joint
    holds := hholds h.holds
    ok := hok
    deliveries := by
      rw [hdeliveries]
      exact h.deliveries
    uninvoked := huninvoked
    bodyStops := by
      rw [hstops]
      exact h.bodyStops
    unstarted := by
      have hu := h.unstarted
      simpa [hold, hstarted] using hu }

/-- Building the body. -/
theorem building (h : Inv s) (hphase : s.source.phase = .building) (ht : s.sourceStep = some t) :
    Inv t := by
  obtain ⟨-, hnil, hlive⟩ := h.undelivered ht
  have hsome : s.sourceStep.isSome = true := by simp [ht]
  have hw := h.word
  have hj := h.joint
  have hh := h.holds
  have hok := h.ok
  have hlen := h.deliveries
  have hun := h.uninvoked
  have hb := h.bodyStops
  have hu := h.unstarted
  have halive := h.alive
  rw [hlive] at halive
  cases hpc : s.source <;> rw [hpc] at hw hj hh hok hlen hun hb hu hphase <;>
    simp [SourcePc.phase] at hphase <;> simp only [sourceStep, hpc] at ht
  case returnedError => cases ht
  case emplace v throws =>
    have hun : s.factoryCalls = [] := hun rfl
    cases hx : thrownBy .values throws <;> simp only [hx] at ht <;> cases ht
    · exact h.of_source hpc rfl id ⟨v, hok, rfl⟩ rfl (fun _ => hun) rfl (by simp) (by simp)
    case some x =>
      refine h.of_source hpc rfl ?_ (thrownBy_eq hx hok) rfl (fun _ => hun) rfl (by simp) (by simp)
      simp +contextual [SourcePc.Holds]
  case destruct throws =>
    cases ht
    rw [show s.childIndex = .child .source from hh] at halive
    exact { h with
      word := hw
      joint := hj
      holds := rfl
      alive := by simp [destructChild]
      ok := hok
      deliveries := hlen
      uninvoked := fun _ => hun rfl
      bodyStops := hb
      unstarted := by simpa [destructChild] using hu
      noFault := by simpa [destructChild, halive] using h.noFault }
  case invokeFactory throws =>
    obtain ⟨v, hv, hvalues⟩ := hok
    simp only [hvalues] at ht
    cases hx : thrownBy .factory throws <;> simp only [hx] at ht <;> cases ht
    · exact h.of_source hpc rfl id ⟨v, hv⟩ rfl nofun rfl (by simp) (by simp)
    case some x =>
      refine h.of_source hpc rfl ?_ (thrownBy_eq hx hv) rfl nofun rfl (by simp) (by simp)
      simp +contextual [SourcePc.Holds]
  case construct throws =>
    obtain ⟨v, hv⟩ := hok
    rw [show s.childIndex = .empty from hh] at halive
    cases hx : thrownBy .connect throws <;> simp only [hx] at ht <;> cases ht
    · exact { h with
        word := hw
        joint := hj
        holds := rfl
        alive := by simp [constructChild, hlive]
        ok := ⟨v, throws, hv⟩
        deliveries := hlen
        uninvoked := nofun
        bodyStops := hb
        unstarted := by simpa [constructChild] using hu
        noFault := by simpa [constructChild, halive] using h.noFault }
    case some x =>
      refine h.of_source hpc rfl ?_ (thrownBy_eq hx hv) rfl nofun rfl (by simp) (by simp)
      simp +contextual [SourcePc.Holds]
  case startBody =>
    cases ht
    obtain ⟨hbody, hearly, htoBody, hdone⟩ := hj
    have hbok := h.bodyOk
    rw [hbody] at hw hlen hbok
    exact { h with
      word := hw
      joint := ⟨rfl, hearly, htoBody, hdone⟩
      holds := hh
      ok := hok
      bodyOk := hbok
      deliveries := hlen
      uninvoked := nofun
      bodyStops := hb
      unstarted := by simpa using hu }
  case handler x =>
    cases ht
    exact h.of_source hpc rfl id hok rfl nofun rfl (by simp) (by simp)
  case setError x =>
    cases ht
    obtain ⟨v, stage, hv⟩ := hok
    refine h.of_deliver hsome (by rw [hpc]; rfl) (by rw [hpc]; exact id)
      (fun _ => ⟨v, _, hv⟩) ⟨rfl, by rw [hpc]; rfl, by rw [hj.1]; rfl⟩ nofun (by rw [hpc]; rfl)
      nofun ?_
    exact .inr ⟨hj.2.1, .inl ⟨v, stage, x, hv, rfl⟩⟩

/-- Publishing the body's start. -/
theorem addStarted (h : Inv s) (hpc : s.source = .addStarted) (ht : s.sourceStep = some t) :
    Inv t := by
  have hw := h.word
  have hj := h.joint
  have hh := h.holds
  have hok := h.ok
  have hlen := h.deliveries
  have hb := h.bodyStops
  have hu := h.unstarted
  rw [hpc] at hw hj hh hok hlen hb hu
  obtain ⟨hheld, hearly, htoBody, hdone⟩ := hj
  simp only [sourceStep, hpc] at ht
  cases ht
  have hdonele := s.body.done_le
  have hasked : s.stop.asked = (decide (s.stop = .deferred)).toNat := by
    simp [StopPc.asked, hearly]
  have hword : s.word = 1 + 4 * s.body.done + 8 * s.stop.asked := by
    rw [hdone] at hw
    simpa [SourcePc.phase, Phase.srcDone, Phase.bodyStarted] using hw
  have haskedle : s.stop.asked ≤ 1 := by
    rw [hasked]
    exact Bool.toNat_le _
  have hadd : fetchAdd stateBits s.word bodyStartedFlag = s.word + 2 := by
    refine fetchAdd_of_lt ?_
    simp only [bodyStartedFlag, stateBits]
    omega
  rw [hadd]
  have hflag : hasFlag s.word bodyDoneFlag = decide (s.body.done = 1) := by
    rw [hword]
    rcases Nat.le_one_iff_eq_zero_or_eq_one.mp hdonele with h0 | h0 <;>
      rcases Nat.le_one_iff_eq_zero_or_eq_one.mp haskedle with h1 | h1 <;> rw [h0, h1] <;> rfl
  by_cases hnine : s.word = srcDoneFlag + stopRequestedFlag
  · rw [if_pos hnine]
    have hw9 : s.word = 9 := hnine
    have hdeferred : s.stop = .deferred := by
      by_contra hne
      rw [hasked] at hword
      simp [hne] at hword
      omega
    exact { h with
      word := by
        dsimp only
        rw [hdone]
        simp [SourcePc.phase, Phase.srcDone, Phase.bodyStarted]
        omega
      joint := ⟨hheld, hdeferred, hdone⟩
      holds := hh
      ok := hok
      deliveries := hlen
      uninvoked := nofun
      bodyStops := hb
      unstarted := by simpa using hu }
  rw [if_neg hnine, hflag]
  have hw9 : s.word ≠ 9 := hnine
  have hword' : s.word + 2 = 3 + 4 * s.body.done + 8 * s.stop.asked := by omega
  by_cases hbd : s.body.done = 1
  · rw [if_pos (by simpa using hbd)]
    exact { h with
      word := by
        dsimp only
        rw [hdone, hword']
        rfl
      joint := ⟨s.body.eq_deferred hheld hbd, hearly, htoBody, by simp [hdone]⟩
      holds := hh
      ok := hok
      deliveries := hlen
      uninvoked := nofun
      bodyStops := hb
      unstarted := by simpa using hu }
  · rw [if_neg (by simpa using hbd)]
    have hdeferred : s.stop ≠ .deferred := by
      intro hd
      rw [hasked] at hword
      simp [hd] at hword
      omega
    have hlive := s.body.ne_of_held hheld hbd
    exact { h with
      word := by
        dsimp only
        rw [hdone, hword']
        rfl
      joint := ⟨hlive.1, hlive.2, hearly, by simp [hdone, hdeferred]⟩
      holds := hh
      ok := hok
      deliveries := hlen
      uninvoked := nofun
      bodyStops := hb
      unstarted := by simpa using hu }

/-- Passing the deferred stop request on to the body. -/
theorem requesting (h : Inv s) (hphase : s.source.phase = .requesting)
    (ht : s.sourceStep = some t) : Inv t := by
  obtain ⟨-, hnil, hlive⟩ := h.undelivered ht
  have hw := h.word
  have hj := h.joint
  have hh := h.holds
  have hok := h.ok
  have hlen := h.deliveries
  have hb := h.bodyStops
  have hu := h.unstarted
  have halive := h.alive_eq hlive (h.index_body (by simp [hphase]))
  cases hpc : s.source <;> rw [hpc] at hw hj hh hok hlen hb hu hphase <;>
    simp [SourcePc.phase] at hphase <;> simp only [sourceStep, hpc] at ht
  case requestBody =>
    cases ht
    exact { h with
      word := hw
      joint := hj
      holds := hh
      ok := hok
      deliveries := hlen
      uninvoked := nofun
      bodyStops := by
        simp only [requestStopOn, SourcePc.bodyStops] at hb ⊢
        omega
      unstarted := by simpa [requestStopOn] using hu
      noFault := by simpa [requestStopOn, halive] using h.noFault }
  case inRequestStop =>
    cases ht
    exact { h with
      word := hw
      joint := hj
      holds := hh
      ok := hok
      deliveries := hlen
      uninvoked := nofun
      bodyStops := hb
      unstarted := by simpa using hu }
  case addDone =>
    cases ht
    obtain ⟨hheld, hdeferred, hdone⟩ := hj
    have hdonele := s.body.done_le
    have hword : s.word = 11 + 4 * s.body.done := by
      rw [hdone, hdeferred] at hw
      simp [SourcePc.phase, Phase.srcDone, Phase.bodyStarted, StopPc.asked] at hw
      omega
    have hadd : fetchAdd stateBits s.word stopRequestDoneFlag = s.word + 16 := by
      refine fetchAdd_of_lt ?_
      simp only [stopRequestDoneFlag, stateBits]
      omega
    have hflag : hasFlag s.word bodyDoneFlag = decide (s.body.done = 1) := by
      rw [hword]
      rcases Nat.le_one_iff_eq_zero_or_eq_one.mp hdonele with h0 | h0 <;> rw [h0] <;> rfl
    have hword' : s.word + 16 = 3 + 4 * s.body.done + 8 * s.stop.asked + 16 := by
      rw [hdeferred]
      simp [StopPc.asked, StopPc.early]
      omega
    have hbodyStops : s.bodyStops = 0 + s.stop.bodyStops + 1 := by
      rw [hb, hdone]
      simp [SourcePc.bodyStops]
      omega
    rw [hadd, hflag]
    by_cases hbd : s.body.done = 1
    · rw [if_pos (by simpa using hbd)]
      exact { h with
        word := hword'
        joint := ⟨s.body.eq_deferred hheld hbd, by rw [hdeferred]; rfl, by rw [hdeferred]; rfl,
          fun _ => hdeferred⟩
        holds := hh
        ok := hok
        deliveries := hlen
        uninvoked := nofun
        bodyStops := hbodyStops
        unstarted := by simpa using hu }
    · rw [if_neg (by simpa using hbd)]
      have hne := s.body.ne_of_held hheld hbd
      exact { h with
        word := hword'
        joint := ⟨hne.1, hne.2, by rw [hdeferred]; rfl, by simp [hdeferred]⟩
        holds := hh
        ok := hok
        deliveries := hlen
        uninvoked := nofun
        bodyStops := hbodyStops
        unstarted := by simpa using hu }

theorem dispatchResult_eq {r : Result R X} (hr : s.result = some r) :
    s.dispatchResult = s.deliver (.of r) := by
  unfold dispatchResult
  rw [hr]

theorem source (h : Inv s) (ht : s.sourceStep = some t) : Inv t := by
  have hsome : s.sourceStep.isSome = true := by simp [ht]
  have hj := h.joint
  have hok := h.ok
  cases hpc : s.source <;> rw [hpc] at hj hok
  case add => exact h.add hpc ht
  case emplace | destruct | invokeFactory | construct | startBody | handler | setError =>
    exact h.building (by rw [hpc]; rfl) ht
  case addStarted => exact h.addStarted hpc ht
  case requestBody | inRequestStop | addDone => exact h.requesting (by rw [hpc]; rfl) ht
  all_goals simp only [sourceStep, hpc] at ht
  case setStopped =>
    cases ht
    exact h.of_deliver hsome (by rw [hpc]; rfl) (by rw [hpc]; exact id) (by rw [hpc]; exact id)
      ⟨rfl, by rw [hpc]; rfl, by rw [hj.1]; rfl⟩ (by rw [hpc]; exact id) (by rw [hpc]; rfl) nofun
      ⟨hj.2.1, hok⟩
  case forward r =>
    cases ht
    exact h.of_deliver hsome (by rw [hpc]; rfl) (by rw [hpc]; exact id) (fun _ => ⟨r, hok⟩)
      ⟨rfl, by rw [hpc]; rfl, by rw [hj.1]; rfl⟩ (by rw [hpc]; exact id) (by rw [hpc]; rfl) nofun
      (.inl ⟨r, hok, rfl⟩)
  case dispatch =>
    have hbok := h.bodyOk
    rw [hj.1] at hbok
    obtain ⟨c, r, hc, hr, hgives⟩ := hbok
    rw [dispatchResult_eq hr] at ht
    cases ht
    exact h.of_deliver hsome (by rw [hpc]; rfl) (by rw [hpc]; exact id) (by rw [hpc]; exact id)
      ⟨rfl, by rw [hpc]; rfl, by rw [hj.1]; rfl⟩ nofun (by rw [hpc]; rfl) nofun
      (.inr ⟨hj.2.1, .inr ⟨c, hc, hgives⟩⟩)
  case inStart =>
    have hw := h.word
    have hh := h.holds
    have hlen := h.deliveries
    have hb := h.bodyStops
    have hu := h.unstarted
    rw [hpc] at hw hh hlen hb hu
    cases ht
    exact { h with
      word := hw
      joint := hj
      holds := hh
      ok := hok
      deliveries := hlen
      uninvoked := nofun
      bodyStops := hb
      unstarted := by simpa using hu }
  all_goals cases ht

/-- The body's `set_result` has steps left only before the receiver is completed. -/
theorem undelivered_body (h : Inv s) (hbody : s.body ≠ .notStarted ∧ s.body ≠ .deferred ∧
    s.body.deliveries = 0) :
    s.delivered = [] ∧ s.destroyed = false ∧ (s.source.phase = .starting ∨
      s.source.phase = .requesting ∨ s.source.phase = .finished) := by
  have hj := h.joint
  have hphase : s.source.phase = .starting ∨ s.source.phase = .requesting ∨
      s.source.phase = .finished := by
    cases hph : s.source.phase <;> rw [hph] at hj <;> simp_all [Phase.Joint]
  have hnil : s.delivered = [] := by
    refine List.length_eq_zero_iff.mp ?_
    rw [h.deliveries, hbody.2.2]
    cases hpc : s.source <;> rw [hpc] at hphase <;>
      simp [SourcePc.phase, SourcePc.deliveries] at hphase ⊢
  refine ⟨hnil, ?_, hphase⟩
  by_contra hd
  rcases (h.destroyed (by simpa using hd)).2 with hd | hd
  · rw [h.unstarted.mp hd] at hphase
    simp [SourcePc.phase] at hphase
  · exact hd hnil

/-- A step of the body's `set_result` that leaves its flag alone. -/
theorem of_body (h : Inv s) {pc : BodyPc R X} {completion : Option (Completion R X)}
    {result : Option (Result R X)}
    (hbody : s.body ≠ .notStarted ∧ s.body ≠ .deferred ∧ s.body.deliveries = 0)
    (hdone : pc.done = s.body.done) (hheld : s.source.phase ≠ .finished → pc.held = true)
    (hpc : pc ≠ .notStarted ∧ pc ≠ .deferred ∧ pc.deliveries = 0)
    (hok : pc.Ok completion result) :
    Inv { s with body := pc, bodyCompletion := completion, result := result } := by
  obtain ⟨hnil, hlive, hphase⟩ := h.undelivered_body hbody
  exact { h with
    word := by
      have hw := h.word
      simpa only [hdone] using hw
    joint := by
      have hj := h.joint
      dsimp only
      rcases hphase with hph | hph | hph <;> rw [hph] at hj hheld ⊢
      · exact ⟨hheld (by simp), hj.2⟩
      · exact ⟨hheld (by simp), hj.2⟩
      · exact ⟨hpc.1, hpc.2.1, hj.2.2⟩
    bodyOk := hok
    deliveries := by
      have hlen := h.deliveries
      simpa only [hpc.2.2, hbody.2.2] using hlen
    gives := by simp [hnil] }

/-- The body completes the receiver. -/
theorem of_body_deliver (h : Inv s) {pc : BodyPc R X} {r : Result R X} {c : Completion R X}
    (hphase : s.source.phase = .finished)
    (hbody : s.body ≠ .notStarted ∧ s.body ≠ .deferred ∧ s.body.deliveries = 0)
    (hdone : pc.done = s.body.done) (hpc : pc ≠ .notStarted ∧ pc ≠ .deferred ∧ pc.deliveries = 1)
    (hok : pc.Ok s.bodyCompletion s.result) (hc : s.bodyCompletion = some c) (hgives : c.Gives r) :
    Inv { s.deliver (.of r) with body := pc } := by
  obtain ⟨hnil, hlive, -⟩ := h.undelivered_body hbody
  have hj := h.joint
  rw [hphase] at hj
  have hzero : s.source.deliveries = 0 := by
    cases hsrc : s.source <;> rw [hsrc] at hphase <;> simp [SourcePc.phase] at hphase
    rfl
  exact { h with
    word := by
      have hw := h.word
      simpa only [hdone, deliver] using hw
    joint := by
      dsimp only [deliver]
      rw [hphase]
      exact ⟨hpc.1, hpc.2.1, hj.2.2⟩
    bodyOk := hok
    deliveries := by simp [deliver, hnil, hzero, hpc]
    gives := by
      intro o ho
      simp only [deliver, hnil, List.nil_append, List.mem_singleton] at ho
      rw [ho]
      exact .inr ⟨hj.2.2.1, .inr ⟨c, hc, hgives⟩⟩
    destroyed := fun hd => absurd hd (by simp [deliver, hlive]) }

theorem canCompleteInline_iff {w : ℕ} : canCompleteInline w = true ↔ w = 3 ∨ w = 27 := by
  unfold canCompleteInline
  rw [Bool.or_eq_true, decide_eq_true_eq, decide_eq_true_eq]
  rfl

/-- The state that the body's `set_result` finds while its own flag is clear. -/
theorem inline_iff (h : Inv s) (hbody : s.body ≠ .notStarted ∧ s.body ≠ .deferred ∧
    s.body.deliveries = 0) (hdone : s.body.done = 0) :
    (canCompleteInline s.word = true ↔ s.source.phase = .finished) ∧ s.word < 32 := by
  obtain ⟨-, -, hphase⟩ := h.undelivered_body hbody
  have hw := h.word
  have hj := h.joint
  rw [hdone] at hw
  rw [canCompleteInline_iff]
  rcases hphase with hph | hph | hph <;> rw [hph] at hw hj <;>
    simp only [Phase.srcDone, Phase.bodyStarted] at hw
  · obtain ⟨-, hearly, -, hf⟩ := hj
    have hasked : s.stop.asked ≤ 1 := Bool.toNat_le _
    rw [hf, Bool.toNat_false] at hw
    simp [hph]
    omega
  · obtain ⟨-, hstop, hf⟩ := hj
    simp [hf, hstop, StopPc.asked, StopPc.early] at hw
    simp [hph, hw]
  · obtain ⟨-, -, hearly, hiff⟩ := hj
    have hasked : s.stop.asked = s.stopRequestDone.toNat := by
      simp only [StopPc.asked, hearly, Bool.false_or]
      cases hd : s.stopRequestDone <;> rw [hd] at hiff <;> simp at hiff <;> simp [hiff]
    have hle : s.stopRequestDone.toNat ≤ 1 := Bool.toNat_le _
    rw [hasked] at hw
    simp [hph]
    omega

theorem body_add (h : Inv s) (hpc : s.body = .add) (ht : s.bodyStep = some t) : Inv t := by
  have hbody : s.body ≠ .notStarted ∧ s.body ≠ .deferred ∧ s.body.deliveries = 0 := by
    simp [hpc, BodyPc.deliveries]
  obtain ⟨hinline, hlt⟩ := h.inline_iff hbody (by rw [hpc]; rfl)
  obtain ⟨hnil, hlive, hphase⟩ := h.undelivered_body hbody
  have hw := h.word
  have hj := h.joint
  have hbok := h.bodyOk
  have hlen := h.deliveries
  rw [hpc] at hw hj hbok hlen
  have hadd : fetchAdd stateBits s.word bodyDoneFlag = s.word + 4 := by
    refine fetchAdd_of_lt ?_
    simp only [bodyDoneFlag, stateBits]
    omega
  simp only [bodyStep, hpc] at ht
  cases ht
  rw [hadd]
  by_cases hfinished : s.source.phase = .finished
  · rw [if_pos (hinline.mpr hfinished)]
    rw [hfinished] at hj
    exact { h with
      word := by
        simp only [BodyPc.done] at hw ⊢
        omega
      joint := by
        dsimp only
        rw [hfinished]
        exact ⟨by simp, by simp, hj.2.2⟩
      bodyOk := hbok
      deliveries := hlen
      gives := by simp [hnil] }
  · rw [if_neg (fun hi => hfinished (hinline.mp hi))]
    exact { h with
      word := by
        simp only [BodyPc.done] at hw ⊢
        omega
      joint := by
        dsimp only
        rcases hphase with hph | hph | hph
        · rw [hph] at hj ⊢
          exact ⟨rfl, hj.2⟩
        · rw [hph] at hj ⊢
          exact ⟨rfl, hj.2⟩
        · exact absurd hph hfinished
      bodyOk := hbok
      deliveries := hlen
      gives := by simp [hnil] }

theorem body (h : Inv s) (ht : s.bodyStep = some t) : Inv t := by
  have hbok := h.bodyOk
  have hj := h.joint
  have hbody : s.body ≠ .notStarted ∧ s.body ≠ .deferred ∧ s.body.deliveries = 0 := by
    cases hpc : s.body <;> simp [bodyStep, hpc] at ht <;> simp [BodyPc.deliveries]
  obtain ⟨hnil, hlive, hphase⟩ := h.undelivered_body hbody
  cases hpc : s.body <;> rw [hpc] at hbok hj
  case add => exact h.body_add hpc ht
  all_goals simp only [bodyStep, hpc] at ht
  case load c =>
    obtain ⟨hinline, -⟩ := h.inline_iff hbody (by rw [hpc]; rfl)
    cases ht
    by_cases hfinished : s.source.phase = .finished
    · rw [if_pos (hinline.mpr hfinished)]
      exact h.of_body hbody (by rw [hpc]; rfl) (fun hne => absurd hfinished hne)
        ⟨by simp, by simp, rfl⟩ hbok
    · rw [if_neg (fun hi => hfinished (hinline.mp hi))]
      exact h.of_body hbody (by rw [hpc]; rfl) (fun _ => rfl) ⟨by simp, by simp, rfl⟩ hbok
  case forward c =>
    have hfinished : s.source.phase = .finished := by
      rcases hphase with hph | hph | hph
      · rw [hph] at hj
        exact nomatch hj.1
      · rw [hph] at hj
        exact nomatch hj.1
      · exact hph
    cases ht
    exact h.of_body_deliver hfinished hbody (by rw [hpc]; rfl) ⟨by simp, by simp, rfl⟩
      (by simp [BodyPc.Ok, show s.bodyCompletion = some c from hbok]) hbok c.gives_result
  case store c =>
    cases ht
    exact h.of_body hbody (by rw [hpc]; rfl) (fun _ => rfl) ⟨by simp, by simp, rfl⟩
      ⟨c, _, hbok, rfl, gives_storeResult c⟩
  case deliver =>
    have hfinished : s.source.phase = .finished := by
      rcases hphase with hph | hph | hph
      · rw [hph] at hj
        exact nomatch hj.1
      · rw [hph] at hj
        exact nomatch hj.1
      · exact hph
    obtain ⟨c, r, hc, hr, hgives⟩ := hbok
    rw [dispatchResult_eq hr] at ht
    cases ht
    exact h.of_body_deliver hfinished hbody (by rw [hpc]; rfl) ⟨by simp, by simp, rfl⟩
      (by simp [BodyPc.Ok, hc]) hc hgives
  all_goals cases ht

theorem start (h : Inv s) (ht : s.step .start = some t) : Inv t := by
  have hw := h.word
  have hj := h.joint
  have hh := h.holds
  have hok := h.ok
  have hlen := h.deliveries
  have hun := h.uninvoked
  have hb := h.bodyStops
  have hu := h.unstarted
  simp only [Op.step] at ht
  cases hpc : s.start <;> simp only [hpc] at ht
  case notCalled =>
    cases hd : s.destroyed <;> simp [hd] at ht
    cases ht
    have hns := hu.mp hpc
    rw [hns] at hw hj hh hok hlen hun hb
    exact { h with
      word := hw
      joint := hj
      holds := hh
      alive := by
        have ha := h.alive
        simpa [hd] using ha
      ok := hok
      deliveries := hlen
      uninvoked := fun _ => hun rfl
      bodyStops := hb
      unstarted := by simp
      destroyed := nofun }
  case inSource =>
    cases ht
    exact { h with
      unstarted := by
        rw [hpc] at hu
        simpa using hu
      destroyed := by
        intro hd
        have := h.destroyed hd
        rw [hpc] at this
        simpa using this }
  case returned => cases ht

theorem requestStop (h : Inv s) (ht : s.step .requestStop = some t) : Inv t := by
  simp only [Op.step] at ht
  split_ifs at ht with hen
  obtain ⟨hstop, hlive⟩ := hen
  cases ht
  exact h.of_stop (by rw [hstop]; rfl) (by simp [hstop]) (by rw [hstop]; rfl) hlive rfl (by simp)
    nofun trivial rfl

theorem completeSource (h : Inv s) {c : SourceCompletion V R X}
    (ht : s.step (.completeSource c) = some t) : Inv t := by
  have hw := h.word
  have hj := h.joint
  have hh := h.holds
  have hlen := h.deliveries
  have hun := h.uninvoked
  have hb := h.bodyStops
  have hu := h.unstarted
  simp only [Op.step] at ht
  split at ht
  case h_2 => cases ht
  rename_i hpc
  rw [hpc] at hw hj hh hlen hun hb hu
  rw [hj.1] at hlen
  have hnil : s.delivered = [] := List.length_eq_zero_iff.mp hlen
  cases c <;> simp only at ht <;> cases ht
  all_goals
    exact { h with
      word := hw
      joint := hj
      holds := hh
      ok := rfl
      deliveries := by
        rw [hj.1]
        exact hlen
      gives := by simp [hnil]
      uninvoked := fun _ => hun rfl
      bodyStops := hb
      unstarted := by simpa using hu }

theorem completeBody (h : Inv s) {c : Completion R X} (ht : s.step (.completeBody c) = some t) :
    Inv t := by
  simp only [Op.step] at ht
  split at ht
  case h_2 => cases ht
  rename_i hpc
  cases ht
  exact h.of_body (by simp [hpc, BodyPc.deliveries]) (by rw [hpc]; rfl) (fun _ => rfl)
    ⟨by simp, by simp, rfl⟩ rfl

theorem destroy (h : Inv s) (ht : s.step .destroy = some t) : Inv t := by
  have ha := h.alive
  simp only [Op.step] at ht
  split_ifs at ht with hen
  obtain ⟨hlive, hmay⟩ := hen
  cases ht
  have hmay' : s.stop.ended = true ∧ (s.start = .notCalled ∨ s.delivered ≠ []) := by
    simpa [mayDestroy] using hmay
  rw [hlive] at ha
  unfold Op.destroy
  split
  case h_1 hindex =>
    rw [hindex] at ha
    exact { h with
      alive := ha
      destroyed := fun _ => hmay' }
  case h_2 c hindex =>
    rw [hindex] at ha
    exact { h with
      alive := rfl
      destroyed := fun _ => hmay'
      noFault := by simpa [destructChild, ha] using h.noFault }

theorem step (h : Inv s) {a : Act V R X} (ht : s.step a = some t) : Inv t := by
  cases a with
  | start => exact h.start ht
  | requestStop => exact h.requestStop ht
  | stop spurious => exact h.stop ht
  | completeSource c => exact h.completeSource ht
  | source => exact h.source ht
  | completeBody c => exact h.completeBody ht
  | body => exact h.body ht
  | destroy => exact h.destroy ht

end Inv
end Op
end Squiz.LetValue
