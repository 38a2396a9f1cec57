import Squiz.LetValue.Steps

/-! What `let_value_op` promises: one completion of the receiver, a stop request that reaches the
child that exists, and a destructor that destroys that child. -/
namespace Squiz.LetValue
open Squiz.Lib Squiz.Lib.Word Squiz.Detail

variable {V R X : Type}

@[simp] def StartPc.rank : StartPc → ℕ
  | .notCalled => 2
  | .inSource => 1
  | .returned => 0

/-- A change of the word can cost `request_stop()` one more round. -/
def StopPc.rank (word : ℕ) : StopPc → ℕ
  | .notCalled => 6
  | .load => 5
  | .casDeferred old | .casSource old => if word = old then 3 else 4
  | .requestSource | .requestBody => 2
  | .inSource | .inBody => 1
  | .returnedSource | .deferred | .returnedBody | .tooLate => 0

@[simp] def SourcePc.rank : SourcePc V R X → ℕ
  | .notStarted => 17
  | .running => 16
  | .add _ _ => 15
  | .emplace _ _ => 13
  | .destruct _ => 12
  | .invokeFactory _ => 11
  | .construct _ => 10
  | .startBody => 9
  | .inStart => 8
  | .addStarted => 7
  | .requestBody => 5
  | .inRequestStop => 4
  | .addDone => 3
  | .handler _ => 2
  | .dispatch | .setStopped | .setError _ | .forward _ => 1
  | .returnedStopped | .returnedError | .returnedForwarded | .returnedDispatched | .returned => 0

@[simp] def BodyPc.rank : BodyPc R X → ℕ
  | .notStarted => 7
  | .running => 6
  | .load _ => 5
  | .store _ => 4
  | .add => 3
  | .forward _ | .deliver => 1
  | .returnedForwarded | .returnedDelivered | .deferred => 0

/-- The body's `start()` has returned. -/
def SourcePc.bodyReady : SourcePc V R X → Bool
  | .addStarted | .requestBody | .inRequestStop | .addDone | .dispatch | .returnedDispatched
  | .returned => true
  | _ => false

/-- A `compare_exchange_weak` that fails for no reason. -/
def Act.spurious : Act V R X → Bool
  | .stop spurious => spurious
  | _ => false

theorem SourcePc.Ok.isSome {pc : SourcePc V R X} {completion : Option (SourceCompletion V R X)}
    {values : Option V} (h : pc.Ok completion values) (hns : pc ≠ .notStarted)
    (hnr : pc ≠ .running) : completion.isSome = true := by
  by_contra hc
  have hnone : completion = none := by simpa using hc
  subst hnone
  cases pc <;> simp [Ok] at h hns hnr

theorem BodyPc.Ok.isSome {pc : BodyPc R X} {completion : Option (Completion R X)}
    {result : Option (Result R X)} (h : pc.Ok completion result) (hns : pc ≠ .notStarted)
    (hnr : pc ≠ .running) : completion.isSome = true := by
  by_contra hc
  have hnone : completion = none := by simpa using hc
  subst hnone
  cases pc <;> simp [Ok] at h hns hnr

namespace StopPc

theorem early_toBody {pc : StopPc} (h : pc.toBody = true) : pc.early = false ∧ pc ≠ .deferred := by
  cases pc <;> simp [toBody, early] at h ⊢

theorem bodyStops_le (pc : StopPc) : pc.bodyStops ≤ pc.toBody.toNat := by
  cases pc <;> simp [bodyStops, toBody]

theorem rank_eq (word : ℕ) : StopPc.notCalled.rank word = 6 ∧ StopPc.load.rank word = 5 ∧
    (∀ old, (StopPc.casDeferred old).rank word = if word = old then 3 else 4) ∧
    (∀ old, (StopPc.casSource old).rank word = if word = old then 3 else 4) ∧
    StopPc.requestSource.rank word = 2 ∧ StopPc.requestBody.rank word = 2 ∧
    StopPc.inSource.rank word = 1 ∧ StopPc.inBody.rank word = 1 ∧
    StopPc.returnedSource.rank word = 0 ∧ StopPc.deferred.rank word = 0 ∧
    StopPc.returnedBody.rank word = 0 ∧ StopPc.tooLate.rank word = 0 := by
  simp [rank]

theorem rank_word_le (word word' : ℕ) (pc : StopPc) : pc.rank word' ≤ pc.rank word + 1 := by
  cases pc <;> simp only [rank]
  case casDeferred | casSource => split_ifs <;> omega
  all_goals omega

theorem rank_stopNext_le (word : ℕ) : (Op.stopNext word).rank word ≤ 3 := by
  unfold Op.stopNext
  split_ifs <;> simp [rank]

end StopPc

namespace Op

/-- The number of steps that are left at most, apart from spurious failures. -/
def rank (s : Op V R X) : ℕ :=
  s.start.rank + s.stop.rank s.word + s.source.rank + s.body.rank + (!s.destroyed).toNat

theorem dispatchResult_rest (s : Op V R X) : s.dispatchResult.word = s.word ∧
    s.dispatchResult.start = s.start ∧ s.dispatchResult.stop = s.stop ∧
    s.dispatchResult.source = s.source ∧ s.dispatchResult.body = s.body ∧
    s.dispatchResult.destroyed = s.destroyed := by
  unfold dispatchResult
  cases s.result <;> simp [deliver]

theorem requestStopOn_rest (s : Op V R X) (c : Child) : (s.requestStopOn c).word = s.word ∧
    (s.requestStopOn c).start = s.start ∧ (s.requestStopOn c).stop = s.stop ∧
    (s.requestStopOn c).source = s.source ∧ (s.requestStopOn c).body = s.body ∧
    (s.requestStopOn c).destroyed = s.destroyed := by
  cases c <;> simp [requestStopOn]

theorem rank_stop {s t : Op V R X} {spurious : Bool}
    (ht : s.stopStep spurious = some t) : t.rank + (!spurious).toNat ≤ s.rank := by
  have hle := StopPc.rank_stopNext_le s.word
  have hspurious := Bool.toNat_le (!spurious)
  cases hpc : s.stop <;> simp only [stopStep, hpc] at ht
  case load =>
    cases ht
    simp only [rank, hpc, StopPc.rank_eq]
    omega
  case casDeferred old | casSource old =>
    split_ifs at ht with hcas
    · cases ht
      simp only [rank, hpc, StopPc.rank_eq, if_pos hcas.1]
      omega
    · cases ht
      simp only [rank, hpc, StopPc.rank_eq]
      split_ifs with hw
      · have : spurious = true := by simpa [hw] using hcas
        simp only [this, Bool.not_true, Bool.toNat_false]
        omega
      · omega
  case requestSource =>
    cases ht
    simp only [rank, hpc, requestStopOn, StopPc.rank_eq]
    omega
  case requestBody =>
    split at ht
    · rename_i c _
      obtain ⟨h1, h2, -, h4, h5, h6⟩ := requestStopOn_rest s c
      cases ht
      simp only [rank, hpc, h2, h4, h5, h6, StopPc.rank_eq]
      omega
    · cases ht
      simp only [rank, hpc, StopPc.rank_eq]
      omega
  case inSource | inBody =>
    cases ht
    simp only [rank, hpc, StopPc.rank_eq]
    omega
  all_goals cases ht

theorem rank_source {s t : Op V R X} (hi : s.Inv) (ht : s.sourceStep = some t) :
    t.rank < s.rank := by
  obtain ⟨h1, h2, h3, -, h5, h6⟩ := dispatchResult_rest s
  obtain ⟨r1, r2, r3, -, r5, r6⟩ := requestStopOn_rest s .body
  have hword : ∀ w, s.stop.rank w ≤ s.stop.rank s.word + 1 := fun w => s.stop.rank_word_le s.word w
  have hj := hi.joint
  cases hpc : s.source <;> rw [hpc] at hj <;> simp only [sourceStep, hpc] at ht
  case add v throws =>
    cases ht
    have hle := hword (fetchAdd stateBits s.word srcDoneFlag)
    simp only [rank, hpc]
    split_ifs <;> simp only [SourcePc.rank] <;> omega
  case addStarted =>
    cases ht
    have hle := hword (fetchAdd stateBits s.word bodyStartedFlag)
    simp only [rank, hpc]
    split_ifs <;> simp only [SourcePc.rank] <;> omega
  case addDone =>
    cases ht
    have hle := hword (fetchAdd stateBits s.word stopRequestDoneFlag)
    simp only [rank, hpc]
    split_ifs <;> simp only [SourcePc.rank] <;> omega
  case emplace v throws =>
    cases hx : thrownBy .values throws <;> simp only [hx] at ht <;> cases ht <;> simp [rank, hpc]
  case invokeFactory throws =>
    cases hv : s.values <;> simp only [hv] at ht
    · cases ht
      simp [rank, hpc]
    · cases hx : thrownBy .factory throws <;> simp only [hx] at ht <;> cases ht <;> simp [rank, hpc]
  case construct throws =>
    cases hx : thrownBy .connect throws <;> simp only [hx] at ht <;> cases ht <;>
      simp [rank, hpc, constructChild]
  case startBody =>
    cases ht
    simp [rank, hpc, hj.1]
  case dispatch =>
    cases ht
    simp [rank, hpc, h1, h2, h3, h5, h6]
  case requestBody =>
    cases ht
    simp [rank, hpc, r1, r2, r3, r5, r6]
  case notStarted | running | returnedStopped | returnedError | returnedForwarded |
    returnedDispatched | returned => cases ht
  all_goals
    cases ht
    simp [rank, hpc, deliver, destructChild]

theorem rank_body {s t : Op V R X} (ht : s.bodyStep = some t) : t.rank < s.rank := by
  obtain ⟨h1, h2, h3, h4, -, h6⟩ := dispatchResult_rest s
  cases hpc : s.body <;> simp only [bodyStep, hpc] at ht
  case load c =>
    cases ht
    simp only [rank, hpc]
    split_ifs <;> simp
  case add =>
    cases ht
    have hle := s.stop.rank_word_le s.word (fetchAdd stateBits s.word bodyDoneFlag)
    simp only [rank, hpc]
    split_ifs <;> simp only [BodyPc.rank] <;> omega
  case deliver =>
    cases ht
    simp [rank, hpc, h1, h2, h3, h4, h6]
  case notStarted | running | returnedForwarded | returnedDelivered | deferred => cases ht
  all_goals
    cases ht
    simp [rank, hpc, deliver]

theorem rank_step {s t : Op V R X} {a : Act V R X} (hi : s.Inv) (ht : s.step a = some t) :
    t.rank + (!a.spurious).toNat ≤ s.rank := by
  cases a <;> simp only [Op.step] at ht <;>
    simp only [Act.spurious, Bool.not_false, Bool.toNat_true]
  case stop spurious => exact rank_stop ht
  case source => exact rank_source hi ht
  case body => exact rank_body ht
  case start =>
    cases hpc : s.start <;> simp only [hpc] at ht
    case notCalled =>
      split_ifs at ht
      cases ht
      simp only [rank, hpc, hi.unstarted.mp hpc, StartPc.rank, SourcePc.rank]
      omega
    case inSource =>
      cases ht
      simp only [rank, hpc, StartPc.rank]
      omega
    case returned => cases ht
  case requestStop =>
    split_ifs at ht with hen
    cases ht
    simp only [rank, hen.1, StopPc.rank_eq]
    omega
  case completeSource c =>
    split at ht
    case h_2 => cases ht
    rename_i hpc
    cases c <;> cases ht <;> simp only [rank, hpc, SourcePc.rank] <;> omega
  case completeBody c =>
    split at ht
    case h_2 => cases ht
    rename_i hpc
    cases ht
    simp only [rank, hpc, BodyPc.rank]
    omega
  case destroy =>
    split_ifs at ht with hen
    cases ht
    unfold destroy
    split <;> simp [rank, destructChild, hen.1]

/-- `start()` was called, no child is running and no call on the operation has a step left. -/
def Quiescent (s : Op V R X) : Prop :=
  s.start ≠ .notCalled ∧ s.sourceStep = none ∧ s.bodyStep = none ∧ s.source ≠ .running ∧
    s.body ≠ .running

/-- The whole promise of `let_value_op` about one reachable state. -/
structure Orderly (s : Op V R X) : Prop where
  deliveredOnce : s.delivered.length ≤ 1
  deliveredAtEnd : s.Quiescent → s.delivered.length = 1
  /-- once all children that were started have completed -/
  afterChildren : s.delivered ≠ [] →
    s.completion.isSome = true ∧ (s.body = .notStarted ∨ s.bodyCompletion.isSome = true)
  result : ∀ o ∈ s.delivered, Gives s.completion s.bodyCompletion s.stop o
  /-- a stop request that took effect before the value was accepted -/
  stopsSource : s.stop.early = true → s.factoryCalls = [] ∧
    ∀ v throws, s.completion = some (.value v throws) → ∀ o ∈ s.delivered, o = .stopped
  bodyStoppedOnce : s.bodyStops ≤ 1
  /-- a later one, which `request_stop()` passes on itself -/
  stopsBody : s.stop = .inBody ∨ s.stop = .returnedBody → s.bodyStops = 1
  /-- or leaves to `set_result`, which passes it on unless the body could not be built or was done
  before its start was published -/
  stopsBodyDeferred : s.stop = .deferred → s.sourceStep = none →
    s.bodyStops = 1 ∨ s.bodyStops = 0 ∧
      (s.source = .returnedError ∨
        s.source = .returnedDispatched ∧ hasFlag s.word bodyDoneFlag = true)
  onlyOnRequest : s.bodyStops ≠ 0 → s.stop = .deferred ∨ s.stop.toBody = true
  /-- the source exists when and while its `request_stop()` is called -/
  sourceAlive : s.stop = .requestSource ∨ s.stop = .inSource → s.alive = some .source
  bodyAlive : s.stop = .requestBody ∨ s.stop = .inBody ∨ s.source = .requestBody ∨
    s.source = .inRequestStop → s.alive = some .body ∧ s.source.bodyReady = true
  /-- no step of the source's `set_result` follows the completion -/
  noAccess : s.delivered ≠ [] → s.sourceStep = none
  destroyed : s.destroyed = true → s.alive = none
  /-- only children that exist were destructed or requested to stop -/
  noFault : s.fault = false

namespace Inv
variable {s : Op V R X}

theorem deliveries_le (hi : s.Inv) : s.source.deliveries + s.body.deliveries ≤ 1 := by
  have hj := hi.joint
  cases hpc : s.source <;> rw [hpc] at hj <;> cases hb : s.body <;> rw [hb] at hj <;>
    simp [SourcePc.phase, Phase.Joint, BodyPc.held, SourcePc.deliveries, BodyPc.deliveries] at hj ⊢

theorem ended (hi : s.Inv) (hne : s.delivered ≠ []) : s.sourceStep = none ∧
    s.source ≠ .notStarted ∧ s.source ≠ .running ∧
    (s.body = .notStarted ∨ s.body = .deferred ∨ s.body.deliveries = 1) := by
  have hj := hi.joint
  have hlen := hi.deliveries
  have hpos : 0 < s.delivered.length := List.length_pos_iff.mpr hne
  cases hpc : s.source <;> rw [hpc] at hj hlen <;> cases hb : s.body <;> rw [hb] at hj hlen <;>
    simp [SourcePc.phase, Phase.Joint, BodyPc.held, SourcePc.deliveries, BodyPc.deliveries,
      sourceStep, hpc] at hj hlen ⊢ <;> simp_all

/-- The phases in which a stop request took effect, told by where it went. -/
theorem phase_of_stop (hi : s.Inv) :
    (s.stop.early = true → s.source.phase = .waiting ∨ s.source.phase = .stopped) ∧
    (s.stop.toBody = true → s.source.phase = .finished ∧ s.stopRequestDone = false) ∧
    (s.stop = .deferred → s.source.phase ≠ .waiting ∧ s.source.phase ≠ .stopped) := by
  have hj := hi.joint
  refine ⟨fun he => ?_, fun hb => ?_, fun hd => ?_⟩
  · have hdeferred : StopPc.deferred.early = false := rfl
    cases hph : s.source.phase <;> rw [hph] at hj <;> simp_all [Phase.Joint]
  · obtain ⟨he, hd⟩ := StopPc.early_toBody hb
    cases hph : s.source.phase <;> rw [hph] at hj <;> simp_all [Phase.Joint]
  · have hdeferred : StopPc.deferred.early = false := rfl
    cases hph : s.source.phase <;> rw [hph] at hj <;> simp_all [Phase.Joint]

/-- The body is requested to stop once at most, and only for a request that came late enough. -/
theorem bodyStops_cases (hi : s.Inv) :
    s.bodyStops = 0 ∨ s.bodyStops = 1 ∧ (s.stop = .deferred ∨ s.stop.toBody = true) := by
  have hj := hi.joint
  have hb := hi.bodyStops
  have hle := s.stop.bodyStops_le
  cases hto : s.stop.toBody with
  | true =>
    obtain ⟨hph, hdone⟩ := hi.phase_of_stop.2.1 hto
    have hzero : s.source.bodyStops = 0 := by
      cases hpc : s.source <;> rw [hpc] at hph <;> simp [SourcePc.phase] at hph
      rfl
    rw [hto, Bool.toNat_true] at hle
    rw [hzero, hdone, Bool.toNat_false] at hb
    rcases Nat.le_one_iff_eq_zero_or_eq_one.mp hle with hs | hs
    · exact .inl (by omega)
    · exact .inr ⟨by omega, .inr rfl⟩
  | false =>
    rw [hto, Bool.toNat_false] at hle
    by_cases hd : s.stop = .deferred
    · have hone : s.source.bodyStops + s.stopRequestDone.toNat ≤ 1 := by
        have hdone := Bool.toNat_le s.stopRequestDone
        cases hpc : s.source <;> rw [hpc] at hj <;> simp only [SourcePc.bodyStops]
        case inRequestStop | addDone =>
          rw [hj.2.2]
          simp
        all_goals omega
      rcases Nat.le_one_iff_eq_zero_or_eq_one.mp hone with hs | hs
      · exact .inl (by omega)
      · exact .inr ⟨by omega, .inl hd⟩
    · have hnone : s.source.bodyStops = 0 ∧ s.stopRequestDone = false := by
        cases hpc : s.source <;> rw [hpc] at hj <;>
          simp_all [SourcePc.bodyStops, SourcePc.phase, Phase.Joint]
      rw [hnone.1, hnone.2, Bool.toNat_false] at hb
      exact .inl (by omega)

/-- Nobody is left to complete the receiver but those who have. -/
theorem delivered_of_quiescent (hi : s.Inv) (hq : s.Quiescent) : s.delivered.length = 1 := by
  obtain ⟨hstart, hsource, hbody, hrs, hrb⟩ := hq
  have hj := hi.joint
  have hns : s.source ≠ .notStarted := fun hn => hstart (hi.unstarted.mpr hn)
  rw [hi.deliveries]
  have hb : s.body = .notStarted ∨ s.body = .deferred ∨ s.body.deliveries = 1 := by
    cases hpc : s.body <;> simp [bodyStep, hpc] at hbody hrb <;> simp [BodyPc.deliveries]
  have hs : s.source = .returned ∨ s.source.deliveries = 1 := by
    cases hpc : s.source <;> simp only [sourceStep, hpc] at hsource
    case notStarted => exact absurd hpc hns
    case running => exact absurd hpc hrs
    case returned => exact .inl rfl
    case emplace v throws => cases hx : thrownBy .values throws <;> simp [hx] at hsource
    case construct throws => cases hx : thrownBy .connect throws <;> simp [hx] at hsource
    case invokeFactory throws =>
      cases hv : s.values <;> simp only [hv] at hsource
      · cases hsource
      · cases hx : thrownBy .factory throws <;> simp [hx] at hsource
    case returnedStopped | returnedError | returnedForwarded | returnedDispatched => exact .inr rfl
    all_goals cases hsource
  rcases hs with hs | hs
  · rw [hs] at hj ⊢
    rcases hb with hb | hb | hb
    · exact absurd hb hj.1
    · exact absurd hb hj.2.1
    · rw [hb]
      rfl
  · have hle := hi.deliveries_le
    omega

theorem orderly (hi : s.Inv) : s.Orderly where
  deliveredOnce := by
    rw [hi.deliveries]
    exact hi.deliveries_le
  deliveredAtEnd := hi.delivered_of_quiescent
  afterChildren hne := by
    obtain ⟨-, hns, hnr, hb⟩ := hi.ended hne
    refine ⟨hi.ok.isSome hns hnr, ?_⟩
    rcases hb with hb | hb | hb
    · exact .inl hb
    · exact .inr (hi.bodyOk.isSome (by simp [hb]) (by simp [hb]))
    · refine .inr (hi.bodyOk.isSome ?_ ?_) <;> rintro hpc <;> rw [hpc] at hb <;> cases hb
  result := hi.gives
  stopsSource hearly := by
    have hphase := hi.phase_of_stop.1 hearly
    refine ⟨hi.uninvoked ?_, fun v throws hc o ho => ?_⟩
    · cases hpc : s.source <;> rw [hpc] at hphase <;> simp [SourcePc.phase] at hphase <;> rfl
    · have hg := hi.gives o ho
      cases o with
      | stopped => rfl
      | of r => simp [Gives, hc, hearly] at hg
  bodyStoppedOnce := by
    rcases hi.bodyStops_cases with h | ⟨h, -⟩ <;> omega
  stopsBody hstop := by
    have hto : s.stop.toBody = true ∧ s.stop.bodyStops = 1 := by
      rcases hstop with h | h <;> rw [h] <;> exact ⟨rfl, rfl⟩
    have hb := hi.bodyStops
    rcases hi.bodyStops_cases with h | ⟨h, -⟩ <;> omega
  stopsBodyDeferred hd hnone := by
    have hphase := hi.phase_of_stop.2.2 hd
    have hj := hi.joint
    have hb := hi.bodyStops
    have hw := hi.word
    rw [hd] at hj hb hw
    cases hpc : s.source <;> rw [hpc] at hphase hj hb hw <;>
      simp only [sourceStep, hpc] at hnone <;>
      simp [SourcePc.phase] at hphase
    case returnedError =>
      have hdone : s.stopRequestDone = false := hj.2.2.2
      rw [hdone] at hb
      exact .inr ⟨hb, .inl rfl⟩
    case returnedDispatched =>
      cases hdone : s.stopRequestDone with
      | true =>
        rw [hdone] at hb
        exact .inl hb
      | false =>
        rw [hdone] at hb
        rw [hdone, hj.1] at hw
        have hfifteen : s.word = 15 := by
          rw [hw]
          simp [SourcePc.phase, Phase.srcDone, Phase.bodyStarted, BodyPc.done, StopPc.asked]
        exact .inr ⟨hb, .inr ⟨rfl, by rw [hfifteen]; rfl⟩⟩
    case returned =>
      rw [hj.2.2.2.mpr rfl] at hb
      exact .inl hb
    case emplace v throws => cases hx : thrownBy .values throws <;> simp [hx] at hnone
    case construct throws => cases hx : thrownBy .connect throws <;> simp [hx] at hnone
    case invokeFactory throws =>
      cases hv : s.values <;> simp only [hv] at hnone
      · cases hnone
      · cases hx : thrownBy .factory throws <;> simp [hx] at hnone
    all_goals cases hnone
  onlyOnRequest hne := by
    rcases hi.bodyStops_cases with h | ⟨-, h⟩
    · exact absurd h hne
    · exact h
  sourceAlive hstop := by
    have hearly : s.stop.early = true ∧ s.stop.ended = false := by
      rcases hstop with h | h <;> rw [h] <;> exact ⟨rfl, rfl⟩
    exact hi.alive_eq (hi.not_destroyed hearly.2) (hi.index_source (hi.phase_of_stop.1 hearly.1))
  bodyAlive hreq := by
    have hcases : (s.stop.ended = false ∧ s.source.phase = .finished) ∨
        s.source = .requestBody ∨ s.source = .inRequestStop := by
      rcases hreq with h | h | h | h
      · exact .inl ⟨by rw [h]; rfl, (hi.phase_of_stop.2.1 (by rw [h]; rfl)).1⟩
      · exact .inl ⟨by rw [h]; rfl, (hi.phase_of_stop.2.1 (by rw [h]; rfl)).1⟩
      · exact .inr (.inl h)
      · exact .inr (.inr h)
    rcases hcases with ⟨hended, hph⟩ | h | h
    · refine ⟨hi.alive_eq (hi.not_destroyed hended) (hi.index_body (by simp [hph])), ?_⟩
      cases hpc : s.source <;> rw [hpc] at hph <;> simp [SourcePc.phase] at hph
      rfl
    · have hlive := (hi.undelivered (by rw [sourceStep, h])).2.2
      exact ⟨hi.alive_eq hlive (hi.index_body (by simp [h, SourcePc.phase])), by rw [h]; rfl⟩
    · have hlive := (hi.undelivered (by rw [sourceStep, h])).2.2
      exact ⟨hi.alive_eq hlive (hi.index_body (by simp [h, SourcePc.phase])), by rw [h]; rfl⟩
  noAccess hne := (hi.ended hne).1
  destroyed hd := by
    have ha := hi.alive
    rwa [hd] at ha
  noFault := hi.noFault

end Inv

end Op
end Squiz.LetValue
