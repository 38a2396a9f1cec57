import Squiz.WhenAll.Op
import Squiz.Lib.Processes

/-! The invariant of `when_all_op`: what its word, its stored results and its callers of
`request_stop()` are in every reachable state. -/
namespace Squiz.WhenAll
open Squiz.Lib Squiz.Lib.Word Squiz.Lib.Processes Squiz.Detail

variable {N : Arity} {D X : Type}

/-- Whether `started_flag` has been set. -/
def StartPc.published : StartPc N → Bool
  | .launch _ | .setStarted => false
  | .requestStop _ | .deliver | .done => true

def StartPc.notLaunched (pc : StartPc N) (i : N.Child) : Prop :=
  match pc with
  | .launch k => k ≤ i
  | _ => False

def StartPc.position : StartPc N → Option N.Child
  | .requestStop k => some k
  | _ => none

def StartPc.delivering : StartPc N → ℕ
  | .deliver => 1
  | _ => 0

def StopPc.requested : StopPc N → Bool
  | .idle => false
  | .requestStop _ | .done => true

def StopPc.position : StopPc N → Option N.Child
  | .requestStop k => some k
  | _ => none

namespace ChildPc

/-- The child is still counted in the word. -/
def outstanding : ChildPc N D X → Bool
  | .deliver | .done => false
  | _ => true

def delivering : ChildPc N D X → Bool
  | .deliver => true
  | _ => false

/-- The child has set `failed_flag` and not yet stored its failure. -/
def storing : ChildPc N D X → Bool
  | .requestStop _ _ | .storeFailure _ => true
  | _ => false

def position : ChildPc N D X → Option N.Child
  | .requestStop _ k => some k
  | _ => none

/-- The child runs, or is in `set_result` and neither forwards nor stores a failure. -/
def quiet : ChildPc N D X → Bool
  | .running | .storeValue _ _ | .loadFlag _ | .setFlag _ | .arrive => true
  | _ => false

/-- The child was started and is still counted in the word. -/
def busy : ChildPc N D X → Bool
  | .notStarted | .deliver | .done => false
  | _ => true

/-- What a child's program counter says about its completion and its stored value. -/
def Ok (failed : Bool) (pc : ChildPc N D X) (c : Option (Completion D X))
    (v : Option (List D)) : Prop :=
  match pc with
  | .notStarted | .running => c = none
  | .storeValue vs throws => c = some (.value vs throws)
  | .loadFlag f | .setFlag f | .requestStop f _ | .storeFailure f =>
    ∃ c', c = some c' ∧ c'.failure = some f
  | .arrive | .deliver | .done =>
    (∃ vs, c = some (.value vs none) ∧ v = some vs) ∨
      failed = true ∧ ∃ c' f, c = some c' ∧ c'.failure = some f

variable {pc : ChildPc N D X} {c : Option (Completion D X)} {v : Option (List D)} {failed : Bool}

theorem Ok.of_failed (h : pc.Ok failed c v) : pc.Ok true c v := by
  cases pc with
  | arrive | deliver | done =>
    rcases h with h | ⟨-, h⟩
    · exact .inl h
    · exact .inr ⟨rfl, h⟩
  | _ => exact h

theorem busy_outstanding (h : pc.busy = true) : pc.outstanding = true := by
  cases pc <;> first | rfl | cases h

theorem busy_delivering (h : pc.busy = true) : pc.delivering = false := by
  cases pc <;> first | rfl | cases h

theorem busy_started (h : pc.busy = true) : pc ≠ .notStarted := by
  intro hpc
  subst hpc
  cases h

theorem quiet_busy (h : pc.quiet = true) : pc.busy = true := by
  cases pc <;> first | rfl | cases h

theorem quiet_storing (h : pc.quiet = true) : pc.storing = false := by
  cases pc <;> first | rfl | cases h

theorem quiet_position (h : pc.quiet = true) : pc.position = none := by
  cases pc <;> first | rfl | cases h

theorem storing_busy (h : pc.storing = true) : pc.busy = true := by
  cases pc <;> first | rfl | cases h

end ChildPc

/-- The result that the children's completions call for: that of the child that first set
`failed_flag`, or else all values in child order. -/
def Correct (firstFailure : Option N.Child) (completion : N.Child → Option (Completion D X))
    (r : Result D X) : Prop :=
  match firstFailure with
  | some i => ∃ c f, completion i = some c ∧ c.failure = some f ∧ r = .failure f
  | none => ∃ vs : N.Child → List D, (∀ i, completion i = some (.value (vs i) none)) ∧
      r = .value ((List.finRange N.children).map vs).flatten

namespace Op

/-- The child that a caller of `request_stop()` comes to next. -/
def position (start : StartPc N) (stop : StopPc N) (child : N.Child → ChildPc N D X) :
    Caller N → Option N.Child
  | .start => start.position
  | .stop => stop.position
  | .child i => (child i).position

/-- Children not yet counted as arrived. -/
abbrev outstanding (s : Op N D X) : ℕ := count ChildPc.outstanding s.child

/-- Threads in `deliver_result`. -/
def delivering (s : Op N D X) : ℕ :=
  s.start.delivering + count ChildPc.delivering s.child

/-- All children have arrived and `started_flag` is set. -/
def Complete (s : Op N D X) : Prop := s.outstanding = 0 ∧ s.start.published = true

structure Inv (s : Op N D X) : Prop where
  word : s.word =
    pack3 s.outstanding s.start.published s.firstFailure.isSome s.stop.requested
  launched : ∀ i, s.child i = .notStarted ↔ s.start.notLaunched i
  child : ∀ i, (s.child i).Ok s.firstFailure.isSome (s.completion i) (s.valueResults i)
  storing : ∀ i, (s.child i).storing = true → s.firstFailure = some i ∧ s.errorOrStopped = none
  noFailure : s.firstFailure = none → s.errorOrStopped = none
  stored : ∀ i, s.firstFailure = some i → (s.child i).storing = false →
    ∃ c f, s.completion i = some c ∧ c.failure = some f ∧ s.errorOrStopped = some f
  forwarding : Broadcast.Once (fun _ _ => true) (position s.start s.stop s.child) s.forwarder
    s.stopRequests
  forwarder : ∀ c, s.forwarder = some c → s.start.published = true ∧
    if c = .stop then s.stop.requested = true else s.firstFailure.isSome = true
  stopAfterStart : s.stop.requested = true → s.start = .done
  delivered : s.Complete → s.delivering + s.delivered.length = 1
  undelivered : ¬ s.Complete → s.delivering = 0 ∧ s.delivered = []
  correct : ∀ r ∈ s.delivered, Correct s.firstFailure s.completion r
  noFault : s.fault = false

variable {s t : Op N D X} {i : N.Child}

/-! What the word shows. -/

section Word

theorem Inv.started_eq (hi : s.Inv) : hasFlag s.word startedFlag = s.start.published := by
  rw [hi.word]
  exact hasFlag_pack3_one _ _ _ _

theorem Inv.failed_eq (hi : s.Inv) : hasFlag s.word failedFlag = s.firstFailure.isSome := by
  rw [hi.word]
  exact hasFlag_pack3_two _ _ _ _

theorem Inv.stop_eq (hi : s.Inv) : hasFlag s.word stopRequestedFlag = s.stop.requested := by
  rw [hi.word]
  exact hasFlag_pack3_four _ _ _ _

theorem Inv.countIncrement_le (hi : s.Inv) : countIncrement ≤ s.word ↔ 1 ≤ s.outstanding := by
  have h := mul_eight_le_pack3 (n := s.outstanding) (d := 1) s.start.published
    s.firstFailure.isSome s.stop.requested
  rwa [← hi.word] at h

theorem Inv.twice_countIncrement_le (hi : s.Inv) :
    2 * countIncrement ≤ s.word ↔ 2 ≤ s.outstanding := by
  have h := mul_eight_le_pack3 (n := s.outstanding) (d := 2) s.start.published
    s.firstFailure.isSome s.stop.requested
  rwa [← hi.word] at h

theorem outstanding_le (s : Op N D X) : s.outstanding ≤ N.children := by
  have h := count_le_card (p := ChildPc.outstanding) (f := s.child)
  rwa [Fintype.card_fin] at h

theorem Inv.word_lt (hi : s.Inv) : s.word < 2 ^ N.stateBits := by
  rw [hi.word]
  exact Arity.pack3_lt_bits s.outstanding_le _ _ _

end Word

/-- While a child is outstanding, nothing was delivered. -/
theorem not_complete (h : (s.child i).outstanding = true) : ¬ s.Complete := by
  intro hc
  have hpos : 1 ≤ s.outstanding := count_pos h
  have hzero : s.outstanding = 0 := hc.1
  omega

theorem Inv.not_delivering (hi : s.Inv) (h : ¬ s.Complete) (j : N.Child) :
    (s.child j).delivering = false := by
  have hd : s.delivering = 0 := (hi.undelivered h).1
  unfold delivering at hd
  exact count_eq_zero.mp (by omega) j

section Busy
variable {p : ChildPc N D X}

theorem outstanding_update (h : (s.child i).busy = true) (hpc : p.busy = true) :
    count ChildPc.outstanding (Function.update s.child i p) = s.outstanding :=
  count_update_same (by rw [ChildPc.busy_outstanding h, ChildPc.busy_outstanding hpc])

theorem delivering_update (h : (s.child i).busy = true) (hpc : p.busy = true) :
    count ChildPc.delivering (Function.update s.child i p) =
      count ChildPc.delivering s.child :=
  count_update_same (by rw [ChildPc.busy_delivering h, ChildPc.busy_delivering hpc])

theorem Inv.launched_update (hi : s.Inv) (h : s.child i ≠ .notStarted) (hpc : p ≠ .notStarted)
    (j : N.Child) :
    Function.update s.child i p j = .notStarted ↔ s.start.notLaunched j := by
  by_cases hj : j = i
  · subst j
    have hstarted := (hi.launched i).not.mp h
    simp [hpc, hstarted]
  · simpa only [Function.update_of_ne hj] using hi.launched j

/-- The positions after child `i` has moved. -/
theorem position_update {start : StartPc N} {stop : StopPc N} {child : N.Child → ChildPc N D X}
    (c : Caller N) :
    position start stop (Function.update child i p) c =
      if c = .child i then p.position else position start stop child c := by
  cases c with
  | start | stop => rfl
  | child j =>
    by_cases hj : j = i
    · subst j
      simp [position]
    · simp [position, hj]

/-! What the invariant says of the children after child `i` has moved. -/

theorem Inv.child_update (hi : s.Inv)
    (hok : p.Ok s.firstFailure.isSome (s.completion i) (s.valueResults i)) (j : N.Child) :
    (Function.update s.child i p j).Ok s.firstFailure.isSome (s.completion j)
      (s.valueResults j) := by
  by_cases hj : j = i
  · subst hj
    rwa [Function.update_self]
  · rw [Function.update_of_ne hj]
    exact hi.child j

theorem Inv.storing_update (hi : s.Inv)
    (hp : p.storing = true → s.firstFailure = some i ∧ s.errorOrStopped = none) (j : N.Child)
    (hs : (Function.update s.child i p j).storing = true) :
    s.firstFailure = some j ∧ s.errorOrStopped = none := by
  by_cases hj : j = i
  · subst hj
    rw [Function.update_self] at hs
    exact hp hs
  · rw [Function.update_of_ne hj] at hs
    exact hi.storing j hs

theorem Inv.stored_update (hi : s.Inv)
    (hp : p.storing = false → (s.child i).storing = false) (j : N.Child)
    (hf : s.firstFailure = some j) (hs : (Function.update s.child i p j).storing = false) :
    ∃ c f, s.completion j = some c ∧ c.failure = some f ∧ s.errorOrStopped = some f := by
  by_cases hj : j = i
  · subst hj
    rw [Function.update_self] at hs
    exact hi.stored j hf (hp hs)
  · rw [Function.update_of_ne hj] at hs
    exact hi.stored j hf hs

theorem Inv.forwarding_update (hi : s.Inv) (hp : p.position = (s.child i).position) :
    Broadcast.Once (fun _ _ => true) (position s.start s.stop (Function.update s.child i p))
      s.forwarder s.stopRequests := by
  refine hi.forwarding.congr fun c => (position_update c).trans ?_
  split_ifs with hc
  · subst hc
    exact hp
  · rfl

end Busy

/-- A quiet child that stays quiet, with its completion and its value, keeps the invariant. -/
theorem Inv.quietStep (hi : s.Inv) (h : (s.child i).quiet = true) {pc : ChildPc N D X}
    (hpc : pc.quiet = true) {completion : N.Child → Option (Completion D X)}
    {values : N.Child → Option (List D)}
    (hother : ∀ j, j ≠ i → completion j = s.completion j ∧ values j = s.valueResults j)
    (hself : s.completion i = none ∨ completion i = s.completion i)
    (hok : pc.Ok s.firstFailure.isSome (completion i) (values i)) :
    Inv { s.setChild i pc with completion := completion, valueResults := values } := by
  have hb := ChildPc.quiet_busy h
  have hb' := ChildPc.quiet_busy hpc
  have hout := outstanding_update hb hb'
  have hdel := delivering_update hb hb'
  have hnc : ¬ s.Complete := not_complete (ChildPc.busy_outstanding hb)
  obtain ⟨hnone, hnil⟩ := hi.undelivered hnc
  refine ⟨?_, ?_, ?_, hi.storing_update (by simp [ChildPc.quiet_storing hpc]), hi.noFailure, ?_,
    hi.forwarding_update ((ChildPc.quiet_position hpc).trans (ChildPc.quiet_position h).symm),
    hi.forwarder, hi.stopAfterStart, ?_, ?_, ?_, hi.noFault⟩
  · simp only [setChild, outstanding, hout]
    exact hi.word
  · exact hi.launched_update (ChildPc.busy_started hb) (ChildPc.busy_started hb')
  · intro j
    by_cases hj : j = i
    · subst j
      simpa only [setChild, Function.update_self] using hok
    · obtain ⟨hc, hv⟩ := hother j hj
      simpa only [setChild, Function.update_of_ne hj, hc, hv] using hi.child j
  · intro j hf hs
    by_cases hj : j = i
    · subst j
      obtain ⟨c, f, hc, hcf, he⟩ := hi.stored i hf (ChildPc.quiet_storing h)
      rcases hself with hnone | hsame
      · rw [hnone] at hc
        cases hc
      · exact ⟨c, f, hsame.trans hc, hcf, he⟩
    · simp only [setChild, Function.update_of_ne hj] at hs
      obtain ⟨c, f, hc, hcf, he⟩ := hi.stored j hf hs
      exact ⟨c, f, (hother j hj).1.trans hc, hcf, he⟩
  · intro hc
    exact absurd (by simpa only [setChild, Complete, outstanding, hout] using hc) hnc
  · intro hc
    simpa only [setChild, delivering, hdel] using hi.undelivered hnc
  · intro r hr
    simp only [setChild, hnil] at hr
    cases hr

theorem Inv.completeStep (hi : s.Inv) {c : Completion D X}
    (ht : s.step (.complete i c) = some t) : t.Inv := by
  simp only [step] at ht
  split at ht
  · next hrun =>
    cases ht
    have hnone : s.completion i = none := by
      have := hi.child i
      rwa [hrun] at this
    refine hi.quietStep (i := i) (by rw [hrun]; rfl) ?_ ?_ (.inl hnone) ?_
    · rcases c with ⟨vs, throws⟩ | ⟨tag, datums, _ | x⟩ <;> rfl
    · intro j hj
      exact ⟨Function.update_of_ne hj _ _, rfl⟩
    · simp only [Function.update_self]
      rcases c with ⟨vs, throws⟩ | ⟨tag, datums, _ | x⟩
      · rfl
      · exact ⟨_, rfl, rfl⟩
      · exact ⟨_, rfl, rfl⟩
  · cases ht

/-- A completion whose value was stored, or that lost the race to fail first. -/
theorem Inv.toArrive (hi : s.Inv) (h : (s.child i).quiet = true)
    (hok : ChildPc.Ok s.firstFailure.isSome (.arrive : ChildPc N D X) (s.completion i)
      (s.valueResults i)) : (s.setChild i .arrive).Inv :=
  hi.quietStep h rfl (fun _ _ => ⟨rfl, rfl⟩) (.inr rfl) hok

theorem Inv.storeValueStep (hi : s.Inv) {vs : List D} (hpc : s.child i = .storeValue vs none) :
    Inv { s.setChild i .arrive with
      valueResults := Function.update s.valueResults i (some vs) } := by
  have hc : s.completion i = some (.value vs none) := by
    have := hi.child i
    rwa [hpc] at this
  refine hi.quietStep (by rw [hpc]; rfl) rfl ?_ (.inr rfl) ?_
  · intro j hj
    exact ⟨rfl, Function.update_of_ne hj _ _⟩
  · exact .inl ⟨vs, hc, by simp⟩

theorem Inv.storeThrowsStep (hi : s.Inv) {vs : List D} {x : X}
    (hpc : s.child i = .storeValue vs (some x)) :
    (s.setChild i (.loadFlag (.exceptionPtr x))).Inv := by
  have hc : s.completion i = some (.value vs (some x)) := by
    have := hi.child i
    rwa [hpc] at this
  exact hi.quietStep (by rw [hpc]; rfl) rfl (fun _ _ => ⟨rfl, rfl⟩) (.inr rfl) ⟨_, hc, rfl⟩

theorem Inv.loadFlagStep (hi : s.Inv) {f : Failure D X} (hpc : s.child i = .loadFlag f) :
    (s.setChild i (if hasFlag s.word failedFlag then .arrive else .setFlag f)).Inv := by
  have hc : ∃ c, s.completion i = some c ∧ c.failure = some f := by
    have := hi.child i
    rwa [hpc] at this
  have hquiet : (s.child i).quiet = true := by rw [hpc]; rfl
  rw [hi.failed_eq]
  split_ifs with hfailed
  · obtain ⟨c, hcc, hcf⟩ := hc
    exact hi.toArrive hquiet (.inr ⟨hfailed, c, f, hcc, hcf⟩)
  · exact hi.quietStep hquiet rfl (fun _ _ => ⟨rfl, rfl⟩) (.inr rfl) hc

/-- Nobody forwards a stop request before a failure or a request to stop. -/
theorem Inv.no_forwarder (hi : s.Inv) (hf : s.firstFailure = none)
    (hstop : s.stop.requested = false) : s.forwarder = none := by
  cases hfw : s.forwarder with
  | none => rfl
  | some c =>
    obtain ⟨-, hc⟩ := hi.forwarder c hfw
    rw [hf, hstop] at hc
    split_ifs at hc
    cases hc

/-- The child that sets `failed_flag` first, whether it forwards a stop request or not. -/
theorem Inv.failFirst (hi : s.Inv) (hb : (s.child i).busy = true) (hf : s.firstFailure = none)
    {p : ChildPc N D X} (hstoring : p.storing = true)
    (hok : p.Ok true (s.completion i) (s.valueResults i)) {forwarder : Option (Caller N)}
    (hforwarding : Broadcast.Once (fun _ _ => true)
      (position s.start s.stop (Function.update s.child i p)) forwarder s.stopRequests)
    (hforwarder : ∀ c, forwarder = some c → c ≠ .stop ∧ s.start.published = true ∨
      s.forwarder = some c) :
    Inv { s.setChild i p with
      word := fetchOr s.word failedFlag
      firstFailure := some i
      forwarder := forwarder } := by
  have hb' := ChildPc.storing_busy hstoring
  have hout := outstanding_update hb hb'
  have hdel := delivering_update hb hb'
  have hnc : ¬ s.Complete := not_complete (ChildPc.busy_outstanding hb)
  obtain ⟨-, hnil⟩ := hi.undelivered hnc
  refine ⟨?_, ?_, ?_, ?_, ?_, ?_, hforwarding, ?_, hi.stopAfterStart, ?_, ?_, ?_, hi.noFault⟩
  · simp only [setChild, outstanding, hout]
    rw [hi.word, hf]
    exact pack3_or_two _ _ _ _
  · exact hi.launched_update (ChildPc.busy_started hb) (ChildPc.busy_started hb')
  · intro j
    by_cases hj : j = i
    · subst j
      simpa only [setChild, Function.update_self, Option.isSome_some] using hok
    · simpa only [setChild, Function.update_of_ne hj, Option.isSome_some] using
        (hi.child j).of_failed
  · intro j hs
    by_cases hj : j = i
    · subst j
      exact ⟨rfl, hi.noFailure hf⟩
    · simp only [setChild, Function.update_of_ne hj] at hs
      have hfirst := (hi.storing j hs).1
      rw [hf] at hfirst
      cases hfirst
  · intro hnone
    cases hnone
  · intro j hj hs
    cases hj
    simp [setChild, hstoring] at hs
  · intro c hc
    rcases hforwarder c hc with ⟨hne, hpub⟩ | hold
    · exact ⟨hpub, by rw [if_neg hne]; rfl⟩
    · obtain ⟨hpub, hc'⟩ := hi.forwarder c hold
      refine ⟨hpub, ?_⟩
      split_ifs at hc' ⊢
      · exact hc'
      · rfl
  · intro hc
    exact absurd (by simpa only [setChild, Complete, outstanding, hout] using hc) hnc
  · intro hc
    simpa only [setChild, delivering, hdel] using hi.undelivered hnc
  · intro r hr
    simp only [setChild, hnil] at hr
    cases hr

theorem Inv.setFlagStep (hi : s.Inv) {f : Failure D X} (hpc : s.child i = .setFlag f) :
    (s.setFailureFlag i f).Inv := by
  have hquiet : (s.child i).quiet = true := by rw [hpc]; rfl
  have hpos : (s.child i).position = none := ChildPc.quiet_position hquiet
  have hc : ∃ c, s.completion i = some c ∧ c.failure = some f := by
    have := hi.child i
    rwa [hpc] at this
  unfold setFailureFlag
  split_ifs with hfailed
  · -- some other operation was the first failure
    have hsome : s.firstFailure.isSome = true := by rwa [hi.failed_eq] at hfailed
    have hword : fetchOr s.word failedFlag = s.word := by
      rw [hi.word, hsome]
      exact pack3_or_two _ _ _ _
    rw [hword]
    obtain ⟨c, hcc, hcf⟩ := hc
    exact hi.toArrive hquiet (.inr ⟨hsome, c, f, hcc, hcf⟩)
  · have hnone : s.firstFailure = none := by
      rw [hi.failed_eq] at hfailed
      simpa using hfailed
    have hbusy := ChildPc.quiet_busy hquiet
    rw [hi.started_eq, hi.stop_eq]
    by_cases hforward : (s.start.published && !s.stop.requested &&
        decide (2 * countIncrement ≤ s.word)) = true
    · simp only [hforward, if_true]
      simp only [Bool.and_eq_true, Bool.not_eq_true', decide_eq_true_eq] at hforward
      obtain ⟨⟨hpub, hstop⟩, -⟩ := hforward
      refine hi.failFirst (p := .requestStop f N.first) hbusy hnone rfl hc ?_ ?_
      · have hold := hi.forwarding
        rw [hi.no_forwarder hnone hstop] at hold
        refine hold.enter (c := .child i) (k := N.first) ?_ rfl ?_
        · rw [position_update, if_pos rfl]
          rfl
        · intro d hd
          rw [position_update, if_neg hd]
      · intro c hc
        cases hc
        exact .inl ⟨by simp, hpub⟩
    · simp only [hforward]
      exact hi.failFirst (p := .storeFailure f) hbusy hnone rfl hc
        (hi.forwarding_update hpos.symm) fun c hc => .inr hc

theorem Inv.requestStopStep (hi : s.Inv) {f : Failure D X} {k : N.Child}
    (hpc : s.child i = .requestStop f k) :
    Inv ((s.requestStopOn k).setChild i
      (((Broadcast.next k).map (.requestStop f)).getD (.storeFailure f))) := by
  generalize hnext : ((Broadcast.next k).map (ChildPc.requestStop f)).getD (.storeFailure f) = pc
  have hstoring : pc.storing = true := by
    subst hnext
    cases Broadcast.next k <;> rfl
  have hposition : pc.position = Broadcast.next k := by
    subst hnext
    cases Broadcast.next k <;> rfl
  have hok : pc.Ok s.firstFailure.isSome (s.completion i) (s.valueResults i) := by
    have hc := hi.child i
    rw [hpc] at hc
    subst hnext
    cases Broadcast.next k <;> exact hc
  have hs : (s.child i).storing = true := by rw [hpc]; rfl
  have hb := ChildPc.storing_busy hs
  have hb' := ChildPc.storing_busy hstoring
  have hout := outstanding_update hb hb'
  have hdel := delivering_update hb hb'
  have hnc : ¬ s.Complete := not_complete (ChildPc.busy_outstanding hb)
  refine ⟨?_, hi.launched_update (ChildPc.busy_started hb) (ChildPc.busy_started hb'),
    hi.child_update hok, hi.storing_update fun _ => hi.storing i hs, hi.noFailure,
    hi.stored_update (by simp [hstoring]), ?_, hi.forwarder, hi.stopAfterStart, ?_, ?_,
    hi.correct, hi.noFault⟩
  · simp only [setChild, requestStopOn, outstanding, hout]
    exact hi.word
  · refine hi.forwarding.advance (c := .child i) ?_ ?_ ?_
    · simp [position, ChildPc.position, hpc]
    · rw [setChild, position_update, if_pos rfl, hposition]
    · intro d hd
      rw [setChild, position_update, if_neg hd]
      rfl
  · intro hc
    exact absurd (by simpa only [setChild, requestStopOn, Complete, outstanding, hout] using hc) hnc
  · intro hc
    simpa only [setChild, requestStopOn, delivering, hdel] using hi.undelivered hnc

theorem Inv.storeFailureStep (hi : s.Inv) {f : Failure D X} (hpc : s.child i = .storeFailure f) :
    Inv { s.setChild i .arrive with errorOrStopped := some f } := by
  have hs : (s.child i).storing = true := by rw [hpc]; rfl
  have hb := ChildPc.storing_busy hs
  have hout := outstanding_update (p := .arrive) hb rfl
  have hdel := delivering_update (p := .arrive) hb rfl
  have hnc : ¬ s.Complete := not_complete (ChildPc.busy_outstanding hb)
  obtain ⟨hfirst, -⟩ := hi.storing i hs
  have hsome : s.firstFailure.isSome = true := by simp [hfirst]
  obtain ⟨c, hcc, hcf⟩ : ∃ c, s.completion i = some c ∧ c.failure = some f := by
    have := hi.child i
    rwa [hpc] at this
  refine ⟨?_, hi.launched_update (ChildPc.busy_started hb) (by simp),
    hi.child_update (.inr ⟨hsome, c, f, hcc, hcf⟩), ?_, ?_, ?_,
    hi.forwarding_update (by rw [hpc]; rfl), hi.forwarder, hi.stopAfterStart, ?_, ?_, hi.correct,
    hi.noFault⟩
  · simp only [setChild, outstanding, hout]
    exact hi.word
  · intro j hsj
    by_cases hj : j = i
    · subst j
      simp [setChild, ChildPc.storing] at hsj
    · -- only the first failure stores
      simp only [setChild, Function.update_of_ne hj] at hsj
      have hj' := (hi.storing j hsj).1
      rw [hfirst] at hj'
      exact absurd (Option.some.inj hj').symm hj
  · intro hnone
    rw [setChild, hfirst] at hnone
    cases hnone
  · intro j hf hsj
    have hij : i = j := Option.some.inj (hfirst.symm.trans hf)
    subst j
    exact ⟨c, f, hcc, hcf, rfl⟩
  · intro hc
    exact absurd (by simpa only [setChild, Complete, outstanding, hout] using hc) hnc
  · intro hc
    simpa only [setChild, delivering, hdel] using hi.undelivered hnc

theorem Inv.arriveStep (hi : s.Inv) (hpc : s.child i = .arrive) : (s.arrive i).Inv := by
  have hb : (s.child i).busy = true := by rw [hpc]; rfl
  have hout : (s.child i).outstanding = true := ChildPc.busy_outstanding hb
  have hnc : ¬ s.Complete := not_complete hout
  obtain ⟨hnone, hnil⟩ := hi.undelivered hnc
  have hpos : 1 ≤ s.outstanding := count_pos hout
  have hlast : s.word < 2 * countIncrement ↔ s.outstanding = 1 := by
    rw [← not_le, hi.twice_countIncrement_le]
    omega
  have hstart := hi.started_eq
  unfold arrive
  generalize hnext : (if s.word < 2 * countIncrement ∧ hasFlag s.word startedFlag = true then
    ChildPc.deliver else (.done : ChildPc N D X)) = pc
  have hleft : pc.outstanding = false := by
    subst hnext
    split_ifs <;> rfl
  have hstarted : pc ≠ .notStarted := by
    subst hnext
    split_ifs <;> simp
  have hstoring : pc.storing = false := by
    subst hnext
    split_ifs <;> rfl
  have hposition : pc.position = none := by
    subst hnext
    split_ifs <;> rfl
  have hok : pc.Ok s.firstFailure.isSome (s.completion i) (s.valueResults i) := by
    have hc := hi.child i
    rw [hpc] at hc
    subst hnext
    split_ifs <;> exact hc
  have hcount : count ChildPc.outstanding (Function.update s.child i pc) + 1 = s.outstanding :=
    count_update_leave hout hleft
  refine ⟨?_, hi.launched_update (ChildPc.busy_started hb) hstarted, hi.child_update hok,
    hi.storing_update (by simp [hstoring]), hi.noFailure,
    hi.stored_update fun _ => by rw [hpc]; rfl, hi.forwarding_update (by rw [hposition, hpc]; rfl),
    hi.forwarder, hi.stopAfterStart, ?_, ?_, ?_, hi.noFault⟩
  · have hge : countIncrement ≤ s.word := hi.countIncrement_le.mpr hpos
    simp only [setChild, outstanding]
    rw [fetchSub_of_le hge hi.word_lt, hi.word, ← hcount]
    exact pack3_sub_eight _ _ _ _
  · rintro ⟨hzero, hpub⟩
    simp only [setChild, outstanding] at hzero hpub
    rw [if_pos ⟨hlast.mpr (by omega), hstart.trans hpub⟩] at hnext
    subst hnext
    have hdel := count_update_enter (v := .deliver) (hi.not_delivering hnc i) rfl
    simp only [setChild, delivering, hdel, hnil, List.length_nil]
    unfold delivering at hnone
    omega
  · intro hc
    simp only [setChild, Complete, outstanding] at hc
    have hnd : ¬ (s.word < 2 * countIncrement ∧ hasFlag s.word startedFlag = true) := by
      rintro ⟨h1, h2⟩
      have := hlast.mp h1
      exact hc ⟨by omega, hstart.symm.trans h2⟩
    rw [if_neg hnd] at hnext
    subst hnext
    have hdel : count ChildPc.delivering (Function.update s.child i .done) =
        count ChildPc.delivering s.child :=
      count_update_same (hi.not_delivering hnc i).symm
    simpa only [setChild, delivering, hdel] using ⟨hnone, hnil⟩
  · intro r hr
    simp only [setChild, hnil] at hr
    cases hr

/-- `deliver_value` concatenates the children's values in child order. -/
theorem deliverValue_eq {results : N.Child → Option (List D)} {vs : N.Child → List D}
    (h : ∀ j, results j = some (vs j)) (js : List N.Child) (acc : List D) :
    deliverValue results js acc = some (acc ++ (js.map vs).flatten) := by
  induction js generalizing acc with
  | nil => simp [deliverValue]
  | cons j js ih =>
    simp only [deliverValue, h j, Option.bind_some, List.map_cons, List.flatten_cons]
    rw [ih, List.append_assoc]

/-- Once all children have arrived, `deliver_result` finds the result it should deliver. -/
theorem Inv.deliverResult_eq (hi : s.Inv) (hzero : s.outstanding = 0) :
    ∃ r, s.deliverResult = { s with delivered := s.delivered ++ [r] } ∧
      Correct s.firstFailure s.completion r := by
  have harrived : ∀ j, (s.child j).outstanding = false := count_eq_zero.mp hzero
  cases hf : s.firstFailure with
  | some i =>
    have hstoring : (s.child i).storing = false := by
      by_contra h
      have := ChildPc.busy_outstanding (ChildPc.storing_busy (by simpa using h))
      rw [harrived i] at this
      cases this
    obtain ⟨c, f, hc, hcf, he⟩ := hi.stored i hf hstoring
    exact ⟨.failure f, by simp [deliverResult, he, hf], c, f, hc, hcf, rfl⟩
  | none =>
    have hvalues : ∀ j, ∃ vs, s.completion j = some (.value vs none) ∧
        s.valueResults j = some vs := by
      intro j
      have hok := hi.child j
      have hout := harrived j
      rw [hf] at hok
      cases hpc : s.child j with
      | deliver | done =>
        rw [hpc] at hok
        rcases hok with h | ⟨h, -⟩
        · exact h
        · cases h
      | _ =>
        rw [hpc] at hout
        cases hout
    choose vs hc hv using hvalues
    have hdeliver := deliverValue_eq hv (List.finRange N.children) []
    refine ⟨.value ((List.finRange N.children).map vs).flatten, ?_, vs, hc, rfl⟩
    simp [deliverResult, hi.noFailure hf, hdeliver, hf]

theorem Inv.complete_of_delivering (hi : s.Inv) (h : 1 ≤ s.delivering) :
    s.Complete ∧ s.delivering = 1 ∧ s.delivered = [] := by
  have hc : s.Complete := by
    by_contra hnc
    have := (hi.undelivered hnc).1
    omega
  have hone := hi.delivered hc
  exact ⟨hc, by omega, List.length_eq_zero_iff.mp (by omega)⟩

theorem Inv.childDeliverStep (hi : s.Inv) (hpc : s.child i = .deliver) :
    (s.deliverResult.setChild i .done).Inv := by
  have hdelivering : (s.child i).delivering = true := by rw [hpc]; rfl
  have hcount : count ChildPc.delivering (Function.update s.child i .done) + 1 =
      count ChildPc.delivering s.child := count_update_leave hdelivering rfl
  have hout : count ChildPc.outstanding (Function.update s.child i .done) = s.outstanding :=
    count_update_same (by rw [hpc]; rfl)
  obtain ⟨hc, hone, hnil⟩ := hi.complete_of_delivering (by unfold delivering; omega)
  obtain ⟨r, hr, hcorrect⟩ := hi.deliverResult_eq hc.1
  rw [hr]
  have hok := hi.child i
  rw [hpc] at hok
  refine ⟨?_, hi.launched_update (by simp [hpc]) (by simp), hi.child_update (p := .done) hok,
    hi.storing_update nofun, hi.noFailure, hi.stored_update fun _ => by rw [hpc]; rfl,
    hi.forwarding_update (by rw [hpc]; rfl), hi.forwarder, hi.stopAfterStart, ?_, ?_, ?_,
    hi.noFault⟩
  · simp only [setChild, outstanding, hout]
    exact hi.word
  · intro _
    simp only [setChild, hnil, delivering, List.nil_append, List.length_singleton]
    unfold delivering at hone
    omega
  · intro hnc
    exact absurd (by simpa only [setChild, Complete, outstanding, hout] using hc) hnc
  · intro r' hr'
    simp only [setChild, hnil, List.nil_append, List.mem_singleton] at hr'
    subst hr'
    exact hcorrect

theorem Inv.startDeliverStep (hi : s.Inv) (hpc : s.start = .deliver) :
    Inv { s.deliverResult with start := .done } := by
  have hstart : s.start.delivering = 1 := by rw [hpc]; rfl
  obtain ⟨hc, hone, hnil⟩ := hi.complete_of_delivering (by unfold delivering; omega)
  obtain ⟨r, hr, hcorrect⟩ := hi.deliverResult_eq hc.1
  have hlaunched := hi.launched
  have hforwarder := hi.forwarder
  have hforwarding := hi.forwarding
  have hword := hi.word
  rw [hpc] at hlaunched hforwarder hforwarding hword
  rw [hr]
  refine ⟨hword, hlaunched, hi.child, hi.storing, hi.noFailure, hi.stored,
    hforwarding.congr fun d => ?_, hforwarder, fun _ => rfl, ?_, ?_, ?_, hi.noFault⟩
  · cases d <;> rfl
  · intro _
    simp only [hnil, delivering, StartPc.delivering, List.nil_append, List.length_singleton]
    unfold delivering at hone
    omega
  · intro hnc
    exact absurd ⟨hc.1, rfl⟩ hnc
  · intro r' hr'
    simp only [hnil, List.nil_append, List.mem_singleton] at hr'
    subst hr'
    exact hcorrect

theorem Inv.launchStep (hi : s.Inv) {k : N.Child} (hpc : s.start = .launch k) :
    Inv { s.setChild k .running with
      start := ((Broadcast.next k).map .launch).getD .setStarted } := by
  generalize hnext : ((Broadcast.next k).map StartPc.launch).getD .setStarted = pc
  have hlaunched : ∀ j, s.child j = .notStarted ↔ k ≤ j := by
    have := hi.launched
    rwa [hpc] at this
  have hk : s.child k = .notStarted := (hlaunched k).mpr le_rfl
  have hpublished : pc.published = s.start.published := by
    rw [hpc]
    subst hnext
    cases Broadcast.next k <;> rfl
  have hdelivering : pc.delivering = s.start.delivering := by
    rw [hpc]
    subst hnext
    cases Broadcast.next k <;> rfl
  have hposition : pc.position = s.start.position := by
    rw [hpc]
    subst hnext
    cases Broadcast.next k <;> rfl
  have hnotLaunched : ∀ j, pc.notLaunched j ↔ k < j := by
    intro j
    subst hnext
    unfold Broadcast.next
    split_ifs with h
    · exact Iff.rfl
    · have hkj : ¬ k < j := by
        have := j.isLt
        rw [Fin.lt_def]
        omega
      simp [StartPc.notLaunched, hkj]
  have hout : count ChildPc.outstanding (Function.update s.child k .running) = s.outstanding :=
    count_update_same (by rw [hk]; rfl)
  have hdel : count ChildPc.delivering (Function.update s.child k .running) =
      count ChildPc.delivering s.child := count_update_same (by rw [hk]; rfl)
  have hnc : ¬ s.Complete := by
    rintro ⟨-, hpub⟩
    rw [hpc] at hpub
    cases hpub
  refine ⟨?_, ?_, ?_, ?_, hi.noFailure, ?_, ?_, ?_, ?_, ?_, ?_, hi.correct, hi.noFault⟩
  · simp only [setChild, outstanding, hout, hpublished]
    exact hi.word
  · intro j
    rw [hnotLaunched]
    by_cases hj : j = k
    · subst j
      simp [setChild]
    · simp only [setChild, Function.update_of_ne hj, hlaunched]
      exact ⟨fun h => lt_of_le_of_ne h (Ne.symm hj), le_of_lt⟩
  · have hok := hi.child k
    rw [hk] at hok
    exact hi.child_update (p := .running) hok
  · exact hi.storing_update nofun
  · exact hi.stored_update fun _ => by rw [hk]; rfl
  · refine hi.forwarding.congr fun d => (position_update d).trans ?_
    split_ifs with hd
    · subst hd
      simp [position, ChildPc.position, hk]
    · cases d with
      | start => exact hposition
      | stop | child j => rfl
  · intro c hc
    simp only [hpublished]
    exact hi.forwarder c hc
  · intro hstop
    have := hi.stopAfterStart hstop
    rw [hpc] at this
    cases this
  · intro hc
    exact absurd (by simpa only [setChild, Complete, outstanding, hout, hpublished] using hc) hnc
  · intro hc
    simpa only [setChild, delivering, hdel, hdelivering] using hi.undelivered hnc

theorem Inv.requested_false (hi : s.Inv) (h : s.start ≠ .done) : s.stop.requested = false := by
  by_contra hstop
  exact h (hi.stopAfterStart (by simpa using hstop))

theorem Inv.setStartedStep (hi : s.Inv) (hpc : s.start = .setStarted) : s.setStarted.Inv := by
  have hpub : s.start.published = false := by rw [hpc]; rfl
  have hstop : s.stop.requested = false := hi.requested_false (by rw [hpc]; simp)
  have hnc : ¬ s.Complete := by
    rintro ⟨-, h⟩
    rw [hpub] at h
    cases h
  obtain ⟨hnone, hnil⟩ := hi.undelivered hnc
  have hdel : count ChildPc.delivering s.child = 0 := by
    unfold delivering at hnone
    omega
  have hnoForwarder : s.forwarder = none := by
    cases hfw : s.forwarder with
    | none => rfl
    | some c =>
      have := (hi.forwarder c hfw).1
      rw [hpub] at this
      cases this
  have hstarted := hi.started_eq
  have hfailed := hi.failed_eq
  have hstopped := hi.stop_eq
  have hrunning := hi.countIncrement_le
  have hforwarding := hi.forwarding
  have hlaunched := hi.launched
  rw [hpc] at hlaunched hforwarding
  unfold setStarted
  generalize hnext : (if countIncrement ≤ s.word then
    if hasFlag s.word failedFlag then StartPc.requestStop N.first else .done else .deliver) = pc
  generalize hforwarder : (if countIncrement ≤ s.word ∧ hasFlag s.word failedFlag = true then
    some .start else s.forwarder) = forwarder
  have hpublished : pc.published = true := by
    subst hnext
    split_ifs <;> rfl
  refine ⟨?_, ?_, hi.child, hi.storing, hi.noFailure, hi.stored, ?_, ?_, ?_, ?_, ?_, ?_, ?_⟩
  · have hlt : s.word + startedFlag < 2 ^ N.stateBits := by
      rw [hi.word, hpub]
      exact (pack3_add_one _ _ _).symm ▸ Arity.pack3_lt_bits s.outstanding_le _ _ _
    simp only [outstanding, hpublished]
    rw [fetchAdd_of_lt hlt, hi.word, hpub]
    exact pack3_add_one _ _ _
  · intro j
    rw [hlaunched j]
    subst hnext
    split_ifs <;> simp [StartPc.notLaunched]
  · rw [hnoForwarder] at hforwarding hforwarder
    by_cases hforward : countIncrement ≤ s.word ∧ hasFlag s.word failedFlag = true
    · rw [if_pos hforward] at hforwarder
      rw [if_pos hforward.1, if_pos hforward.2] at hnext
      subst hnext hforwarder
      refine hforwarding.enter (c := .start) (k := N.first) ?_ rfl ?_
      · rfl
      · intro d hd
        cases d with
        | start => exact absurd rfl hd
        | stop | child j => rfl
    · rw [if_neg hforward] at hforwarder
      subst hforwarder
      refine hforwarding.congr fun d => ?_
      cases d with
      | start =>
        subst hnext
        split_ifs with h1 h2
        · exact absurd ⟨h1, h2⟩ hforward
        · rfl
        · rfl
      | stop | child j => rfl
  · intro c hc
    rw [hnoForwarder] at hforwarder
    subst hforwarder
    split_ifs at hc with hforward
    cases hc
    exact ⟨hpublished, by simpa [hfailed] using hforward.2⟩
  · intro h
    rw [hstop] at h
    cases h
  · rintro ⟨hzero, -⟩
    have hzero' : s.outstanding = 0 := hzero
    have hnr : ¬ countIncrement ≤ s.word := by
      rw [hrunning]
      omega
    rw [if_neg hnr] at hnext
    subst hnext
    simp [delivering, hdel, hnil, StartPc.delivering]
  · intro hc
    have hr : countIncrement ≤ s.word := by
      rw [hrunning]
      have : ¬ s.outstanding = 0 := fun h => hc ⟨h, hpublished⟩
      omega
    rw [if_pos hr] at hnext
    subst hnext
    refine ⟨?_, hnil⟩
    split_ifs <;> simp [delivering, hdel, StartPc.delivering]
  · intro r hr
    rw [hnil] at hr
    cases hr
  · simp [hi.noFault, hstarted, hpub, hstopped, hstop]

theorem Inv.startForwardStep (hi : s.Inv) {k : N.Child} (hpc : s.start = .requestStop k) :
    Inv { s.requestStopOn k with
      start := ((Broadcast.next k).map .requestStop).getD .done } := by
  have hword := hi.word
  have hlaunched := hi.launched
  have hforwarding := hi.forwarding
  have hforwarder := hi.forwarder
  have hdelivered := hi.delivered
  have hundelivered := hi.undelivered
  unfold Complete delivering at hdelivered hundelivered
  rw [hpc] at hword hlaunched hforwarding hforwarder hdelivered hundelivered
  generalize hnext : ((Broadcast.next k).map StartPc.requestStop).getD .done = pc
  have hpublished : pc.published = true := by
    subst hnext
    cases Broadcast.next k <;> rfl
  have hnd : pc.delivering = 0 := by
    subst hnext
    cases Broadcast.next k <;> rfl
  have hposition : pc.position = Broadcast.next k := by
    subst hnext
    cases Broadcast.next k <;> rfl
  have hnl : ∀ j, ¬ pc.notLaunched j := by
    intro j
    subst hnext
    cases Broadcast.next k <;> exact id
  refine ⟨?_, ?_, hi.child, hi.storing, hi.noFailure, hi.stored, ?_, ?_, ?_, ?_, ?_, hi.correct,
    hi.noFault⟩
  · simp only [requestStopOn, outstanding, hpublished]
    exact hword
  · intro j
    exact (hlaunched j).trans (iff_of_false id (hnl j))
  · refine hforwarding.advance (c := .start) ?_ ?_ ?_
    · rfl
    · exact hposition
    · intro d hd
      cases d with
      | start => exact absurd rfl hd
      | stop | child j => rfl
  · intro c hc
    exact ⟨hpublished, (hforwarder c hc).2⟩
  · intro hstop
    have := hi.stopAfterStart hstop
    rw [hpc] at this
    cases this
  · rintro ⟨hzero, -⟩
    simp only [requestStopOn, delivering, hnd]
    exact hdelivered ⟨hzero, rfl⟩
  · intro hnc
    simp only [requestStopOn, delivering, hnd]
    exact hundelivered fun h => hnc ⟨h.1, hpublished⟩

theorem Inv.startStep (hi : s.Inv) (ht : s.step .start = some t) : t.Inv := by
  simp only [step, Op.startStep] at ht
  split at ht
  · next k hpc =>
    cases ht
    exact hi.launchStep hpc
  · next hpc =>
    cases ht
    exact hi.setStartedStep hpc
  · next k hpc =>
    cases ht
    exact hi.startForwardStep hpc
  · next hpc =>
    cases ht
    exact hi.startDeliverStep hpc
  · cases ht

theorem Inv.requestStep (hi : s.Inv) (hpc : s.stop = .idle) (hstart : s.start = .done)
    {forward : Bool}
    (hfwd : forward = (!hasFlag s.word failedFlag && decide (countIncrement ≤ s.word))) :
    Inv { s with
      word := fetchAdd N.stateBits s.word stopRequestedFlag
      fault := s.fault || hasFlag s.word stopRequestedFlag || !hasFlag s.word startedFlag
      forwarder := if forward then some .stop else s.forwarder
      stop := if forward then .requestStop N.first else .done } := by
  have hstop : s.stop.requested = false := by rw [hpc]; rfl
  have hpub : s.start.published = true := by rw [hstart]; rfl
  have hstarted := hi.started_eq
  have hfailed := hi.failed_eq
  have hstopped := hi.stop_eq
  have hforwarding := hi.forwarding
  rw [hpc] at hforwarding
  generalize hnext : (if forward = true then StopPc.requestStop N.first else .done) = pc
  have hrequested : pc.requested = true := by
    subst hnext
    split_ifs <;> rfl
  refine ⟨?_, hi.launched, hi.child, hi.storing, hi.noFailure, hi.stored, ?_, ?_, fun _ => hstart,
    hi.delivered, hi.undelivered, hi.correct, ?_⟩
  · have hlt : s.word + stopRequestedFlag < 2 ^ N.stateBits := by
      rw [hi.word, hstop]
      exact (pack3_add_four _ _ _).symm ▸ Arity.pack3_lt_bits s.outstanding_le _ _ _
    simp only [outstanding, hrequested]
    rw [fetchAdd_of_lt hlt, hi.word, hstop]
    exact pack3_add_four _ _ _
  · cases forward with
    | true =>
      subst hnext
      have hnone : s.firstFailure = none := by
        simp only [hfailed, Bool.true_eq, Bool.and_eq_true, Bool.not_eq_true'] at hfwd
        simpa using hfwd.1
      rw [hi.no_forwarder hnone hstop] at hforwarding
      refine hforwarding.enter (c := .stop) (k := N.first) ?_ rfl ?_
      · rfl
      · intro d hd
        cases d with
        | stop => exact absurd rfl hd
        | start | child j => rfl
    | false =>
      subst hnext
      refine hforwarding.congr fun d => ?_
      cases d <;> rfl
  · intro c hc
    refine ⟨hpub, ?_⟩
    by_cases hcs : c = .stop
    · rw [if_pos hcs]
      exact hrequested
    · rw [if_neg hcs]
      cases forward with
      | true => exact absurd (Option.some.inj hc).symm hcs
      | false =>
        have := (hi.forwarder c hc).2
        rwa [if_neg hcs] at this
  · simp [hi.noFault, hstarted, hpub, hstopped, hstop]

theorem Inv.stopForwardStep (hi : s.Inv) {k : N.Child} (hpc : s.stop = .requestStop k) :
    Inv { s.requestStopOn k with
      stop := ((Broadcast.next k).map .requestStop).getD .done } := by
  have hword := hi.word
  have hforwarding := hi.forwarding
  have hforwarder := hi.forwarder
  have hafter := hi.stopAfterStart
  rw [hpc] at hword hforwarding hforwarder hafter
  generalize hnext : ((Broadcast.next k).map StopPc.requestStop).getD .done = pc
  have hrequested : pc.requested = true := by
    subst hnext
    cases Broadcast.next k <;> rfl
  have hposition : pc.position = Broadcast.next k := by
    subst hnext
    cases Broadcast.next k <;> rfl
  refine ⟨?_, hi.launched, hi.child, hi.storing, hi.noFailure, hi.stored, ?_, ?_,
    fun _ => hafter rfl, hi.delivered, hi.undelivered, hi.correct, hi.noFault⟩
  · simp only [requestStopOn, outstanding, hrequested]
    exact hword
  · refine hforwarding.advance (c := .stop) ?_ ?_ ?_
    · rfl
    · exact hposition
    · intro d hd
      cases d with
      | stop => exact absurd rfl hd
      | start | child j => rfl
  · intro c hc
    obtain ⟨hpub, hrest⟩ := hforwarder c hc
    refine ⟨hpub, ?_⟩
    change if c = .stop then pc.requested = true else _
    rw [hrequested]
    exact hrest

theorem Inv.stopStep (hi : s.Inv) (ht : s.step .stop = some t) : t.Inv := by
  simp only [step, Op.stopStep] at ht
  split at ht
  · next hpc =>
    by_cases hstart : s.start = .done
    · rw [if_pos hstart] at ht
      cases ht
      exact hi.requestStep hpc hstart rfl
    · rw [if_neg hstart] at ht
      cases ht
  · next k hpc =>
    cases ht
    exact hi.stopForwardStep hpc
  · cases ht

theorem Inv.childStep (hi : s.Inv) (ht : s.step (.child i) = some t) : t.Inv := by
  simp only [step, Op.childStep] at ht
  split at ht
  · next vs hpc =>
    cases ht
    exact hi.storeValueStep hpc
  · next vs x hpc =>
    cases ht
    exact hi.storeThrowsStep hpc
  · next f hpc =>
    cases ht
    exact hi.loadFlagStep hpc
  · next f hpc =>
    cases ht
    exact hi.setFlagStep hpc
  · next f k hpc =>
    cases ht
    exact hi.requestStopStep hpc
  · next f hpc =>
    cases ht
    exact hi.storeFailureStep hpc
  · next hpc =>
    cases ht
    exact hi.arriveStep hpc
  · next hpc =>
    cases ht
    exact hi.childDeliverStep hpc
  all_goals cases ht

theorem Inv.initial : Inv ({} : Op N D X) where
  word := by
    have hcount : count ChildPc.outstanding (fun _ : N.Child => (.notStarted : ChildPc N D X)) =
        N.children := by
      rw [count_const_true rfl, Fintype.card_fin]
    simp only [outstanding, hcount]
    rfl
  launched := by
    intro i
    exact iff_of_true rfl (Nat.zero_le _)
  child := fun _ => rfl
  storing := by
    intro i h
    cases h
  noFailure := fun _ => rfl
  stored := by
    intro i h
    cases h
  forwarding := Broadcast.Once.initial fun c => by cases c <;> rfl
  forwarder := by
    intro c h
    cases h
  stopAfterStart := by
    intro h
    cases h
  delivered := by
    rintro ⟨-, h⟩
    cases h
  undelivered := by
    intro _
    have hcount : count ChildPc.delivering (fun _ : N.Child => (.notStarted : ChildPc N D X)) = 0 :=
      count_eq_zero.mpr fun _ => rfl
    exact ⟨by simp only [delivering, hcount]; rfl, rfl⟩
  correct := by
    intro r h
    cases h
  noFault := rfl

theorem Inv.step (hi : s.Inv) (a : Act N D X) (ht : s.step a = some t) : t.Inv := by
  cases a with
  | start => exact hi.startStep ht
  | stop => exact hi.stopStep ht
  | complete i c => exact hi.completeStep ht
  | child i => exact hi.childStep ht

theorem inv_of_reaches {ok : Op N D X → Act N D X → Prop} (hs : (system N D X).Reaches ok s) :
    s.Inv :=
  hs.invariant Inv.initial fun _ a _ hi _ ht => hi.step a ht

end Op
end Squiz.WhenAll
