import Squiz.FirstSuccessful.Op
import Squiz.Lib.Processes

/-! The invariant of `first_successful_op`: what each child, the stored result and the callers of
`request_stop()` are in every reachable state. -/
namespace Squiz.FirstSuccessful
open Squiz.Lib Squiz.Lib.Word Squiz.Lib.Processes Squiz.Detail

variable {C : Config} {D X : Type}

namespace StartPc

/-- Whether `started_flag` has been set. -/
def published : StartPc C → Bool
  | .deliver | .done => true
  | _ => false

def notLaunched (pc : StartPc C) (i : C.Child) : Prop :=
  match pc with
  | .launch k => k ≤ i
  | _ => False

def position : StartPc C → Option C.Child
  | .stopLoop k => some k
  | _ => none

def delivering : StartPc C → ℕ
  | .deliver => 1
  | _ => 0

end StartPc

def StopPc.requested : StopPc C → Bool
  | .idle => false
  | _ => true

def StopPc.position : StopPc C → Option C.Child
  | .stopLoop k => some k
  | _ => none

namespace ChildPc

def position : ChildPc C D X → Option C.Child
  | .stopLoop k => some k
  | _ => none

/-- The child has found itself the one to deliver the result. -/
def claiming : ChildPc C D X → Bool
  | .inlineSub _ | .storeState _ _ | .deliver _ | .deliverTuple _ | .deliverStored => true
  | _ => false

/-- The winner, before it has stored its value. -/
def preStore : ChildPc C D X → Bool
  | .storeValue _ _ | .setReference => true
  | _ => false

/-- Where a winner is once its value needs no more storing. -/
def settled : ChildPc C D X → Bool
  | .stopLoop _ | .valueSub _ | .done => true
  | pc => pc.claiming

/-- The child has seen that all others have given up their counts. -/
def last : ChildPc C D X → Bool
  | .lastSub | .storeResult _ _ | .resultSub => true
  | _ => false

end ChildPc

/-- A completion may end as this result: as given, or as the exception from storing it. -/
def Completion.Gives (c : Completion D X) (r : Result D X) : Prop :=
  match c with
  | .value vs move => r = .value vs ∨ ∃ x, move = .mayThrow (some x) ∧ r = .exceptionPtr x
  | .signal tag datums move =>
    r = .signal tag datums ∨ ∃ x, move = .mayThrow (some x) ∧ r = .exceptionPtr x

def Result.isValue : Result D X → Bool
  | .value _ => true
  | _ => false

/-- The result that the completions call for: the winner's value, or else the last result. -/
def Correct (winner : Option C.Child) (departed : List C.Child)
    (completion : C.Child → Option (Completion D X)) (r : Result D X) : Prop :=
  match winner with
  | some i => ∃ vs move, completion i = some (.value vs move) ∧ r = .value vs
  | none => ∃ i c, departed.getLast? = some i ∧ completion i = some c ∧ c.Gives r ∧
      r.isValue = false

namespace Op

/-- The child that a caller of `request_stop()` comes to next. -/
def position (start : StartPc C) (stop : StopPc C) (child : C.Child → ChildPc C D X) :
    Caller C → Option C.Child
  | .start => start.position
  | .stop => stop.position
  | .child i => (child i).position

/-- Children that have not given up their count nor found themselves last. -/
abbrev outstanding (s : Op C D X) : ℕ := count ChildPc.held s.child

/-- Threads that have found themselves the one to deliver the result. -/
def delivering (s : Op C D X) : ℕ := s.start.delivering + count ChildPc.claiming s.child

/-- No child is outstanding and `started_flag` is set. -/
def Complete (s : Op C D X) : Prop := s.outstanding = 0 ∧ s.start.published = true

abbrev IsCorrect (s : Op C D X) (r : Result D X) : Prop :=
  Correct s.winner s.departed s.completion r

/-- `result_variant_` leads to the result that is to be delivered. -/
def StoredOk (s : Op C D X) : Prop := ∃ r, s.storedResult = some r ∧ s.IsCorrect r

/-- The winner or `start()` has begun to ask the children to stop. -/
def ByWinner (s : Op C D X) : Prop := ∃ c, s.forwarder = some c ∧ c ≠ .stop

/-- Child `i` completed with a result that is no value, and that storing leaves none. -/
def NonValue (s : Op C D X) (i : C.Child) (r : Result D X) (move : Move X) : Prop :=
  ∃ c, s.completion i = some c ∧ c.Gives r ∧ c.Gives (move.stored r) ∧ r.isValue = false

/-- Child `i` completed, with no value if there is no winner. -/
def Settled (s : Op C D X) (i : C.Child) : Prop :=
  ∃ c, s.completion i = some c ∧
    (s.winner.isSome = true ∨ ∃ r, c.Gives r ∧ r.isValue = false)

/-- Child `i` discards its value: another one has won. -/
def Beaten (s : Op C D X) (i : C.Child) : Prop :=
  (s.completion i).isSome = true ∧ ∃ j, s.winner = some j ∧ j ≠ i

/-- All other children have left the count. -/
def Solo (s : Op C D X) (i : C.Child) : Prop := ∀ j, j ≠ i → (s.child j).held = false

/-- The word of the last child, which completes inline. -/
def InlineWord (s : Op C D X) (w : ℕ) : Prop :=
  ¬ s.ByWinner ∧ ∃ q, w = pack3 1 true false q ∧ (q = true → s.stop.requested = true)

/-- What the program counter `pc` of child `i` says about the state. -/
def ChildOk (s : Op C D X) (i : C.Child) : ChildPc C D X → Prop
  | .notStarted | .running => s.completion i = none
  | .valueLoad vs move => s.completion i = some (.value vs move)
  | .inlineSub vs => s.Settled i ∧ s.winner = some i ∧ s.IsCorrect (.value vs) ∧ s.InlineWord s.word
  | .valueOr vs => s.completion i = some (.value vs .nothrow)
  | .storeValue vs old => s.completion i = some (.value vs .nothrow) ∧ s.winner = some i ∧
      (forwards old = true →
        2 * countIncrement ≤ old ∧ s.start.published = true ∧ s.forwarder = none)
  | .stopLoop _ => s.Settled i ∧ s.winner = some i
  | .storeThrowing vs throws => s.completion i = some (.value vs (.mayThrow throws))
  | .throwingOr => ∃ vs, s.completion i = some (.value vs (.mayThrow none)) ∧
      s.throwingValueResults i = some vs
  | .setReference => s.winner = some i ∧ ∃ vs,
      s.completion i = some (.value vs (.mayThrow none)) ∧ s.throwingValueResults i = some vs
  | .dropThrowing | .discardSub => s.Beaten i
  | .valueSub slot => s.Settled i ∧ s.winner = some i ∧
      s.tupleResult i slot = s.storedResult
  | .resultLoad r move => s.NonValue i r move
  | .resultCas r move old => s.NonValue i r move ∧ 2 * countIncrement ≤ old
  | .lastSub => s.Beaten i ∧ s.Solo i
  | .storeResult r move => s.NonValue i r move ∧ s.winner = none ∧ s.Solo i
  | .resultSub => s.winner = none ∧ s.Solo i ∧
      ∃ c r, s.storedResult = some r ∧ s.completion i = some c ∧ c.Gives r ∧ r.isValue = false
  | .storeState r old => s.Settled i ∧ s.IsCorrect r ∧ s.InlineWord old
  | .deliver r => s.Settled i ∧ s.IsCorrect r
  | .deliverTuple slot => s.Settled i ∧ s.StoredOk ∧ s.tupleResult i slot = s.storedResult
  | .deliverStored => s.Settled i ∧ s.StoredOk
  | .done => s.Settled i

def StartOk (s : Op C D X) : StartPc C → Prop
  | .storeStarted old => old = s.word ∧ s.outstanding = 0
  | .stopLoop _ | .addStarted => s.forwarder = some .start
  | .launch _ | .load => s.forwarder = none
  | .cas old => s.forwarder = none ∧ countIncrement ≤ old ∧ hasFlag old hasValueFlag = false
  | .deliver => s.StoredOk
  | .done => True

/-- Who calls `request_stop()` on the children, and why. -/
def ForwarderOk (s : Op C D X) : Caller C → Prop
  | .start => s.winner.isSome = true
  | .child i => s.winner = some i ∧ s.start.published = true
  | .stop => s.stop.requested = true

/-- Nobody has yet sent the stop requests that the winner calls for. -/
def Owed (s : Op C D X) : Prop :=
  s.forwarder = none ∧ s.winner.isSome = true ∧ s.othersRunning = true ∧ s.lateThrowing = false

structure Inv (s : Op C D X) : Prop where
  word : ¬ s.Complete →
    s.word = pack3 s.outstanding s.start.published s.winner.isSome s.stop.requested
  wordAfter : s.Complete → ∃ c v q, s.word = pack3 c true v q ∧ c ≤ C.children ∧
    (q = true → s.stop.requested = true) ∧ (s.ByWinner → v = true)
  launched : ∀ i, s.child i = .notStarted ↔ s.start.notLaunched i
  child : ∀ i, s.ChildOk i (s.child i)
  departed : s.departed.Nodup ∧ ∀ i, i ∈ s.departed ↔ (s.child i).held = false
  reference : ∀ i, s.resultVariant = some (.reference i) → s.winner = some i
  winner : ∀ i, s.winner = some i → (s.child i).preStore = true ∨
    (s.child i).settled = true ∧ (s.Complete ∨ s.StoredOk)
  lastStored : s.winner = none → s.outstanding = 0 → s.start.published = false → s.StoredOk
  startOk : s.StartOk s.start
  forwarding : Broadcast.Once Caller.target (position s.start s.stop s.child) s.forwarder
    s.stopRequests
  forwarder : ∀ c, s.forwarder = some c → s.ForwarderOk c ∧ ∀ i, ¬ s.start.notLaunched i
  stopAfterStart : s.stop.requested = true → s.start = .done
  stopped : s.stop.requested = true → s.winner = none → ¬ s.Complete → s.forwarder = some .stop
  owed : s.Owed → s.start.published = false ∨ s.foundAllComplete = true ∨
    ∃ i vs old, s.child i = .storeValue vs old ∧ forwards old = true
  delivered : s.Complete → s.delivering + s.delivered.length = 1
  undelivered : ¬ s.Complete → s.delivering = 0 ∧ s.delivered = []
  correct : ∀ r ∈ s.delivered, s.IsCorrect r
  noFault : s.fault = false

variable {s t : Op C D X} {i j : C.Child} {pc : ChildPc C D X}

/-! Where program counters exclude one another. -/

theorem held_of_preStore (h : pc.preStore = true) : pc.held = true := by
  cases pc <;> first | rfl | cases h

theorem not_held_of_claiming (h : pc.claiming = true) : pc.held = false := by
  cases pc <;> first | rfl | cases h

theorem not_claiming_of_held (h : pc.held = true) : pc.claiming = false := by
  cases pc <;> first | rfl | cases h

theorem done_of_not_held (h : pc.held = false) (hc : pc.claiming = false) : pc = .done := by
  cases pc with
  | done => rfl
  | inlineSub vs | storeState r old | deliver r | deliverTuple slot | deliverStored => cases hc
  | _ => cases h

theorem launched_of_published {start : StartPc C} (h : start.published = true) (j : C.Child) :
    ¬ start.notLaunched j := by
  cases start with
  | launch k => cases h
  | _ => exact id

theorem settled_of_not_held (hp : pc.held = false) : pc.settled = true := by
  cases pc with
  | done | inlineSub vs | storeState r old | deliver r | deliverTuple slot | deliverStored => rfl
  | _ => cases hp

theorem not_preStore_of_not_held (h : pc.held = false) : pc.preStore = false := by
  cases pc <;> first | rfl | cases h

theorem ChildOk.solo (h : s.ChildOk i pc) (hl : pc.last = true) : s.Solo i := by
  cases pc with
  | lastSub => exact h.2
  | storeResult r move => exact h.2.2
  | resultSub => exact h.2.1
  | _ => cases hl

/-- Whoever has left the count knows how its child completed. -/
theorem ChildOk.settled (h : s.ChildOk i pc) (hp : pc.held = false) : s.Settled i := by
  cases pc with
  | done => exact h
  | inlineSub vs | storeState r old | deliver r | deliverTuple slot | deliverStored => exact h.1
  | _ => cases hp

theorem outstanding_le (s : Op C D X) : s.outstanding ≤ C.children := by
  have h := count_le_card (p := ChildPc.held) (f := s.child)
  rwa [Fintype.card_fin] at h

theorem not_complete (h : (s.child i).held = true) : ¬ s.Complete := by
  intro hc
  have hpos : 1 ≤ s.outstanding := count_pos h
  have hzero : s.outstanding = 0 := hc.1
  omega

namespace Inv

theorem not_claiming (hi : s.Inv) (hnc : ¬ s.Complete) (j : C.Child) :
    (s.child j).claiming = false := by
  have hd : s.delivering = 0 := (hi.undelivered hnc).1
  unfold delivering at hd
  exact count_eq_zero.mp (by omega) j

theorem complete_of_claiming (hi : s.Inv) (h : (s.child i).claiming = true) : s.Complete := by
  by_contra hnc
  have := hi.not_claiming hnc i
  rw [h] at this
  cases this

/-- Beside a child that is outstanding, nobody delivers or has found itself last. -/
theorem plain_other (hi : s.Inv) (h : (s.child i).held = true) (hj : j ≠ i) :
    (s.child j).claiming = false ∧ (s.child j).last = false := by
  refine ⟨hi.not_claiming (not_complete h) j, ?_⟩
  by_contra hl
  have hsolo := (hi.child j).solo (by simpa using hl)
  have hfalse := hsolo i (Ne.symm hj)
  rw [h] at hfalse
  cases hfalse

/-! What the word shows while some child is outstanding or `start()` has not finished. -/

section Word
variable (hi : s.Inv) (hnc : ¬ s.Complete)
include hi hnc

theorem started_eq : hasFlag s.word startedFlag = s.start.published := by
  rw [hi.word hnc]
  exact hasFlag_pack3_one _ _ _ _

theorem value_eq : hasFlag s.word hasValueFlag = s.winner.isSome := by
  rw [hi.word hnc]
  exact hasFlag_pack3_two _ _ _ _

theorem stop_eq : hasFlag s.word stopRequestedFlag = s.stop.requested := by
  rw [hi.word hnc]
  exact hasFlag_pack3_four _ _ _ _

theorem countIncrement_le : countIncrement ≤ s.word ↔ 1 ≤ s.outstanding := by
  have h := mul_eight_le_pack3 (n := s.outstanding) (d := 1) s.start.published
    s.winner.isSome s.stop.requested
  rwa [← hi.word hnc] at h

theorem twice_countIncrement_le : 2 * countIncrement ≤ s.word ↔ 2 ≤ s.outstanding := by
  have h := mul_eight_le_pack3 (n := s.outstanding) (d := 2) s.start.published
    s.winner.isSome s.stop.requested
  rwa [← hi.word hnc] at h

theorem word_lt : s.word < 2 ^ C.stateBits := by
  rw [hi.word hnc]
  exact Arity.pack3_lt_bits s.outstanding_le _ _ _

theorem canCompleteInline_iff :
    canCompleteInline s.word = true ↔ s.outstanding < 2 ∧ s.start.published = true := by
  unfold canCompleteInline
  rw [hi.started_eq hnc, Bool.and_eq_true, decide_eq_true_eq, ← not_le,
    hi.twice_countIncrement_le hnc, not_le]

end Word

/-- Once all others have left the count, a winner among them has stored its value. -/
theorem storedOk_of_winner (hi : s.Inv) (hnc : ¬ s.Complete) (hw : s.winner = some j)
    (hj : (s.child j).held = false) : s.StoredOk := by
  rcases hi.winner j hw with hpre | ⟨-, hc | hstored⟩
  · rw [not_preStore_of_not_held hj] at hpre
    cases hpre
  · exact absurd hc hnc
  · exact hstored

end Inv

/-- What a child's program counter says is not affected by the steps of another child that is
outstanding. -/
theorem ChildOk.frame (h : s.ChildOk j pc) (hclaim : pc.claiming = false) (hlast : pc.last = false)
    (hcompletion : t.completion j = s.completion j)
    (hthrowing : t.throwingValueResults j = s.throwingValueResults j)
    (hwinner : t.winner = s.winner ∨ s.winner = none)
    (hstored : s.winner = some j → t.storedResult = s.storedResult)
    (hstart : s.start.published = true → t.start.published = true)
    (hforwarder : s.winner = some j → s.forwarder = none → t.forwarder = none) :
    t.ChildOk j pc := by
  have hwin : ∀ k, s.winner = some k → t.winner = some k := by
    intro k hk
    rcases hwinner with hsame | hnone
    · exact hsame.trans hk
    · rw [hnone] at hk
      cases hk
  have hsettled : s.Settled j → t.Settled j := by
    rintro ⟨c, hc, hr⟩
    refine ⟨c, hcompletion.trans hc, hr.imp_left fun hsome => ?_⟩
    obtain ⟨k, hk⟩ := Option.isSome_iff_exists.mp hsome
    rw [hwin k hk]
    rfl
  have hbeaten : s.Beaten j → t.Beaten j := by
    rintro ⟨hc, k, hk, hne⟩
    exact ⟨hcompletion ▸ hc, k, hwin k hk, hne⟩
  cases pc with
  | notStarted | running | valueLoad vs move | valueOr vs | storeThrowing vs throws =>
    exact hcompletion.trans h
  | storeValue vs old =>
    obtain ⟨hc, hw, hold⟩ := h
    refine ⟨hcompletion.trans hc, hwin j hw, fun hfwd => ?_⟩
    obtain ⟨hle, hpub, hnone⟩ := hold hfwd
    exact ⟨hle, hstart hpub, hforwarder hw hnone⟩
  | stopLoop k => exact ⟨hsettled h.1, hwin j h.2⟩
  | throwingOr =>
    obtain ⟨vs, hc, hv⟩ := h
    exact ⟨vs, hcompletion.trans hc, hthrowing.trans hv⟩
  | setReference =>
    obtain ⟨hw, vs, hc, hv⟩ := h
    exact ⟨hwin j hw, vs, hcompletion.trans hc, hthrowing.trans hv⟩
  | dropThrowing | discardSub => exact hbeaten h
  | valueSub slot =>
    obtain ⟨hs, hw, htuple⟩ := h
    refine ⟨hsettled hs, hwin j hw, ?_⟩
    cases slot with
    | variant => rfl
    | throwing =>
      rw [hstored hw, ← htuple]
      simp only [tupleResult, hthrowing]
  | resultLoad r move =>
    obtain ⟨c, hc, hr⟩ := h
    exact ⟨c, hcompletion.trans hc, hr⟩
  | resultCas r move old =>
    obtain ⟨⟨c, hc, hr⟩, hle⟩ := h
    exact ⟨⟨c, hcompletion.trans hc, hr⟩, hle⟩
  | done => exact hsettled h
  | lastSub | storeResult r move | resultSub => cases hlast
  | inlineSub vs | storeState r old | deliver r | deliverTuple slot | deliverStored => cases hclaim

/-- What a step of child `i`, outstanding before it, leaves alone: it may win, write the stored
result if nobody else has won, and begin to forward. -/
structure Moves (s t : Op C D X) (i : C.Child) (pc : ChildPc C D X) : Prop where
  held : (s.child i).held = true
  started : s.child i ≠ .notStarted
  child : t.child = Function.update s.child i pc
  start : t.start = s.start
  stop : t.stop = s.stop
  delivered : t.delivered = s.delivered
  foundAllComplete : t.foundAllComplete = s.foundAllComplete
  completion : ∀ j, j ≠ i → t.completion j = s.completion j
  throwing : ∀ j, j ≠ i → t.throwingValueResults j = s.throwingValueResults j
  winner : t.winner = s.winner ∨ s.winner = none ∧ t.winner = some i
  stored : ∀ j, j ≠ i → s.winner = some j → t.resultVariant = s.resultVariant
  ghosts : s.winner.isSome = true →
    t.othersRunning = s.othersRunning ∧ t.lateThrowing = s.lateThrowing
  forwarder : t.forwarder = s.forwarder ∨
    s.forwarder = none ∧ s.start.published = true ∧ t.winner = some i ∧
      t.forwarder = some (.child i)

namespace Moves
variable (hm : Moves s t i pc)
include hm

theorem not_complete : ¬ s.Complete := Op.not_complete hm.held

theorem winner_of_ne (hj : j ≠ i) (hw : t.winner = some j) : s.winner = some j := by
  rcases hm.winner with hsame | ⟨-, hnew⟩
  · exact hsame.symm.trans hw
  · rw [hnew] at hw
    exact absurd (Option.some.inj hw).symm hj

/-- A result stored by another winner stays. -/
theorem storedResult_eq (hi : s.Inv) (hj : j ≠ i) (hw : s.winner = some j) :
    t.storedResult = s.storedResult := by
  unfold storedResult
  rw [hm.stored j hj hw]
  cases hr : s.resultVariant with
  | none => rfl
  | some stored =>
    cases stored with
    | result r => rfl
    | reference k =>
      have hk : j = k := Option.some.inj (hw.symm.trans (hi.reference k hr))
      subst k
      simp only [hm.throwing j hj]

theorem storedOk (hi : s.Inv) (hj : j ≠ i) (hw : s.winner = some j) (h : s.StoredOk) :
    t.StoredOk := by
  obtain ⟨r, hr, hc⟩ := h
  refine ⟨r, (hm.storedResult_eq hi hj hw).trans hr, ?_⟩
  have hwt : t.winner = some j := by
    rcases hm.winner with hsame | ⟨hnone, -⟩
    · exact hsame.trans hw
    · rw [hw] at hnone
      cases hnone
  unfold IsCorrect Correct at hc ⊢
  rw [hw] at hc
  rw [hwt]
  obtain ⟨vs, move, hcomp, rfl⟩ := hc
  exact ⟨vs, move, (hm.completion j hj).trans hcomp, rfl⟩

theorem child_other (hi : s.Inv) (hj : j ≠ i) : t.ChildOk j (t.child j) := by
  have hcj : t.child j = s.child j := by rw [hm.child, Function.update_of_ne hj]
  obtain ⟨hclaim, hlast⟩ := hi.plain_other hm.held hj
  rw [hcj]
  refine (hi.child j).frame hclaim hlast (hm.completion j hj) (hm.throwing j hj) ?_
    (fun hw => hm.storedResult_eq hi hj hw) (fun h => hm.start ▸ h) ?_
  · rcases hm.winner with hsame | ⟨hnone, -⟩
    · exact .inl hsame
    · exact .inr hnone
  · intro hw hnone
    rcases hm.forwarder with hsame | ⟨-, -, hwi, -⟩
    · exact hsame.trans hnone
    · -- the forwarding child would be a second winner
      rcases hm.winner with hsame | ⟨hnone', -⟩
      · have : j = i := Option.some.inj (hw.symm.trans (hsame.symm.trans hwi))
        exact absurd this hj
      · rw [hw] at hnone'
        cases hnone'

theorem forwarder_ok (hi : s.Inv) (c : Caller C) (hc : t.forwarder = some c) :
    t.ForwarderOk c ∧ ∀ j, ¬ t.start.notLaunched j := by
  rw [hm.start]
  rcases hm.forwarder with hsame | ⟨-, hpub, hwi, hnew⟩
  · obtain ⟨hok, hl⟩ := hi.forwarder c (hsame.symm.trans hc)
    refine ⟨?_, hl⟩
    have hkeep : ∀ k, s.winner = some k → t.winner = some k := by
      intro k hk
      rcases hm.winner with hw | ⟨hnone, -⟩
      · exact hw.trans hk
      · rw [hk] at hnone
        cases hnone
    cases c with
    | start =>
      obtain ⟨k, hk⟩ := Option.isSome_iff_exists.mp hok
      exact Option.isSome_iff_exists.mpr ⟨k, hkeep k hk⟩
    | stop => exact (congrArg StopPc.requested hm.stop).trans hok
    | child k => exact ⟨hkeep k hok.1, hm.start ▸ hok.2⟩
  · cases hnew.symm.trans hc
    exact ⟨⟨hwi, hm.start ▸ hpub⟩, launched_of_published hpub⟩

theorem outstanding_stay (hp : pc.held = true) : t.outstanding = s.outstanding := by
  unfold outstanding
  rw [hm.child]
  exact count_update_same (hp.trans hm.held.symm)

theorem outstanding_leave (hp : pc.held = false) : t.outstanding + 1 = s.outstanding := by
  unfold outstanding
  rw [hm.child]
  exact count_update_leave hm.held hp

theorem launched (hi : s.Inv) (hp : pc ≠ .notStarted) (j : C.Child) :
    t.child j = .notStarted ↔ t.start.notLaunched j := by
  rw [hm.child, hm.start]
  by_cases hj : j = i
  · subst j
    have hstarted := (hi.launched i).not.mp hm.started
    simp [hp, hstarted]
  · simpa only [Function.update_of_ne hj] using hi.launched j

/-- `start()` has not finished, so its own part is as before. -/
theorem startOk (hi : s.Inv) : t.StartOk t.start := by
  have hok := hi.startOk
  have hpos : 1 ≤ s.outstanding := count_pos hm.held
  have hkeep : s.forwarder = none → s.start.published = false → t.forwarder = none := by
    intro hnone hpub
    rcases hm.forwarder with hsame | ⟨-, hp, -⟩
    · exact hsame.trans hnone
    · rw [hpub] at hp
      cases hp
  rw [hm.start]
  cases hpc : s.start with
  | storeStarted old =>
    rw [hpc] at hok
    have hzero := hok.2
    omega
  | stopLoop k | addStarted =>
    rw [hpc] at hok
    rcases hm.forwarder with hsame | ⟨hnone, -⟩
    · exact hsame.trans hok
    · rw [show s.forwarder = some .start from hok] at hnone
      cases hnone
  | cas old =>
    rw [hpc] at hok
    exact ⟨hkeep hok.1 (by rw [hpc]; rfl), hok.2⟩
  | deliver =>
    have hd := (hi.undelivered hm.not_complete).1
    simp only [delivering, hpc, StartPc.delivering] at hd
    omega
  | launch k | load =>
    rw [hpc] at hok
    exact hkeep hok (by rw [hpc]; rfl)
  | done => trivial

theorem owed_before (hw : s.winner.isSome = true) (ho : t.Owed) : s.Owed := by
  obtain ⟨hf, -, hother, hlate⟩ := ho
  obtain ⟨h1, h2⟩ := hm.ghosts hw
  refine ⟨?_, hw, h1.symm.trans hother, h2.symm.trans hlate⟩
  rcases hm.forwarder with hsame | ⟨hnone, -⟩
  · exact hsame.symm.trans hf
  · exact hnone

/-- The stop requests still owed, unless child `i` has only now come to owe them. -/
theorem owed (hi : s.Inv) (hold : ∀ vs old, s.child i = .storeValue vs old →
      forwards old = true → ¬ t.Owed)
    (hnew : s.winner = none → t.winner = some i → t.Owed → s.start.published = true →
      ∃ vs old, pc = .storeValue vs old ∧ forwards old = true) (ho : t.Owed) :
    t.start.published = false ∨ t.foundAllComplete = true ∨
      ∃ k vs old, t.child k = .storeValue vs old ∧ forwards old = true := by
  rw [hm.start, hm.foundAllComplete]
  cases hw : s.winner with
  | none =>
    have hwt : t.winner = some i := by
      rcases hm.winner with hsame | ⟨-, hnew⟩
      · have := ho.2.1
        rw [hsame, hw] at this
        cases this
      · exact hnew
    cases hpub : s.start.published with
    | false => exact .inl rfl
    | true =>
      obtain ⟨vs, old, hpc, hfwd⟩ := hnew hw hwt ho hpub
      exact .inr (.inr ⟨i, vs, old, by rw [hm.child, Function.update_self, hpc], hfwd⟩)
  | some j =>
    rcases hi.owed (hm.owed_before (by rw [hw]; rfl) ho) with h | h | ⟨k, vs, old, hk, hfwd⟩
    · exact .inl h
    · exact .inr (.inl h)
    · by_cases hki : k = i
      · subst k
        exact absurd ho (hold vs old hk hfwd)
      · exact .inr (.inr ⟨k, vs, old, by rw [hm.child, Function.update_of_ne hki, hk], hfwd⟩)

theorem stopped (hi : s.Inv) (hr : t.stop.requested = true) (hw : t.winner = none) :
    t.forwarder = some .stop := by
  rw [hm.stop] at hr
  have hws : s.winner = none := by
    rcases hm.winner with hsame | ⟨hnone, -⟩
    · exact hsame.symm.trans hw
    · exact hnone
  have hf := hi.stopped hr hws hm.not_complete
  rcases hm.forwarder with hsame | ⟨hnone, -⟩
  · exact hsame.trans hf
  · rw [hf] at hnone
    cases hnone

theorem children (hi : s.Inv) (hchild : t.ChildOk i pc) (j : C.Child) :
    t.ChildOk j (t.child j) := by
  by_cases hj : j = i
  · subst j
    rw [hm.child, Function.update_self]
    exact hchild
  · exact hm.child_other hi hj

theorem winner_ok (hi : s.Inv)
    (hwinner : t.winner = some i → pc.preStore = true ∨
      pc.settled = true ∧ (t.Complete ∨ t.StoredOk)) (hw : t.winner = some j) :
    (t.child j).preStore = true ∨ (t.child j).settled = true ∧ (t.Complete ∨ t.StoredOk) := by
  by_cases hj : j = i
  · subst j
    rw [hm.child, Function.update_self]
    exact hwinner hw
  · rw [hm.child, Function.update_of_ne hj]
    have hws := hm.winner_of_ne hj hw
    rcases hi.winner j hws with hpre | ⟨hset, hc | hstored⟩
    · exact .inl hpre
    · exact absurd hc hm.not_complete
    · exact .inr ⟨hset, .inr (hm.storedOk hi hj hws hstored)⟩

theorem delivering_eq (hi : s.Inv) :
    t.delivering = if pc.claiming = true then 1 else 0 := by
  have hnc := hm.not_complete
  have hd := (hi.undelivered hnc).1
  have hcount : count ChildPc.claiming t.child =
      count ChildPc.claiming s.child + if pc.claiming = true then 1 else 0 := by
    rw [hm.child]
    split_ifs with h
    · exact count_update_enter (hi.not_claiming hnc i) h
    · exact count_update_same (by rw [hi.not_claiming hnc i]; simpa using h)
  unfold delivering at hd ⊢
  rw [hcount, hm.start]
  omega

/-- A child that stays outstanding keeps the invariant. -/
theorem inv_stay (hi : s.Inv) (hp : pc.held = true) (hns : pc ≠ .notStarted)
    (hdeparted : t.departed = s.departed)
    (hword : t.word = pack3 s.outstanding s.start.published t.winner.isSome s.stop.requested)
    (hchild : t.ChildOk i pc)
    (hreference : ∀ j, t.resultVariant = some (.reference j) → t.winner = some j)
    (hwinner : t.winner = some i → pc.preStore = true ∨ pc.settled = true ∧ t.StoredOk)
    (hforwarding : Broadcast.Once Caller.target (position t.start t.stop t.child) t.forwarder
      t.stopRequests)
    (hold : ∀ vs old, s.child i = .storeValue vs old → forwards old = true → ¬ t.Owed)
    (hnew : s.winner = none → t.winner = some i → t.Owed → s.start.published = true →
      ∃ vs old, pc = .storeValue vs old ∧ forwards old = true)
    (hfault : t.fault = false) : t.Inv := by
  have hnc := hm.not_complete
  have hout := hm.outstanding_stay hp
  have hpos : 1 ≤ s.outstanding := count_pos hm.held
  have hnct : ¬ t.Complete := by
    rintro ⟨hzero, -⟩
    omega
  obtain ⟨-, hnil⟩ := hi.undelivered hnc
  have hnd : t.delivering = 0 := by
    rw [hm.delivering_eq hi, not_claiming_of_held hp]
    rfl
  refine ⟨fun _ => ?_, fun h => absurd h hnct, hm.launched hi hns, hm.children hi hchild, ?_,
    hreference, fun j => hm.winner_ok hi fun hw => ?_, fun _ hzero => ?_,
    hm.startOk hi, hforwarding, hm.forwarder_ok hi, ?_, fun hr hw _ => hm.stopped hi hr hw,
    hm.owed hi hold hnew, fun h => absurd h hnct, fun _ => ⟨hnd, hm.delivered.trans hnil⟩, ?_,
    hfault⟩
  · rw [hout, hm.start, hm.stop]
    exact hword
  · rw [hdeparted]
    refine ⟨hi.departed.1, fun j => (hi.departed.2 j).trans ?_⟩
    rw [hm.child]
    by_cases hj : j = i
    · subst j
      rw [Function.update_self, hm.held, hp]
    · rw [Function.update_of_ne hj]
  · exact (hwinner hw).imp_right fun h => ⟨h.1, .inr h.2⟩
  · omega
  · rw [hm.start, hm.stop]
    exact hi.stopAfterStart
  · rw [hm.delivered, hnil]
    intro r hr
    cases hr

/-- A child that leaves the count keeps the invariant. -/
theorem inv_leave (hi : s.Inv) (hp : pc.held = false)
    (hposition : (s.child i).position = none) (hnostore : (s.child i).preStore = false)
    (hdeparted : t.departed = s.departed ++ [i])
    (hclaim : pc.claiming = true ↔ t.outstanding = 0 ∧ s.start.published = true)
    (hword : ¬ t.Complete →
      t.word = pack3 t.outstanding s.start.published t.winner.isSome s.stop.requested)
    (hwordAfter : t.Complete → ∃ c v q, t.word = pack3 c true v q ∧ c ≤ C.children ∧
      (q = true → s.stop.requested = true) ∧ (t.ByWinner → v = true))
    (hchild : t.ChildOk i pc)
    (hreference : ∀ j, t.resultVariant = some (.reference j) → t.winner = some j)
    (hwinner : t.winner = some i → t.Complete ∨ t.StoredOk)
    (hlast : t.winner = none → t.outstanding = 0 → s.start.published = false → t.StoredOk)
    (hforwarder : t.forwarder = s.forwarder) (hcalls : t.stopRequests = s.stopRequests)
    (hnew : s.winner = none → t.winner = some i → t.othersRunning = false)
    (hfault : t.fault = false) : t.Inv := by
  have hnc := hm.not_complete
  obtain ⟨-, hnil⟩ := hi.undelivered hnc
  have hcomplete : t.Complete ↔ pc.claiming = true := by
    rw [hclaim, Complete, hm.start]
  have hns : pc ≠ .notStarted := by
    intro h
    subst h
    cases hp
  have hpos : pc.position = none := by
    cases pc with
    | done | inlineSub vs | storeState r old | deliver r | deliverTuple slot | deliverStored => rfl
    | _ => cases hp
  refine ⟨?_, ?_, hm.launched hi hns, hm.children hi hchild, ?_,
    hreference, fun j => hm.winner_ok hi fun hw => .inr ⟨settled_of_not_held hp, hwinner hw⟩, ?_,
    hm.startOk hi, ?_, hm.forwarder_ok hi, ?_, fun hr hw _ => hm.stopped hi hr hw,
    hm.owed hi ?_ ?_, fun h => ?_, fun h => ⟨?_, hm.delivered.trans hnil⟩, ?_, hfault⟩
  · rw [hm.start, hm.stop]
    exact hword
  · rw [hm.stop]
    exact hwordAfter
  · obtain ⟨hnodup, hmem⟩ := hi.departed
    have hnot : i ∉ s.departed := by
      rw [hmem i, hm.held]
      simp
    rw [hdeparted, hm.child]
    refine ⟨?_, fun j => ?_⟩
    · rw [List.nodup_append]
      refine ⟨hnodup, List.nodup_singleton i, ?_⟩
      intro a ha b hb
      rw [List.mem_singleton] at hb
      subst hb
      exact fun h => hnot (h ▸ ha)
    · rw [List.mem_append, List.mem_singleton, hmem j]
      by_cases hj : j = i
      · subst j
        simp [hp]
      · simp [hj]
  · rw [hm.start]
    exact hlast
  · rw [hforwarder, hcalls]
    refine hi.forwarding.congr fun c => ?_
    rw [hm.start, hm.stop, hm.child]
    cases c with
    | start | stop => rfl
    | child j =>
      by_cases hj : j = i
      · subst j
        simp only [position, Function.update_self, hpos, hposition]
      · simp only [position, Function.update_of_ne hj]
  · rw [hm.start, hm.stop]
    exact hi.stopAfterStart
  · intro vs old hpc
    rw [hpc] at hnostore
    cases hnostore
  · intro hw hwt ho
    have hrunning := ho.2.2.1
    rw [hnew hw hwt] at hrunning
    cases hrunning
  · rw [hm.delivering_eq hi, if_pos (hcomplete.mp h), hm.delivered, hnil]
    rfl
  · rw [hm.delivering_eq hi, if_neg (hcomplete.not.mp h)]
  · rw [hm.delivered, hnil]
    intro r hr
    cases hr

end Moves

end Op
end Squiz.FirstSuccessful
