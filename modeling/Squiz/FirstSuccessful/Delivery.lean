import Squiz.FirstSuccessful.Steps

/-! The steps of `first_successful_op` that deliver the result, those of `start()` and of the outer
`request_stop()`, and the invariant of every run. -/
namespace Squiz.FirstSuccessful
open Squiz.Lib Squiz.Lib.Word Squiz.Lib.Processes Squiz.Detail

variable {C : Config} {D X : Type}

namespace Op
variable {s t : Op C D X} {i j : C.Child} {p : ChildPc C D X}

/-! The child that delivers. -/

/-- Beside the child that delivers, every other has returned, and so has `start()`. -/
theorem Inv.alone (hi : s.Inv) (hc : (s.child i).claiming = true) :
    s.Complete ∧ s.delivered = [] ∧ s.start = .done ∧ ∀ j, j ≠ i → s.child j = .done := by
  have hcomplete := hi.complete_of_claiming hc
  have hone := hi.delivered hcomplete
  have hpos : 1 ≤ count ChildPc.claiming s.child := count_pos hc
  unfold delivering at hone
  refine ⟨hcomplete, List.length_eq_zero_iff.mp (by omega), ?_, ?_⟩
  · have hpub := hcomplete.2
    cases hs : s.start with
    | done => rfl
    | deliver =>
      simp only [hs, StartPc.delivering] at hone
      omega
    | _ =>
      rw [hs] at hpub
      cases hpub
  · intro j hj
    exact done_of_not_held (count_eq_zero.mp hcomplete.1 j)
      (others_of_count_le_one (by omega) hc hj)

/-- The delivering child goes on: it may write the word and complete the receiver. -/
theorem Inv.deliveringStep (hi : s.Inv) (hc : (s.child i).claiming = true) (hp : p.held = false)
    {w : ℕ} {d : List (Result D X)}
    (hword : ∃ c v q, w = pack3 c true v q ∧ c ≤ C.children ∧
      (q = true → s.stop.requested = true) ∧ (s.ByWinner → v = true))
    (hchild : ChildOk { s.setChild i p with word := w, delivered := d } i p)
    (hcount : (if p.claiming = true then 1 else 0) + d.length = 1)
    (hcorrect : ∀ r ∈ d, s.IsCorrect r) :
    Inv { s.setChild i p with word := w, delivered := d } := by
  obtain ⟨hcomplete, hnil, hdone, hothers⟩ := hi.alone hc
  have hheld := not_held_of_claiming hc
  have hout : count ChildPc.held (Function.update s.child i p) = s.outstanding :=
    count_update_same (by rw [hp, hheld])
  have hct : Complete { s.setChild i p with word := w, delivered := d } :=
    ⟨hout.trans hcomplete.1, hcomplete.2⟩
  have hpos : (s.child i).position = none := by
    cases hpc : s.child i <;> first | rfl | (rw [hpc] at hc; cases hc)
  have hpos' : p.position = none := by
    cases p <;> first | rfl | cases hp
  have hnl : ∀ k, ¬ s.start.notLaunched k := launched_of_published hcomplete.2
  refine ⟨fun h => absurd hct h, fun _ => hword, ?_, ?_, ?_, hi.reference, ?_, ?_, ?_, ?_,
    hi.forwarder, hi.stopAfterStart, fun _ _ h => absurd hct h, ?_, fun _ => ?_,
    fun h => absurd hct h, hcorrect, hi.noFault⟩
  · intro k
    refine iff_of_false ?_ (hnl k)
    by_cases hk : k = i
    · subst k
      simp only [setChild, Function.update_self]
      intro h
      subst h
      cases hp
    · simp only [setChild, Function.update_of_ne hk, hothers k hk]
      simp
  · intro k
    by_cases hk : k = i
    · subst k
      simp only [setChild, Function.update_self]
      exact hchild
    · have hok := hi.child k
      rw [hothers k hk] at hok
      simp only [setChild, Function.update_of_ne hk, hothers k hk]
      exact hok
  · refine ⟨hi.departed.1, fun k => (hi.departed.2 k).trans ?_⟩
    by_cases hk : k = i
    · subst k
      simp [setChild, hheld, hp]
    · simp [setChild, hk]
  · intro k hw
    by_cases hk : k = i
    · subst k
      simp only [setChild, Function.update_self]
      exact .inr ⟨settled_of_not_held hp, .inl hct⟩
    · simp only [setChild, Function.update_of_ne hk]
      rcases hi.winner k hw with hpre | ⟨hset, -⟩
      · exact .inl hpre
      · exact .inr ⟨hset, .inl hct⟩
  · intro _ _ hnot
    have hpub : s.start.published = false := hnot
    rw [hcomplete.2] at hpub
    cases hpub
  · simp only [setChild, hdone]
    trivial
  · refine hi.forwarding.congr fun e => ?_
    cases e with
    | start | stop => rfl
    | child k =>
      by_cases hk : k = i
      · subst k
        simp only [setChild, position, Function.update_self, hpos, hpos']
      · simp only [setChild, position, Function.update_of_ne hk]
  · intro ho
    rcases hi.owed ho with h | h | ⟨k, vs, old, hk, -⟩
    · exact .inl h
    · exact .inr (.inl h)
    · exact absurd hcomplete (Op.not_complete (i := k) (by rw [hk]; rfl))
  · have hzero : count ChildPc.claiming (Function.update s.child i p) =
        if p.claiming = true then 1 else 0 := by
      have hone := hi.delivered hcomplete
      unfold delivering at hone
      rw [hdone, hnil] at hone
      simp only [StartPc.delivering, List.length_nil] at hone
      split_ifs with h
      · rw [count_update_same (h.trans hc.symm)]
        omega
      · have := count_update_leave (f := s.child) (i := i) hc (by simpa using h)
        omega
    simp only [setChild, delivering, hdone, hzero, StartPc.delivering]
    omega

theorem pack3_inlineSub (q : Bool) : pack3 1 true false q - 6 = pack3 0 true true q := by
  cases q <;> decide

theorem InlineWord.lt {w : ℕ} (h : s.InlineWord w) :
    countIncrement ≤ w ∧ w < 2 ^ C.stateBits := by
  obtain ⟨-, q, rfl, -⟩ := h
  have hle := C.two_le
  refine ⟨?_, Arity.pack3_lt_bits (by omega) _ _ _⟩
  cases q <;> decide

theorem Inv.inlineSubStep (hi : s.Inv) {vs : List D} (hpc : s.child i = .inlineSub vs) :
    Inv { s.setChild i (.deliver (.value vs)) with
      word := fetchSub C.stateBits s.word (countIncrement - hasValueFlag) } := by
  have hc : (s.child i).claiming = true := by rw [hpc]; rfl
  have hok := hi.child i
  rw [hpc] at hok
  obtain ⟨hsettled, hw, hcorrect, hin⟩ := hok
  obtain ⟨hge, hlt⟩ := hin.lt
  obtain ⟨hby, q, hword, hq⟩ := hin
  have hnil := (hi.alone hc).2.1
  refine hi.deliveringStep (p := .deliver (.value vs)) hc rfl ⟨0, true, q, ?_, Nat.zero_le _, hq,
    fun _ => rfl⟩ ⟨hsettled, hcorrect⟩ (by simp [setChild, hnil, ChildPc.claiming]) hi.correct
  have hsix : countIncrement - hasValueFlag = 6 := rfl
  have h8 : countIncrement = 8 := rfl
  rw [fetchSub_of_le (by omega) hlt, hsix, hword]
  exact pack3_inlineSub q

theorem Inv.storeStateStep (hi : s.Inv) {r : Result D X} {old : ℕ}
    (hpc : s.child i = .storeState r old) :
    Inv { s.setChild i (.deliver r) with
      word := fetchSub C.stateBits old countIncrement } := by
  have hc : (s.child i).claiming = true := by rw [hpc]; rfl
  have hok := hi.child i
  rw [hpc] at hok
  obtain ⟨hsettled, hcorrect, hin⟩ := hok
  obtain ⟨hge, hlt⟩ := hin.lt
  obtain ⟨hby, q, hword, hq⟩ := hin
  have hnil := (hi.alone hc).2.1
  refine hi.deliveringStep (p := .deliver r) hc rfl ⟨0, false, q, ?_, Nat.zero_le _, hq,
    fun h => absurd h hby⟩ ⟨hsettled, hcorrect⟩ (by simp [setChild, hnil, ChildPc.claiming])
    hi.correct
  rw [fetchSub_of_le hge hlt, hword]
  exact pack3_sub_eight 0 true false q

/-- The receiver is completed by a child that holds the right result. -/
theorem Inv.childDeliver (hi : s.Inv) (hc : (s.child i).claiming = true)
    {r : Result D X} (hcorrect : s.IsCorrect r) :
    ((s.deliverFrom (some r)).setChild i .done).Inv := by
  obtain ⟨hcomplete, hnil, -, -⟩ := hi.alone hc
  have hsettled := (hi.child i).settled (not_held_of_claiming hc)
  refine hi.deliveringStep (p := .done) hc rfl (hi.wordAfter hcomplete) hsettled ?_ ?_
  · simp [deliverFrom, hnil, ChildPc.claiming]
  · intro r' hr'
    simp only [deliverFrom, hnil, List.nil_append, List.mem_singleton] at hr'
    rw [hr']
    exact hcorrect

theorem Inv.deliverStep (hi : s.Inv) {r : Result D X} (hpc : s.child i = .deliver r) :
    ((s.deliverFrom (some r)).setChild i .done).Inv := by
  have hok := hi.child i
  rw [hpc] at hok
  exact hi.childDeliver (by rw [hpc]; rfl) hok.2

theorem Inv.deliverTupleStep (hi : s.Inv) {slot : Slot} (hpc : s.child i = .deliverTuple slot) :
    ((s.deliverFrom (s.tupleResult i slot)).setChild i .done).Inv := by
  have hok := hi.child i
  rw [hpc] at hok
  obtain ⟨-, ⟨r, hr, hcorrect⟩, htuple⟩ := hok
  rw [htuple, hr]
  exact hi.childDeliver (by rw [hpc]; rfl) hcorrect

theorem Inv.deliverStoredStep (hi : s.Inv) (hpc : s.child i = .deliverStored) :
    ((s.deliverFrom s.storedResult).setChild i .done).Inv := by
  have hok := hi.child i
  rw [hpc] at hok
  obtain ⟨-, r, hr, hcorrect⟩ := hok
  rw [hr]
  exact hi.childDeliver (by rw [hpc]; rfl) hcorrect

theorem Inv.childStep (hi : s.Inv) {spurious : Bool}
    (ht : s.step (.child i spurious) = some t) : t.Inv := by
  simp only [Op.step, Op.childStep] at ht
  split at ht
  · next vs move hpc =>
    cases ht
    exact hi.valueLoadStep hpc
  · next vs hpc =>
    cases ht
    exact hi.inlineSubStep hpc
  · next vs hpc =>
    cases ht
    exact hi.valueOrStep hpc
  · next vs old hpc =>
    cases ht
    exact hi.storeValueStep hpc
  · next k hpc =>
    cases ht
    exact hi.stopLoopStep hpc
  · next vs hpc =>
    cases ht
    exact hi.storeThrowingStep hpc
  · next vs x hpc =>
    cases ht
    exact hi.storeThrowsStep hpc
  · next hpc =>
    cases ht
    exact hi.throwingOrStep hpc
  · next hpc =>
    cases ht
    exact hi.setReferenceStep hpc
  · next hpc =>
    cases ht
    exact hi.dropThrowingStep hpc
  · next slot hpc =>
    cases ht
    exact hi.valueSubStep hpc
  · next hpc =>
    cases ht
    exact hi.discardSubStep hpc
  · next r move hpc =>
    cases ht
    have hok := hi.child i
    rw [hpc] at hok
    exact hi.resultLoopStep (by rw [hpc]; rfl) hok
  · next r move old hpc =>
    by_cases hcas : s.word = old ∧ spurious = false
    · rw [if_pos hcas] at ht
      cases ht
      exact hi.resultCasStep hpc hcas.1
    · rw [if_neg hcas] at ht
      cases ht
      have hok := hi.child i
      rw [hpc] at hok
      exact hi.resultLoopStep (by rw [hpc]; rfl) hok.1
  · next hpc =>
    cases ht
    exact hi.lastSubStep hpc
  · next r move hpc =>
    cases ht
    exact hi.storeResultStep hpc
  · next hpc =>
    cases ht
    exact hi.resultSubStep hpc
  · next r old hpc =>
    cases ht
    exact hi.storeStateStep hpc
  · next r hpc =>
    cases ht
    exact hi.deliverStep hpc
  · next slot hpc =>
    cases ht
    exact hi.deliverTupleStep hpc
  · next hpc =>
    cases ht
    exact hi.deliverStoredStep hpc
  all_goals cases ht

/-! `start()` -/

/-- What a child's program counter says is not affected by the steps of `start()` and of the outer
`request_stop()`, which leave results and winners alone. -/
theorem ChildOk.same (h : s.ChildOk j p) (hcompletion : t.completion = s.completion)
    (hthrowing : t.throwingValueResults = s.throwingValueResults)
    (hvariant : t.resultVariant = s.resultVariant) (hwinner : t.winner = s.winner)
    (hdeparted : t.departed = s.departed) (hheld : ∀ k, (t.child k).held = (s.child k).held)
    (hstart : s.start.published = true → t.start.published = true)
    (hforwarder : ∀ vs old, p = .storeValue vs old → forwards old = true →
      s.forwarder = none → t.forwarder = none)
    (hinline : ∀ vs, p = .inlineSub vs → s.InlineWord s.word → t.InlineWord t.word)
    (hstate : ∀ r old, p = .storeState r old → s.InlineWord old → t.InlineWord old) :
    t.ChildOk j p := by
  have hsolo : s.Solo j → t.Solo j := fun hs k hk => (hheld k).trans (hs k hk)
  have hstored : t.storedResult = s.storedResult := by
    unfold storedResult
    rw [hvariant, hthrowing]
  have htuple : ∀ slot, t.tupleResult j slot = s.tupleResult j slot := by
    intro slot
    cases slot with
    | variant => exact hstored
    | throwing => simp only [tupleResult, hthrowing]
  have hcorrect : ∀ r, s.IsCorrect r → t.IsCorrect r := by
    intro r hr
    unfold IsCorrect
    rw [hwinner, hdeparted, hcompletion]
    exact hr
  have hstoredOk : s.StoredOk → t.StoredOk := by
    rintro ⟨r, hr, hc⟩
    exact ⟨r, hstored.trans hr, hcorrect r hc⟩
  have hsettled : s.Settled j → t.Settled j := by
    unfold Settled
    rw [hcompletion, hwinner]
    exact id
  have hbeaten : s.Beaten j → t.Beaten j := by
    unfold Beaten
    rw [hcompletion, hwinner]
    exact id
  have hnon : ∀ r move, s.NonValue j r move → t.NonValue j r move := by
    unfold NonValue
    rw [hcompletion]
    exact fun _ _ => id
  cases p with
  | notStarted | running | valueLoad vs move | valueOr vs | storeThrowing vs throws =>
    exact (congrFun hcompletion j).trans h
  | inlineSub vs =>
    obtain ⟨h1, h2, h3, h4⟩ := h
    exact ⟨hsettled h1, hwinner.trans h2, hcorrect _ h3, hinline vs rfl h4⟩
  | storeValue vs old =>
    obtain ⟨hc, hw, hold⟩ := h
    refine ⟨(congrFun hcompletion j).trans hc, hwinner.trans hw, fun hfwd => ?_⟩
    obtain ⟨hle, hpub, hnone⟩ := hold hfwd
    exact ⟨hle, hstart hpub, hforwarder vs old rfl hfwd hnone⟩
  | stopLoop k => exact ⟨hsettled h.1, hwinner.trans h.2⟩
  | throwingOr =>
    obtain ⟨vs, hc, hv⟩ := h
    exact ⟨vs, (congrFun hcompletion j).trans hc, (congrFun hthrowing j).trans hv⟩
  | setReference =>
    obtain ⟨hw, vs, hc, hv⟩ := h
    exact ⟨hwinner.trans hw, vs, (congrFun hcompletion j).trans hc,
      (congrFun hthrowing j).trans hv⟩
  | dropThrowing | discardSub => exact hbeaten h
  | valueSub slot =>
    obtain ⟨hs, hw, heq⟩ := h
    exact ⟨hsettled hs, hwinner.trans hw, (htuple slot).trans (heq.trans hstored.symm)⟩
  | resultLoad r move => exact hnon r move h
  | resultCas r move old => exact ⟨hnon r move h.1, h.2⟩
  | lastSub => exact ⟨hbeaten h.1, hsolo h.2⟩
  | storeResult r move => exact ⟨hnon r move h.1, hwinner.trans h.2.1, hsolo h.2.2⟩
  | resultSub =>
    obtain ⟨hw, hs, c, r, hr, hc, hrest⟩ := h
    exact ⟨hwinner.trans hw, hsolo hs, c, r, hstored.trans hr,
      (congrFun hcompletion j).trans hc, hrest⟩
  | storeState r old =>
    obtain ⟨h1, h2, h3⟩ := h
    exact ⟨hsettled h1, hcorrect r h2, hstate r old rfl h3⟩
  | deliver r => exact ⟨hsettled h.1, hcorrect r h.2⟩
  | deliverTuple slot =>
    obtain ⟨h1, h2, h3⟩ := h
    exact ⟨hsettled h1, hstoredOk h2, (htuple slot).trans (h3.trans hstored.symm)⟩
  | deliverStored => exact ⟨hsettled h.1, hstoredOk h.2⟩
  | done => exact hsettled h

/-- Before `started_flag` is set, no child forwards on its own account, and nobody delivers. -/
theorem Inv.unpublished (hi : s.Inv) (h : s.start.published = false) :
    ¬ s.Complete ∧ s.stop.requested = false ∧ (∀ j, (s.child j).claiming = false) ∧
      ∀ j vs old, s.child j = .storeValue vs old → forwards old = false := by
  have hnc : ¬ s.Complete := by
    rintro ⟨-, hpub⟩
    rw [h] at hpub
    cases hpub
  refine ⟨hnc, ?_, hi.not_claiming hnc, ?_⟩
  · by_contra hr
    rw [hi.stopAfterStart (by simpa using hr)] at h
    cases h
  · intro j vs old hpc
    by_contra hfwd
    have hok := hi.child j
    rw [hpc] at hok
    have hpub := (hok.2.2 (by simpa using hfwd)).2.1
    rw [h] at hpub
    cases hpub

/-- A step of `start()` before it sets `started_flag`. -/
theorem Inv.startMove (hi : s.Inv) (h : s.start.published = false)
    (hl : ∀ j, ¬ s.start.notLaunched j) {q : StartPc C} (hq : q.published = false)
    (hql : ∀ j, ¬ q.notLaunched j) {f : Option (Caller C)} {calls : C.Child → ℕ}
    (hstartOk : StartOk { s with start := q, forwarder := f, stopRequests := calls } q)
    (hforwarding : Broadcast.Once Caller.target (position q s.stop s.child) f calls)
    (hforwarder : ∀ c, f = some c → c = .start ∧ s.winner.isSome = true) :
    Inv { s with start := q, forwarder := f, stopRequests := calls } := by
  obtain ⟨hnc, hnr, hclaim, hstoreValue⟩ := hi.unpublished h
  have hnct : ¬ Complete { s with start := q, forwarder := f, stopRequests := calls } := by
    rintro ⟨-, hpub⟩
    have : q.published = true := hpub
    rw [hq] at this
    cases this
  obtain ⟨hnone, hnil⟩ := hi.undelivered hnc
  refine ⟨fun _ => ?_, fun hc => absurd hc hnct, ?_, ?_, hi.departed, hi.reference, ?_, ?_,
    hstartOk, hforwarding, ?_, ?_, ?_, fun _ => .inl hq,
    fun hc => absurd hc hnct, fun _ => ⟨?_, hnil⟩, hi.correct, hi.noFault⟩
  · have hword := hi.word hnc
    rw [h] at hword
    simp only [hq]
    exact hword
  · intro j
    exact (hi.launched j).trans (iff_of_false (hl j) (hql j))
  · intro j
    refine (hi.child j).same rfl rfl rfl rfl rfl (fun _ => rfl) (fun hpub => ?_) ?_ ?_ ?_
    · rw [h] at hpub
      cases hpub
    · intro vs old hpc hfwd
      rw [hstoreValue j vs old hpc] at hfwd
      cases hfwd
    · intro vs hpc
      have := hclaim j
      rw [hpc] at this
      cases this
    · intro r old hpc
      have := hclaim j
      rw [hpc] at this
      cases this
  · intro j hw
    rcases hi.winner j hw with hpre | ⟨hset, hc | hstored⟩
    · exact .inl hpre
    · exact absurd hc hnc
    · exact .inr ⟨hset, .inr hstored⟩
  · intro hw hzero _
    exact hi.lastStored hw hzero h
  · intro c hc
    obtain ⟨rfl, hsome⟩ := hforwarder c hc
    exact ⟨hsome, hql⟩
  · intro hr
    have : s.stop.requested = true := hr
    rw [hnr] at this
    cases this
  · intro hr
    have : s.stop.requested = true := hr
    rw [hnr] at this
    cases this
  · have hq0 : q.delivering = 0 := by
      cases q with
      | deliver => cases hq
      | _ => rfl
    unfold delivering at hnone
    simp only [delivering, hq0]
    omega

/-- If all children have completed before `started_flag` is set, a result is stored. -/
theorem Inv.storedOk_of_zero (hi : s.Inv) (h : s.start.published = false)
    (hzero : s.outstanding = 0) : s.StoredOk := by
  cases hw : s.winner with
  | none => exact hi.lastStored hw hzero h
  | some i => exact hi.storedOk_of_winner (hi.unpublished h).1 hw (count_eq_zero.mp hzero i)

/-- The step with which `start()` sets `started_flag`. -/
theorem Inv.publish (hi : s.Inv) (h : s.start.published = false)
    (hl : ∀ j, ¬ s.start.notLaunched j) (hposition : s.start.position = none) {q : StartPc C}
    (hq : q = if s.outstanding = 0 then .deliver else .done) {w : ℕ} {b : Bool}
    (hw : w = pack3 s.outstanding true s.winner.isSome s.stop.requested)
    (howed : s.Owed → b = true) :
    Inv { s with word := w, start := q, foundAllComplete := b } := by
  obtain ⟨hnc, hnr, hclaim, hstoreValue⟩ := hi.unpublished h
  have hpub : q.published = true := by
    rw [hq]
    split_ifs <;> rfl
  have hql : ∀ j, ¬ q.notLaunched j := launched_of_published hpub
  have hnone : q.position = none := by
    rw [hq]
    split_ifs <;> rfl
  obtain ⟨hzero, hnil⟩ := hi.undelivered hnc
  have hcount : count ChildPc.claiming s.child = 0 := by
    unfold delivering at hzero
    omega
  refine ⟨fun _ => ?_, fun _ => ?_, ?_, ?_, hi.departed, hi.reference, ?_, ?_, ?_, ?_,
    ?_, ?_, ?_, fun ho => .inr (.inl (howed ho)), ?_, ?_, hi.correct, hi.noFault⟩
  · simp only [hpub]
    exact hw
  · exact ⟨_, _, _, hw, s.outstanding_le, id, hi.winner_of_byWinner⟩
  · intro j
    exact (hi.launched j).trans (iff_of_false (hl j) (hql j))
  · intro j
    refine (hi.child j).same rfl rfl rfl rfl rfl (fun _ => rfl) (fun _ => hpub) ?_ ?_ ?_
    · intro vs old hpc hfwd
      rw [hstoreValue j vs old hpc] at hfwd
      cases hfwd
    · intro vs hpc
      have := hclaim j
      rw [hpc] at this
      cases this
    · intro r old hpc
      have := hclaim j
      rw [hpc] at this
      cases this
  · intro j hwj
    rcases hi.winner j hwj with hpre | ⟨hset, hc | hstored⟩
    · exact .inl hpre
    · exact absurd hc hnc
    · exact .inr ⟨hset, .inr hstored⟩
  · intro _ _ hnot
    have : q.published = false := hnot
    rw [hpub] at this
    cases this
  · by_cases hz : s.outstanding = 0
    · rw [if_pos hz] at hq
      subst hq
      exact hi.storedOk_of_zero h hz
    · rw [if_neg hz] at hq
      subst hq
      trivial
  · refine hi.forwarding.congr fun c => ?_
    cases c with
    | start => exact hnone.trans hposition.symm
    | stop | child j => rfl
  · intro c hc
    have hok := (hi.forwarder c hc).1
    refine ⟨?_, hql⟩
    cases c with
    | start | stop => exact hok
    | child k => exact ⟨hok.1, hpub⟩
  · intro hr
    have : s.stop.requested = true := hr
    rw [hnr] at this
    cases this
  · intro hr
    have : s.stop.requested = true := hr
    rw [hnr] at this
    cases this
  · rintro ⟨hz, -⟩
    have hz' : s.outstanding = 0 := hz
    rw [if_pos hz'] at hq
    subst hq
    simp only [delivering, hcount, hnil, StartPc.delivering]
    rfl
  · intro hc
    have hz : ¬ s.outstanding = 0 := fun hz => hc ⟨hz, hpub⟩
    rw [if_neg hz] at hq
    subst hq
    exact ⟨by simp only [delivering, hcount, StartPc.delivering], hnil⟩

/-- The loop body of `start()`, for the state just loaded. -/
theorem Inv.startLoopStep (hi : s.Inv) (h : s.start.published = false)
    (hl : ∀ j, ¬ s.start.notLaunched j) (hposition : s.start.position = none)
    (hnone : s.forwarder = none) : (s.startLoop s.word).Inv := by
  obtain ⟨hnc, hnr, -, -⟩ := hi.unpublished h
  have hcongr : ∀ q : StartPc C, q.position = none →
      Broadcast.Once Caller.target (position q s.stop s.child) s.forwarder s.stopRequests := by
    intro q hq
    refine hi.forwarding.congr fun c => ?_
    cases c with
    | start => exact hq.trans hposition.symm
    | stop | child j => rfl
  have hnobody : ∀ c, s.forwarder = some c → c = .start ∧ s.winner.isSome = true := by
    intro c hc
    rw [hnone] at hc
    cases hc
  unfold startLoop
  by_cases hzero : s.word < countIncrement
  · rw [if_pos hzero]
    have hout : s.outstanding = 0 := by
      rw [← not_le, hi.countIncrement_le hnc] at hzero
      omega
    exact hi.startMove (q := .storeStarted s.word) h hl rfl (fun _ => id) ⟨rfl, hout⟩
      (hcongr _ rfl) hnobody
  · rw [if_neg hzero]
    by_cases hflag : hasFlag s.word hasValueFlag = true
    · rw [if_pos hflag]
      have hsome : s.winner.isSome = true := by rwa [hi.value_eq hnc] at hflag
      have hforwarding := hi.forwarding
      rw [hnone] at hforwarding
      refine hi.startMove (q := .stopLoop C.first) h hl rfl (fun _ => id) rfl ?_ ?_
      · refine hforwarding.enter (c := .start) (k := C.first) ?_ rfl ?_
        · rfl
        · intro d hd
          cases d with
          | start => exact absurd rfl hd
          | stop | child j => rfl
      · intro c hc
        cases hc
        exact ⟨rfl, hsome⟩
    · rw [if_neg hflag]
      exact hi.startMove (q := .cas s.word) h hl rfl (fun _ => id)
        ⟨hnone, not_lt.mp hzero, by simpa using hflag⟩ (hcongr _ rfl) hnobody

theorem Inv.launchStep (hi : s.Inv) {k : C.Child} (hpc : s.start = .launch k) :
    Inv { s.setChild k .running with
      start := ((Broadcast.next k).map .launch).getD .load } := by
  generalize hnext : ((Broadcast.next k).map StartPc.launch).getD .load = q
  have hpub : s.start.published = false := by rw [hpc]; rfl
  obtain ⟨hnc, hnr, hclaim, hstoreValue⟩ := hi.unpublished hpub
  have hlaunched : ∀ j, s.child j = .notStarted ↔ k ≤ j := by
    have := hi.launched
    rwa [hpc] at this
  have hk : s.child k = .notStarted := (hlaunched k).mpr le_rfl
  have hforwarder : s.forwarder = none := by
    have := hi.startOk
    rwa [hpc] at this
  have hq : q.published = false ∧ q.position = none ∧ q.delivering = 0 := by
    subst hnext
    cases Broadcast.next k <;> exact ⟨rfl, rfl, rfl⟩
  obtain ⟨hqpub, hqpos, hqdel⟩ := hq
  have hql : ∀ j, q.notLaunched j ↔ k < j := by
    intro j
    subst hnext
    unfold Broadcast.next
    split_ifs with h
    · exact Iff.rfl
    · have hkj : ¬ k < j := by
        have := j.isLt
        rw [Fin.lt_def]
        omega
      simp [StartPc.notLaunched, hkj]
  have hheld : ∀ j, (Function.update s.child k .running j).held = (s.child j).held := by
    intro j
    by_cases hj : j = k
    · subst j
      rw [Function.update_self, hk]
      rfl
    · rw [Function.update_of_ne hj]
  have hout : count ChildPc.held (Function.update s.child k .running) = s.outstanding :=
    count_congr hheld
  have hdel : count ChildPc.claiming (Function.update s.child k .running) =
      count ChildPc.claiming s.child := count_update_same (by rw [hk]; rfl)
  obtain ⟨hzero, hnil⟩ := hi.undelivered hnc
  have hnct : ¬ Complete { s.setChild k .running with start := q } := by
    rintro ⟨-, h⟩
    have : q.published = true := h
    rw [hqpub] at this
    cases this
  refine ⟨fun _ => ?_, fun h => absurd h hnct, ?_, ?_, ?_, hi.reference, ?_, ?_, ?_, ?_, ?_, ?_, ?_,
    fun _ => .inl hqpub, fun h => absurd h hnct, fun _ => ⟨?_, hnil⟩, hi.correct, hi.noFault⟩
  · have hword := hi.word hnc
    rw [hpub] at hword
    simp only [setChild, outstanding, hout, hqpub]
    exact hword
  · intro j
    rw [hql]
    by_cases hj : j = k
    · subst j
      simp [setChild]
    · simp only [setChild, Function.update_of_ne hj, hlaunched]
      exact ⟨fun h => lt_of_le_of_ne h (Ne.symm hj), le_of_lt⟩
  · intro j
    by_cases hj : j = k
    · subst j
      have hok := hi.child k
      rw [hk] at hok
      simp only [setChild, Function.update_self]
      exact hok
    · simp only [setChild, Function.update_of_ne hj]
      refine (hi.child j).same rfl rfl rfl rfl rfl hheld (fun h => ?_) ?_ ?_ ?_
      · rw [hpub] at h
        cases h
      · intro vs old hpc' hfwd
        rw [hstoreValue j vs old hpc'] at hfwd
        cases hfwd
      · intro vs hpc'
        have := hclaim j
        rw [hpc'] at this
        cases this
      · intro r old hpc'
        have := hclaim j
        rw [hpc'] at this
        cases this
  · refine ⟨hi.departed.1, fun j => (hi.departed.2 j).trans ?_⟩
    exact (by rw [← hheld j]; rfl)
  · intro j hw
    have hj : j ≠ k := by
      intro hjk
      subst j
      rcases hi.winner k hw with hpre | ⟨hset, -⟩
      · rw [hk] at hpre
        cases hpre
      · rw [hk] at hset
        cases hset
    simp only [setChild, Function.update_of_ne hj]
    rcases hi.winner j hw with hpre | ⟨hset, hc | hstored⟩
    · exact .inl hpre
    · exact absurd hc hnc
    · exact .inr ⟨hset, .inr hstored⟩
  · intro hw hz _
    have hz' : s.outstanding = 0 := by rw [← hout]; exact hz
    exact hi.lastStored hw hz' hpub
  · subst hnext
    cases Broadcast.next k with
    | none => exact hforwarder
    | some k' => exact hforwarder
  · refine hi.forwarding.congr fun d => ?_
    cases d with
    | start => exact hqpos.trans (by rw [hpc]; rfl)
    | stop => rfl
    | child j =>
      by_cases hj : j = k
      · subst j
        simp [position, setChild, ChildPc.position, hk]
      · simp only [position, setChild, Function.update_of_ne hj]
  · intro c hc
    have : s.forwarder = some c := hc
    rw [hforwarder] at this
    cases this
  · intro hr
    have : s.stop.requested = true := hr
    rw [hnr] at this
    cases this
  · intro hr
    have : s.stop.requested = true := hr
    rw [hnr] at this
    cases this
  · unfold delivering at hzero
    simp only [setChild, delivering, hdel, hqdel]
    omega

theorem Inv.storeStartedStep (hi : s.Inv) {old : ℕ} (hpc : s.start = .storeStarted old) :
    Inv { s with
      word := fetchOr old startedFlag
      start := .deliver
      foundAllComplete := true } := by
  have hpub : s.start.published = false := by rw [hpc]; rfl
  obtain ⟨hold, hzero⟩ : old = s.word ∧ s.outstanding = 0 := by
    have := hi.startOk
    rwa [hpc] at this
  refine hi.publish hpub (by rw [hpc]; exact fun _ => id) (by rw [hpc]; rfl) (by rw [if_pos hzero])
    ?_ fun _ => rfl
  rw [hold, hi.word (hi.unpublished hpub).1, hpub]
  exact pack3_or_one _ _ _ _

theorem Inv.startForwardStep (hi : s.Inv) {k : C.Child} (hpc : s.start = .stopLoop k) :
    Inv { s.requestStopOn .start k with
      start := ((Broadcast.next k).map .stopLoop).getD .addStarted } := by
  generalize hnext : ((Broadcast.next k).map StartPc.stopLoop).getD .addStarted = q
  have hf : s.forwarder = some .start := by
    have := hi.startOk
    rwa [hpc] at this
  have hq : q.published = false ∧ q.position = Broadcast.next k := by
    subst hnext
    cases Broadcast.next k <;> exact ⟨rfl, rfl⟩
  obtain ⟨hqpub, hqpos⟩ := hq
  have hsome : s.winner.isSome = true := (hi.forwarder _ hf).1
  refine hi.startMove (by rw [hpc]; rfl) (by rw [hpc]; exact fun _ => id) hqpub ?_ ?_ ?_ ?_
  · intro j
    subst hnext
    cases Broadcast.next k <;> exact id
  · subst hnext
    cases Broadcast.next k <;> exact hf
  · refine hi.forwarding.advance (c := .start) ?_ ?_ ?_
    · rw [hpc]
      rfl
    · exact hqpos
    · intro d hd
      cases d with
      | start => exact absurd rfl hd
      | stop | child j => rfl
  · intro c hc
    have hc' : s.forwarder = some c := hc
    rw [hf] at hc'
    cases hc'
    exact ⟨rfl, hsome⟩

theorem Inv.addStartedStep (hi : s.Inv) (hpc : s.start = .addStarted) :
    Inv { s with
      word := fetchAdd C.stateBits s.word startedFlag
      start := if s.word < countIncrement then .deliver else .done } := by
  have hpub : s.start.published = false := by rw [hpc]; rfl
  have hnc := (hi.unpublished hpub).1
  have hf : s.forwarder = some .start := by
    have := hi.startOk
    rwa [hpc] at this
  refine hi.publish hpub (by rw [hpc]; exact fun _ => id) (by rw [hpc]; rfl) ?_ ?_ ?_
  · have hiff : s.word < countIncrement ↔ s.outstanding = 0 := by
      rw [← not_le, hi.countIncrement_le hnc]
      omega
    by_cases hzero : s.outstanding = 0
    · rw [if_pos hzero, if_pos (hiff.mpr hzero)]
    · rw [if_neg hzero, if_neg (hiff.not.mpr hzero)]
  · have hsum : s.word + startedFlag =
        pack3 s.outstanding true s.winner.isSome s.stop.requested := by
      rw [hi.word hnc, hpub]
      exact pack3_add_one _ _ _
    rw [fetchAdd_of_lt, hsum]
    rw [hsum]
    exact Arity.pack3_lt_bits s.outstanding_le _ _ _
  · rintro ⟨hnone, -⟩
    rw [hf] at hnone
    cases hnone

theorem Inv.casStep (hi : s.Inv) {old : ℕ} (hpc : s.start = .cas old) (hold : s.word = old) :
    Inv { s with word := fetchOr old startedFlag, start := .done } := by
  have hpub : s.start.published = false := by rw [hpc]; rfl
  have hnc := (hi.unpublished hpub).1
  obtain ⟨-, hle, hflag⟩ : s.forwarder = none ∧ countIncrement ≤ old ∧
      hasFlag old hasValueFlag = false := by
    have := hi.startOk
    rwa [hpc] at this
  rw [← hold] at hle hflag
  rw [hi.countIncrement_le hnc] at hle
  rw [hi.value_eq hnc] at hflag
  refine hi.publish hpub (by rw [hpc]; exact fun _ => id) (by rw [hpc]; rfl) ?_ ?_ ?_
  · rw [if_neg (by omega)]
  · rw [← hold, hi.word hnc, hpub]
    exact pack3_or_one _ _ _ _
  · rintro ⟨-, hsome, -⟩
    rw [hflag] at hsome
    cases hsome

theorem Inv.startDeliverStep (hi : s.Inv) (hpc : s.start = .deliver) :
    Inv { s.deliverFrom s.storedResult with start := .done } := by
  obtain ⟨r, hr, hcorrect⟩ : s.StoredOk := by
    have := hi.startOk
    rwa [hpc] at this
  have hdelivering : 1 ≤ s.delivering := by
    unfold delivering
    simp only [hpc, StartPc.delivering]
    omega
  have hc : s.Complete := by
    by_contra hnc
    have := (hi.undelivered hnc).1
    omega
  have hone := hi.delivered hc
  have hnil : s.delivered = [] := List.length_eq_zero_iff.mp (by omega)
  have hwordAfter := hi.wordAfter hc
  have hlaunched := hi.launched
  have hforwarding := hi.forwarding
  rw [hpc] at hlaunched hforwarding
  rw [hr]
  refine ⟨fun h => absurd ⟨hc.1, rfl⟩ h, fun _ => hwordAfter, hlaunched, ?_, hi.departed,
    hi.reference, ?_, ?_, trivial, ?_, ?_, fun _ => rfl, fun _ _ h => absurd ⟨hc.1, rfl⟩ h, ?_,
    fun _ => ?_, fun h => absurd ⟨hc.1, rfl⟩ h, ?_, hi.noFault⟩
  · intro j
    exact (hi.child j).same rfl rfl rfl rfl rfl (fun _ => rfl) (fun _ => rfl)
      (fun _ _ _ _ => id) (fun _ _ => id) fun _ _ _ => id
  · intro j hw
    rcases hi.winner j hw with hpre | ⟨hset, -⟩
    · exact .inl hpre
    · exact .inr ⟨hset, .inl ⟨hc.1, rfl⟩⟩
  · intro _ _ hnot
    cases hnot
  · refine hforwarding.congr fun d => ?_
    cases d <;> rfl
  · intro c hcf
    obtain ⟨hok, -⟩ := hi.forwarder c hcf
    refine ⟨?_, fun _ => id⟩
    cases c with
    | start | stop => exact hok
    | child k => exact ⟨hok.1, rfl⟩
  · intro ho
    rcases hi.owed ho with h | h | ⟨k, vs, old, hk, -⟩
    · rw [hc.2] at h
      cases h
    · exact .inr (.inl h)
    · exact absurd hc (Op.not_complete (i := k) (by rw [hk]; rfl))
  · unfold delivering at hone
    simp only [hpc, hnil, StartPc.delivering, List.length_nil] at hone
    simp only [deliverFrom, delivering, hnil, StartPc.delivering, List.nil_append,
      List.length_singleton]
    omega
  · intro r' hr'
    simp only [deliverFrom, hnil, List.nil_append, List.mem_singleton] at hr'
    rw [hr']
    exact hcorrect

theorem Inv.startStep (hi : s.Inv) {spurious : Bool} (ht : s.step (.start spurious) = some t) :
    t.Inv := by
  simp only [Op.step, Op.startStep] at ht
  have hok := hi.startOk
  split at ht
  · next k hpc =>
    cases ht
    exact hi.launchStep hpc
  · next hpc =>
    cases ht
    rw [hpc] at hok
    exact hi.startLoopStep (by rw [hpc]; rfl) (by rw [hpc]; exact fun _ => id)
      (by rw [hpc]; rfl) hok
  · next old hpc =>
    cases ht
    exact hi.storeStartedStep hpc
  · next k hpc =>
    cases ht
    exact hi.startForwardStep hpc
  · next hpc =>
    cases ht
    exact hi.addStartedStep hpc
  · next old hpc =>
    by_cases hcas : s.word = old ∧ spurious = false
    · rw [if_pos hcas] at ht
      cases ht
      exact hi.casStep hpc hcas.1
    · rw [if_neg hcas] at ht
      cases ht
      rw [hpc] at hok
      exact hi.startLoopStep (by rw [hpc]; rfl) (by rw [hpc]; exact fun _ => id) (by rw [hpc]; rfl)
        hok.1
  · next hpc =>
    cases ht
    exact hi.startDeliverStep hpc
  · cases ht

/-! The outer `request_stop()` -/

/-- A step of the outer `request_stop()`, after `start()` has returned. -/
theorem Inv.stopMove (hi : s.Inv) (hdone : s.start = .done) {q : StopPc C}
    (hq : q.requested = true) {w : ℕ} {f : Option (Caller C)} {calls : C.Child → ℕ} {b : Bool}
    (hb : b = false)
    (hword : ¬ s.Complete → w = pack3 s.outstanding true s.winner.isSome true)
    (hwordAfter : s.Complete → ∃ c v r, w = pack3 c true v r ∧ c ≤ C.children ∧
      (s.ByWinner → v = true))
    (hinline : s.InlineWord s.word → ∃ r, w = pack3 1 true false r)
    (hf : f = s.forwarder ∨ s.forwarder = none ∧ f = some .stop)
    (hkeep : ∀ j vs old, s.child j = .storeValue vs old → f = s.forwarder)
    (hstopped : s.winner = none → ¬ s.Complete → f = some .stop)
    (hforwarding : Broadcast.Once Caller.target (position s.start q s.child) f calls) :
    Inv { s with word := w, fault := b, forwarder := f, stop := q, stopRequests := calls } := by
  have hpub : s.start.published = true := by rw [hdone]; rfl
  have hby : ByWinner { s with
      word := w
      fault := b
      forwarder := f
      stop := q
      stopRequests := calls } → s.ByWinner := by
    rintro ⟨c, hc, hne⟩
    rcases hf with hsame | ⟨-, hnew⟩
    · exact ⟨c, hsame.symm.trans hc, hne⟩
    · cases hnew.symm.trans hc
      exact absurd rfl hne
  refine ⟨fun h => ?_, fun h => ?_, hi.launched, ?_, hi.departed, hi.reference, hi.winner,
    hi.lastStored, ?_, hforwarding, ?_, fun _ => hdone, fun _ hw hnc => hstopped hw hnc, ?_,
    hi.delivered, hi.undelivered, hi.correct, hb⟩
  · rw [hword h]
    simp only [hq, hpub]
  · obtain ⟨c, v, r, h1, h2, h3⟩ := hwordAfter h
    exact ⟨c, v, r, h1, h2, fun _ => hq, fun h => h3 (hby h)⟩
  · intro j
    refine (hi.child j).same rfl rfl rfl rfl rfl (fun _ => rfl) id ?_ ?_ ?_
    · intro vs old hpc _ hnone
      exact (hkeep j vs old hpc).trans hnone
    · rintro vs - hin
      obtain ⟨r, hr⟩ := hinline hin
      exact ⟨fun h => hin.1 (hby h), r, hr, fun _ => hq⟩
    · rintro r old - ⟨hnot, b', hw', -⟩
      exact ⟨fun h => hnot (hby h), b', hw', fun _ => hq⟩
  · rw [hdone]
    trivial
  · intro c hc
    have hnl : ∀ j, ¬ s.start.notLaunched j := launched_of_published hpub
    rcases hf with hsame | ⟨-, hnew⟩
    · obtain ⟨hok, -⟩ := hi.forwarder c (hsame.symm.trans hc)
      refine ⟨?_, hnl⟩
      cases c with
      | start | child k => exact hok
      | stop => exact hq
    · cases hnew.symm.trans hc
      exact ⟨hq, hnl⟩
  · rintro ⟨hnone, hrest⟩
    have hfn : f = none := hnone
    rcases hf with hsame | ⟨-, hnew⟩
    · exact hi.owed ⟨hsame.symm.trans hfn, hrest⟩
    · rw [hnew] at hfn
      cases hfn

theorem Inv.requestStep (hi : s.Inv) (hpc : s.stop = .idle) (hdone : s.start = .done)
    {forward : Bool}
    (hfwd : forward = (decide (countIncrement ≤ s.word) && !hasFlag s.word hasValueFlag)) :
    Inv { s with
      word := fetchAdd C.stateBits s.word stopRequestedFlag
      fault := s.fault || hasFlag s.word stopRequestedFlag || !hasFlag s.word startedFlag
      forwarder := if forward then some .stop else s.forwarder
      stop := if forward then .stopLoop C.first else .done } := by
  have hnr : s.stop.requested = false := by rw [hpc]; rfl
  have hpub : s.start.published = true := by rw [hdone]; rfl
  -- the word, with the stop flag clear
  obtain ⟨c, v, hword, hle, hv⟩ : ∃ c v, s.word = pack3 c true v false ∧ c ≤ C.children ∧
      (s.ByWinner → v = true) := by
    by_cases hc : s.Complete
    · obtain ⟨c, v, q, h1, h2, h3, h4⟩ := hi.wordAfter hc
      have hq : q = false := by
        by_contra hq
        rw [h3 (by simpa using hq)] at hnr
        cases hnr
      subst hq
      exact ⟨c, v, h1, h2, h4⟩
    · have h1 := hi.word hc
      rw [hpub, hnr] at h1
      exact ⟨_, _, h1, s.outstanding_le, hi.winner_of_byWinner⟩
  have hadd : fetchAdd C.stateBits s.word stopRequestedFlag = pack3 c true v true := by
    have hsum : s.word + stopRequestedFlag = pack3 c true v true := by
      rw [hword]
      exact pack3_add_four _ _ _
    rw [fetchAdd_of_lt, hsum]
    rw [hsum]
    exact Arity.pack3_lt_bits hle _ _ _
  have hvalue : hasFlag s.word hasValueFlag = v := by
    rw [hword]
    exact hasFlag_pack3_two _ _ _ _
  have hflags : hasFlag s.word stopRequestedFlag = false ∧ hasFlag s.word startedFlag = true := by
    rw [hword]
    exact ⟨hasFlag_pack3_four _ _ _ _, hasFlag_pack3_one _ _ _ _⟩
  have hnone : forward = true → s.forwarder = none := by
    intro h
    rw [h, hvalue] at hfwd
    simp only [Bool.true_eq, Bool.and_eq_true, Bool.not_eq_true'] at hfwd
    have hnb : ¬ s.ByWinner := by
      intro hb
      rw [hv hb] at hfwd
      cases hfwd.2
    cases hf : s.forwarder with
    | none => rfl
    | some d =>
      cases d with
      | stop =>
        have : s.stop.requested = true := (hi.forwarder _ hf).1
        rw [hnr] at this
        cases this
      | start => exact absurd ⟨.start, hf, by simp⟩ hnb
      | child k => exact absurd ⟨.child k, hf, by simp⟩ hnb
  rw [hadd]
  refine hi.stopMove hdone ?_ (by simp [hi.noFault, hflags]) ?_ ?_ ?_ ?_ ?_ ?_ ?_
  · split_ifs <;> rfl
  · intro hnc
    have h1 := hi.word hnc
    rw [hpub, hnr] at h1
    rw [← pack3_add_four, ← hword, h1, pack3_add_four]
  · intro _
    exact ⟨c, v, true, rfl, hle, hv⟩
  · rintro ⟨-, q, h1, -⟩
    rw [hword] at h1
    refine ⟨true, ?_⟩
    cases q with
    | false => rw [← pack3_add_four, h1, pack3_add_four]
    | true =>
      have := congrArg (hasFlag · 4) h1
      simp at this
  · split_ifs with h
    · exact .inr ⟨hnone h, rfl⟩
    · exact .inl rfl
  · intro j vs old hpcj
    -- the winner has set `has_value_flag`, so nothing is forwarded
    have hnc := Op.not_complete (s := s) (i := j) (by rw [hpcj]; rfl)
    have hok := hi.child j
    rw [hpcj] at hok
    have hsome : hasFlag s.word hasValueFlag = true := by
      rw [hi.value_eq hnc, hok.2.1]
      rfl
    rw [hsome] at hfwd
    rw [if_neg (by rw [hfwd]; simp)]
  · intro hw hnc
    have hpos : 1 ≤ s.outstanding := by
      have : ¬ s.outstanding = 0 := fun hz => hnc ⟨hz, hpub⟩
      omega
    have hflag : hasFlag s.word hasValueFlag = false := by
      rw [hi.value_eq hnc, hw]
      rfl
    rw [if_pos (by rw [hfwd, hflag]; simpa using (hi.countIncrement_le hnc).mpr hpos)]
  · have hforwarding := hi.forwarding
    rw [hpc] at hforwarding
    cases forward with
    | true =>
      rw [hnone rfl] at hforwarding
      refine hforwarding.enter (c := .stop) (k := C.first) ?_ rfl ?_
      · rfl
      · intro d hd
        cases d with
        | stop => exact absurd rfl hd
        | start | child j => rfl
    | false =>
      refine hforwarding.congr fun d => ?_
      cases d <;> rfl

theorem Inv.stopForwardStep (hi : s.Inv) {k : C.Child} (hpc : s.stop = .stopLoop k) :
    Inv { s.requestStopOn .stop k with
      stop := ((Broadcast.next k).map .stopLoop).getD .done } := by
  generalize hnext : ((Broadcast.next k).map StopPc.stopLoop).getD .done = q
  have hq : q.requested = true ∧ q.position = Broadcast.next k := by
    subst hnext
    cases Broadcast.next k <;> exact ⟨rfl, rfl⟩
  obtain ⟨hqr, hqpos⟩ := hq
  have hr : s.stop.requested = true := by rw [hpc]; rfl
  have hdone := hi.stopAfterStart hr
  have hpub : s.start.published = true := by rw [hdone]; rfl
  refine hi.stopMove hdone hqr hi.noFault ?_ ?_ ?_ (.inl rfl) (fun _ _ _ _ => rfl) ?_ ?_
  · intro hnc
    have := hi.word hnc
    rwa [hpub, hr] at this
  · intro hc
    obtain ⟨c, v, q', h1, h2, -, h4⟩ := hi.wordAfter hc
    exact ⟨c, v, q', h1, h2, h4⟩
  · rintro ⟨-, q', h1, -⟩
    exact ⟨q', h1⟩
  · intro hw hnc
    exact hi.stopped hr hw hnc
  · refine hi.forwarding.advance (c := .stop) ?_ ?_ ?_
    · rw [hpc]
      rfl
    · exact hqpos
    · intro d hd
      cases d with
      | stop => exact absurd rfl hd
      | start | child j => rfl

theorem Inv.stopStep (hi : s.Inv) (ht : s.step .stop = some t) : t.Inv := by
  simp only [Op.step, Op.stopStep] at ht
  split at ht
  · next hpc =>
    by_cases hstart : s.start = .done ∧ C.isRequestStopSupported = true
    · rw [if_pos hstart] at ht
      cases ht
      exact hi.requestStep hpc hstart.1 rfl
    · rw [if_neg hstart] at ht
      cases ht
  · next k hpc =>
    cases ht
    exact hi.stopForwardStep hpc
  · cases ht

/-! Every run -/

theorem Inv.initial : Inv ({} : Op C D X) where
  word := by
    intro _
    have hcount : count ChildPc.held (fun _ : C.Child => (.notStarted : ChildPc C D X)) =
        C.children := by
      rw [count_const_true rfl, Fintype.card_fin]
    simp only [outstanding, hcount]
    rfl
  wordAfter := by
    rintro ⟨-, h⟩
    cases h
  launched := by
    intro i
    exact iff_of_true rfl (Nat.zero_le _)
  child := fun _ => rfl
  departed := by
    refine ⟨List.nodup_nil, fun i => iff_of_false (List.not_mem_nil) (by simp [ChildPc.held])⟩
  reference := by
    intro i h
    cases h
  winner := by
    intro i h
    cases h
  lastStored := by
    intro _ hzero
    have hcount : count ChildPc.held (fun _ : C.Child => (.notStarted : ChildPc C D X)) =
        C.children := by
      rw [count_const_true rfl, Fintype.card_fin]
    simp only [outstanding, hcount] at hzero
    have := C.two_le
    omega
  startOk := rfl
  forwarding := Broadcast.Once.initial fun c => by cases c <;> rfl
  forwarder := by
    intro c h
    cases h
  stopAfterStart := by
    intro h
    cases h
  stopped := by
    intro h
    cases h
  owed := by
    rintro ⟨-, h, -⟩
    cases h
  delivered := by
    rintro ⟨-, h⟩
    cases h
  undelivered := by
    intro _
    have hcount : count ChildPc.claiming (fun _ : C.Child => (.notStarted : ChildPc C D X)) = 0 :=
      count_eq_zero.mpr fun _ => rfl
    exact ⟨by simp only [delivering, hcount]; rfl, rfl⟩
  correct := by
    intro r h
    cases h
  noFault := rfl

theorem Inv.step (hi : s.Inv) (a : Act C D X) (ht : s.step a = some t) : t.Inv := by
  cases a with
  | start spurious => exact hi.startStep ht
  | stop => exact hi.stopStep ht
  | complete i c => exact hi.completeStep ht
  | child i spurious => exact hi.childStep ht

end Op
end Squiz.FirstSuccessful
