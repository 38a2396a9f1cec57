import Squiz.FirstSuccessful.Invariant

/-! Every step of `start()`, `set_result` and `request_stop()` keeps the invariant of
`first_successful_op`. -/
namespace Squiz.FirstSuccessful
open Squiz.Lib Squiz.Lib.Word Squiz.Lib.Processes Squiz.Detail

variable {C : Config} {D X : Type}

/-- The child runs, or is in `set_result` and has neither won nor left the count. -/
def ChildPc.quiet : ChildPc C D X → Bool
  | .running | .valueLoad _ _ | .valueOr _ | .storeThrowing _ _ | .throwingOr | .dropThrowing
  | .discardSub | .resultLoad _ _ | .resultCas _ _ _ | .lastSub | .storeResult _ _
  | .resultSub => true
  | _ => false

namespace Op
variable {s t : Op C D X} {i j : C.Child} {p : ChildPc C D X}

theorem held_of_quiet (h : p.quiet = true) : p.held = true := by
  cases p <;> first | rfl | cases h

theorem started_of_quiet (h : p.quiet = true) : p ≠ .notStarted := by
  intro hp
  subst hp
  cases h

theorem position_of_quiet (h : p.quiet = true) : p.position = none := by
  cases p <;> first | rfl | cases h

theorem not_preStore_of_quiet (h : p.quiet = true) : p.preStore = false := by
  cases p <;> first | rfl | cases h

theorem not_settled_of_quiet (h : p.quiet = true) : p.settled = false := by
  cases p <;> first | rfl | cases h

theorem Inv.not_winner (hi : s.Inv) (h : (s.child i).quiet = true) : s.winner ≠ some i := by
  intro hw
  rcases hi.winner i hw with hpre | ⟨hset, -⟩
  · rw [not_preStore_of_quiet h] at hpre
    cases hpre
  · rw [not_settled_of_quiet h] at hset
    cases hset

theorem Inv.beaten (hi : s.Inv) (h : (s.child i).quiet = true) (hw : s.winner.isSome = true)
    (hc : (s.completion i).isSome = true) : s.Beaten i := by
  obtain ⟨j, hj⟩ := Option.isSome_iff_exists.mp hw
  refine ⟨hc, j, hj, ?_⟩
  intro hji
  subst j
  exact hi.not_winner h hj

/-! Steps of an outstanding child that has not won. -/

/-- A quiet child that stays quiet, with its completion and its own value storage. -/
theorem Inv.quietStep (hi : s.Inv) (h : (s.child i).quiet = true) (hp : p.quiet = true)
    {completion : C.Child → Option (Completion D X)} {throwing : C.Child → Option (List D)}
    (hother : ∀ j, j ≠ i → completion j = s.completion j ∧
      throwing j = s.throwingValueResults j)
    (hchild : ChildOk { s.setChild i p with
      completion := completion
      throwingValueResults := throwing } i p) :
    Inv { s.setChild i p with completion := completion, throwingValueResults := throwing } := by
  have hlost := hi.not_winner h
  have hm : Moves s { s.setChild i p with
      completion := completion
      throwingValueResults := throwing } i p :=
    ⟨held_of_quiet h, started_of_quiet h, rfl, rfl, rfl, rfl, rfl, fun j hj => (hother j hj).1,
      fun j hj => (hother j hj).2, .inl rfl, fun _ _ _ => rfl, fun _ => ⟨rfl, rfl⟩, .inl rfl⟩
  refine hm.inv_stay hi (held_of_quiet hp) (started_of_quiet hp) rfl (hi.word hm.not_complete)
    hchild hi.reference (fun hw => absurd hw hlost) ?_ ?_ (fun _ hw => absurd hw hlost) hi.noFault
  · refine hi.forwarding.congr fun c => ?_
    cases c with
    | start | stop => rfl
    | child j =>
      by_cases hj : j = i
      · subst j
        simp only [setChild, position, Function.update_self, position_of_quiet h,
          position_of_quiet hp]
      · simp only [setChild, position, Function.update_of_ne hj]
  · intro vs old hpc
    rw [hpc] at h
    cases h

/-- The same, when only the program counter changes. -/
theorem Inv.quietMove (hi : s.Inv) (h : (s.child i).quiet = true) (hp : p.quiet = true)
    (hchild : (s.setChild i p).ChildOk i p) : (s.setChild i p).Inv :=
  hi.quietStep h hp (fun _ _ => ⟨rfl, rfl⟩) hchild

theorem Inv.completeStep (hi : s.Inv) {c : Completion D X}
    (ht : s.step (.complete i c) = some t) : t.Inv := by
  simp only [Op.step] at ht
  split at ht
  · next hrun =>
    cases ht
    refine hi.quietStep (by rw [hrun]; rfl) ?_ ?_ ?_
    · cases c <;> rfl
    · intro j hj
      exact ⟨Function.update_of_ne hj _ _, rfl⟩
    · cases c with
      | value vs move => exact Function.update_self _ _ _
      | signal tag datums move =>
        refine ⟨_, Function.update_self _ _ _, .inl rfl, ?_, rfl⟩
        rcases move with _ | _ | x
        · exact .inl rfl
        · exact .inl rfl
        · exact .inr ⟨x, rfl, rfl⟩
  · cases ht

/-! Steps with which a child gives up its count. -/

theorem Moves.decrement (hheld : (s.child i).held = true) (hns : s.child i ≠ .notStarted)
    (w : ℕ) : Moves s (s.decrement i p w) i p :=
  ⟨hheld, hns, rfl, rfl, rfl, rfl, rfl, fun _ _ => rfl, fun _ _ => rfl, .inl rfl,
    fun _ _ _ => rfl, fun _ => ⟨rfl, rfl⟩, .inl rfl⟩

/-- With a winner, the result to deliver does not depend on the order of the departures. -/
theorem isCorrect_decrement {w : ℕ} {r : Result D X} (hw : s.winner.isSome = true)
    (h : s.IsCorrect r) : (s.decrement i p w).IsCorrect r := by
  obtain ⟨k, hk⟩ := Option.isSome_iff_exists.mp hw
  unfold IsCorrect at h ⊢
  rw [show (s.decrement i p w).winner = some k from hk]
  rw [hk] at h
  exact h

theorem storedOk_decrement {w : ℕ} (hw : s.winner.isSome = true) (h : s.StoredOk) :
    (s.decrement i p w).StoredOk := by
  obtain ⟨r, hr, hc⟩ := h
  exact ⟨r, hr, isCorrect_decrement hw hc⟩

theorem Inv.winner_of_byWinner (hi : s.Inv) (h : s.ByWinner) : s.winner.isSome = true := by
  obtain ⟨c, hc, hne⟩ := h
  have hok := (hi.forwarder c hc).1
  cases c with
  | start => exact hok
  | stop => exact absurd rfl hne
  | child k => exact Option.isSome_iff_exists.mpr ⟨k, hok.1⟩

/-- A child that gives up its count, and delivers if it was the last after `start()`. -/
theorem Inv.decrementStep (hi : s.Inv) (hheld : (s.child i).held = true)
    (hns : s.child i ≠ .notStarted) (hposition : (s.child i).position = none)
    (hnostore : (s.child i).preStore = false) (hp : p.held = false)
    (hclaim : p.claiming = true ↔ s.outstanding = 1 ∧ s.start.published = true)
    (hchild : (s.decrement i p s.word).ChildOk i p)
    (hlast : s.winner = none → s.outstanding = 1 → s.start.published = false →
      (s.decrement i p s.word).StoredOk) :
    (s.decrement i p s.word).Inv := by
  have hm : Moves s (s.decrement i p s.word) i p := Moves.decrement hheld hns _
  have hnc := hm.not_complete
  have hout := hm.outstanding_leave hp
  have hpos : 1 ≤ s.outstanding := count_pos hheld
  have hword : (s.decrement i p s.word).word = pack3 (s.decrement i p s.word).outstanding
      s.start.published s.winner.isSome s.stop.requested := by
    change fetchSub C.stateBits s.word countIncrement = _
    rw [fetchSub_of_le ((hi.countIncrement_le hnc).mpr hpos) (hi.word_lt hnc), hi.word hnc, ← hout]
    exact pack3_sub_eight _ _ _ _
  refine hm.inv_leave hi hp hposition hnostore rfl ?_ (fun _ => hword) ?_ hchild hi.reference ?_ ?_
    rfl rfl ?_ hi.noFault
  · rw [hclaim]
    constructor
    · rintro ⟨hone, hpub⟩
      exact ⟨by omega, hpub⟩
    · rintro ⟨hzero, hpub⟩
      exact ⟨by omega, hpub⟩
  · rintro ⟨-, hpub⟩
    have hpub' : s.start.published = true := hpub
    rw [hpub'] at hword
    refine ⟨_, _, _, hword, ?_, id, hi.winner_of_byWinner⟩
    have := s.outstanding_le
    omega
  · intro hwi
    have hws : s.winner = some i := hwi
    rcases hi.winner i hws with hpre | ⟨-, hc | hstored⟩
    · rw [hnostore] at hpre
      cases hpre
    · exact absurd hc hnc
    · exact .inr (storedOk_decrement (by rw [hws]; rfl) hstored)
  · intro hnone hzero hpub
    exact hlast hnone (by omega) hpub
  · intro hnone hsome
    have hws : s.winner = some i := hsome
    rw [hnone] at hws
    cases hws

/-- Who is last to leave, and has a result stored by a winner to deliver. -/
theorem Inv.storedOk_solo (hi : s.Inv) (hheld : (s.child i).held = true) (hsolo : s.Solo i)
    (hb : s.Beaten i) : s.StoredOk := by
  obtain ⟨-, j, hj, hne⟩ := hb
  exact hi.storedOk_of_winner (Op.not_complete hheld) hj (hsolo j hne)

theorem solo_iff (hheld : (s.child i).held = true) : s.Solo i ↔ s.outstanding = 1 :=
  (count_eq_one_iff hheld).symm

/-- When a child may deliver: it is the last, after `start()`. -/
theorem Inv.canCompleteInline_eq (hi : s.Inv) (hheld : (s.child i).held = true) :
    canCompleteInline s.word = true ↔ s.outstanding = 1 ∧ s.start.published = true := by
  have hpos : 1 ≤ s.outstanding := count_pos hheld
  rw [hi.canCompleteInline_iff (Op.not_complete hheld)]
  constructor
  · rintro ⟨hlt, hpub⟩
    exact ⟨by omega, hpub⟩
  · rintro ⟨hone, hpub⟩
    exact ⟨by omega, hpub⟩

theorem Inv.valueSubStep (hi : s.Inv) {slot : Slot} (hpc : s.child i = .valueSub slot) :
    (s.valueSub i slot).Inv := by
  have hheld : (s.child i).held = true := by rw [hpc]; rfl
  have hok := hi.child i
  rw [hpc] at hok
  obtain ⟨hsettled, hw, htuple⟩ := hok
  have hsome : s.winner.isSome = true := by rw [hw]; rfl
  have hstored : s.StoredOk := by
    rcases hi.winner i hw with hpre | ⟨-, hc | hstored⟩
    · rw [hpc] at hpre
      cases hpre
    · exact absurd hc (Op.not_complete hheld)
    · exact hstored
  have hinline := hi.canCompleteInline_eq hheld
  unfold valueSub
  refine hi.decrementStep hheld (by rw [hpc]; simp) (by rw [hpc]; rfl) (by rw [hpc]; rfl)
    ?_ ?_ ?_ ?_
  · split_ifs <;> rfl
  · rw [← hinline]
    split_ifs with h
    · exact iff_of_true rfl h
    · exact iff_of_false (by simp [ChildPc.claiming]) h
  · split_ifs with h
    · exact ⟨hsettled, storedOk_decrement hsome hstored, htuple⟩
    · exact hsettled
  · intro hnone
    rw [hw] at hnone
    cases hnone

theorem Inv.discardSubStep (hi : s.Inv) (hpc : s.child i = .discardSub) :
    (s.discardSub i).Inv := by
  have hheld : (s.child i).held = true := by rw [hpc]; rfl
  have hbeaten : s.Beaten i := by
    have := hi.child i
    rwa [hpc] at this
  obtain ⟨c, hc⟩ := Option.isSome_iff_exists.mp hbeaten.1
  obtain ⟨j, hj, hne⟩ := hbeaten.2
  have hsome : s.winner.isSome = true := by rw [hj]; rfl
  have hsettled : s.Settled i := ⟨c, hc, .inl hsome⟩
  have hinline := hi.canCompleteInline_eq hheld
  have hfault : (s.fault || !hasFlag s.word hasValueFlag) = s.fault := by
    rw [hi.value_eq (Op.not_complete hheld), hsome]
    simp
  unfold discardSub
  rw [hfault]
  refine hi.decrementStep hheld (by rw [hpc]; simp) (by rw [hpc]; rfl) (by rw [hpc]; rfl)
    ?_ ?_ ?_ ?_
  · split_ifs <;> rfl
  · rw [← hinline]
    split_ifs with h
    · exact iff_of_true rfl h
    · exact iff_of_false (by simp [ChildPc.claiming]) h
  · split_ifs with h
    · have hsolo := (solo_iff hheld).mpr (hinline.mp h).1
      exact ⟨hsettled, storedOk_decrement hsome (hi.storedOk_solo hheld hsolo hbeaten)⟩
    · exact hsettled
  · intro hnone
    rw [hnone] at hsome
    cases hsome

theorem Inv.lastSubStep (hi : s.Inv) (hpc : s.child i = .lastSub) : (s.lastSub i).Inv := by
  have hheld : (s.child i).held = true := by rw [hpc]; rfl
  have hok := hi.child i
  rw [hpc] at hok
  obtain ⟨hbeaten, hsolo⟩ := hok
  obtain ⟨c, hc⟩ := Option.isSome_iff_exists.mp hbeaten.1
  obtain ⟨j, hj, hne⟩ := hbeaten.2
  have hsome : s.winner.isSome = true := by rw [hj]; rfl
  have hsettled : s.Settled i := ⟨c, hc, .inl hsome⟩
  have hone := (solo_iff hheld).mp hsolo
  have hstart := hi.started_eq (Op.not_complete hheld)
  unfold lastSub
  refine hi.decrementStep hheld (by rw [hpc]; simp) (by rw [hpc]; rfl) (by rw [hpc]; rfl)
    ?_ ?_ ?_ ?_
  · split_ifs <;> rfl
  · rw [← hstart]
    split_ifs with h
    · exact iff_of_true rfl ⟨hone, h⟩
    · exact iff_of_false (by simp [ChildPc.claiming]) fun hc => h hc.2
  · split_ifs with h
    · exact ⟨hsettled, storedOk_decrement hsome (hi.storedOk_solo hheld hsolo hbeaten)⟩
    · exact hsettled
  · intro hnone
    rw [hnone] at hsome
    cases hsome

theorem Inv.resultSubStep (hi : s.Inv) (hpc : s.child i = .resultSub) : (s.resultSub i).Inv := by
  have hheld : (s.child i).held = true := by rw [hpc]; rfl
  have hok := hi.child i
  rw [hpc] at hok
  obtain ⟨hnone, hsolo, c, r, hr, hc, hgives, hvalue⟩ := hok
  have hsettled : s.Settled i := ⟨c, hc, .inr ⟨r, hgives, hvalue⟩⟩
  have hone := (solo_iff hheld).mp hsolo
  have hstart := hi.started_eq (Op.not_complete hheld)
  have hstored : ∀ q, (s.decrement i q s.word).StoredOk := by
    intro q
    refine ⟨r, hr, ?_⟩
    unfold IsCorrect
    rw [show (s.decrement i q s.word).winner = none from hnone]
    exact ⟨i, c, List.getLast?_concat .., hc, hgives, hvalue⟩
  unfold resultSub
  refine hi.decrementStep hheld (by rw [hpc]; simp) (by rw [hpc]; rfl) (by rw [hpc]; rfl)
    ?_ ?_ ?_ ?_
  · split_ifs <;> rfl
  · rw [← hstart]
    split_ifs with h
    · exact iff_of_true rfl ⟨hone, h⟩
    · exact iff_of_false (by simp [ChildPc.claiming]) fun hc => h hc.2
  · split_ifs with h
    · exact ⟨hsettled, hstored _, rfl⟩
    · exact hsettled
  · intro _ _ _
    exact hstored _

theorem Inv.resultCasStep (hi : s.Inv) {r : Result D X} {move : Move X} {old : ℕ}
    (hpc : s.child i = .resultCas r move old) (hold : s.word = old) :
    (s.decrement i .done old).Inv := by
  have hheld : (s.child i).held = true := by rw [hpc]; rfl
  have hok := hi.child i
  rw [hpc, ← hold] at hok
  obtain ⟨⟨c, hc, hgives, -, hvalue⟩, hle⟩ := hok
  have htwo := (hi.twice_countIncrement_le (Op.not_complete hheld)).mp hle
  rw [← hold]
  refine hi.decrementStep hheld (by rw [hpc]; simp) (by rw [hpc]; rfl) (by rw [hpc]; rfl)
    rfl ?_ ?_ ?_
  · refine iff_of_false (by simp [ChildPc.claiming]) ?_
    rintro ⟨hone, -⟩
    omega
  · exact ⟨c, hc, .inr ⟨r, hgives, hvalue⟩⟩
  · intro _ hone
    omega

/-! Steps with which the last child finds that it is to deliver, and leaves the word as it is. -/

theorem Inv.claimStep (hi : s.Inv) (hm : Moves s t i p) (hp : p.claiming = true)
    (hposition : (s.child i).position = none) (hnostore : (s.child i).preStore = false)
    (hone : s.outstanding = 1) (hpub : s.start.published = true)
    (hdeparted : t.departed = s.departed ++ [i])
    (hword : ∃ c v q, t.word = pack3 c true v q ∧ c ≤ C.children ∧
      (q = true → s.stop.requested = true) ∧ (t.ByWinner → v = true))
    (hchild : t.ChildOk i p)
    (hreference : ∀ j, t.resultVariant = some (.reference j) → t.winner = some j)
    (hforwarder : t.forwarder = s.forwarder) (hcalls : t.stopRequests = s.stopRequests)
    (hnew : s.winner = none → t.winner = some i → t.othersRunning = false)
    (hfault : t.fault = false) : t.Inv := by
  have hheld := not_held_of_claiming hp
  have hout := hm.outstanding_leave hheld
  have hct : t.Complete := ⟨by omega, hm.start ▸ hpub⟩
  refine hm.inv_leave hi hheld hposition hnostore hdeparted ?_ (fun h => absurd hct h)
    (fun _ => hword) hchild hreference (fun _ => .inl hct) ?_ hforwarder hcalls hnew hfault
  · exact iff_of_true hp ⟨by omega, hpub⟩
  · intro _ _ hnot
    rw [hpub] at hnot
    cases hnot

/-- The word that the last child sees after `start()`. -/
theorem Inv.word_last (hi : s.Inv) (hnc : ¬ s.Complete) (hone : s.outstanding = 1)
    (hpub : s.start.published = true) :
    s.word = pack3 1 true s.winner.isSome s.stop.requested := by
  rw [hi.word hnc, hone, hpub]

theorem Inv.not_byWinner (hi : s.Inv) (hnone : s.winner = none) : ¬ s.ByWinner := by
  intro h
  have := hi.winner_of_byWinner h
  rw [hnone] at this
  cases this

theorem Inv.no_forwarder (hi : s.Inv) (hnone : s.winner = none)
    (hstop : s.stop.requested = false) : s.forwarder = none := by
  cases hf : s.forwarder with
  | none => rfl
  | some c =>
    have hok := (hi.forwarder c hf).1
    cases c with
    | start => exact absurd ⟨.start, hf, by simp⟩ (hi.not_byWinner hnone)
    | child k => exact absurd ⟨.child k, hf, by simp⟩ (hi.not_byWinner hnone)
    | stop =>
      have : s.stop.requested = true := hok
      rw [hstop] at this
      cases this

/-- A child that wins, with the word `w`. -/
theorem Moves.win (hheld : (s.child i).held = true) (hns : s.child i ≠ .notStarted)
    (hnone : s.winner = none) (w : ℕ) (late : Bool) :
    Moves s { ({ s with word := w }.win i).setChild i p with lateThrowing := late } i p :=
  ⟨hheld, hns, rfl, rfl, rfl, rfl, rfl, fun _ _ => rfl, fun _ _ => rfl, .inr ⟨hnone, rfl⟩,
    fun _ _ _ => rfl, fun h => absurd h (by simp [hnone]), .inl rfl⟩

theorem Moves.winInline (hheld : (s.child i).held = true) (hns : s.child i ≠ .notStarted)
    (hnone : s.winner = none) (w : ℕ) :
    Moves s (({ s with word := w }.win i).depart i p) i p :=
  ⟨hheld, hns, rfl, rfl, rfl, rfl, rfl, fun _ _ => rfl, fun _ _ => rfl, .inr ⟨hnone, rfl⟩,
    fun _ _ _ => rfl, fun h => absurd h (by simp [hnone]), .inl rfl⟩

/-- The last child completes with its value, without storing it. -/
theorem Inv.winInlineStep (hi : s.Inv) (h : (s.child i).quiet = true) (hnone : s.winner = none)
    (hinline : canCompleteInline s.word = true) {w : ℕ} {vs : List D} {move : Move X}
    (hc : s.completion i = some (.value vs move))
    (hw : w = s.word ∨ w = fetchOr s.word hasValueFlag)
    (hp : p = .deliver (.value vs) ∨ p = .inlineSub vs ∧ w = s.word) :
    (({ s with word := w }.win i).depart i p).Inv := by
  have hheld := held_of_quiet h
  have hnc := Op.not_complete hheld
  obtain ⟨hone, hpub⟩ := (hi.canCompleteInline_eq hheld).mp hinline
  have hsolo := (solo_iff hheld).mpr hone
  have hlast := hi.word_last hnc hone hpub
  rw [hnone] at hlast
  have hm : Moves s (({ s with word := w }.win i).depart i p) i p :=
    Moves.winInline hheld (started_of_quiet h) hnone w
  have hsettled : (({ s with word := w }.win i).depart i p).Settled i := ⟨_, hc, .inl rfl⟩
  have hcorrect : (({ s with word := w }.win i).depart i p).IsCorrect (.value vs) :=
    ⟨vs, move, hc, rfl⟩
  have hby : ¬ (({ s with word := w }.win i).depart i p).ByWinner := hi.not_byWinner hnone
  refine hi.claimStep hm ?_ (position_of_quiet h) (not_preStore_of_quiet h) hone hpub rfl ?_ ?_ ?_
    rfl rfl ?_ hi.noFault
  · rcases hp with rfl | ⟨rfl, -⟩ <;> rfl
  · have hle := C.two_le
    rcases hw with rfl | rfl
    · exact ⟨1, false, _, hlast, by omega, id, fun hf => absurd hf hby⟩
    · refine ⟨1, true, s.stop.requested, ?_, by omega, id, fun _ => rfl⟩
      change fetchOr s.word hasValueFlag = _
      rw [hlast]
      exact pack3_or_two _ _ _ _
  · rcases hp with rfl | ⟨rfl, rfl⟩
    · exact ⟨hsettled, hcorrect⟩
    · exact ⟨hsettled, rfl, hcorrect, hby, _, hlast, id⟩
  · intro j hj
    have := hi.reference j hj
    rw [hnone] at this
    cases this
  · intro _ _
    change decide _ = false
    rw [decide_eq_false_iff_not]
    rintro ⟨j, hj, hheldj⟩
    have hnot : (s.child j).held = true := hheldj
    rw [hsolo j hj] at hnot
    cases hnot

theorem Inv.winner_isSome (hi : s.Inv) (h : (s.child i).held = true)
    (hflag : hasFlag s.word hasValueFlag = true) : s.winner.isSome = true := by
  rwa [hi.value_eq (Op.not_complete h)] at hflag

theorem Inv.winner_none (hi : s.Inv) (h : (s.child i).held = true)
    (hflag : ¬ hasFlag s.word hasValueFlag = true) : s.winner = none := by
  rw [hi.value_eq (Op.not_complete h)] at hflag
  simpa using hflag

theorem Inv.valueLoadStep (hi : s.Inv) {vs : List D} {move : Move X}
    (hpc : s.child i = .valueLoad vs move) : (s.valueLoad i vs move).Inv := by
  have hquiet : (s.child i).quiet = true := by rw [hpc]; rfl
  have hheld := held_of_quiet hquiet
  have hc : s.completion i = some (.value vs move) := by
    have := hi.child i
    rwa [hpc] at this
  unfold valueLoad
  by_cases hflag : hasFlag s.word hasValueFlag = true
  · rw [if_pos hflag]
    exact hi.quietMove hquiet rfl
      (hi.beaten hquiet (hi.winner_isSome hheld hflag) (by rw [hc]; rfl))
  · rw [if_neg hflag]
    have hnone := hi.winner_none hheld hflag
    by_cases hinline : canCompleteInline s.word = true
    · rw [if_pos hinline]
      refine hi.winInlineStep hquiet hnone hinline hc (.inl rfl) ?_
      split_ifs
      · exact .inr ⟨rfl, rfl⟩
      · exact .inl rfl
    · rw [if_neg hinline]
      cases move with
      | nothrow => exact hi.quietMove hquiet rfl hc
      | mayThrow throws => exact hi.quietMove hquiet rfl hc

/-- Setting `has_value_flag` again changes nothing. -/
theorem Inv.fetchOr_value (hi : s.Inv) (h : (s.child i).held = true)
    (hsome : s.winner.isSome = true) : fetchOr s.word hasValueFlag = s.word := by
  rw [hi.word (Op.not_complete h), hsome]
  exact pack3_or_two _ _ _ _

/-- A child that wins while others are outstanding or `start()` has not finished. -/
theorem Inv.winStep (hi : s.Inv) (h : (s.child i).quiet = true) (hnone : s.winner = none)
    (hp : p.preStore = true) {l : Bool} (hchild : ChildOk
      { ({ s with word := fetchOr s.word hasValueFlag }.win i).setChild i p with
        lateThrowing := l } i p)
    (howes : l = false → forwards s.word = true →
      ∃ vs old, p = .storeValue vs old ∧ forwards old = true) :
    Inv { ({ s with word := fetchOr s.word hasValueFlag }.win i).setChild i p with
      lateThrowing := l } := by
  have hheld := held_of_quiet h
  have hnc := Op.not_complete hheld
  have hpos : p.position = none := by cases p <;> first | rfl | cases hp
  have hns : p ≠ .notStarted := by
    intro hpn
    subst hpn
    cases hp
  have hm : Moves s { ({ s with word := fetchOr s.word hasValueFlag }.win i).setChild i p with
      lateThrowing := l } i p := Moves.win hheld (started_of_quiet h) hnone _ _
  refine hm.inv_stay hi (held_of_preStore hp) hns rfl ?_ hchild ?_ (fun _ => .inl hp) ?_ ?_ ?_
    hi.noFault
  · change fetchOr s.word hasValueFlag = _
    rw [hi.word hnc, hnone]
    exact pack3_or_two _ _ _ _
  · intro j hj
    have hw := hi.reference j hj
    rw [hnone] at hw
    cases hw
  · refine hi.forwarding.congr fun c => ?_
    cases c with
    | start | stop => rfl
    | child j =>
      by_cases hj : j = i
      · subst j
        simp only [setChild, win, position, Function.update_self, position_of_quiet h, hpos]
      · simp only [setChild, win, position, Function.update_of_ne hj]
  · intro vs old hpc
    rw [hpc] at h
    cases h
  · rintro - - ⟨hf, -, -, hlate⟩ hpub
    refine howes hlate ?_
    unfold forwards
    rw [hi.started_eq hnc, hi.stop_eq hnc, hpub]
    -- had a stop been requested before, the outer `request_stop()` would forward it
    cases hr : s.stop.requested with
    | false => rfl
    | true =>
      have hstop : s.forwarder = some .stop := hi.stopped hr hnone hnc
      have hf' : s.forwarder = none := hf
      rw [hstop] at hf'
      cases hf'

theorem Inv.valueOrStep (hi : s.Inv) {vs : List D} (hpc : s.child i = .valueOr vs) :
    (s.valueOr i vs).Inv := by
  have hquiet : (s.child i).quiet = true := by rw [hpc]; rfl
  have hheld := held_of_quiet hquiet
  have hnc := Op.not_complete hheld
  have hc : s.completion i = some (.value vs .nothrow) := by
    have := hi.child i
    rwa [hpc] at this
  unfold valueOr
  by_cases hflag : hasFlag s.word hasValueFlag = true
  · have hsome := hi.winner_isSome hheld hflag
    simp only [if_pos hflag, hi.fetchOr_value hheld hsome]
    exact hi.quietMove hquiet rfl (hi.beaten hquiet hsome (by rw [hc]; rfl))
  · have hnone := hi.winner_none hheld hflag
    simp only [if_neg hflag]
    by_cases hinline : canCompleteInline s.word = true
    · rw [if_pos hinline]
      exact hi.winInlineStep hquiet hnone hinline hc (.inr rfl) (.inl rfl)
    · rw [if_neg hinline]
      refine hi.winStep (l := s.lateThrowing) hquiet hnone rfl ?_ ?_
      · refine ⟨hc, rfl, fun hfwd => ?_⟩
        simp only [forwards, hi.started_eq hnc, hi.stop_eq hnc, Bool.and_eq_true,
          Bool.not_eq_true'] at hfwd
        obtain ⟨hpub, hstop⟩ := hfwd
        refine ⟨?_, hpub, hi.no_forwarder hnone hstop⟩
        rw [hi.twice_countIncrement_le hnc]
        rw [hi.canCompleteInline_iff hnc] at hinline
        by_contra hlt
        exact hinline ⟨by omega, hpub⟩
      · intro _ hfwd
        exact ⟨vs, s.word, rfl, hfwd⟩

theorem Inv.throwingOrStep (hi : s.Inv) (hpc : s.child i = .throwingOr) :
    (s.throwingOr i).Inv := by
  have hquiet : (s.child i).quiet = true := by rw [hpc]; rfl
  have hheld := held_of_quiet hquiet
  have hok := hi.child i
  rw [hpc] at hok
  obtain ⟨vs, hc, hv⟩ := hok
  unfold throwingOr
  by_cases hflag : hasFlag s.word hasValueFlag = true
  · have hsome := hi.winner_isSome hheld hflag
    simp only [if_pos hflag, hi.fetchOr_value hheld hsome]
    exact hi.quietMove hquiet rfl (hi.beaten hquiet hsome (by rw [hc]; rfl))
  · have hnone := hi.winner_none hheld hflag
    simp only [if_neg hflag]
    refine hi.winStep hquiet hnone rfl ⟨rfl, vs, hc, hv⟩ ?_
    intro hlate hfwd
    rw [hfwd] at hlate
    cases hlate

theorem Inv.storeThrowingStep (hi : s.Inv) {vs : List D}
    (hpc : s.child i = .storeThrowing vs none) :
    Inv { s.setChild i .throwingOr with
      throwingValueResults := Function.update s.throwingValueResults i (some vs) } := by
  have hc : s.completion i = some (.value vs (.mayThrow none)) := by
    have := hi.child i
    rwa [hpc] at this
  refine hi.quietStep (by rw [hpc]; rfl) rfl ?_ ⟨vs, hc, Function.update_self _ _ _⟩
  intro j hj
  exact ⟨rfl, Function.update_of_ne hj _ _⟩

theorem Inv.storeThrowsStep (hi : s.Inv) {vs : List D} {x : X}
    (hpc : s.child i = .storeThrowing vs (some x)) :
    (s.setChild i (.resultLoad (.exceptionPtr x) .nothrow)).Inv := by
  have hc : s.completion i = some (.value vs (.mayThrow (some x))) := by
    have := hi.child i
    rwa [hpc] at this
  have hgives : (Completion.value vs (.mayThrow (some x))).Gives (.exceptionPtr x) :=
    .inr ⟨x, rfl, rfl⟩
  exact hi.quietMove (by rw [hpc]; rfl) rfl ⟨_, hc, hgives, hgives, rfl⟩

theorem Inv.dropThrowingStep (hi : s.Inv) (hpc : s.child i = .dropThrowing) :
    Inv { s.setChild i .discardSub with
      throwingValueResults := Function.update s.throwingValueResults i none } := by
  have hb : s.Beaten i := by
    have := hi.child i
    rwa [hpc] at this
  refine hi.quietStep (by rw [hpc]; rfl) rfl ?_ hb
  intro j hj
  exact ⟨rfl, Function.update_of_ne hj _ _⟩

/-! The winner stores its value and forwards. -/

/-- The state after the winner has moved on: only its own storage, its position and the calls it
makes have changed. -/
theorem Inv.winnerStep (hi : s.Inv) (hm : Moves s t i p) (hw : s.winner = some i)
    (hp : p.held = true) (hset : p.settled = true) (hdeparted : t.departed = s.departed)
    (hword : t.word = s.word) (hwinner : t.winner = s.winner) (hchild : t.ChildOk i p)
    (hreference : ∀ j, t.resultVariant = some (.reference j) → j = i) (hstored : t.StoredOk)
    (hforwarding : Broadcast.Once Caller.target (position t.start t.stop t.child) t.forwarder
      t.stopRequests)
    (hold : ∀ vs old, s.child i = .storeValue vs old → forwards old = true → ¬ t.Owed)
    (hfault : t.fault = false) : t.Inv := by
  have hns : p ≠ .notStarted := by
    intro hpn
    subst hpn
    cases hset
  refine hm.inv_stay hi hp hns hdeparted ?_ hchild ?_ (fun _ => .inr ⟨hset, hstored⟩) hforwarding
    hold ?_ hfault
  · rw [hword, hwinner]
    exact hi.word hm.not_complete
  · intro j hj
    rw [hreference j hj, hwinner, hw]
  · intro hnone
    rw [hw] at hnone
    cases hnone

theorem Inv.storeValueStep (hi : s.Inv) {vs : List D} {old : ℕ}
    (hpc : s.child i = .storeValue vs old) : (s.storeValue i vs old).Inv := by
  have hheld : (s.child i).held = true := by rw [hpc]; rfl
  have hns : s.child i ≠ .notStarted := by rw [hpc]; simp
  have hok := hi.child i
  rw [hpc] at hok
  obtain ⟨hc, hw, hfwd⟩ := hok
  have hvacuous : ∀ j, j ≠ i → s.winner ≠ some j := by
    intro j hj hwj
    exact hj (Option.some.inj (hwj.symm.trans hw))
  have hcorrect : s.IsCorrect (.value vs) := by
    unfold IsCorrect
    rw [hw]
    exact ⟨vs, _, hc, rfl⟩
  unfold storeValue
  by_cases hforward : forwards old = true
  · obtain ⟨hle, hpub, hnone⟩ := hfwd hforward
    have hfault : (s.fault || decide (old < 2 * countIncrement)) = false := by
      simp [hi.noFault, hle]
    simp only [hforward, if_true, hfault]
    refine hi.winnerStep (p := .stopLoop C.first) ⟨hheld, hns, rfl, rfl, rfl, rfl, rfl,
      fun _ _ => rfl, fun _ _ => rfl, .inl rfl, fun j hj hwj => absurd hwj (hvacuous j hj),
      fun _ => ⟨rfl, rfl⟩, .inr ⟨hnone, hpub, hw, rfl⟩⟩ hw rfl rfl rfl rfl rfl
      ⟨⟨_, hc, .inl (by simp [setChild, hw])⟩, hw⟩ ?_ ⟨_, rfl, hcorrect⟩ ?_ ?_ rfl
    · intro j hj
      cases hj
    · have hforwarding := hi.forwarding
      rw [hnone] at hforwarding
      refine hforwarding.enter (c := .child i) (k := C.first) ?_ rfl ?_
      · simp [position, setChild, ChildPc.position]
      · intro d hd
        cases d with
        | start | stop => rfl
        | child j =>
          have hj : j ≠ i := fun h => hd (by rw [h])
          simp only [position, setChild, Function.update_of_ne hj]
    · rintro _ _ _ _ ⟨hf, -⟩
      cases hf
  · simp only [if_neg hforward]
    refine hi.winnerStep (p := .valueSub .variant) ⟨hheld, hns, rfl, rfl, rfl, rfl, rfl,
      fun _ _ => rfl, fun _ _ => rfl, .inl rfl, fun j hj hwj => absurd hwj (hvacuous j hj),
      fun _ => ⟨rfl, rfl⟩, .inl rfl⟩ hw rfl rfl rfl rfl rfl
      ⟨⟨_, hc, .inl (by simp [setChild, hw])⟩, hw, rfl⟩ ?_ ⟨_, rfl, hcorrect⟩ ?_ ?_ hi.noFault
    · intro j hj
      cases hj
    · refine hi.forwarding.congr fun d => ?_
      cases d with
      | start | stop => rfl
      | child j =>
        by_cases hj : j = i
        · subst j
          simp [position, setChild, ChildPc.position, hpc]
        · simp only [position, setChild, Function.update_of_ne hj]
    · intro vs' old' hpc' hfwd'
      rw [hpc] at hpc'
      cases hpc'
      exact absurd hfwd' hforward

theorem Inv.stopLoopStep (hi : s.Inv) {k : C.Child} (hpc : s.child i = .stopLoop k) :
    Inv ((s.requestStopOn (.child i) k).setChild i
      (((Broadcast.next k).map .stopLoop).getD (.valueSub .variant))) := by
  generalize hnext : ((Broadcast.next k).map ChildPc.stopLoop).getD (.valueSub .variant) = q
  have hheld : (s.child i).held = true := by rw [hpc]; rfl
  have hq : q.held = true ∧ q.settled = true ∧ q.position = Broadcast.next k := by
    subst hnext
    cases Broadcast.next k <;> exact ⟨rfl, rfl, rfl⟩
  obtain ⟨hqheld, hqset, hqpos⟩ := hq
  have hok := hi.child i
  rw [hpc] at hok
  obtain ⟨hsettled, hw⟩ := hok
  have hstored : s.StoredOk := by
    rcases hi.winner i hw with hpre | ⟨-, hc | hstored⟩
    · rw [hpc] at hpre
      cases hpre
    · exact absurd hc (Op.not_complete hheld)
    · exact hstored
  refine hi.winnerStep (p := q) ⟨hheld, by rw [hpc]; simp, rfl, rfl, rfl, rfl, rfl,
    fun _ _ => rfl, fun _ _ => rfl, .inl rfl, fun _ _ _ => rfl, fun _ => ⟨rfl, rfl⟩, .inl rfl⟩ hw
    hqheld hqset rfl rfl rfl ?_ ?_ hstored ?_ ?_ hi.noFault
  · subst hnext
    cases Broadcast.next k with
    | none => exact ⟨hsettled, hw, rfl⟩
    | some k' => exact ⟨hsettled, hw⟩
  · intro j hj
    have := hi.reference j hj
    rw [hw] at this
    exact (Option.some.inj this).symm
  · refine hi.forwarding.advance (c := .child i) ?_ ?_ ?_
    · simp [position, ChildPc.position, hpc]
    · simp only [position, setChild, Function.update_self, hqpos]
    · intro d hd
      cases d with
      | start | stop => rfl
      | child j =>
        have hj : j ≠ i := fun h => hd (by rw [h])
        simp only [position, setChild, requestStopOn, Function.update_of_ne hj]
  · intro vs old hpc'
    rw [hpc] at hpc'
    cases hpc'

theorem Inv.setReferenceStep (hi : s.Inv) (hpc : s.child i = .setReference) :
    Inv { s.setChild i (.valueSub .throwing) with resultVariant := some (.reference i) } := by
  have hheld : (s.child i).held = true := by rw [hpc]; rfl
  have hok := hi.child i
  rw [hpc] at hok
  obtain ⟨hw, vs, hc, hv⟩ := hok
  have hcorrect : s.IsCorrect (.value vs) := by
    unfold IsCorrect
    rw [hw]
    exact ⟨vs, _, hc, rfl⟩
  have hvacuous : ∀ j, j ≠ i → s.winner ≠ some j := by
    intro j hj hwj
    exact hj (Option.some.inj (hwj.symm.trans hw))
  refine hi.winnerStep (p := .valueSub .throwing) ⟨hheld, by rw [hpc]; simp, rfl, rfl, rfl, rfl,
    rfl, fun _ _ => rfl, fun _ _ => rfl, .inl rfl, fun j hj hwj => absurd hwj (hvacuous j hj),
    fun _ => ⟨rfl, rfl⟩, .inl rfl⟩ hw rfl rfl rfl rfl rfl
    ⟨⟨_, hc, .inl (by simp [setChild, hw])⟩, hw, rfl⟩ ?_ ⟨.value vs, ?_, hcorrect⟩ ?_ ?_ hi.noFault
  · intro j hj
    cases hj
    rfl
  · simp [storedResult, setChild, hv]
  · refine hi.forwarding.congr fun d => ?_
    cases d with
    | start | stop => rfl
    | child j =>
      by_cases hj : j = i
      · subst j
        simp [position, setChild, ChildPc.position, hpc]
      · simp only [position, setChild, Function.update_of_ne hj]
  · intro vs' old hpc'
    rw [hpc] at hpc'
    cases hpc'

/-! `handle_non_value_result` -/

theorem Inv.resultLoopStep (hi : s.Inv) (hquiet : (s.child i).quiet = true) {r : Result D X}
    {move : Move X} (hn : s.NonValue i r move) : (s.resultLoop i r move s.word).Inv := by
  have hheld := held_of_quiet hquiet
  have hnc := Op.not_complete hheld
  have hns := started_of_quiet hquiet
  have hpos : 1 ≤ s.outstanding := count_pos hheld
  obtain ⟨c, hc, hgives, hstore, hvalue⟩ := hn
  unfold resultLoop
  by_cases hmany : 2 * countIncrement ≤ s.word
  · rw [if_pos hmany]
    exact hi.quietMove hquiet rfl ⟨⟨c, hc, hgives, hstore, hvalue⟩, hmany⟩
  · rw [if_neg hmany]
    have hone : s.outstanding = 1 := by
      rw [hi.twice_countIncrement_le hnc] at hmany
      omega
    have hsolo := (solo_iff hheld).mpr hone
    have hstarted := hi.started_eq hnc
    have hle := C.two_le
    have hclaim : ∀ q : ChildPc C D X, Moves s (s.depart i q) i q := fun q =>
      ⟨hheld, hns, rfl, rfl, rfl, rfl, rfl, fun _ _ => rfl, fun _ _ => rfl, .inl rfl,
        fun _ _ _ => rfl, fun _ => ⟨rfl, rfl⟩, .inl rfl⟩
    by_cases hflag : hasFlag s.word hasValueFlag = true
    · rw [if_pos hflag]
      have hsome := hi.winner_isSome hheld hflag
      have hb := hi.beaten hquiet hsome (by rw [hc]; rfl)
      by_cases hs : hasFlag s.word startedFlag = true
      · rw [if_pos hs]
        have hpub : s.start.published = true := hstarted.symm.trans hs
        have hlast := hi.word_last hnc hone hpub
        rw [hsome] at hlast
        obtain ⟨r', hr', hcorrect⟩ := hi.storedOk_solo hheld hsolo hb
        refine hi.claimStep (hclaim _) rfl (position_of_quiet hquiet)
          (not_preStore_of_quiet hquiet) hone hpub rfl
          ⟨1, true, _, hlast, by omega, id, fun _ => rfl⟩
          ⟨⟨c, hc, .inl hsome⟩, r', hr', ?_⟩ hi.reference rfl rfl ?_ hi.noFault
        · obtain ⟨k, hk⟩ := Option.isSome_iff_exists.mp hsome
          unfold IsCorrect at hcorrect ⊢
          rw [show (s.depart i .deliverStored).winner = some k from hk]
          rw [hk] at hcorrect
          exact hcorrect
        · intro hnone
          rw [hnone] at hsome
          cases hsome
      · rw [if_neg hs]
        exact hi.quietMove hquiet rfl ⟨hb, by
          intro j hj
          simp only [setChild, Function.update_of_ne hj]
          exact hsolo j hj⟩
    · rw [if_neg hflag]
      have hnone := hi.winner_none hheld hflag
      by_cases hs : hasFlag s.word startedFlag = true
      · rw [if_pos hs]
        have hpub : s.start.published = true := hstarted.symm.trans hs
        have hlast := hi.word_last hnc hone hpub
        rw [hnone] at hlast
        have hby := hi.not_byWinner hnone
        have hcorrect : ∀ q, (s.depart i q).IsCorrect r := by
          intro q
          unfold IsCorrect
          rw [show (s.depart i q).winner = none from hnone]
          exact ⟨i, c, List.getLast?_concat .., hc, hgives, hvalue⟩
        refine hi.claimStep (hclaim _) ?_ (position_of_quiet hquiet)
          (not_preStore_of_quiet hquiet) hone hpub rfl
          ⟨1, false, _, hlast, by omega, id, fun h => absurd h hby⟩ ?_ hi.reference rfl rfl ?_
          hi.noFault
        · split_ifs <;> rfl
        · split_ifs
          · exact ⟨⟨c, hc, .inr ⟨r, hgives, hvalue⟩⟩, hcorrect _, hby, _, hlast, id⟩
          · exact ⟨⟨c, hc, .inr ⟨r, hgives, hvalue⟩⟩, hcorrect _⟩
        · intro _ hw
          have : s.winner = some i := hw
          rw [hnone] at this
          cases this
      · rw [if_neg hs]
        refine hi.quietMove hquiet rfl ⟨⟨c, hc, hgives, hstore, hvalue⟩, hnone, ?_⟩
        intro j hj
        simp only [setChild, Function.update_of_ne hj]
        exact hsolo j hj

theorem Inv.storeResultStep (hi : s.Inv) {r : Result D X} {move : Move X}
    (hpc : s.child i = .storeResult r move) :
    Inv { s.setChild i .resultSub with resultVariant := some (.result (move.stored r)) } := by
  have hquiet : (s.child i).quiet = true := by rw [hpc]; rfl
  have hheld := held_of_quiet hquiet
  have hok := hi.child i
  rw [hpc] at hok
  obtain ⟨⟨c, hc, hgives, hstore, hvalue⟩, hnone, hsolo⟩ := hok
  have hvalue' : (move.stored r).isValue = false := by
    rcases move with _ | _ | x
    · exact hvalue
    · exact hvalue
    · rfl
  have hm : Moves s { s.setChild i .resultSub with
      resultVariant := some (.result (move.stored r)) } i .resultSub :=
    ⟨hheld, started_of_quiet hquiet, rfl, rfl, rfl, rfl, rfl, fun _ _ => rfl, fun _ _ => rfl,
      .inl rfl, fun j _ hj => absurd (hnone.symm.trans hj) (by simp), fun _ => ⟨rfl, rfl⟩, .inl rfl⟩
  refine hm.inv_stay hi rfl (by simp) rfl (hi.word hm.not_complete) ?_ ?_ ?_ ?_ ?_ ?_ hi.noFault
  · refine ⟨hnone, ?_, c, move.stored r, rfl, hc, hstore, hvalue'⟩
    intro j hj
    simp only [setChild, Function.update_of_ne hj]
    exact hsolo j hj
  · intro j hj
    cases hj
  · intro hw
    have : s.winner = some i := hw
    rw [hnone] at this
    cases this
  · refine hi.forwarding.congr fun d => ?_
    cases d with
    | start | stop => rfl
    | child j =>
      by_cases hj : j = i
      · subst j
        simp [position, setChild, ChildPc.position, hpc]
      · simp only [position, setChild, Function.update_of_ne hj]
  · intro vs old hpc'
    rw [hpc] at hpc'
    cases hpc'
  · intro _ hw
    have : s.winner = some i := hw
    rw [hnone] at this
    cases this

end Op
end Squiz.FirstSuccessful
