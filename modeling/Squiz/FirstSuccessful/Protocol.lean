import Squiz.FirstSuccessful.Progress

/-! `first_successful_op` completes once, with the first value or else the last result, and it
asks the children that lost to stop. -/
namespace Squiz.FirstSuccessful
open Squiz.Lib Squiz.Lib.Word Squiz.Lib.Processes Squiz.Detail

variable {C : Config} {D X : Type}

def Completion.move : Completion D X → Move X
  | .value _ move => move
  | .signal _ _ move => move

/-- What the receiver gets from a completion whose datums move without throwing. -/
def Completion.result : Completion D X → Result D X
  | .value vs _ => .value vs
  | .signal tag datums _ => .signal tag datums

theorem Completion.Gives.result {c : Completion D X} {r : Result D X} (h : c.Gives r)
    (hc : c.move = .nothrow) : r = c.result := by
  cases c with
  | value vs move | signal tag datums move =>
    have hmove : move = .nothrow := hc
    rcases h with hr | ⟨x, hx, -⟩
    · exact hr
    · rw [hmove] at hx
      cases hx

/-- The children complete with datums that are nothrow-movable. -/
def Act.nothrow : Act C D X → Prop
  | .complete _ c => c.move = .nothrow
  | _ => True

/-- The thread is about to complete the receiver. -/
def ChildPc.completing : ChildPc C D X → Bool
  | .deliver _ | .deliverTuple _ | .deliverStored => true
  | _ => false

namespace Op
variable {s t : Op C D X} {i : C.Child}

def NothrowCompletions (s : Op C D X) : Prop := ∀ i c, s.completion i = some c → c.move = .nothrow

/-- The receiver is being completed, or has been. -/
def Entered (s : Op C D X) : Prop :=
  s.start = .deliver ∨ (∃ i, (s.child i).completing = true) ∨ s.delivered ≠ []

/-- The value of the child that claimed `has_value_flag` first, or else, if no child has a value,
the result of the last child to complete. -/
def FirstValueElseLast (s : Op C D X) (r : Result D X) : Prop :=
  match s.winner with
  | some i => ∃ vs move, s.completion i = some (.value vs move) ∧ r = .value vs
  | none => (∀ i vs move, s.completion i ≠ some (.value vs move)) ∧
      ∃ i c, s.departed.getLast? = some i ∧ s.completion i = some c ∧ r = c.result

/-- Nothing is left to do but, possibly, an outer `request_stop()`. -/
def Quiescent (s : Op C D X) : Prop := ∀ a : Act C D X, a.nothrow → a ≠ .stop → s.step a = none

/-- The whole promise of `first_successful_op` about one reachable state. -/
structure CompletesOnce (s : Op C D X) : Prop where
  deliveredOnce : s.delivered.length ≤ 1
  /-- the receiver is completed after all children were launched and have completed -/
  deliveredLast : s.Entered → hasFlag s.word startedFlag = true ∧
    ∀ i, (s.completion i).isSome = true ∧ i ∈ s.departed
  /-- by one thread, beside which the other threads are done -/
  deliveredAlone : s.Entered → (s.start = .deliver ∨ s.start = .done) ∧
    (∀ i, (s.child i).completing = true ∨ s.child i = .done) ∧
    s.start.delivering + count ChildPc.completing s.child + s.delivered.length = 1
  /-- and from then on all threads are -/
  untouched : s.delivered ≠ [] → s.start = .done ∧ ∀ i, s.child i = .done
  result : ∀ r ∈ s.delivered, s.FirstValueElseLast r
  /-- no other child claims `has_value_flag` after the winner -/
  winnerStays : ∀ a t i, s.step a = some t → s.winner = some i → t.winner = some i
  /-- a run that cannot go on has delivered -/
  deliveredAtEnd : s.Quiescent → s.delivered.length = 1
  noFault : s.fault = false

theorem claiming_of_completing {pc : ChildPc C D X} (h : pc.completing = true) :
    pc.claiming = true := by
  cases pc <;> first | rfl | cases h

theorem Inv.complete_of_entered (hi : s.Inv) (h : s.Entered) : s.Complete := by
  by_contra hnc
  obtain ⟨hnone, hnil⟩ := hi.undelivered hnc
  unfold delivering at hnone
  rcases h with hstart | ⟨i, hchild⟩ | hdelivered
  · rw [hstart, StartPc.delivering] at hnone
    omega
  · have := hi.not_claiming hnc i
    rw [claiming_of_completing hchild] at this
    cases this
  · exact hdelivered hnil

/-! What a step leaves of the completions, of the winner and of what `start()` found. -/

def SameHistory (s t : Op C D X) : Prop :=
  t.completion = s.completion ∧ t.winner = s.winner ∧ t.foundAllComplete = s.foundAllComplete

theorem deliverFrom_history (s : Op C D X) (r : Option (Result D X)) :
    SameHistory s (s.deliverFrom r) := by
  cases r <;> exact ⟨rfl, rfl, rfl⟩

theorem startLoop_history (s : Op C D X) (old : ℕ) : SameHistory s (s.startLoop old) := by
  unfold startLoop
  split_ifs <;> exact ⟨rfl, rfl, rfl⟩

theorem resultLoop_history (s : Op C D X) (i : C.Child) (r : Result D X) (move : Move X) (old : ℕ) :
    SameHistory s (s.resultLoop i r move old) := by
  unfold resultLoop
  split_ifs <;> exact ⟨rfl, rfl, rfl⟩

theorem startStep_history {spurious : Bool} (ht : s.startStep spurious = some t) :
    t.completion = s.completion ∧ t.winner = s.winner ∧
      (t.foundAllComplete = s.foundAllComplete ∨ ∃ old, s.start = .storeStarted old) := by
  have hsame : SameHistory s t → t.completion = s.completion ∧ t.winner = s.winner ∧
      (t.foundAllComplete = s.foundAllComplete ∨ ∃ old, s.start = .storeStarted old) :=
    fun h => ⟨h.1, h.2.1, .inl h.2.2⟩
  unfold startStep at ht
  split at ht
  case h_2 =>
    cases ht
    exact hsame (s.startLoop_history _)
  case h_3 old hpc =>
    cases ht
    exact ⟨rfl, rfl, .inr ⟨old, hpc⟩⟩
  case h_6 old hpc =>
    by_cases hcas : s.word = old ∧ spurious = false
    · rw [if_pos hcas] at ht
      cases ht
      exact hsame ⟨rfl, rfl, rfl⟩
    · rw [if_neg hcas] at ht
      cases ht
      exact hsame (s.startLoop_history _)
  case h_7 =>
    cases ht
    exact hsame (s.deliverFrom_history _)
  case h_8 => cases ht
  all_goals
    cases ht
    exact hsame ⟨rfl, rfl, rfl⟩

theorem stopStep_history (ht : s.stopStep = some t) : SameHistory s t := by
  unfold stopStep at ht
  split at ht
  · by_cases hstart : s.start = .done ∧ C.isRequestStopSupported = true
    · rw [if_pos hstart] at ht
      cases ht
      exact ⟨rfl, rfl, rfl⟩
    · rw [if_neg hstart] at ht
      cases ht
  · cases ht
    exact ⟨rfl, rfl, rfl⟩
  · cases ht

/-- A child that has not left the count claims `has_value_flag` where it is clear. -/
def Claims (s t : Op C D X) (i : C.Child) : Prop :=
  (s.child i).held = true ∧ hasFlag s.word hasValueFlag = false ∧
    t.completion = s.completion ∧ t.foundAllComplete = s.foundAllComplete

theorem childStep_history {spurious : Bool} (ht : s.childStep i spurious = some t) :
    SameHistory s t ∨ Claims s t i := by
  unfold childStep at ht
  split at ht
  case h_1 vs move hpc =>
    cases ht
    have hheld : (s.child i).held = true := by
      rw [hpc]
      rfl
    unfold valueLoad
    split_ifs with hvalue
    · exact .inl ⟨rfl, rfl, rfl⟩
    · exact .inr ⟨hheld, Bool.eq_false_iff.mpr hvalue, rfl, rfl⟩
    · exact .inr ⟨hheld, Bool.eq_false_iff.mpr hvalue, rfl, rfl⟩
    · cases move <;> exact .inl ⟨rfl, rfl, rfl⟩
  case h_3 vs hpc =>
    cases ht
    have hheld : (s.child i).held = true := by
      rw [hpc]
      rfl
    unfold valueOr
    split_ifs with hvalue
    · exact .inl ⟨rfl, rfl, rfl⟩
    · exact .inr ⟨hheld, Bool.eq_false_iff.mpr hvalue, rfl, rfl⟩
    · exact .inr ⟨hheld, Bool.eq_false_iff.mpr hvalue, rfl, rfl⟩
  case h_4 =>
    cases ht
    unfold storeValue
    split_ifs <;> exact .inl ⟨rfl, rfl, rfl⟩
  case h_8 hpc =>
    cases ht
    have hheld : (s.child i).held = true := by
      rw [hpc]
      rfl
    unfold throwingOr
    split_ifs with hvalue
    · exact .inl ⟨rfl, rfl, rfl⟩
    · exact .inr ⟨hheld, Bool.eq_false_iff.mpr hvalue, rfl, rfl⟩
  case h_13 =>
    cases ht
    exact .inl (s.resultLoop_history _ _ _ _)
  case h_14 r move old hpc =>
    by_cases hcas : s.word = old ∧ spurious = false
    · rw [if_pos hcas] at ht
      cases ht
      exact .inl ⟨rfl, rfl, rfl⟩
    · rw [if_neg hcas] at ht
      cases ht
      exact .inl (s.resultLoop_history _ _ _ _)
  case h_19 | h_20 | h_21 =>
    cases ht
    exact .inl (s.deliverFrom_history _)
  case h_22 | h_23 | h_24 => cases ht
  all_goals
    cases ht
    exact .inl ⟨rfl, rfl, rfl⟩

theorem Inv.winner_step (hi : s.Inv) {a : Act C D X} (ht : s.step a = some t)
    (hw : s.winner = some i) : t.winner = some i := by
  cases a with
  | start spurious => exact (startStep_history ht).2.1.trans hw
  | stop => exact (stopStep_history ht).2.1.trans hw
  | complete j c =>
    simp only [Op.step] at ht
    split at ht
    · cases ht
      exact hw
    · cases ht
  | child j spurious =>
    rcases childStep_history ht with hsame | ⟨hheld, hclear, -⟩
    · exact hsame.2.1.trans hw
    · have hvalue := hi.value_eq (not_complete hheld)
      rw [hclear, hw] at hvalue
      cases hvalue

/-- A child that completes keeps its completion. -/
theorem Inv.completion_step (hi : s.Inv) {a : Act C D X} (ht : s.step a = some t)
    {c : Completion D X} (hc : s.completion i = some c) : t.completion i = some c := by
  have hsame : t.completion = s.completion → t.completion i = some c := by
    intro h
    rwa [h]
  cases a with
  | start spurious => exact hsame (startStep_history ht).1
  | stop => exact hsame (stopStep_history ht).1
  | child j spurious =>
    rcases childStep_history ht with h | ⟨-, -, h, -⟩
    · exact hsame h.1
    · exact hsame h
  | complete j c' =>
    simp only [Op.step] at ht
    split at ht
    · next hpc =>
      cases ht
      have hne : i ≠ j := by
        intro hij
        subst hij
        have hok := hi.child i
        rw [hpc] at hok
        exact absurd (hok.symm.trans hc) (by simp)
      simpa only [setChild, Function.update_of_ne hne] using hc
    · cases ht

theorem NothrowCompletions.step (hn : s.NothrowCompletions) {a : Act C D X} (ha : a.nothrow)
    (ht : s.step a = some t) : t.NothrowCompletions := by
  have hsame : t.completion = s.completion → t.NothrowCompletions := by
    intro h j c hc
    rw [h] at hc
    exact hn j c hc
  cases a with
  | start spurious => exact hsame (startStep_history ht).1
  | stop => exact hsame (stopStep_history ht).1
  | child j spurious =>
    rcases childStep_history ht with h | ⟨-, -, h, -⟩
    · exact hsame h.1
    · exact hsame h
  | complete i c =>
    simp only [Op.step] at ht
    split at ht
    · cases ht
      intro j c' hc
      by_cases hj : j = i
      · subst j
        simp only [Function.update_self, Option.some.injEq] at hc
        subst hc
        exact ha
      · simp only [Function.update_of_ne hj] at hc
        exact hn j c' hc
    · cases ht

theorem inv_of_nothrow_reaches (hs : (system C D X).Reaches (fun _ a => a.nothrow) s) :
    s.Inv ∧ s.NothrowCompletions := by
  refine hs.invariant (P := fun u => u.Inv ∧ u.NothrowCompletions) ⟨Inv.initial, ?_⟩ ?_
  · intro i c h
    cases h
  · intro u a v hu ha hv
    exact ⟨hu.1.step a hv, hu.2.step ha hv⟩

/-! One delivery, of the right result -/

theorem Inv.departed_of_complete (hi : s.Inv) (hc : s.Complete) (i : C.Child) :
    (s.completion i).isSome = true ∧ i ∈ s.departed ∧
      ((s.child i).claiming = true ∨ s.child i = .done) := by
  have hheld : (s.child i).held = false := count_eq_zero.mp hc.1 i
  obtain ⟨c, hcompletion, -⟩ := (hi.child i).settled hheld
  refine ⟨by rw [hcompletion]; rfl, (hi.departed.2 i).mpr hheld, ?_⟩
  cases hclaim : (s.child i).claiming with
  | true => exact .inl rfl
  | false => exact .inr (done_of_not_held hheld hclaim)

/-- Once the receiver is being completed, whoever is to deliver is at it. -/
theorem Inv.completing_of_claiming (hi : s.Inv) (he : s.Entered)
    (h : (s.child i).claiming = true) : (s.child i).completing = true := by
  have hone := hi.delivered (hi.complete_of_entered he)
  have hpos : 1 ≤ count ChildPc.claiming s.child := count_pos h
  unfold delivering at hone
  rcases he with hstart | ⟨j, hj⟩ | hdelivered
  · rw [hstart, StartPc.delivering] at hone
    omega
  · have hji : i = j := eq_of_count_le_one (by omega) (claiming_of_completing hj) h
    rwa [hji]
  · have := List.length_pos_iff.mpr hdelivered
    omega

theorem Inv.completing_add (hi : s.Inv) (he : s.Entered) :
    s.start.delivering + count ChildPc.completing s.child + s.delivered.length = 1 := by
  have hone := hi.delivered (hi.complete_of_entered he)
  have hsame : ∀ i, (s.child i).completing = (s.child i).claiming := by
    intro i
    cases hclaim : (s.child i).claiming with
    | true => exact hi.completing_of_claiming he hclaim
    | false =>
      by_contra hne
      have := claiming_of_completing (Bool.eq_true_of_not_eq_false hne)
      rw [hclaim] at this
      cases this
  unfold delivering at hone
  simpa only [count, hsame] using hone

theorem start_of_complete (hc : s.Complete) :
    s.start = .deliver ∨ s.start = .done := by
  have hpub := hc.2
  cases hpc : s.start with
  | deliver => exact .inl rfl
  | done => exact .inr rfl
  | _ =>
    rw [hpc] at hpub
    cases hpub

theorem Inv.untouched (hi : s.Inv) (h : s.delivered ≠ []) :
    s.start = .done ∧ ∀ i, s.child i = .done := by
  have he : s.Entered := .inr (.inr h)
  have hc := hi.complete_of_entered he
  have hone := hi.delivered hc
  have hlen := List.length_pos_iff.mpr h
  unfold delivering at hone
  refine ⟨?_, fun i => ?_⟩
  · rcases start_of_complete hc with hpc | hpc
    · rw [hpc, StartPc.delivering] at hone
      omega
    · exact hpc
  · rcases (hi.departed_of_complete hc i).2.2 with hclaim | hdone
    · have : 1 ≤ count ChildPc.claiming s.child := count_pos hclaim
      omega
    · exact hdone

theorem Inv.no_value (hi : s.Inv) (hn : s.NothrowCompletions) (hc : s.Complete)
    (hw : s.winner = none) (i : C.Child) (vs : List D) (move : Move X) :
    s.completion i ≠ some (.value vs move) := by
  intro hvalue
  obtain ⟨c, hcompletion, hor⟩ := (hi.child i).settled (count_eq_zero.mp hc.1 i)
  rw [hvalue, Option.some.injEq] at hcompletion
  subst hcompletion
  rcases hor with hsome | ⟨r, hgives, hvalue'⟩
  · rw [hw] at hsome
    cases hsome
  · rw [hgives.result (hn i _ hvalue)] at hvalue'
    cases hvalue'

theorem Inv.firstValueElseLast (hi : s.Inv) (hn : s.NothrowCompletions) (hc : s.Complete)
    {r : Result D X} (hr : s.IsCorrect r) : s.FirstValueElseLast r := by
  unfold FirstValueElseLast
  unfold IsCorrect Correct at hr
  cases hw : s.winner with
  | some i =>
    rw [hw] at hr
    exact hr
  | none =>
    rw [hw] at hr
    obtain ⟨i, c, hlast, hcompletion, hgives, -⟩ := hr
    exact ⟨hi.no_value hn hc hw, i, c, hlast, hcompletion,
      Completion.Gives.result hgives (hn i c hcompletion)⟩

theorem Quiescent.start_done (h : s.Quiescent) : s.start = .done := by
  have hstart := h (.start false) trivial (by simp)
  simp only [step, startStep] at hstart
  cases hpc : s.start with
  | done => rfl
  | cas old =>
    simp only [hpc] at hstart
    split_ifs at hstart
  | _ => simp [hpc] at hstart

theorem Quiescent.child_done (h : s.Quiescent) (hstart : s.child i ≠ .notStarted) :
    s.child i = .done := by
  have hcomplete := h (.complete i (.value [] .nothrow)) rfl (by simp)
  have hchild := h (.child i false) trivial (by simp)
  simp only [step, childStep] at hcomplete hchild
  cases hpc : s.child i with
  | done => rfl
  | notStarted => exact absurd hpc hstart
  | running => simp [hpc] at hcomplete
  | storeThrowing vs throws => cases throws <;> simp [hpc] at hchild
  | resultCas r move old =>
    simp only [hpc] at hchild
    split_ifs at hchild
  | _ => simp [hpc] at hchild

theorem Inv.deliveredAtEnd (hi : s.Inv) (hq : s.Quiescent) : s.delivered.length = 1 := by
  have hstart := hq.start_done
  have hpub : s.start.published = true := by
    rw [hstart]
    rfl
  have hdone : ∀ i, s.child i = .done := by
    intro i
    refine hq.child_done fun hnot => ?_
    exact launched_of_published hpub i ((hi.launched i).mp hnot)
  have hzero : s.outstanding = 0 := count_eq_zero.mpr fun i => by rw [hdone i]; rfl
  have hclaim : count ChildPc.claiming s.child = 0 :=
    count_eq_zero.mpr fun i => by rw [hdone i]; rfl
  have hone := hi.delivered ⟨hzero, hpub⟩
  unfold delivering at hone
  rw [hclaim] at hone
  simp only [hstart, StartPc.delivering] at hone
  omega

theorem Inv.completesOnce (hi : s.Inv) (hn : s.NothrowCompletions) : s.CompletesOnce where
  deliveredOnce := by
    by_cases hc : s.Complete
    · have := hi.delivered hc
      omega
    · rw [(hi.undelivered hc).2]
      exact Nat.zero_le 1
  deliveredLast := by
    intro he
    have hc := hi.complete_of_entered he
    obtain ⟨c, v, q, hword, -⟩ := hi.wordAfter hc
    refine ⟨?_, fun i => ?_⟩
    · rw [hword]
      exact hasFlag_pack3_one _ _ _ _
    · obtain ⟨hsome, hmem, -⟩ := hi.departed_of_complete hc i
      exact ⟨hsome, hmem⟩
  deliveredAlone := by
    intro he
    have hc := hi.complete_of_entered he
    refine ⟨start_of_complete hc, fun i => ?_, hi.completing_add he⟩
    rcases (hi.departed_of_complete hc i).2.2 with hclaim | hdone
    · exact .inl (hi.completing_of_claiming he hclaim)
    · exact .inr hdone
  untouched := hi.untouched
  result := by
    intro r hr
    have hne : s.delivered ≠ [] := List.ne_nil_of_mem hr
    exact hi.firstValueElseLast hn (hi.complete_of_entered (.inr (.inr hne))) (hi.correct r hr)
  winnerStays := fun _ _ _ ht hw => hi.winner_step ht hw
  deliveredAtEnd := hi.deliveredAtEnd
  noFault := hi.noFault

/-- Over every interleaving of `start()`, one `request_stop()` and the completions of any number
of children; and every run comes to its end but for compare-exchanges that fail spuriously. -/
theorem delivers_first_value (hs : (system C D X).Reaches (fun _ a => a.nothrow) s) :
    s.CompletesOnce ∧ ∀ as t, (system C D X).run s as = some t →
      as.countP (fun a => !a.spurious) ≤ s.rank := by
  obtain ⟨hi, hn⟩ := inv_of_nothrow_reaches hs
  refine ⟨hi.completesOnce hn, fun as t ht => ?_⟩
  have hle := System.exec_countP_le (P := Inv) rank (fun a => !a.spurious)
    (fun _ a _ hu hv => ⟨hu.step a hv, rank_step hu hv⟩) hi ht
  omega

end Op

/-- Two children that can be asked to stop, with datums and exceptions that are numbers. -/
def pair : Config := ⟨.two, true⟩

instance [DecidableEq X] : ∀ a : Act C D X, Decidable a.nothrow
  | .complete _ c => inferInstanceAs (Decidable (c.move = .nothrow))
  | .start _ | .stop | .child _ _ => .isTrue trivial

namespace Op

/-- The first child completes with a value while it is started, so `start()` asks both to stop,
and the second one's value is discarded. -/
def valueInStart : List (Act pair ℕ ℕ) :=
  [.start false, .complete 0 (.value [7] .nothrow), .child 0 false, .child 0 false, .child 0 false,
    .child 0 false, .start false, .start false, .start false, .start false, .start false,
    .complete 1 (.value [1] .nothrow), .child 1 false, .child 1 false, .child 1 false]

theorem delivers_first_value_run : ∃ s : Op pair ℕ ℕ, s.delivered = [.value [7]] ∧
    s.CompletesOnce ∧ ∀ as t, (system pair ℕ ℕ).run s as = some t →
      as.countP (fun a => !a.spurious) ≤ s.rank := by
  obtain ⟨s, hs, hp⟩ := (system pair ℕ ℕ).exists_reaches (fun _ a => a.nothrow) valueInStart
    (fun s => s.delivered = [.value [7]]) (by decide +kernel)
  exact ⟨s, by simpa using hp, delivers_first_value hs⟩

/-! The losers are asked to stop. -/

/-- The outer `request_stop()` has asked every child to stop, or is in the course of it. -/
def StopTakesOver {C : Config} (s : Op C D X) : Prop :=
  s.forwarder = some .stop ∧ (s.stop = .done → ∀ j, s.stopRequests j = 1)

/-- Whoever won while others were outstanding, by now those were asked to stop by the winner or
by `start()`, or it is up to the outer `request_stop()`. -/
def LosersCancelled {C : Config} (s : Op C D X) : Prop :=
  ∀ i, s.winner = some i → s.othersRunning = true → s.child i = .done → s.start = .done →
    ((s.forwarder = some .start ∨ s.forwarder = some (.child i)) ∧
      ∀ j, j ≠ i → s.stopRequests j = 1) ∨ s.StopTakesOver

/-- A child is asked to stop at most once, and only after all children were started. -/
def StopsOnce {C : Config} (s : Op C D X) : Prop :=
  ∀ i, s.stopRequests i ≤ 1 ∧ (s.stopRequests i ≠ 0 → ∀ j, s.child j ≠ .notStarted)

/-- `start()` found all children complete before it set `started_flag`: there is no loser left
to stop. -/
def NoneLeft {C : Config} (s : Op C D X) : Prop :=
  s.foundAllComplete = true ∧ ∀ j, (s.completion j).isSome = true

variable {C : Config} {s : Op C D X} {i : C.Child}

theorem Inv.stopsOnce (hi : s.Inv) : s.StopsOnce := by
  intro i
  refine ⟨hi.forwarding.le_one i, fun hcalled j => ?_⟩
  cases hfw : s.forwarder with
  | none =>
    rw [hi.forwarding.unsent hfw] at hcalled
    exact absurd rfl hcalled
  | some c =>
    intro hnot
    exact (hi.forwarder c hfw).2 j ((hi.launched j).mp hnot)

theorem Inv.stopTakesOver (hi : s.Inv) (hf : s.forwarder = some .stop) : s.StopTakesOver := by
  refine ⟨hf, fun hdone j => ?_⟩
  have hposition : position s.start s.stop s.child .stop = none := by
    simp [position, hdone, StopPc.position]
  rw [hi.forwarding.finished .stop hf hposition]
  rfl

theorem Inv.losers_cancelled (hi : s.Inv) (hlate : s.lateThrowing = false)
    (hfound : s.foundAllComplete = false) : s.LosersCancelled := by
  intro i hw hothers hdone hstart
  cases hf : s.forwarder with
  | none =>
    rcases hi.owed ⟨hf, by rw [hw]; rfl, hothers, hlate⟩ with hpub | hall | ⟨j, vs, old, hpc, -⟩
    · rw [hstart] at hpub
      cases hpub
    · rw [hfound] at hall
      cases hall
    · -- the winner would still be storing its value
      have hok := hi.child j
      rw [hpc] at hok
      have hji : j = i := Option.some.inj (hok.2.1.symm.trans hw)
      subst hji
      rw [hpc] at hdone
      cases hdone
  | some c =>
    cases c with
    | start =>
      refine .inl ⟨.inl rfl, fun j hj => ?_⟩
      have hposition : position s.start s.stop s.child .start = none := by
        simp [position, hstart, StartPc.position]
      rw [hi.forwarding.finished .start hf hposition]
      rfl
    | stop => exact .inr (hi.stopTakesOver hf)
    | child j =>
      obtain ⟨⟨hwinner, -⟩, -⟩ := hi.forwarder _ hf
      have hji : j = i := Option.some.inj (hwinner.symm.trans hw)
      subst hji
      refine .inl ⟨.inr rfl, fun k hk => ?_⟩
      have hposition : position s.start s.stop s.child (.child j) = none := by
        simp [position, hdone, ChildPc.position]
      rw [hi.forwarding.finished _ hf hposition]
      simp [Broadcast.toAll, Caller.target, hk]

theorem Inv.completions_of_outstanding (hi : s.Inv) (hzero : s.outstanding = 0) (j : C.Child) :
    (s.completion j).isSome = true := by
  obtain ⟨c, hc, -⟩ := (hi.child j).settled (count_eq_zero.mp hzero j)
  rw [hc]
  rfl

/-- `start()` is right when it finds all children complete. -/
theorem Inv.found_step (hi : s.Inv)
    (hfound : s.foundAllComplete = true → ∀ j, (s.completion j).isSome = true)
    {a : Act C D X} (ht : s.step a = some t) :
    t.foundAllComplete = true → ∀ j, (t.completion j).isSome = true := by
  have hkeep : ∀ j, (s.completion j).isSome = true → (t.completion j).isSome = true := by
    intro j hj
    obtain ⟨c, hc⟩ := Option.isSome_iff_exists.mp hj
    rw [hi.completion_step ht hc]
    rfl
  have hsame : t.foundAllComplete = s.foundAllComplete → t.foundAllComplete = true →
      ∀ j, (t.completion j).isSome = true := by
    intro h hf j
    rw [h] at hf
    exact hkeep j (hfound hf j)
  cases a with
  | start spurious =>
    rcases (startStep_history ht).2.2 with h | ⟨old, hpc⟩
    · exact hsame h
    · intro _ j
      have hok := hi.startOk
      rw [hpc] at hok
      exact hkeep j (hi.completions_of_outstanding hok.2 j)
  | stop => exact hsame (stopStep_history ht).2.2
  | child i spurious =>
    rcases childStep_history ht with h | ⟨-, -, -, h⟩
    · exact hsame h.2.2
    · exact hsame h
  | complete i c =>
    refine hsame ?_
    simp only [Op.step] at ht
    split at ht
    · cases ht
      rfl
    · cases ht

theorem found_of_reachable (hs : (system C D X).Reachable s) :
    s.Inv ∧ (s.foundAllComplete = true → ∀ j, (s.completion j).isSome = true) := by
  refine hs.invariant
    (P := fun u => u.Inv ∧ (u.foundAllComplete = true → ∀ j, (u.completion j).isSome = true))
    ⟨Inv.initial, ?_⟩ ?_
  · intro h
    cases h
  · intro u a v hu _ hv
    exact ⟨hu.1.step a hv, hu.1.found_step hu.2 hv⟩

/-- The losers are asked to stop unless `start()` finds that there are none, or the winner's value
may throw and it wins between the end of `start()` and a stop request. -/
theorem cancels_losers (hs : (system C D X).Reachable s) :
    s.StopsOnce ∧ (s.lateThrowing = false → s.LosersCancelled ∨ s.NoneLeft) := by
  obtain ⟨hi, hfound⟩ := found_of_reachable hs
  refine ⟨hi.stopsOnce, fun hlate => ?_⟩
  cases hf : s.foundAllComplete with
  | false => exact .inl (hi.losers_cancelled hlate hf)
  | true => exact .inr ⟨hf, hfound hf⟩

theorem cancels_losers_run : ∃ s : Op pair ℕ ℕ, (s.winner = some 0 ∧ s.stopRequests 1 = 1) ∧
    s.StopsOnce ∧ (s.lateThrowing = false → s.LosersCancelled ∨ s.NoneLeft) := by
  obtain ⟨s, hs, hp⟩ := (system pair ℕ ℕ).exists_reachable valueInStart
    (fun s => s.winner = some 0 ∧ s.stopRequests 1 = 1) (by decide +kernel)
  exact ⟨s, by simpa using hp, cancels_losers hs⟩

/-- The first child completes with a value while it is started and the second before `start()`
looks at the word: nobody asks the second to stop. -/
theorem cancels_losers_fails : ∃ s : Op pair ℕ ℕ, (system pair ℕ ℕ).Reachable s ∧
    ¬ s.LosersCancelled := by
  obtain ⟨s, hs, hp⟩ := (system pair ℕ ℕ).exists_reachable
    [.start false, .complete 0 (.value [7] .nothrow), .child 0 false, .child 0 false,
      .child 0 false, .child 0 false, .start false, .complete 1 (.value [1] .nothrow),
      .child 1 false, .child 1 false, .start false, .start false, .start false]
    (fun s => s.winner = some 0 ∧ s.othersRunning = true ∧ s.child 0 = .done ∧ s.start = .done ∧
      s.forwarder = none) (by decide +kernel)
  simp only [decide_eq_true_eq] at hp
  obtain ⟨hw, hothers, hdone, hstart, hf⟩ := hp
  refine ⟨s, hs, fun h => ?_⟩
  rcases h 0 hw hothers hdone hstart with ⟨hstart | hchild, -⟩ | ⟨hstop, -⟩
  · rw [hf] at hstart
    cases hstart
  · rw [hf] at hchild
    cases hchild
  · rw [hf] at hstop
    cases hstop

end Op
end Squiz.FirstSuccessful
