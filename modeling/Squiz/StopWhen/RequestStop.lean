import Squiz.StopWhen.Protocol

/-! The outer `request_stop()` of `stop_when_op` when the children completed during `start()`. -/
namespace Squiz.StopWhen
open Squiz.Lib Squiz.Lib.Word Squiz.Detail

variable {R X : Type}

namespace Op

/-- `start()` finds the children completed where it only loads the state: it returns without having
added `children_started_flag`. -/
def exitsEarly (s : Op R X) : Act R X → Bool
  | .start =>
    decide (s.start = .loadSource ∧ s.word = sourceCompletedFlag ∨
      s.start = .loadBoth ∧ s.word = sourceCompletedFlag + triggerCompletedFlag)
  | _ => false

/-- A `request_stop()` called after the completion calls no child and completes nothing. -/
def SilentAfterCompletion (s : Op R X) : Prop :=
  s.delivered ≠ [] → s.stop = .notCalled → ∀ as t, (system R X).run s as = some t →
    t.sourceStops = s.sourceStops ∧ t.triggerStops = s.triggerStops ∧ t.delivered = s.delivered

variable {s t : Op R X} {a : Act R X} {as : List (Act R X)}

theorem deliverResult_frame (s : Op R X) : s.deliverResult.word = s.word ∧
    s.deliverResult.assertFailed = s.assertFailed := by
  unfold deliverResult
  cases s.result <;> simp

theorem requestStopOn_assertFailed (s : Op R X) (child : Child) :
    (s.requestStopOn child).assertFailed = s.assertFailed := by
  cases child <;> rfl

/-- Which steps move `start()` and which evaluate the assert. -/
theorem step_frame (ht : s.step a = some t) :
    (a = .start ∨ t.start = s.start) ∧
      (a = .requestStop ∨ t.assertFailed = s.assertFailed) := by
  obtain ⟨hstart, -⟩ := deliverResult_pcs s
  obtain ⟨-, hassert⟩ := deliverResult_frame s
  cases a <;> simp only [Op.step] at ht
  case start =>
    refine ⟨.inl rfl, .inr ?_⟩
    cases hpc : s.start <;> simp only [startStep, hpc] at ht <;> cases ht
    case requestStop child => exact requestStopOn_assertFailed s child
    case deliver | deliverEarly => exact hassert
    all_goals rfl
  case requestStop =>
    split_ifs at ht
    cases ht
    exact ⟨.inr rfl, .inl rfl⟩
  case stop =>
    cases hpc : s.stop <;> simp only [stopStep, hpc] at ht
    case cas => split_ifs at ht <;> cases ht <;> exact ⟨.inr rfl, .inr rfl⟩
    case requestSource | inSource | requestTrigger | inTrigger =>
      cases ht
      exact ⟨.inr rfl, .inr rfl⟩
    all_goals cases ht
  case source =>
    cases hpc : s.source <;> simp only [sourceStep, hpc] at ht <;> cases ht
    case deliver => exact ⟨.inr hstart, .inr hassert⟩
    all_goals exact ⟨.inr rfl, .inr rfl⟩
  case trigger =>
    cases hpc : s.trigger <;> simp only [triggerStep, hpc] at ht <;> cases ht
    case deliver | deliverInline => exact ⟨.inr hstart, .inr hassert⟩
    all_goals exact ⟨.inr rfl, .inr rfl⟩
  case completeTrigger =>
    split_ifs at ht
    cases ht
    exact ⟨.inr rfl, .inr rfl⟩
  case completeSource =>
    split at ht <;> cases ht
    exact ⟨.inr rfl, .inr rfl⟩

theorem Inv.early (hi : s.Inv) (h : s.start.early = true) : s.Early := by
  have hp := hi.phase
  rwa [if_pos h] at hp

theorem Early.word_eq (h : s.Early) : s.word = 2 ∨ s.word = 6 ∨ s.word = 7 := by
  rcases h.trigger with ⟨-, hword⟩ | ⟨-, hword⟩
  · exact .inl hword
  · exact .inr hword

theorem Early.stop_eq (h : s.Early) : s.stop = .notCalled ∨ s.stop = .cas ∨ s.stop = .ignored := by
  have hflag := h.unrequested.1
  cases hpc : s.stop <;> simp [hpc, StopPc.share] at hflag ⊢

/-- Once `start()` has found the children completed no step changes the word. -/
theorem Early.step (h : s.Early) (hearly : s.start.early = true) (ht : s.step a = some t) :
    t.start.early = true ∧ t.word = s.word := by
  cases a <;> simp only [Op.step] at ht
  case start =>
    cases hpc : s.start <;> simp only [hpc, StartPc.early, reduceCtorEq] at hearly <;>
      simp only [startStep, hpc] at ht <;> cases ht
    exact ⟨rfl, (deliverResult_frame s).1⟩
  case requestStop =>
    split_ifs at ht
    cases ht
    exact ⟨hearly, rfl⟩
  case stop =>
    have hword := h.word_eq
    rcases h.stop_eq with hpc | hpc | hpc <;> simp only [stopStep, hpc] at ht
    case inr.inl =>
      rw [if_neg (by rw [childrenStartedFlag]; omega)] at ht
      cases ht
      exact ⟨hearly, rfl⟩
    all_goals cases ht
  case completeSource c => simp [h.source] at ht
  case source => simp [sourceStep, h.source] at ht
  case completeTrigger => rcases h.trigger with ⟨hpc, -⟩ | ⟨hpc, -⟩ <;> simp [hpc] at ht
  case trigger => rcases h.trigger with ⟨hpc, -⟩ | ⟨hpc, -⟩ <;> simp [triggerStep, hpc] at ht

theorem exitsEarly_iff : s.exitsEarly a = true ↔ a = .start ∧
    (s.start = .loadSource ∧ s.word = sourceCompletedFlag ∨
      s.start = .loadBoth ∧ s.word = sourceCompletedFlag + triggerCompletedFlag) := by
  cases a <;> simp only [exitsEarly, decide_eq_true_iff, true_and, reduceCtorEq, false_and,
    Bool.false_eq_true]

theorem early_of_exitsEarly (h : s.exitsEarly a = true) (ht : s.step a = some t) :
    t.start.early = true ∧ t.word ≠ 7 := by
  obtain ⟨rfl, ⟨hpc, hword⟩ | ⟨hpc, hword⟩⟩ := exitsEarly_iff.mp h <;>
    simp only [Op.step, startStep, hpc] at ht <;> cases ht
  · rw [if_pos hword, hword]
    exact ⟨rfl, by decide⟩
  · rw [if_pos hword, hword]
    exact ⟨rfl, by decide⟩

/-- The flag is set when `start()` finds the children completed in another way. -/
theorem word_of_not_exitsEarly (h : s.exitsEarly a = false) (hlate : s.start.early = false)
    (ht : s.step a = some t) (hearly : t.start.early = true) : t.word = 7 := by
  have hexit := mt exitsEarly_iff.mpr (Bool.eq_false_iff.mp h)
  have ha : a = .start := by
    rcases (step_frame ht).1 with ha | hstart
    · exact ha
    · rw [hstart, hlate] at hearly
      cases hearly
  subst ha
  simp only [Op.step] at ht
  cases hpc : s.start <;> simp only [startStep, hpc] at ht <;> cases ht
  case loadSource =>
    have hword : s.word ≠ sourceCompletedFlag := fun hword => hexit ⟨rfl, .inl ⟨hpc, hword⟩⟩
    rw [if_neg hword] at hearly
    cases hearly
  case loadBoth =>
    have hword : s.word ≠ sourceCompletedFlag + triggerCompletedFlag := fun hword =>
      hexit ⟨rfl, .inr ⟨hpc, hword⟩⟩
    rw [if_neg hword] at hearly
    cases hearly
  case addStarted =>
    have hword : s.word = sourceCompletedFlag + triggerCompletedFlag := by
      by_contra hword
      rw [if_neg hword] at hearly
      split_ifs at hearly <;> cases hearly
    rw [hword]
    rfl
  case addDone => split_ifs at hearly <;> cases hearly
  case deliverEarly =>
    rw [hpc] at hlate
    cases hlate
  all_goals cases hearly

/-- `request_stop()` after an early exit fails the assert, which no later step undoes. -/
theorem assertFailed_of_early (hi : s.Inv) (hearly : s.start.early = true) (hword : s.word ≠ 7)
    (has : Act.requestStop ∈ as ∨ s.assertFailed = true)
    (ht : (system R X).run s as = some t) : t.assertFailed = true := by
  induction as generalizing s with
  | nil =>
    cases ht
    simpa using has
  | cons a as ih =>
    obtain ⟨u, hu, htu⟩ := Option.bind_eq_some_iff.mp ht
    have hu : s.step a = some u := hu
    have hE : s.Early := hi.early hearly
    obtain ⟨hearly', hword'⟩ := hE.step hearly hu
    refine ih (hi.step hu) hearly' (by rwa [hword']) ?_ htu
    by_cases ha : a = .requestStop
    · subst ha
      right
      simp only [Op.step] at hu
      split_ifs at hu
      cases hu
      have hflag : hasFlag s.word childrenStartedFlag = false := by
        rcases hE.word_eq with h | h | h
        · rw [h]
          rfl
        · rw [h]
          rfl
        · exact absurd h hword
      simp [hflag]
    · rw [(step_frame hu).2.resolve_left ha]
      rcases has with has | has
      · exact .inl (List.mem_of_ne_of_mem (Ne.symm ha) has)
      · exact .inr has

/-- A run in which `request_stop()` is called and the assert does not fail has no early exit. -/
theorem exec_of_assert (hi : s.Inv)
    (has : Act.requestStop ∈ as ∨ s.start = .returned ∨ s.start = .returnedEarly)
    (ht : (system R X).run s as = some t) (hassert : t.assertFailed = false) :
    (system R X).exec (fun s a => s.exitsEarly a = false) s as = some t := by
  induction as generalizing s with
  | nil => exact ht
  | cons a as ih =>
    obtain ⟨u, hu, htu⟩ := Option.bind_eq_some_iff.mp ht
    have hu : s.step a = some u := hu
    have hguard : s.exitsEarly a = false := by
      by_contra hexit
      have hexit : s.exitsEarly a = true := Bool.of_not_eq_false hexit
      obtain ⟨rfl, hpc⟩ := exitsEarly_iff.mp hexit
      have hin : Act.requestStop ∈ as := by
        rcases has with has | has
        · have hne : (Act.requestStop : Act R X) ≠ .start := nofun
          exact List.mem_of_ne_of_mem hne has
        · rcases has with has | has <;> rcases hpc with ⟨hpc, -⟩ | ⟨hpc, -⟩ <;>
            rw [has] at hpc <;> cases hpc
      obtain ⟨hearly, hword⟩ := early_of_exitsEarly hexit hu
      rw [assertFailed_of_early (hi.step hu) hearly hword (.inl hin) htu] at hassert
      cases hassert
    have hrest : Act.requestStop ∈ as ∨ u.start = .returned ∨ u.start = .returnedEarly := by
      rcases has with has | has
      · rcases List.mem_cons.mp has with rfl | has
        · right
          simp only [Op.step] at hu
          split_ifs at hu with hcalled
          cases hu
          exact hcalled.2
        · exact .inl has
      · right
        rcases (step_frame hu).1 with rfl | hstart
        · rcases has with has | has <;> simp [Op.step, startStep, has] at hu
        · rwa [hstart]
    have hexec := ih (hi.step hu) hrest htu
    show (if s.exitsEarly a = false then ((system R X).step s a).bind _ else none) = some t
    rw [if_pos hguard]
    exact Option.bind_eq_some_iff.mpr ⟨u, hu, hexec⟩

/-- Where `start()` has returned and an early exit was not taken, the flag is set. -/
theorem hasFlag_of_returned (hi : s.Inv) (hword : s.start.early = true → s.word = 7)
    (hstart : s.start = .returned ∨ s.start = .returnedEarly) :
    hasFlag s.word childrenStartedFlag = true := by
  rcases hstart with hstart | hstart
  · have hopen : s.Open := by
      have hp := hi.phase
      rwa [if_neg (by rw [hstart]; nofun)] at hp
    have hodd : s.word % 2 = 1 := by
      have hw := hopen.word
      rw [hstart] at hw
      simp only [StartPc.share_eq] at hw
      omega
    rw [hasFlag, childrenStartedFlag, Nat.and_one_is_mod, hodd]
    rfl
  · rw [hword (by rw [hstart]; rfl)]
    rfl

theorem assert_of_exec
    (ht : (system R X).exec (fun s a => s.exitsEarly a = false) {} as = some t) :
    t.assertFailed = false := by
  have hkept : ∀ s a u, (Inv s ∧ (s.start.early = true → s.word = 7) ∧ s.assertFailed = false) →
      Op.exitsEarly s a = false → (system R X).step s a = some u →
      Inv u ∧ (u.start.early = true → u.word = 7) ∧ u.assertFailed = false := by
    rintro s a u ⟨hi, hword, hassert⟩ hguard hu
    have hu : s.step a = some u := hu
    refine ⟨hi.step hu, fun hearly => ?_, ?_⟩
    · cases hlate : s.start.early with
      | false => exact word_of_not_exitsEarly hguard hlate hu hearly
      | true => rw [((hi.early hlate).step hlate hu).2, hword hlate]
    · by_cases ha : a = .requestStop
      · subst ha
        simp only [Op.step] at hu
        split_ifs at hu with hcalled
        cases hu
        simp [hassert, hasFlag_of_returned hi hword hcalled.2]
      · rw [(step_frame hu).2.resolve_left ha, hassert]
  exact (System.exec_invariant hkept ⟨Inv.init, (fun hearly => by cases hearly), rfl⟩ ht).2.2

theorem assert_of_notMem (has : Act.requestStop ∉ as) (ht : (system R X).run s as = some t) :
    t.assertFailed = s.assertFailed := by
  induction as generalizing s with
  | nil =>
    cases ht
    rfl
  | cons a as ih =>
    obtain ⟨u, hu, htu⟩ := Option.bind_eq_some_iff.mp ht
    rw [List.mem_cons, not_or] at has
    rw [ih has.2 htu, (step_frame hu).2.resolve_left (Ne.symm has.1)]

theorem Inv.word_of_delivered (hi : s.Inv) (hne : s.delivered ≠ []) :
    s.word ≠ childrenStartedFlag := by
  rw [childrenStartedFlag]
  have hpos : 0 < s.delivered.length := List.length_pos_iff.mpr hne
  cases he : s.start.early with
  | true =>
    have hword := (hi.early he).word_eq
    omega
  | false =>
    have hp : s.Open := by
      have hp := hi.phase
      rwa [if_neg (by simp [he])] at hp
    obtain ⟨hw, r, q, d, hr, hq, hd, ho, ho', -⟩ := open_iff.mp hp
    omega

/-- After the completion nothing but the outer `request_stop()` has steps left. -/
theorem Inv.silent (hi : s.Inv) (hne : s.delivered ≠ [])
    (hstop : s.stop = .notCalled ∨ s.stop = .cas ∨ s.stop = .ignored) (ht : s.step a = some t) :
    (t.stop = .notCalled ∨ t.stop = .cas ∨ t.stop = .ignored) ∧ t.sourceStops = s.sourceStops ∧
      t.triggerStops = s.triggerStops ∧ t.delivered = s.delivered := by
  obtain ⟨hstart, hsource, htrigger⟩ := hi.calls_ended hne
  cases a <;> simp only [Op.step] at ht
  case start => rcases hstart with h | h <;> simp [startStep, h] at ht
  case requestStop =>
    split_ifs at ht
    cases ht
    exact ⟨.inr (.inl rfl), rfl, rfl, rfl⟩
  case stop =>
    rcases hstop with hpc | hpc | hpc <;> simp only [stopStep, hpc] at ht
    case inr.inl =>
      rw [if_neg (hi.word_of_delivered hne)] at ht
      cases ht
      exact ⟨.inr (.inr rfl), rfl, rfl, rfl⟩
    all_goals cases ht
  case completeSource c => rcases hsource with h | h <;> simp [h] at ht
  case source => rcases hsource with h | h <;> simp [sourceStep, h] at ht
  case completeTrigger => rcases htrigger with h | h | ⟨h, -⟩ <;> simp [h] at ht
  case trigger => rcases htrigger with h | h | ⟨h, -⟩ <;> simp [triggerStep, h] at ht

theorem Inv.silentAfterCompletion (hi : s.Inv) : s.SilentAfterCompletion := by
  intro hne hstop as t ht
  have hkept : ∀ u a v, (Inv u ∧ (u.stop = .notCalled ∨ u.stop = .cas ∨ u.stop = .ignored) ∧
      u.sourceStops = s.sourceStops ∧ u.triggerStops = s.triggerStops ∧
      u.delivered = s.delivered) → True → (system R X).step u a = some v →
      Inv v ∧ (v.stop = .notCalled ∨ v.stop = .cas ∨ v.stop = .ignored) ∧
      v.sourceStops = s.sourceStops ∧ v.triggerStops = s.triggerStops ∧
      v.delivered = s.delivered := by
    rintro u a v ⟨hu, hpc, hsource, htrigger, hdelivered⟩ - hv
    obtain ⟨hpc', hsource', htrigger', hdelivered'⟩ :=
      hu.silent (by rwa [hdelivered]) hpc hv
    exact ⟨hu.step hv, hpc', hsource'.trans hsource, htrigger'.trans htrigger,
      hdelivered'.trans hdelivered⟩
  exact (System.exec_invariant hkept ⟨hi, .inl hstop, rfl, rfl, rfl⟩ ht).2.2

/-- The assert holds in the runs without a `request_stop()` after an early exit of `start()`; after
the completion `request_stop()` does nothing. -/
theorem stop_assert_iff {as : List (Act R X)} {t : Op R X}
    (ht : (system R X).run (system R X).init as = some t) :
    t.assertFailed = false ∧ t.SilentAfterCompletion ↔ Act.requestStop ∉ as ∨
      (system R X).exec (fun s a => s.exitsEarly a = false) (system R X).init as = some t := by
  have hi : t.Inv :=
    System.exec_invariant (P := Inv) (fun _ _ _ hs _ hu => hs.step hu) Inv.init ht
  constructor
  · rintro ⟨hassert, -⟩
    by_cases has : Act.requestStop ∈ as
    · exact .inr (exec_of_assert Inv.init (.inl has) ht hassert)
    · exact .inl has
  · intro h
    refine ⟨?_, hi.silentAfterCompletion⟩
    rcases h with has | hexec
    · exact assert_of_notMem has ht
    · exact assert_of_exec hexec

/-- The trigger completes after `start()`, the source is requested to stop and completes, and a
`request_stop()` comes after that. -/
theorem stop_assert_iff_run : ∃ t : Op ℕ ℕ, (t.delivered = [.child 7] ∧ t.stop = .ignored) ∧
    t.assertFailed = false ∧ t.SilentAfterCompletion := by
  let as : List (Act ℕ ℕ) :=
    [.start, .start, .start, .start, .start, .start, .start, .completeTrigger, .trigger, .trigger,
      .trigger, .trigger, .trigger, .completeSource ⟨7, none⟩, .source, .source, .requestStop,
      .stop]
  have hrun : ((system ℕ ℕ).run (system ℕ ℕ).init as).any
      (fun t => t.delivered = [.child 7] ∧ t.stop = .ignored) = true := by decide +kernel
  have hexec : (system ℕ ℕ).exec (fun s a => s.exitsEarly a = false) (system ℕ ℕ).init as =
      (system ℕ ℕ).run (system ℕ ℕ).init as := by decide +kernel
  obtain ⟨t, ht, hp⟩ := (Option.any_eq_true _ _).mp hrun
  exact ⟨t, of_decide_eq_true hp, (stop_assert_iff ht).mpr (.inr (hexec.trans ht))⟩

/-- The source completes in its `start()`, so that `start()` returns without having set
`children_started_flag`, and then comes a `request_stop()`. -/
theorem stop_assert_fails : ¬ ∀ (as : List (Act ℕ ℕ)) (t : Op ℕ ℕ),
    (system ℕ ℕ).run (system ℕ ℕ).init as = some t →
    t.assertFailed = false ∧ t.SilentAfterCompletion := by
  intro h
  let as : List (Act ℕ ℕ) :=
    [.start, .completeSource ⟨7, none⟩, .source, .source, .source, .start, .start, .start,
      .requestStop]
  have hrun : ((system ℕ ℕ).run (system ℕ ℕ).init as).any (·.assertFailed) = true := by decide
  obtain ⟨t, ht, hp⟩ := (Option.any_eq_true _ _).mp hrun
  rw [(h as t ht).1] at hp
  cases hp

end Op
end Squiz.StopWhen
