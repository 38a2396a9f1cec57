import Squiz.StopTokenSender.Invariant

/-! Every step of `stop_token_op` keeps the invariant. -/
namespace Squiz.StopTokenSender
open Squiz.Lib Squiz.Lib.Word Squiz.Lib.Processes

namespace Op
variable {θ : Type*} {s t : Op θ} {p : Party}

/-! The `fetch_add` of a function. -/

theorem completions_fetchAddFlag (hp : s.finish p = none) :
    (s.fetchAddFlag p).completions =
      s.completions + (decide (s.word = p.completesOn)).toNat := by
  unfold completions fetchAddFlag
  by_cases hword : s.word = p.completesOn
  · simp only [if_pos hword]
    rw [count_update_enter (by rw [hp]; rfl) rfl, decide_eq_true hword, Bool.toNat_true]
    omega
  · simp only [if_neg hword]
    rw [count_update_same (by rw [hp]), decide_eq_false hword, Bool.toNat_false, add_zero]

theorem unsubscriptions_fetchAddFlag (hp : s.finish p = none) :
    (s.fetchAddFlag p).unsubscriptions = s.unsubscriptions := by
  unfold unsubscriptions fetchAddFlag
  simp only
  rw [count_update_same]
  rw [hp]
  split_ifs <;> rfl

theorem Inv.decided_of_completions (hi : s.Inv) (h : s.completions ≠ 0) : s.Decided := by
  have honce := hi.once
  split_ifs at honce with hdecided
  · exact hdecided
  · omega

theorem Inv.finish_of_notMem (hi : s.Inv) (hp : p ∉ s.added) : s.finish p = none := by
  by_contra hne
  exact hp (hi.finishAdded p hne)

/-- A flag keeps the invariant if the function goes on exactly where the flag decides the operation,
and if a flag that comes after the decision does not change the outcome. -/
theorem Inv.fetchAddFlag (hi : s.Inv) {start : StartPc} {invocation stop : CallPc}
    (hp : p ∉ s.added)
    (hstarted : start ≠ .notCalled → s.thread .start ≠ none)
    (hstart : Party.start ∈ s.added ++ [p] ↔ start = .added)
    (hinvocation : Party.callback ∈ s.added ++ [p] ↔ invocation = .added)
    (hstop : Party.requestStop ∈ s.added ++ [p] ↔ stop = .added)
    (hinvoking : s.invoking = true → invocation ≠ .notCalled)
    (hstopLast : stop ≠ .notCalled → start = .added ∨ start = .returnedEarly)
    (hsetValue : start = .setValue ↔ s.start = .setValue)
    (hsubscribed : start.hasSubscribed = s.start.hasSubscribed)
    (hleaves : start.leaves = s.start.leaves)
    (hnotSubscribed : start.hasSubscribed = false → invocation = .notCalled)
    (hdecided : { s.fetchAddFlag p with start, invocation, stop }.Decided ↔
      s.Decided ∨ s.word = p.completesOn)
    (hundecided : s.word = p.completesOn → ¬ s.Decided)
    (houtcome : s.Decided →
      { s.fetchAddFlag p with start, invocation, stop }.outcome = s.outcome)
    (hsignal : s.word = p.completesOn →
      p.signal = { s.fetchAddFlag p with start, invocation, stop }.outcome) :
    { s.fetchAddFlag p with start, invocation, stop }.Inv where
  started := hstarted
  startAdded := hstart
  callbackAdded := hinvocation
  stopAdded := hstop
  finishAdded := by
    intro q hq
    show q ∈ s.added ++ [p]
    by_cases hqp : q = p
    · simp [hqp]
    · simp only [Op.fetchAddFlag, Function.update_of_ne hqp] at hq
      exact List.mem_append_left _ (hi.finishAdded q hq)
  word := hi.word_fetchAddFlag hp
  invoking := hinvoking
  stopLast := hstopLast
  notSubscribed := by
    intro h
    exact ⟨(hi.notSubscribed (hsubscribed ▸ h)).1, hnotSubscribed h⟩
  once := by
    show (s.fetchAddFlag p).completions + (decide (start = .setValue)).toNat = _
    rw [completions_fetchAddFlag (hi.finish_of_notMem hp), decide_eq_decide.mpr hsetValue]
    have honce := hi.once
    by_cases hword : s.word = p.completesOn
    · rw [if_neg (hundecided hword)] at honce
      rw [if_pos (hdecided.mpr (.inr hword)), decide_eq_true hword, Bool.toNat_true]
      omega
    · rw [decide_eq_false hword, Bool.toNat_false, add_zero, honce]
      simp only [hdecided, hword, or_false]
  signal := by
    intro q hq
    by_cases hqp : q = p
    · subst q
      simp only [Op.fetchAddFlag, Function.update_self] at hq
      split_ifs at hq with hword
      · exact hsignal hword
      · exact absurd rfl hq
    · simp only [Op.fetchAddFlag, Function.update_of_ne hqp] at hq
      have hone := (hi.finishing hq).1
      rw [houtcome (hi.decided_of_completions (by omega))]
      exact hi.signal q hq
  outcome := by
    intro r hr
    have hpos : 0 < s.delivered.length := List.length_pos_of_mem hr
    have hdec : s.Decided := hi.decided_of_completions (by unfold completions; omega)
    rw [houtcome hdec]
    exact hi.outcome r hr
  subscribed := by
    intro h hzero
    have hcompletions : (s.fetchAddFlag p).completions = 0 := hzero
    rw [completions_fetchAddFlag (hi.finish_of_notMem hp)] at hcompletions
    exact hi.subscribed (hsubscribed ▸ h) (by omega)
  callback := by
    show s.callback = if (s.fetchAddFlag p).unsubscriptions = 0 then start.leaves else .empty
    rw [unsubscriptions_fetchAddFlag (hi.finish_of_notMem hp), hleaves]
    exact hi.callback

/-- `start()` goes on if the callback was invoked while it was being constructed. -/
theorem Inv.start_fetchAdd (hi : s.Inv) (hpc : s.start = .fetchAdd) :
    { s.fetchAddFlag .start with start := .added }.Inv := by
  have hstart : Party.start ∉ s.added := by
    rw [hi.startAdded, hpc]
    decide
  have hnotCalled : s.stop = .notCalled := by
    by_contra hne
    have hlast := hi.stopLast hne
    rw [hpc] at hlast
    simp at hlast
  have hstop : Party.requestStop ∉ s.added := by
    rw [hi.stopAdded, hnotCalled]
    decide
  have hword := hi.completesOn_start hstart hstop
  have hundecided : ¬ s.Decided := by
    rintro (hearly | ⟨hmem, -⟩)
    · rw [hpc] at hearly
      cases hearly
    · exact hstart hmem
  apply hi.fetchAddFlag hstart
  case hstarted => exact fun _ => hi.started (by rw [hpc]; decide)
  case hstart => simp
  case hinvocation => simpa using hi.callbackAdded
  case hstop => simpa using hi.stopAdded
  case hinvoking => exact hi.invoking
  case hstopLast => exact fun _ => .inl rfl
  case hsetValue => simp [hpc]
  case hsubscribed => rw [hpc]; rfl
  case hleaves => rw [hpc]; rfl
  case hnotSubscribed => exact fun h => by cases h
  case hdecided =>
    rw [hword]
    simp only [hundecided, false_or]
    simp [Decided, StartPc.early, Op.fetchAddFlag, hstop]
  case hundecided => exact fun _ => hundecided
  case houtcome => exact fun h => absurd h hundecided
  case hsignal =>
    intro h
    have hmem := hword.mp h
    have hfirst : callbackFirst (s.added ++ [.start]) = true := by
      rw [callbackFirst_of_notMem (by simpa using hstop)]
      simpa using hmem
    simp [Op.outcome, Op.fetchAddFlag, hfirst, Party.signal]

/-- `on_stop_callback()` goes on if the callback is constructed and no stop was requested before. -/
theorem Inv.callback_fetchAdd (hi : s.Inv) (hpc : s.invocation = .fetchAdd) :
    { s.fetchAddFlag .callback with invocation := .added }.Inv := by
  have hcallback : Party.callback ∉ s.added := by
    rw [hi.callbackAdded, hpc]
    decide
  have hsubscribed : s.start.hasSubscribed = true := by
    by_contra hne
    have hnotCalled := (hi.notSubscribed (by simpa using hne)).2
    rw [hpc] at hnotCalled
    cases hnotCalled
  have hearly : s.start.early = false := by
    cases hs : s.start <;> rw [hs] at hsubscribed <;> first | rfl | cases hsubscribed
  have hstopStart : Party.requestStop ∈ s.added → Party.start ∈ s.added := by
    intro hmem
    have hlast := hi.stopLast (by rw [hi.stopAdded.mp hmem]; decide)
    rcases hlast with hadded | hreturned
    · exact hi.startAdded.mpr hadded
    · rw [hreturned] at hearly
      cases hearly
  have hword := hi.completesOn_callback hcallback
  have hdecided : s.Decided ↔ Party.start ∈ s.added ∧ Party.requestStop ∈ s.added := by
    simp [Decided, hearly, hcallback]
  apply hi.fetchAddFlag hcallback
  case hstarted => exact hi.started
  case hstart => simpa using hi.startAdded
  case hinvocation => simp
  case hstop => simpa using hi.stopAdded
  case hinvoking => exact fun _ => by decide
  case hstopLast => exact hi.stopLast
  case hsetValue => rfl
  case hsubscribed => rfl
  case hleaves => rfl
  case hnotSubscribed =>
    intro h
    rw [fetchAddFlag_start, hsubscribed] at h
    cases h
  case hdecided =>
    rw [hword, hdecided]
    simp [Decided, hearly, Op.fetchAddFlag]
    tauto
  case hundecided =>
    intro h
    rw [hdecided]
    exact fun hmem => (hword.mp h).2 hmem.2
  case houtcome =>
    intro h
    have hmem := (hdecided.mp h).2
    simp [Op.outcome, Op.fetchAddFlag, callbackFirst_append_of_mem hmem]
  case hsignal =>
    intro h
    have hstop := (hword.mp h).2
    have hfirst : callbackFirst (s.added ++ [.callback]) = true := by
      rw [callbackFirst_of_notMem (by simpa using hstop)]
      simp
    simp [Op.outcome, Op.fetchAddFlag, hfirst, Party.signal]

/-- `request_stop()` goes on if the callback is constructed and was not invoked before. -/
theorem Inv.stop_fetchAdd (hi : s.Inv) (hpc : s.stop = .fetchAdd) :
    { s.fetchAddFlag .requestStop with stop := .added }.Inv := by
  have hstop : Party.requestStop ∉ s.added := by
    rw [hi.stopAdded, hpc]
    decide
  have hlast : s.start = .added ∨ s.start = .returnedEarly := hi.stopLast (by rw [hpc]; decide)
  have hstart : Party.start ∈ s.added ∨ s.start.early = true := by
    rcases hlast with hadded | hreturned
    · exact .inl (hi.startAdded.mpr hadded)
    · exact .inr (by rw [hreturned]; rfl)
  have hexclusive : Party.start ∈ s.added → s.start.early = false := by
    intro hmem
    rw [hi.startAdded.mp hmem]
    rfl
  have hword := hi.completesOn_requestStop hstop
  apply hi.fetchAddFlag hstop
  case hstarted => exact hi.started
  case hstart => simpa using hi.startAdded
  case hinvocation => simpa using hi.callbackAdded
  case hstop => simp
  case hinvoking => exact hi.invoking
  case hstopLast => exact fun _ => hlast
  case hsetValue => rfl
  case hsubscribed => rfl
  case hleaves => rfl
  case hnotSubscribed => exact fun h => (hi.notSubscribed h).2
  case hdecided =>
    rw [hword]
    simp [Decided, Op.fetchAddFlag]
    tauto
  case hundecided =>
    intro h
    obtain ⟨hmem, hcallback⟩ := hword.mp h
    simp [Decided, hexclusive hmem, hcallback, hstop]
  case houtcome =>
    intro _
    simp [Op.outcome, Op.fetchAddFlag, callbackFirst_append_requestStop]
  case hsignal =>
    intro h
    obtain ⟨hmem, hcallback⟩ := hword.mp h
    have hfirst : callbackFirst s.added = false := by
      rw [callbackFirst_of_notMem hstop]
      simpa using hcallback
    simp [Op.outcome, Op.fetchAddFlag, callbackFirst_append_requestStop, hfirst, hexclusive hmem,
      Party.signal]

/-! `callback_.reset()` and the completion. -/

/-- A function that changes what it has still to do had something to do. -/
theorem finish_of_update {finish : Party → Option Finish} {f : Option Finish}
    (hp : finish p ≠ none) {q : Party} (hq : Function.update finish p f q ≠ none) :
    finish q ≠ none := by
  by_cases hqp : q = p
  · rw [hqp]
    exact hp
  · rwa [Function.update_of_ne hqp] at hq

/-- A function that goes on to the next part keeps what is known of its completion. -/
theorem Inv.finish_next (hi : s.Inv) {f : Finish} {callback : Callback} {subscribed : Bool}
    (hp : s.finish p ≠ none) (hsubscribed : subscribed = true → s.subscribed = true)
    (hcallback : callback =
      if { s with finish := Function.update s.finish p (some f) }.unsubscriptions = 0 then
        s.start.leaves
      else .empty) :
    { s with callback, subscribed, finish := Function.update s.finish p (some f) }.Inv := by
  have hone : s.completions = 1 := (hi.finishing hp).1
  have hsame : ({ s with finish := Function.update s.finish p (some f) } : Op θ).completions =
      s.completions := by
    unfold completions
    simp only
    rw [count_update_same]
    rw [Option.isSome_iff_ne_none.mpr hp]
    rfl
  have hnone : ∀ q, Function.update s.finish p (some f) q ≠ none → s.finish q ≠ none :=
    fun _ => finish_of_update hp
  exact
    { started := hi.started
      startAdded := hi.startAdded
      callbackAdded := hi.callbackAdded
      stopAdded := hi.stopAdded
      word := hi.word
      finishAdded := fun q hq => hi.finishAdded q (hnone q hq)
      invoking := hi.invoking
      stopLast := hi.stopLast
      notSubscribed := by
        intro h
        obtain ⟨hno, hinvocation⟩ := hi.notSubscribed h
        constructor
        · by_contra hyes
          rw [hsubscribed (by simpa using hyes)] at hno
          cases hno
        · exact hinvocation
      once := by
        show ({ s with finish := Function.update s.finish p (some f) } : Op θ).completions + _ = _
        rw [hsame]
        exact hi.once
      signal := fun q hq => hi.signal q (hnone q hq)
      outcome := hi.outcome
      subscribed := by
        intro _ hzero
        have hcompletions :
            ({ s with finish := Function.update s.finish p (some f) } : Op θ).completions = 0 :=
          hzero
        omega
      callback := hcallback }

theorem Inv.finish_complete (hi : s.Inv) (hp : s.finish p = some .complete) :
    { s with
      delivered := s.delivered ++ [p.signal]
      finish := Function.update s.finish p none }.Inv := by
  have hcompletions : ({ s with
      delivered := s.delivered ++ [p.signal]
      finish := Function.update s.finish p none } : Op θ).completions = s.completions := by
    have hleave := count_update_leave (p := Option.isSome) (f := s.finish) (i := p)
      (v := none) (by rw [hp]; rfl) rfl
    unfold completions
    simp only [List.length_append, List.length_singleton]
    omega
  have hunsubscriptions : ({ s with
      delivered := s.delivered ++ [p.signal]
      finish := Function.update s.finish p none } : Op θ).unsubscriptions = s.unsubscriptions := by
    have hleave := count_update_leave (p := fun f => decide (f = some Finish.complete))
      (f := s.finish) (i := p) (v := none) (by rw [hp]; rfl) rfl
    unfold unsubscriptions
    simp only [List.length_append, List.length_singleton]
    omega
  have hnone : ∀ q, Function.update s.finish p none q ≠ none → s.finish q ≠ none :=
    fun _ => finish_of_update (by simp [hp])
  exact
    { started := hi.started
      startAdded := hi.startAdded
      callbackAdded := hi.callbackAdded
      stopAdded := hi.stopAdded
      word := hi.word
      finishAdded := fun q hq => hi.finishAdded q (hnone q hq)
      invoking := hi.invoking
      stopLast := hi.stopLast
      notSubscribed := hi.notSubscribed
      once := by
        rw [hcompletions]
        exact hi.once
      signal := fun q hq => hi.signal q (hnone q hq)
      outcome := by
        intro r hr
        rcases List.mem_append.mp hr with hr | hr
        · exact hi.outcome r hr
        · rw [List.mem_singleton.mp hr]
          exact hi.signal p (by rw [hp]; simp)
      subscribed := by
        intro h hzero
        rw [hcompletions] at hzero
        exact hi.subscribed h hzero
      callback := by
        rw [hunsubscriptions]
        exact hi.callback }

theorem Inv.finishStep [DecidableEq θ] (hi : s.Inv) (ht : s.finishStep p = some t) : t.Inv := by
  unfold Op.finishStep at ht
  cases hp : s.finish p with
  | none =>
    rw [hp] at ht
    cases ht
  | some f =>
    have hne : s.finish p ≠ none := by
      rw [hp]
      simp
    cases f with
    | unsubscribe =>
      simp only [hp] at ht
      cases ht
      apply hi.finish_next hne (fun h => by cases h)
      have hsame : ({ s with finish := Function.update s.finish p (some .wait) } :
          Op θ).unsubscriptions = s.unsubscriptions := by
        unfold unsubscriptions
        simp only
        rw [count_update_same]
        rw [hp]
        rfl
      rw [hsame]
      exact hi.callback
    | wait =>
      simp only [hp] at ht
      split_ifs at ht
      cases ht
      apply hi.finish_next hne id
      -- the function is now one with nothing left but the call
      have hpos : 1 ≤ ({ s with finish := Function.update s.finish p (some .complete) } :
          Op θ).unsubscriptions := by
        have hone := count_pos (p := fun f => decide (f = some Finish.complete))
          (f := Function.update s.finish p (some .complete)) (i := p)
          (by rw [Function.update_self]; rfl)
        unfold unsubscriptions
        simp only
        omega
      rw [if_neg (by omega)]
    | complete =>
      simp only [hp] at ht
      cases ht
      exact hi.finish_complete hp

/-! `start()` before its `fetch_add`. -/

/-- Before its `fetch_add`, and unless a stop was requested before, nothing completes. -/
theorem Inv.completions_eq_zero (hi : s.Inv) (hadded : s.start ≠ .added)
    (hearly : s.start.early = false) : s.completions = 0 := by
  have hundecided : ¬ s.Decided := by
    rintro (h | ⟨hmem, -⟩)
    · rw [hearly] at h
      cases h
    · exact hadded (hi.startAdded.mp hmem)
  have honce := hi.once
  rw [if_neg hundecided] at honce
  omega

theorem Inv.stop_notCalled (hi : s.Inv) (hadded : s.start ≠ .added)
    (hreturned : s.start ≠ .returnedEarly) : s.stop = .notCalled := by
  by_contra hne
  rcases hi.stopLast hne with h | h
  · exact hadded h
  · exact hreturned h

theorem unsubscriptions_eq_zero (h : s.completions = 0) : s.unsubscriptions = 0 := by
  have hle := unsubscriptions_le (s := s)
  omega

/-- A step of `start()` on the way to its `fetch_add`. -/
theorem Inv.setStart (hi : s.Inv) {pc : StartPc} {callback : Callback} {subscribed : Bool}
    {thread : Party → Option θ} (hadded : s.start ≠ .added) (hearly : s.start.early = false)
    (hadded' : pc ≠ .added) (hearly' : pc.early = false) (hthread : thread .start ≠ none)
    (hcallback : callback = pc.leaves) (hsubscribed : subscribed = pc.hasSubscribed)
    (hbefore : pc.hasSubscribed = false → s.start.hasSubscribed = false) :
    { s with start := pc, callback, subscribed, thread }.Inv := by
  have hzero := hi.completions_eq_zero hadded hearly
  have hreturned : s.start ≠ .returnedEarly := by
    intro h
    rw [h] at hearly
    cases hearly
  have hstop := hi.stop_notCalled hadded hreturned
  have hstart : Party.start ∉ s.added := fun hmem => hadded (hi.startAdded.mp hmem)
  exact
    { started := fun _ => hthread
      startAdded := by
        constructor
        · exact fun hmem => absurd hmem hstart
        · exact fun h => absurd h hadded'
      callbackAdded := hi.callbackAdded
      stopAdded := hi.stopAdded
      word := hi.word
      finishAdded := hi.finishAdded
      invoking := hi.invoking
      stopLast := fun hne => absurd hstop hne
      notSubscribed := by
        intro h
        exact ⟨hsubscribed.trans h, (hi.notSubscribed (hbefore h)).2⟩
      once := by
        have hset : pc ≠ .setValue := by
          intro h
          rw [h] at hearly'
          cases hearly'
        show s.completions + (decide (pc = .setValue)).toNat = _
        rw [hzero, decide_eq_false hset, if_neg]
        · rfl
        · rintro (h | ⟨hmem, -⟩)
          · rw [show pc.early = true from h] at hearly'
            cases hearly'
          · exact hstart hmem
      signal := fun p hp => absurd (finish_eq_none hzero p) hp
      outcome := by
        intro r hr
        rw [show s.delivered = [] from delivered_eq_nil hzero] at hr
        cases hr
      subscribed := fun h _ => hsubscribed.trans h
      callback := by
        show callback = if s.unsubscriptions = 0 then pc.leaves else .empty
        rw [if_pos (unsubscriptions_eq_zero hzero)]
        exact hcallback }

/-- A step of `start()` after a stop was requested on the token: the callback is not subscribed, so
nothing else completes. -/
theorem Inv.setEarly (hi : s.Inv) {pc : StartPc} {delivered : List Signal}
    (hpc : s.start = .stopRequested ∨ s.start = .setValue) (hzero : s.completions = 0)
    (hearly : pc.early = true) (hvalue : ∀ r ∈ delivered, r = .value)
    (honce : delivered.length + (decide (pc = .setValue)).toNat = 1) :
    { s with delivered, start := pc }.Inv := by
  have hnotCalled : s.start ≠ .notCalled := by rcases hpc with h | h <;> rw [h] <;> decide
  have hadded : s.start ≠ .added := by rcases hpc with h | h <;> rw [h] <;> decide
  have hreturned : s.start ≠ .returnedEarly := by rcases hpc with h | h <;> rw [h] <;> decide
  have hsubscribed : s.start.hasSubscribed = false := by rcases hpc with h | h <;> rw [h] <;> rfl
  have hadded' : pc ≠ .added := by
    rintro rfl
    cases hearly
  have hsubscribed' : pc.hasSubscribed = false := by
    cases pc <;> first | rfl | cases hearly
  have hleaves : s.start.leaves = .empty := by rcases hpc with h | h <;> rw [h] <;> rfl
  have hleaves' : pc.leaves = .empty := by
    cases pc <;> first | rfl | cases hearly
  have hstart : Party.start ∉ s.added := fun hmem => hadded (hi.startAdded.mp hmem)
  have hstop := hi.stop_notCalled hadded hreturned
  have hnone : count Option.isSome s.finish = 0 := by
    unfold completions at hzero
    omega
  exact
    { started := fun _ => hi.started hnotCalled
      startAdded := iff_of_false hstart hadded'
      callbackAdded := hi.callbackAdded
      stopAdded := hi.stopAdded
      word := hi.word
      finishAdded := hi.finishAdded
      invoking := hi.invoking
      stopLast := fun hne => absurd hstop hne
      notSubscribed := fun _ => hi.notSubscribed hsubscribed
      once := by
        rw [if_pos (.inl hearly)]
        unfold completions
        rw [hnone]
        exact honce
      signal := fun p hp => absurd (finish_eq_none hzero p) hp
      outcome := by
        intro r hr
        rw [hvalue r hr]
        exact (if_pos (.inl hearly)).symm
      subscribed := by
        intro h
        rw [hsubscribed'] at h
        cases h
      callback := by
        have hcallback := hi.callback
        rw [hleaves, ite_self] at hcallback
        rw [hleaves', ite_self]
        exact hcallback }

/-- A stop was requested on the token before `start()` looked. -/
theorem Inv.foundRequest (hi : s.Inv) (hpc : s.start = .stopRequested) :
    { s with start := .setValue }.Inv := by
  have hzero := hi.completions_eq_zero (by rw [hpc]; decide) (by rw [hpc]; rfl)
  have hnil := delivered_eq_nil hzero
  apply hi.setEarly (.inl hpc) hzero rfl
  · rw [hnil]
    exact fun r hr => absurd hr List.not_mem_nil
  · rw [hnil]
    rfl

theorem Inv.setValue (hi : s.Inv) (hpc : s.start = .setValue) :
    { s with delivered := s.delivered ++ [Signal.value], start := .returnedEarly }.Inv := by
  have hzero : s.completions = 0 := by
    have honce := hi.once
    rw [hpc, if_pos (.inl (by rw [hpc]; rfl))] at honce
    exact Nat.succ.inj honce
  have hnil := delivered_eq_nil hzero
  apply hi.setEarly (.inr hpc) hzero rfl
  · rw [hnil]
    exact fun r hr => List.mem_singleton.mp hr
  · rw [hnil]
    rfl

/-- A call of a function, the return of the callback, or a stop request on the token. -/
theorem Inv.call (hi : s.Inv) {signalled invoking : Bool} {invocation stop : CallPc}
    {thread : Party → Option θ} (hthread : thread .start = s.thread .start)
    (hinvocation : invocation = .added ↔ s.invocation = .added)
    (hstop : stop = .added ↔ s.stop = .added)
    (hinvoking : invoking = true → invocation ≠ .notCalled)
    (hstopLast : stop ≠ .notCalled → s.start = .added ∨ s.start = .returnedEarly)
    (hnotSubscribed : s.start.hasSubscribed = false → invocation = .notCalled) :
    { s with signalled, invocation, invoking, stop, thread }.Inv :=
  { hi with
    started := by
      intro h
      show thread .start ≠ none
      rw [hthread]
      exact hi.started h
    callbackAdded := hi.callbackAdded.trans hinvocation.symm
    stopAdded := hi.stopAdded.trans hstop.symm
    invoking := hinvoking
    stopLast := hstopLast
    notSubscribed := fun h => ⟨(hi.notSubscribed h).1, hnotSubscribed h⟩ }

variable [DecidableEq θ]

theorem Inv.startStep (hi : s.Inv) (ht : s.startStep = some t) : t.Inv := by
  unfold Op.startStep at ht
  cases hpc : s.start with
  | notCalled | added | returnedEarly =>
    rw [hpc] at ht
    cases ht
  | stopRequested =>
    have hcallback := hi.callback
    have hsubscribed := (hi.notSubscribed (by rw [hpc]; rfl)).1
    rw [if_pos (unsubscriptions_eq_zero (hi.completions_eq_zero (by simp [hpc])
      (by rw [hpc]; rfl))), hpc] at hcallback
    simp only [hpc] at ht
    cases ht
    split_ifs
    · exact hi.foundRequest hpc
    · exact hi.setStart (by simp [hpc]) (by rw [hpc]; rfl) (by decide) rfl
        (hi.started (by simp [hpc])) hcallback hsubscribed (fun _ => by rw [hpc]; rfl)
  | setValue =>
    simp only [hpc] at ht
    cases ht
    exact hi.setValue hpc
  | emplace =>
    have hsubscribed := (hi.notSubscribed (by rw [hpc]; rfl)).1
    simp only [hpc] at ht
    cases ht
    exact hi.setStart (by simp [hpc]) (by rw [hpc]; rfl) (by decide) rfl
      (hi.started (by simp [hpc])) rfl hsubscribed (fun _ => by rw [hpc]; rfl)
  | subscribe =>
    have hcallback := hi.callback
    rw [if_pos (unsubscriptions_eq_zero (hi.completions_eq_zero (by simp [hpc])
      (by rw [hpc]; rfl))), hpc] at hcallback
    simp only [hpc] at ht
    cases ht
    exact hi.setStart (by simp [hpc]) (by rw [hpc]; rfl) (by decide) rfl
      (hi.started (by simp [hpc])) hcallback rfl (fun h => by cases h)
  | subscribed =>
    have hsubscribed := hi.subscribed (by rw [hpc]; rfl)
      (hi.completions_eq_zero (by simp [hpc]) (by rw [hpc]; rfl))
    simp only [hpc] at ht
    split_ifs at ht
    cases ht
    exact hi.setStart (by simp [hpc]) (by rw [hpc]; rfl) (by decide) rfl
      (hi.started (by simp [hpc])) rfl hsubscribed (fun h => by cases h)
  | fetchAdd =>
    simp only [hpc] at ht
    cases ht
    exact hi.start_fetchAdd hpc

theorem Inv.step (hi : s.Inv) {a : Act θ} (ht : s.step a = some t) : t.Inv := by
  cases a with
  | signal =>
    simp only [Op.step] at ht
    split_ifs at ht
    cases ht
    exact hi.call rfl Iff.rfl Iff.rfl hi.invoking hi.stopLast fun h => (hi.notSubscribed h).2
  | callStart thread =>
    simp only [Op.step] at ht
    split_ifs at ht with hpc
    cases ht
    have hcallback := hi.callback
    rw [if_pos (unsubscriptions_eq_zero (hi.completions_eq_zero (by simp [hpc])
      (by rw [hpc]; rfl))), hpc] at hcallback
    exact hi.setStart (by simp [hpc]) (by rw [hpc]; rfl) (by decide) rfl
      (by simp [setThread]) hcallback (hi.notSubscribed (by rw [hpc]; rfl)).1
      (fun _ => by rw [hpc]; rfl)
  | start => exact hi.startStep ht
  | invoke thread =>
    simp only [Op.step] at ht
    split_ifs at ht with hinvoke
    cases ht
    obtain ⟨-, hsubscribed, hpc⟩ := hinvoke
    apply hi.call (by simp [setThread]) (by simp [hpc]) Iff.rfl (fun _ => by decide) hi.stopLast
    intro h
    rw [(hi.notSubscribed h).1] at hsubscribed
    cases hsubscribed
  | callback =>
    simp only [Op.step] at ht
    split_ifs at ht with hpc
    cases ht
    exact hi.callback_fetchAdd hpc
  | returnCallback =>
    simp only [Op.step] at ht
    split_ifs at ht
    cases ht
    exact hi.call rfl Iff.rfl Iff.rfl (fun h => by cases h) hi.stopLast
      fun h => (hi.notSubscribed h).2
  | requestStop thread =>
    simp only [Op.step] at ht
    split_ifs at ht with hcall
    cases ht
    obtain ⟨hpc, hreturned⟩ := hcall
    apply hi.call (by simp [setThread]) Iff.rfl (by simp [hpc]) hi.invoking _
      fun h => (hi.notSubscribed h).2
    intro _
    unfold startReturned at hreturned
    simp only [Bool.or_eq_true, Bool.and_eq_true, decide_eq_true_eq] at hreturned
    rcases hreturned with h | ⟨h, -⟩
    · exact .inr h
    · exact .inl h
  | stop =>
    simp only [Op.step] at ht
    split_ifs at ht with hpc
    cases ht
    exact hi.stop_fetchAdd hpc
  | finish p => exact hi.finishStep ht

end Op
end Squiz.StopTokenSender
