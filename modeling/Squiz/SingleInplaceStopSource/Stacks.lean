import Squiz.SingleInplaceStopSource.Invariant

/-! How a step of one thread changes the stacks, and what of the invariant that leaves alone. -/

namespace Squiz.SingleInplaceStopSource
open Squiz.Lib

variable {T C A : Type}

namespace Stacked
variable {taken : Option C} {f g : Frame C A} {rest : List (Frame C A)}

theorem tail (h : Stacked taken (f :: rest)) : Stacked taken rest := h.2.2

theorem replace (h : Stacked taken (f :: rest)) (hg : ∀ c, g ≠ .running c) :
    Stacked taken (g :: rest) :=
  ⟨fun c hc => absurd hc (hg c), h.2.1, h.2.2⟩

/-- A frame replaced by one that executes a callback, with the callback above it. -/
theorem execute (h : Stacked taken (f :: rest)) {c : C} (hg : g.Invokes taken c)
    (hs : g.suspended = true) (hne : ∀ c, g ≠ .running c) :
    Stacked taken (.running c :: g :: rest) := by
  refine ⟨fun c' hc => ⟨g, rest, rfl, ?_⟩, ?_, h.replace hne⟩
  · cases hc
    exact hg
  · intro f' hf'
    rcases List.mem_cons.mp hf' with rfl | hf'
    · exact hs
    · exact h.2.1 f' hf'

/-- Below a running callback is the call that executes it. -/
theorem invoker {st : List (Frame C A)} (h : Stacked taken st) {c : C}
    (hc : Frame.running c ∈ st) : ∃ g ∈ st.tail, g.Invokes taken c := by
  induction st with
  | nil => cases hc
  | cons f rest ih =>
    rcases List.mem_cons.mp hc with hf | hc
    · obtain ⟨g, rest', hrest, hg⟩ := h.1 c hf.symm
      exact ⟨g, by simp [hrest], hg⟩
    · obtain ⟨g, hg, hi⟩ := ih h.2.2 hc
      exact ⟨g, List.mem_of_mem_tail hg, hi⟩

/-- Nothing is executed by `request_stop()` before it has found a callback. -/
theorem of_none {st : List (Frame C A)} (h : Stacked none st) : Stacked taken st := by
  induction st with
  | nil => trivial
  | cons f rest ih =>
    refine ⟨fun c hc => ?_, h.2.1, ih h.2.2⟩
    obtain ⟨g, rest', hrest, hg⟩ := h.1 c hc
    refine ⟨g, rest', hrest, ?_⟩
    cases g <;> first | exact hg | cases hg

end Stacked

namespace Source
variable {addr : C → A} {s : Source T C A} {t : T}

theorem stacked_of_mayCall (h : Stacked s.taken (s.stack t)) (hcall : s.mayCall t = true)
    {f : Frame C A} (hf : ∀ c, f ≠ .running c) : Stacked s.taken (f :: s.stack t) := by
  refine ⟨fun c hc => absurd hc (hf c), ?_, h⟩
  unfold mayCall at hcall
  split at hcall
  case h_1 hnil => simp [hnil]
  case h_2 c rest hrun =>
    rw [hrun] at h ⊢
    intro g hg
    rcases List.mem_cons.mp hg with rfl | hg
    · rfl
    · exact h.2.1 g hg
  case h_3 => cases hcall

variable [DecidableEq T]

theorem forall_stack_update {P : T → List (Frame C A) → Prop} (h : ∀ t, P t (s.stack t))
    {st : List (Frame C A)} (hst : P t st) (t' : T) : P t' (Function.update s.stack t st t') := by
  by_cases ht : t' = t
  · subst ht
    rwa [Function.update_self]
  · rw [Function.update_of_ne ht]
    exact h t'

/-- A frame of another thread, or one of `rest`. -/
def Other (s : Source T C A) (t : T) (rest : List (Frame C A)) (t' : T) (g : Frame C A) : Prop :=
  t' ≠ t ∧ g ∈ s.stack t' ∨ t' = t ∧ g ∈ rest

/-- What every frame that stays knows carries over, and the new ones are shown. -/
theorem frames_update {s' : Source T C A} {rest st : List (Frame C A)}
    (h : ∀ t, ∀ f ∈ s.stack t, s.FrameOk addr t f) (hrest : ∀ g ∈ rest, g ∈ s.stack t)
    (hnew : ∀ g ∈ st, g ∈ rest ∨ s'.FrameOk addr t g)
    (hkeep : ∀ t' g, s.Other t rest t' g → s.FrameOk addr t' g → s'.FrameOk addr t' g) :
    ∀ t', ∀ g ∈ Function.update s.stack t st t', s'.FrameOk addr t' g := by
  intro t' g hg
  by_cases ht : t' = t
  · subst ht
    rw [Function.update_self] at hg
    rcases hnew g hg with hg | hg
    · exact hkeep t' g (.inr ⟨rfl, hg⟩) (h t' g (hrest g hg))
    · exact hg
  · rw [Function.update_of_ne ht] at hg
    exact hkeep t' g (.inl ⟨ht, hg⟩) (h t' g hg)

theorem mem_update {st : List (Frame C A)} {t' : T} {g : Frame C A}
    (hg : g ∈ Function.update s.stack t st t') : t' = t ∧ g ∈ st ∨ t' ≠ t ∧ g ∈ s.stack t' := by
  by_cases ht : t' = t
  · subst ht
    rw [Function.update_self] at hg
    exact .inl ⟨rfl, hg⟩
  · rw [Function.update_of_ne ht] at hg
    exact .inr ⟨ht, hg⟩

theorem exists_update {p : Frame C A → Prop} {st : List (Frame C A)}
    (hst : ∀ g ∈ s.stack t, p g → ∃ g ∈ st, p g) {t' : T} (h : ∃ g ∈ s.stack t', p g) :
    ∃ g ∈ Function.update s.stack t st t', p g := by
  obtain ⟨g, hg, hp⟩ := h
  by_cases ht : t' = t
  · subst ht
    rw [Function.update_self]
    exact hst g hg hp
  · rw [Function.update_of_ne ht]
    exact ⟨g, hg, hp⟩

omit [DecidableEq T] in
/-- What is known of a callback carries over where nothing of its own changes. -/
theorem CallbackOk.congr {s' : Source T C A} {c : C} (h : s.CallbackOk addr c)
    (hstatus : s'.status c = s.status c) (hexecutions : s'.executions c = s.executions c)
    (hdue : s'.due c = s.due c) (htaken : s'.taken = s.taken) (hwinner : s'.winner = s.winner)
    (hobject : s.object (addr c) = some c → s'.object (addr c) = some c)
    (hword : (s.status c).held = true ∨ (∃ t, s.status c = .registering t) →
      s'.word = s.word ∧ (s.holder = some c → s'.holder = some c)) : s'.CallbackOk addr c where
  held := by
    rw [hstatus, htaken]
    intro hheld
    obtain ⟨hword, hholder⟩ := hword (.inl hheld)
    obtain ⟨hholds, htakes⟩ := h.held hheld
    rw [hword]
    exact ⟨hholder hholds, htakes⟩
  registering := by
    rw [hstatus]
    intro t ht
    obtain ⟨hword, hholder⟩ := hword (.inr ⟨t, ht⟩)
    rw [hword]
    exact (h.registering t ht).imp_left hholder
  object := by
    rw [hstatus]
    intro halive
    exact hobject (h.object halive)
  executionsLe := by
    rw [hexecutions]
    exact h.executionsLe
  unexecuted := by
    rw [hstatus, htaken, hexecutions]
    exact h.unexecuted
  fresh := by
    rw [hstatus, hexecutions]
    exact h.fresh
  refused := by
    rw [hstatus, hexecutions]
    exact h.refused
  due := by
    rw [hstatus, htaken, hdue]
    exact h.due
  executed := by
    rw [hexecutions, hwinner]
    exact h.executed

variable [DecidableEq C]

omit [DecidableEq T] in
/-- A call for a callback is the one that its status names. -/
theorem FrameOk.calledBy {g : Frame C A} (h : s.FrameOk addr t g) {c : C}
    (hg : g.isCall c = true) : s.status c = .registering t ∨ s.status c = .deregistering t := by
  cases g <;> simp only [Frame.isCall, decide_eq_true_eq, Bool.false_eq_true] at hg <;> subst hg
  case registerLoad | registerCas | registerExecute | registerReturn => exact .inl h.1
  case deregisterCas | deregisterLoadId | deregisterWait | deregisterLoad => exact .inr h.1

omit [DecidableEq T] in
/-- What a call knows carries over where its own callback is left alone. -/
theorem FrameOk.congr {s' : Source T C A} {g : Frame C A} (h : s.FrameOk addr t g)
    (hstatus : ∀ c, g.isCall c = true ∨ g = .running c → s'.status c = s.status c)
    (hinside : ∀ c, g = .running c → s'.inside c = s.inside c)
    (hholder : ∀ c, g.isCall c = true → s.holder = some c → s'.holder = some c)
    (hobject : ∀ a, g.executes = true → s.Pending addr a → s'.Pending addr a)
    (hexecutions : s'.executions = s.executions) (hword : s'.word = s.word)
    (hthread : s'.stoppingThread = s.stoppingThread) (htaken : s'.taken = s.taken)
    (hwinner : s'.winner = s.winner) : s'.FrameOk addr t g := by
  cases g with
  | stopLoad => trivial
  | stopCas old => exact h
  | stopStoreId a | stopExecute a =>
    simp only [FrameOk, hwinner, hword, hthread] at h ⊢
    exact ⟨h.1, h.2.1, h.2.2.1, hobject a rfl h.2.2.2⟩
  | stopStoreDone | stopNotify =>
    simpa only [FrameOk, hwinner, hword, hthread, htaken] using h
  | running c =>
    simpa only [FrameOk, hexecutions, hstatus c (.inr rfl), hinside c rfl, hwinner, hword, hthread,
      htaken] using h
  | registerCas c old =>
    have hsame := hstatus c (.inl (decide_eq_true rfl))
    simp only [FrameOk, hsame, hexecutions] at h ⊢
    exact ⟨h.1, h.2.1, hholder c (decide_eq_true rfl) h.2.2.1, h.2.2.2⟩
  | registerLoad c | registerExecute c | registerReturn c | deregisterCas c _
  | deregisterLoadId c | deregisterWait c _ | deregisterLoad c =>
    have hsame := hstatus c (.inl (decide_eq_true rfl))
    simpa only [FrameOk, hsame, hexecutions, hword, hwinner, hthread] using h

namespace Inv
variable {f : Frame C A} {rest : List (Frame C A)}

/-- A thread has one call for a callback at a time. -/
theorem other_call (h : s.Inv addr) (hst : s.stack t = f :: rest) {c : C} (hf : f.isCall c = true)
    {t' : T} {g : Frame C A} (hg : s.Other t rest t' g) : g.isCall c = false := by
  by_contra hne
  have hcall : g.isCall c = true := by simpa using hne
  have ht := h.calls t c
  rw [hst, List.countP_cons_of_pos hf] at ht
  have hby : (s.status c).calledBy t = true := by
    by_contra hn
    rw [if_neg hn] at ht
    omega
  rw [if_pos hby] at ht
  rcases hg with ⟨hne', hg⟩ | ⟨-, hg⟩
  · have ht' := h.calls t' c
    have hpos : 0 < (s.stack t').countP (Frame.isCall c) := List.countP_pos_iff.mpr ⟨g, hg, hcall⟩
    have hby' : (s.status c).calledBy t' = true := by
      by_contra hn
      rw [if_neg hn] at ht'
      omega
    refine hne' ?_
    cases hs : s.status c <;> rw [hs] at hby hby' <;> simp_all [Status.calledBy]
  · have hpos : 0 < rest.countP (Frame.isCall c) := List.countP_pos_iff.mpr ⟨g, hg, hcall⟩
    omega

/-- Only one call of `request_stop()` takes effect. -/
theorem other_wins (h : s.Inv addr) (hst : s.stack t = f :: rest) (hf : f.wins = true)
    {t' : T} {g : Frame C A} (hg : s.Other t rest t' g) : g.wins = false := by
  by_contra hne
  have hwins : g.wins = true := by simpa using hne
  have ht := h.wins t
  rw [hst, List.countP_cons_of_pos hf] at ht
  have hby : s.winner = some t := by
    by_contra hn
    rw [if_neg hn, if_neg hn] at ht
    omega
  rw [if_pos hby] at ht
  rcases hg with ⟨hne', hg⟩ | ⟨-, hg⟩
  · have ht' := h.wins t'
    have hpos : 0 < (s.stack t').countP Frame.wins := List.countP_pos_iff.mpr ⟨g, hg, hwins⟩
    have hby' : s.winner ≠ some t' := by
      rw [hby]
      simpa using fun he => hne' he.symm
    rw [if_neg hby', if_neg hby'] at ht'
    omega
  · have hpos : 0 < rest.countP Frame.wins := List.countP_pos_iff.mpr ⟨g, hg, hwins⟩
    rw [if_pos hby] at ht
    omega

/-- A winner that still has a frame has not returned. -/
theorem not_returned (h : s.Inv addr) (hst : s.stack t = f :: rest) (hf : f.wins = true) :
    s.winner = some t ∧ s.stopTrue = 0 ∧ rest.countP Frame.wins = 0 := by
  have ht := h.wins t
  rw [hst, List.countP_cons_of_pos hf] at ht
  have hby : s.winner = some t := by
    by_contra hn
    rw [if_neg hn, if_neg hn] at ht
    omega
  rw [if_pos hby, if_pos hby] at ht
  exact ⟨hby, by omega, by omega⟩

theorem not_waiting (h : s.Inv addr) (hst : s.stack t = f :: rest)
    (hf : ∀ c, f ≠ .deregisterWait c .stopRequested) : t ∉ s.waiters := by
  intro hw
  obtain ⟨c, rest', hc⟩ := h.waiting t hw
  rw [hst] at hc
  exact hf c (List.cons.inj hc).1

theorem stopped_iff (h : s.Inv addr) : s.word.stopped = true ↔ s.winner ≠ none := by
  have hw := h.word
  unfold WordOk at hw
  split at hw
  case h_1 he => simp [he, Word.stopped, hw]
  case h_2 a he => simp [he, Word.stopped, hw.1]
  case h_3 h1 h2 => cases he : s.word <;> simp_all [Word.stopped]

/-- As long as no stop is requested, no other callback is registered or about to be. -/
theorem others_idle (h : s.Inv addr) {c : C} (hholder : s.holder = some c)
    (hrun : s.word.stopped = false) {c' : C} (hc : c' ≠ c) :
    (s.status c').held = false ∧ ∀ t', s.status c' ≠ .registering t' := by
  have hne : s.holder ≠ some c' := by
    rw [hholder]
    exact fun he => hc (Option.some.inj he).symm
  constructor
  · by_contra hn
    exact hne ((h.callback c').held (by simpa using hn)).1
  · intro t' ht'
    rcases (h.callback c').registering t' ht' with hholds | hstop
    · exact hne hholds
    · rw [hrun] at hstop
      cases hstop

section Update
variable {st : List (Frame C A)}

theorem wins_update (h : s.Inv addr)
    (hcount : st.countP Frame.wins = (s.stack t).countP Frame.wins) (t' : T) :
    (Function.update s.stack t st t').countP Frame.wins +
      (if s.winner = some t' then s.stopTrue else 0) = if s.winner = some t' then 1 else 0 := by
  refine forall_stack_update (P := fun t' st => st.countP Frame.wins +
    (if s.winner = some t' then s.stopTrue else 0) = if s.winner = some t' then 1 else 0)
    h.wins ?_ t'
  rw [hcount]
  exact h.wins t

theorem calls_update (h : s.Inv addr)
    (hcount : ∀ c, st.countP (Frame.isCall c) = (s.stack t).countP (Frame.isCall c)) (t' : T)
    (c : C) : (Function.update s.stack t st t').countP (Frame.isCall c) =
      if (s.status c).calledBy t' then 1 else 0 := by
  refine forall_stack_update (P := fun t' st => st.countP (Frame.isCall c) =
    if (s.status c).calledBy t' then 1 else 0) (fun t => h.calls t c) ?_ t'
  rw [hcount]
  exact h.calls t c

/-- The calls for `c` change with its status, and those for other callbacks stay. -/
theorem calls_status (h : s.Inv addr) {c : C} {status : Status T}
    (hc : st.countP (Frame.isCall c) = if status.calledBy t then 1 else 0)
    (hother : ∀ t', t' ≠ t → (s.status c).calledBy t' = status.calledBy t')
    (hcount : ∀ c', c' ≠ c → st.countP (Frame.isCall c') = (s.stack t).countP (Frame.isCall c'))
    (t' : T) (c' : C) : (Function.update s.stack t st t').countP (Frame.isCall c') =
      if (Function.update s.status c status c').calledBy t' then 1 else 0 := by
  by_cases hc' : c' = c
  · subst hc'
    rw [Function.update_self]
    by_cases ht : t' = t
    · subst ht
      rw [Function.update_self, hc]
    · rw [Function.update_of_ne ht, ← hother t' ht]
      exact h.calls t' c'
  · rw [Function.update_of_ne hc']
    by_cases ht : t' = t
    · subst ht
      rw [Function.update_self, hcount c' hc']
      exact h.calls t' c'
    · rw [Function.update_of_ne ht]
      exact h.calls t' c'

theorem taken_update (h : s.Inv addr)
    (hexec : ∀ g ∈ s.stack t, g.executes = true → ∃ g ∈ st, g.executes = true) {c : C}
    (hc : s.taken = some c) : s.executions c = 1 ∨ ∃ t', s.winner = some t' ∧
      ∃ f ∈ Function.update s.stack t st t', f.executes = true := by
  rcases (h.taken c hc).2 with h2 | ⟨t', ht', h2⟩
  · exact .inl h2
  · exact .inr ⟨t', ht', exists_update hexec h2⟩

theorem inside_update (h : s.Inv addr)
    (hrun : ∀ c, Frame.running c ∈ st → Frame.running c ∈ s.stack t) (t' : T) (c : C)
    (hs : s.status c = .deregistering t')
    (hr : Frame.running c ∈ Function.update s.stack t st t') : s.inside c = true := by
  rcases mem_update hr with ⟨rfl, hr'⟩ | ⟨-, hr'⟩
  · exact h.inside t' c hs (hrun c hr')
  · exact h.inside t' c hs hr'

/-- The same, where a callback is given a status outside of its deregistration. -/
theorem inside_status (h : s.Inv addr)
    (hrun : ∀ c, Frame.running c ∈ st → Frame.running c ∈ s.stack t) {c : C} {status : Status T}
    (hstatus : ∀ t', status ≠ .deregistering t') (t' : T) (c' : C)
    (hs : Function.update s.status c status c' = .deregistering t')
    (hr : Frame.running c' ∈ Function.update s.stack t st t') : s.inside c' = true := by
  by_cases hc : c' = c
  · subst hc
    rw [Function.update_self] at hs
    exact absurd hs (hstatus t')
  · rw [Function.update_of_ne hc] at hs
    exact h.inside_update hrun t' c' hs hr

/-- A callback that goes on to exist keeps its object. -/
theorem objects_status (h : s.Inv addr) {c : C} {status : Status T} (halive : status.alive = true)
    (a : A) (c' : C) (ho : s.object a = some c') :
    addr c' = a ∧ (Function.update s.status c status c').alive = true := by
  obtain ⟨haddr, hlives⟩ := h.objects a c' ho
  refine ⟨haddr, ?_⟩
  by_cases hc : c' = c
  · rw [hc, Function.update_self]
    exact halive
  · rwa [Function.update_of_ne hc]

omit [DecidableEq T] [DecidableEq C] in
/-- No other object lives at the address of one. -/
theorem object_finish [DecidableEq A] {c c' : C} (hobj : s.object (addr c) = some c) (hc : c' ≠ c)
    (ho : s.object (addr c') = some c') :
    Function.update s.object (addr c) none (addr c') = some c' := by
  rw [Function.update_of_ne ?_, ho]
  intro he
  rw [he, hobj] at ho
  exact hc (Option.some.inj ho).symm

/-- The other objects when one is destroyed. -/
theorem objects_finish [DecidableEq A] (h : s.Inv addr) {c : C} {status : Status T} (a : A) (c' : C)
    (ho : Function.update s.object (addr c) none a = some c') :
    addr c' = a ∧ (Function.update s.status c status c').alive = true := by
  by_cases ha : a = addr c
  · rw [ha, Function.update_self] at ho
    cases ho
  · rw [Function.update_of_ne ha] at ho
    obtain ⟨haddr, hlives⟩ := h.objects a c' ho
    have hc : c' ≠ c := by
      rintro rfl
      exact ha haddr.symm
    refine ⟨haddr, ?_⟩
    rwa [Function.update_of_ne hc]

theorem waiting_update (h : s.Inv addr) (hwait : t ∉ s.waiters) (t' : T) (ht' : t' ∈ s.waiters) :
    ∃ c rest, Function.update s.stack t st t' = .deregisterWait c .stopRequested :: rest := by
  obtain ⟨c, rest', hc⟩ := h.waiting t' ht'
  have hne : t' ≠ t := fun he => hwait (he ▸ ht')
  exact ⟨c, rest', by rw [Function.update_of_ne hne, hc]⟩

theorem woken_update (h : s.Inv addr)
    (hf : Frame.stopNotify ∈ s.stack t → Frame.stopNotify ∈ st) (hne : s.waiters ≠ []) :
    s.word = .stopRequested ∨ ∃ t', Frame.stopNotify ∈ Function.update s.stack t st t' := by
  rcases h.woken hne with hw | ⟨t', ht'⟩
  · exact .inl hw
  · have hstays : ∀ g ∈ s.stack t, g = Frame.stopNotify → ∃ g ∈ st, g = Frame.stopNotify :=
      fun g hg he => ⟨_, hf (he ▸ hg), rfl⟩
    obtain ⟨g, hg, rfl⟩ := exists_update hstays ⟨_, ht', rfl⟩
    exact .inr ⟨t', hg⟩

theorem called_update (h : s.Inv addr)
    (hf : ∀ g ∈ s.stack t, g.loops = true → s.winner ≠ none ∨ ∃ g ∈ st, g.loops = true)
    (hne : s.stopCalls ≠ 0) :
    s.winner ≠ none ∨ ∃ t', ∃ f ∈ Function.update s.stack t st t', f.loops = true := by
  rcases h.called hne with hw | ⟨t', ht'⟩
  · exact .inl hw
  · by_cases hw : s.winner = none
    · exact .inr ⟨t', exists_update (fun g hg hp => (hf g hg hp).resolve_left fun hn => hn hw) ht'⟩
    · exact .inl hw

end Update

/-- A step that changes nothing that is shared. -/
theorem of_stack (h : s.Inv addr) {st rest : List (Frame C A)} (hsub : ∀ g ∈ rest, g ∈ s.stack t)
    (hwait : t ∉ s.waiters) (hstacked : Stacked s.taken st)
    (hwins : st.countP Frame.wins = (s.stack t).countP Frame.wins)
    (hcalls : ∀ c, st.countP (Frame.isCall c) = (s.stack t).countP (Frame.isCall c))
    (hexec : ∀ g ∈ s.stack t, g.executes = true → ∃ g ∈ st, g.executes = true)
    (hnotify : Frame.stopNotify ∈ s.stack t → Frame.stopNotify ∈ st)
    (hloops : ∀ g ∈ s.stack t, g.loops = true → s.winner ≠ none ∨ ∃ g ∈ st, g.loops = true)
    (hrun : ∀ c, Frame.running c ∈ st → Frame.running c ∈ s.stack t)
    (hok : ∀ g ∈ st, g ∈ rest ∨ s.FrameOk addr t g) : (s.goto t st).Inv addr :=
  { h with
    stacked := forall_stack_update h.stacked hstacked
    frames := by
      refine frames_update h.frames hsub ?_ ?_
      · intro g hg
        refine (hok g hg).imp id fun hg => ?_
        cases g <;> exact hg
      · intro t' g _ hg
        cases g <;> exact hg
    wins := h.wins_update hwins
    calls := h.calls_update hcalls
    callback := fun c => { h.callback c with }
    taken := fun c hc => ⟨(h.taken c hc).1, h.taken_update hexec hc⟩
    inside := h.inside_update hrun
    waiting := h.waiting_update hwait
    woken := h.woken_update hnotify
    called := h.called_update hloops }

/-- A step inside a call. -/
theorem of_local (h : s.Inv addr) (hst : s.stack t = f :: rest) {g : Frame C A}
    (hwait : t ∉ s.waiters) (hwins : g.wins = f.wins) (hcall : ∀ c, g.isCall c = f.isCall c)
    (hloops : f.loops = true → g.loops = true) (hexec : f.executes = false)
    (hg : ∀ c, g ≠ .running c) (hnotify : f ≠ .stopNotify) (hok : s.FrameOk addr t g) :
    (s.goto t (g :: rest)).Inv addr := by
  have hs : Stacked s.taken (f :: rest) := hst ▸ h.stacked t
  have hok' : ∀ g' ∈ g :: rest, g' ∈ rest ∨ s.FrameOk addr t g' := by
    intro g' hg'
    rcases List.mem_cons.mp hg' with rfl | hg'
    · exact .inr hok
    · exact .inl hg'
  refine h.of_stack (by simp +contextual [hst]) hwait (hs.replace hg) ?_ ?_ ?_ ?_ ?_ ?_ hok' <;>
    rw [hst]
  · rw [List.countP_cons, List.countP_cons, hwins]
  · intro c
    rw [List.countP_cons, List.countP_cons, hcall]
  · intro g' hg' hp
    rcases List.mem_cons.mp hg' with rfl | hg'
    · simp [hexec] at hp
    · exact ⟨g', by simp [hg'], hp⟩
  · intro hn
    rcases List.mem_cons.mp hn with he | hn
    · exact absurd he.symm hnotify
    · exact List.mem_cons_of_mem _ hn
  · intro g' hg' hp
    rcases List.mem_cons.mp hg' with rfl | hg'
    · exact .inr ⟨g, by simp, hloops hp⟩
    · exact .inr ⟨g', by simp [hg'], hp⟩
  · intro c hc
    exact List.mem_cons_of_mem _ ((List.mem_cons.mp hc).resolve_left fun he => hg c he.symm)

/-- The return from a call, or from a callback. -/
theorem of_pop (h : s.Inv addr) (hst : s.stack t = f :: rest) (hwait : t ∉ s.waiters)
    (hwins : f.wins = false) (hcall : ∀ c, f.isCall c = false)
    (hloops : f.loops = true → s.winner ≠ none) (hexec : f.executes = false)
    (hnotify : f ≠ .stopNotify) : (s.goto t rest).Inv addr := by
  have hs : Stacked s.taken (f :: rest) := hst ▸ h.stacked t
  have hsub : ∀ g ∈ rest, g ∈ s.stack t := by simp +contextual [hst]
  refine h.of_stack hsub hwait hs.tail ?_ ?_ ?_ ?_ ?_ ?_ (fun g hg => .inl hg) <;> rw [hst]
  · rw [List.countP_cons_of_neg (by simp [hwins])]
  · intro c
    rw [List.countP_cons_of_neg (by simp [hcall])]
  · intro g' hg' hp
    rcases List.mem_cons.mp hg' with rfl | hg'
    · simp [hexec] at hp
    · exact ⟨g', hg', hp⟩
  · intro hn
    exact (List.mem_cons.mp hn).resolve_left fun he => hnotify he.symm
  · intro g' hg' hp
    rcases List.mem_cons.mp hg' with rfl | hg'
    · exact .inl (hloops hp)
    · exact .inr ⟨g', hg', hp⟩
  · intro c hc
    exact List.mem_cons_of_mem _ hc

end Inv
end Source
end Squiz.SingleInplaceStopSource
