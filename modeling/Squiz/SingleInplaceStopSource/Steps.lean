import Squiz.SingleInplaceStopSource.Stacks

/-! Every step of `single_inplace_stop_source` keeps the invariant. -/

namespace Squiz.SingleInplaceStopSource
open Squiz.Lib

variable {T C A : Type} [DecidableEq T] [DecidableEq C]

namespace Source
variable {addr : C → A} {s : Source T C A} {t : T}

namespace Inv
variable {f : Frame C A} {rest : List (Frame C A)}

theorem init [DecidableEq A] : (system T addr).init.Inv addr where
  stacked _ := trivial
  frames _ _ hf := nomatch hf
  wins _ := rfl
  unwon _ := ⟨rfl, rfl, rfl, fun _ => rfl⟩
  calls _ _ := rfl
  word := rfl
  callback _ :=
    { held := nofun
      registering := nofun
      object := nofun
      executionsLe := Nat.zero_le _
      unexecuted := nofun
      fresh := fun _ => rfl
      refused := nofun
      due := nofun
      executed := fun h => absurd rfl h }
  objects := nofun
  taken := nofun
  inside := nofun
  returned := nofun
  waiting := nofun
  oneWaiter := Nat.zero_le _
  woken := fun h => absurd rfl h
  called := fun h => absurd rfl h
  noFault := rfl

/-- The loop of `request_stop()` goes on, or returns false since another call took effect. -/
theorem stopTest (h : s.Inv addr) (hst : s.stack t = f :: rest) (hf : f.loops = true) :
    (s.stopTest t rest).Inv addr := by
  have hwait := h.not_waiting hst fun c hc => by rw [hc] at hf; cases hf
  unfold Source.stopTest
  split_ifs with hstop
  · refine h.of_pop hst hwait ?_ ?_ (fun _ => h.stopped_iff.mp hstop) ?_ ?_ <;>
      cases f <;> simp_all [Frame.loops, Frame.wins, Frame.isCall, Frame.executes]
  · refine h.of_local hst hwait ?_ ?_ (fun _ => rfl) ?_ (by simp) ?_
      (by simpa [FrameOk] using hstop) <;>
      cases f <;> simp_all [Frame.loops, Frame.wins, Frame.isCall, Frame.executes]

/-- Before the stop takes effect there is no trace of one. -/
theorem unstopped (h : s.Inv addr) (hword : s.word.stopped = false) :
    s.winner = none ∧ s.stopTrue = 0 ∧ s.taken = none ∧ s.stoppingThread = none ∧
      (∀ c, s.due c = false) ∧ s.waiters = [] ∧ ∀ t, (s.stack t).countP Frame.wins = 0 := by
  have hw : s.winner = none := by
    by_contra hne
    rw [h.stopped_iff.mpr hne] at hword
    cases hword
  obtain ⟨h1, h2, h3, h4⟩ := h.unwon hw
  refine ⟨hw, h1, h2, h3, h4, ?_, fun t => ?_⟩
  · refine List.eq_nil_iff_forall_not_mem.mpr fun t ht => ?_
    obtain ⟨c, rest, hc⟩ := h.waiting t ht
    have hok := h.frames t (.deregisterWait c .stopRequested) (by simp [hc])
    rw [hok.2.1] at hword
    cases hword
  · have ht := h.wins t
    simpa [hw] using ht

theorem stopTakesEffect (h : s.Inv addr) {old : Word A} (hst : s.stack t = .stopCas old :: rest)
    (hword : s.word = old) : (s.stopTakesEffect t old rest).Inv addr := by
  have hold : old.stopped = false := h.frames t (.stopCas old) (by simp [hst])
  have hrun : s.word.stopped = false := by rw [hword, hold]
  obtain ⟨hwin, htrue, htaken, hthread, hdue, hwaiters, hcount⟩ := h.unstopped hrun
  have hs : Stacked s.taken (.stopCas old :: rest) := hst ▸ h.stacked t
  have hsub : ∀ g ∈ rest, g ∈ s.stack t := by simp +contextual [hst]
  have hcounts : ∀ c, rest.countP (Frame.isCall c) = (s.stack t).countP (Frame.isCall c) := by
    intro c
    rw [hst, List.countP_cons_of_neg (by simp [Frame.isCall])]
  have hwins : rest.countP Frame.wins = 0 := by
    have ht := hcount t
    rwa [hst, List.countP_cons_of_neg (by simp [Frame.wins])] at ht
  rw [htaken] at hs
  cases old with
  | stopRequested => cases hold
  | stopRequestedCallbackDone => cases hold
  | null =>
    have hheld : ∀ c, (s.status c).held = false := by
      intro c
      by_contra hne
      rcases ((h.callback c).held (by simpa using hne)).2 with hc | ⟨hc, -⟩
      · rw [hword] at hc
        cases hc
      · rw [hrun] at hc
        cases hc
    exact { h with
      stacked := by
        simp only [Source.stopTakesEffect, goto, htaken]
        refine forall_stack_update (fun t' => ?_) hs.tail
        rw [← htaken]
        exact h.stacked t'
      frames := by
        refine frames_update (s := s) h.frames hsub (fun g hg => .inl hg) fun t' g _ hok => ?_
        cases g <;> simp_all [FrameOk, Source.stopTakesEffect, goto, Word.stopped]
      wins := by
        intro t'
        simp only [Source.stopTakesEffect, goto, htrue]
        by_cases ht : t' = t
        · subst ht
          simp [Function.update_self, hwins]
        · have hne : t ≠ t' := fun he => ht he.symm
          simp [Function.update_of_ne ht, hcount, hne]
      unwon := by simp [Source.stopTakesEffect, goto]
      calls := h.calls_update hcounts
      word := by simp [WordOk, Source.stopTakesEffect, goto]
      callback := by
        intro c
        exact { h.callback c with
          held := fun hc => absurd hc (by simp [Source.stopTakesEffect, goto, hheld])
          registering := fun _ _ => .inr rfl
          due := by
            intro hc
            simp only [Source.stopTakesEffect, goto] at hc ⊢
            have hn := hheld c
            cases hstatus : s.status c <;> rw [hstatus] at hc hn <;>
              simp_all [Status.held]
          executed := by simp [Source.stopTakesEffect, goto] }
      taken := by simp [Source.stopTakesEffect, goto, htaken]
      inside := h.inside_update fun c hc => by simp [hst, hc]
      returned := by simp [Source.stopTakesEffect, goto, htaken]
      waiting := by simp [Source.stopTakesEffect, goto, hwaiters]
      woken := by simp [Source.stopTakesEffect, goto, hwaiters]
      called := by simp [Source.stopTakesEffect, goto] }
  | callback a =>
    have hwordOk := h.word
    unfold WordOk at hwordOk
    rw [hword] at hwordOk
    obtain ⟨-, c, hobj, haddr, hholder, hheld⟩ := hwordOk
    have hzero : s.executions c = 0 := (h.callback c).unexecuted hheld (by simp [htaken])
    have honly : ∀ c', (s.status c').held = true → c' = c := by
      intro c' hc'
      have hc'' := ((h.callback c').held hc').1
      rw [hholder] at hc''
      exact (Option.some.inj hc'').symm
    exact { h with
      stacked := by
        simp only [Source.stopTakesEffect, goto]
        refine forall_stack_update (fun t' => ?_) (hs.replace (by simp)).of_none
        have hs' := h.stacked t'
        rw [htaken] at hs'
        exact hs'.of_none
      frames := by
        refine frames_update (s := s) h.frames hsub ?_ fun t' g _ hok => ?_
        · intro g hg
          rcases List.mem_cons.mp hg with rfl | hg
          · exact .inr ⟨rfl, rfl, hthread, c, hobj, haddr, hobj, hzero⟩
          · exact .inl hg
        · cases g <;> simp_all [FrameOk, Source.stopTakesEffect, goto, Word.stopped]
      wins := by
        intro t'
        simp only [Source.stopTakesEffect, goto, htrue]
        by_cases ht : t' = t
        · subst ht
          rw [Function.update_self, List.countP_cons_of_pos rfl, hwins]
          simp
        · have hne : t ≠ t' := fun he => ht he.symm
          simp [Function.update_of_ne ht, hcount, hne]
      unwon := by simp [Source.stopTakesEffect, goto]
      calls := by
        refine h.calls_update fun c => ?_
        rw [List.countP_cons_of_neg (by simp [Frame.isCall]), hcounts]
      word := by simp [WordOk, Source.stopTakesEffect, goto]
      callback := by
        intro c'
        exact { h.callback c' with
          held := by
            intro hc
            have hc' : c' = c := honly c' hc
            subst hc'
            exact ⟨hholder, .inr ⟨rfl, hobj⟩⟩
          registering := fun _ _ => .inr rfl
          unexecuted := by
            intro hc hne
            have hc' : c' = c := honly c' hc
            subst hc'
            exact absurd hobj hne
          due := by
            intro hc
            simp only [Source.stopTakesEffect, goto] at hc ⊢
            have hn := honly c'
            cases hstatus : s.status c' <;> rw [hstatus] at hc hn <;>
              simp_all [Status.held]
          executed := by simp [Source.stopTakesEffect, goto] }
      taken := by
        intro c' hc'
        have hc'' : c' = c := by
          simp only [Source.stopTakesEffect, goto, hobj] at hc'
          exact (Option.some.inj hc').symm
        subst hc''
        refine ⟨.inl hheld, .inr ⟨t, rfl, .stopStoreId a, ?_, rfl⟩⟩
        simp [Source.stopTakesEffect, goto]
      inside := by
        refine h.inside_update fun c hc => ?_
        simpa [hst] using hc
      returned := by simp [Source.stopTakesEffect, goto, htrue]
      waiting := by simp [Source.stopTakesEffect, goto, hwaiters]
      woken := by simp [Source.stopTakesEffect, goto, hwaiters]
      called := by simp [Source.stopTakesEffect, goto] }

theorem storeId (h : s.Inv addr) {a : A} (hst : s.stack t = .stopStoreId a :: rest) :
    Inv addr { s.goto t (.stopExecute a :: rest) with stoppingThread := some t } := by
  obtain ⟨hwin, hword, hthread, hpending⟩ := h.frames t (.stopStoreId a) (by simp [hst])
  obtain ⟨-, htrue, -⟩ := h.not_returned hst rfl
  have hs : Stacked s.taken (.stopStoreId a :: rest) := hst ▸ h.stacked t
  have hsub : ∀ g ∈ rest, g ∈ s.stack t := by simp +contextual [hst]
  exact { h with
    stacked := forall_stack_update h.stacked (hs.replace (by simp))
    frames := by
      refine frames_update (s := s) h.frames hsub ?_ fun t' g hg hok => ?_
      · intro g hg
        rcases List.mem_cons.mp hg with rfl | hg
        · exact .inr ⟨hwin, hword, rfl, hpending⟩
        · exact .inl hg
      · have hother := h.other_wins hst rfl hg
        cases g <;> simp_all [FrameOk, goto, Frame.wins]
    wins := by
      refine h.wins_update ?_
      rw [hst]
      rfl
    unwon := fun hn => by simp [goto, hwin] at hn
    calls := by
      refine h.calls_update fun c => ?_
      rw [hst]
      rfl
    callback := fun c => { h.callback c with }
    taken := by
      intro c hc
      refine ⟨(h.taken c hc).1, h.taken_update ?_ hc⟩
      intro g _ _
      exact ⟨.stopExecute a, by simp, rfl⟩
    inside := by
      refine h.inside_update fun c hc => ?_
      simpa [hst] using hc
    returned := fun hn => by simp [goto, htrue] at hn
    waiting := h.waiting_update (h.not_waiting hst (by simp))
    woken := h.woken_update (by simp [hst])
    called := h.called_update fun _ _ _ => .inl (by simp [hwin]) }

/-- A frame below the top belongs to a callback or to the call that executes one. -/
theorem suspended (h : s.Inv addr) (hst : s.stack t = f :: rest) {g : Frame C A} (hg : g ∈ rest) :
    g.suspended = true := by
  have hs : Stacked s.taken (f :: rest) := hst ▸ h.stacked t
  exact hs.2.1 g hg

theorem stopExecute (h : s.Inv addr) {a : A} (hst : s.stack t = .stopExecute a :: rest) :
    (s.execute t a .stopStoreDone rest).Inv addr := by
  obtain ⟨hwin, hword, hthread, c, htaken, haddr, hobj, hzero⟩ :=
    h.frames t (.stopExecute a) (by simp [hst])
  obtain ⟨-, htrue, -⟩ := h.not_returned hst rfl
  obtain ⟨-, halive⟩ := h.objects a c hobj
  have hs : Stacked s.taken (.stopExecute a :: rest) := hst ▸ h.stacked t
  have hsub : ∀ g ∈ rest, g ∈ s.stack t := by simp +contextual [hst]
  have hreg : ∀ t', s.status c ≠ .registering t' := by
    intro t' hc
    have := (h.taken c htaken).1
    simp [hc, Status.held] at this
  have hlive : s.status c ≠ .gone ∧ s.status c ≠ .fresh ∧ s.status c ≠ .refused := by
    refine ⟨?_, ?_, ?_⟩ <;> intro hc <;> simp [hc, Status.alive] at halive
  unfold execute
  simp only [hobj]
  exact { h with
    stacked := forall_stack_update h.stacked (hs.execute htaken rfl (by simp))
    frames := by
      refine frames_update (s := s) h.frames hsub ?_ fun t' g hg hok => ?_
      · intro g hg
        rcases List.mem_cons.mp hg with rfl | hg
        · refine .inr ⟨by simp [hzero], .inr ⟨htaken, hwin, hword, hthread, fun hc => ?_⟩⟩
          exact absurd hc hlive.1
        · rcases List.mem_cons.mp hg with rfl | hg
          · exact .inr ⟨hwin, hword, hthread, by simp [goto, htaken]⟩
          · exact .inl hg
      · have hother := h.other_wins hst rfl hg
        have hne : ∀ c', s.executions c' = 1 ∨ s.status c' = .registering t' →
            Function.update s.executions c (s.executions c + 1) c' = s.executions c' := by
          rintro c' hc'
          refine Function.update_of_ne ?_ _ _
          rintro rfl
          rcases hc' with hc' | hc'
          · omega
          · exact hreg t' hc'
        cases g <;> simp_all [FrameOk, goto, Frame.wins]
    wins := by
      refine h.wins_update ?_
      rw [hst]
      rfl
    unwon := fun hn => by simp [goto, hwin] at hn
    calls := by
      refine h.calls_update fun c => ?_
      rw [hst]
      rfl
    callback := by
      intro c'
      by_cases hc : c' = c
      · subst hc
        exact { h.callback c' with
          executionsLe := by simp [hzero]
          unexecuted := fun _ hne => absurd htaken hne
          fresh := fun hf => absurd hf hlive.2.1
          refused := fun hf => absurd hf hlive.2.2
          executed := fun _ => by simp [goto, hwin] }
      · exact (h.callback c').congr rfl (Function.update_of_ne hc _ _) rfl rfl rfl id
          fun _ => ⟨rfl, id⟩
    taken := by
      intro c' hc'
      have hc : c' = c := by
        simp only [goto, htaken] at hc'
        exact (Option.some.inj hc').symm
      subst hc
      exact ⟨(h.taken c' htaken).1, .inl (by simp [hzero])⟩
    inside := by
      intro t' c' hstatus hr
      rcases mem_update hr with ⟨rfl, hr'⟩ | ⟨-, hr'⟩
      · have hcall := h.calls t' c'
        simp only [goto] at hstatus
        rw [if_pos (by simp [hstatus, Status.calledBy]), hst,
          List.countP_cons_of_neg (by simp [Frame.isCall])] at hcall
        obtain ⟨g, hg, hgc⟩ := List.countP_pos_iff.mp (by omega : 0 < rest.countP (Frame.isCall c'))
        have hsusp := h.suspended hst hg
        have hok := h.frames t' g (hsub g hg)
        cases g <;> simp_all [Frame.isCall, Frame.suspended, FrameOk]
      · exact h.inside t' c' hstatus hr'
    returned := fun hn => by simp [goto, htrue] at hn
    waiting := h.waiting_update (h.not_waiting hst (by simp))
    woken := h.woken_update (by simp [hst])
    called := h.called_update fun _ _ _ => .inl (by simp [hwin]) }

/-- When the call that executed the callback goes on, the callback has returned. -/
theorem not_running (h : s.Inv addr) (hst : s.stack t = .stopStoreDone :: rest) {t' : T} {c : C}
    (hg : s.Other t rest t' (.running c)) : s.status c = .registering t' := by
  obtain ⟨hwin, hword, hthread, htaken⟩ := h.frames t .stopStoreDone (by simp [hst])
  have hs : Stacked s.taken (.stopStoreDone :: rest) := hst ▸ h.stacked t
  have hsub : ∀ g ∈ rest, g ∈ s.stack t := by simp +contextual [hst]
  rcases hg with ⟨hne, hg⟩ | ⟨rfl, hg⟩
  · obtain ⟨-, hok | ⟨-, hok, -⟩⟩ := h.frames t' _ hg
    · exact hok
    · rw [hwin] at hok
      exact absurd (Option.some.inj hok).symm hne
  · obtain ⟨g, hgt, hinv⟩ := hs.tail.invoker hg
    have hgr := List.mem_of_mem_tail hgt
    have hwins := h.other_wins hst rfl (.inr ⟨rfl, hgr⟩)
    cases g <;> simp [Frame.Invokes, Frame.wins] at hinv hwins
    case registerReturn c' =>
      subst hinv
      exact (h.frames t' _ (hsub _ hgr)).1

theorem storeDone (h : s.Inv addr) (hst : s.stack t = .stopStoreDone :: rest) :
    Inv addr { s.goto t (.stopNotify :: rest) with word := .stopRequestedCallbackDone } := by
  obtain ⟨hwin, hword, hthread, htaken⟩ := h.frames t .stopStoreDone (by simp [hst])
  obtain ⟨-, htrue, -⟩ := h.not_returned hst rfl
  have hs : Stacked s.taken (.stopStoreDone :: rest) := hst ▸ h.stacked t
  have hsub : ∀ g ∈ rest, g ∈ s.stack t := by simp +contextual [hst]
  exact { h with
    stacked := forall_stack_update h.stacked (hs.replace (by simp))
    frames := by
      refine frames_update (s := s) h.frames hsub ?_ fun t' g hg hok => ?_
      · intro g hg
        rcases List.mem_cons.mp hg with rfl | hg
        · exact .inr ⟨hwin, rfl, hthread⟩
        · exact .inl hg
      · have hother := h.other_wins hst rfl hg
        have hrun : ∀ c, g = .running c → s.status c = .registering t' :=
          fun c hc => h.not_running hst (hc ▸ hg)
        cases g <;> simp_all [FrameOk, goto, Frame.wins, Word.stopped]
    wins := by
      refine h.wins_update ?_
      rw [hst]
      rfl
    calls := by
      refine h.calls_update fun c => ?_
      rw [hst]
      rfl
    word := by simp [WordOk, goto, hwin]
    callback := by
      intro c
      exact { h.callback c with
        held := by
          intro hc
          obtain ⟨h1, h2⟩ := (h.callback c).held hc
          rw [hword] at h2
          refine ⟨h1, .inr ⟨rfl, ?_⟩⟩
          rcases h2 with h2 | h2
          · cases h2
          · exact h2.2
        registering := fun _ _ => .inr rfl }
    taken := by
      intro c hc
      refine ⟨(h.taken c hc).1, h.taken_update ?_ hc⟩
      intro g hg hp
      rw [hst] at hg
      rcases List.mem_cons.mp hg with rfl | hg
      · cases hp
      · exact ⟨g, List.mem_cons_of_mem _ hg, hp⟩
    inside := by
      refine h.inside_update fun c hc => ?_
      simpa [hst] using hc
    returned := fun hn => by simp [goto, htrue] at hn
    waiting := h.waiting_update (h.not_waiting hst (by simp))
    woken := fun _ => .inr ⟨t, by simp [goto]⟩
    called := h.called_update fun _ _ _ => .inl (by simp [hwin]) }

theorem notify (h : s.Inv addr) (hst : s.stack t = .stopNotify :: rest) {woken : ℕ}
    (hwoken : woken < s.waiters.length ∨ s.waiters = []) :
    Inv addr { s.goto t rest with
      waiters := s.waiters.eraseIdx woken
      stopTrue := s.stopTrue + 1 } := by
  obtain ⟨hwin, hword, hthread⟩ := h.frames t .stopNotify (by simp [hst])
  obtain ⟨-, htrue, hcount⟩ := h.not_returned hst rfl
  have hs : Stacked s.taken (.stopNotify :: rest) := hst ▸ h.stacked t
  have hsub : ∀ g ∈ rest, g ∈ s.stack t := by simp +contextual [hst]
  have hnil : s.waiters.eraseIdx woken = [] := by
    have hone := h.oneWaiter
    rcases hwoken with hlt | hnil
    · have hlen := List.length_eraseIdx_of_lt hlt
      exact List.length_eq_zero_iff.mp (by omega)
    · simp [hnil]
  rw [hnil]
  exact { h with
    stacked := forall_stack_update h.stacked hs.tail
    frames := by
      refine frames_update (s := s) h.frames hsub (fun g hg => .inl hg) fun t' g hg hok => ?_
      cases g <;> exact hok
    wins := by
      intro t'
      simp only [goto, htrue]
      by_cases ht : t' = t
      · subst ht
        simp [Function.update_self, hcount, hwin]
      · have ht' := h.wins t'
        have hne : s.winner ≠ some t' := by
          rw [hwin]
          simpa using fun he => ht he.symm
        simpa [Function.update_of_ne ht, hne] using ht'
    unwon := fun hn => by simp [goto, hwin] at hn
    calls := by
      refine h.calls_update fun c => ?_
      rw [hst, List.countP_cons_of_neg (by simp [Frame.isCall])]
    callback := fun c => { h.callback c with }
    taken := by
      intro c hc
      refine ⟨(h.taken c hc).1, h.taken_update ?_ hc⟩
      intro g hg hp
      rw [hst] at hg
      rcases List.mem_cons.mp hg with rfl | hg
      · cases hp
      · exact ⟨g, hg, hp⟩
    inside := h.inside_update fun c hc => hsub _ hc
    returned := fun _ _ => ⟨by simp [goto, hthread, hwin], hword⟩
    waiting := nofun
    oneWaiter := Nat.zero_le _
    woken := fun hn => absurd rfl hn
    called := fun _ => .inl (by simp [goto, hwin]) }

/-- The callback of a call, and what is known of it. -/
theorem called_status (h : s.Inv addr) (hst : s.stack t = f :: rest) {c : C}
    (hf : f.isCall c = true) : (s.status c).calledBy t = true ∧ (s.status c).alive = true ∧
      rest.countP (Frame.isCall c) = 0 := by
  have hcall := h.calls t c
  rw [hst, List.countP_cons_of_pos hf] at hcall
  have hby : (s.status c).calledBy t = true := by
    by_contra hn
    rw [if_neg hn] at hcall
    omega
  rw [if_pos hby] at hcall
  refine ⟨hby, ?_, by omega⟩
  cases hs : s.status c <;> rw [hs] at hby <;> first | rfl | cases hby

theorem registerTest (h : s.Inv addr) (hst : s.stack t = f :: rest) {c : C}
    (hf : f = .registerLoad c ∨ ∃ old, f = .registerCas c old) :
    (s.registerTest t c rest).Inv addr := by
  have hok := h.frames t f (by simp [hst])
  have hstatus : s.status c = .registering t ∧ s.executions c = 0 := by
    rcases hf with rfl | ⟨old, rfl⟩
    · exact hok
    · exact ⟨hok.1, hok.2.1⟩
  have hwait := h.not_waiting hst fun c hc => by rcases hf with rfl | ⟨old, rfl⟩ <;> cases hc
  unfold Source.registerTest
  split_ifs with hstop
  · refine h.of_local hst hwait ?_ ?_ ?_ ?_ (by simp) ?_ ⟨hstatus.1, hstatus.2, hstop⟩ <;>
      rcases hf with rfl | ⟨old, rfl⟩ <;>
        simp [Frame.wins, Frame.isCall, Frame.loops, Frame.executes]
  · have hholder : s.holder = some c := ((h.callback c).registering t hstatus.1).resolve_right hstop
    have hnull : s.word = .null := by
      have hw := h.word
      unfold WordOk at hw
      cases hword : s.word with
      | null => rfl
      | callback a =>
        rw [hword] at hw
        obtain ⟨-, c', -, -, hc', hheld⟩ := hw
        rw [hholder] at hc'
        cases hc'
        simp [hstatus.1, Status.held] at hheld
      | stopRequested => simp [hword, Word.stopped] at hstop
      | stopRequestedCallbackDone => simp [hword, Word.stopped] at hstop
    refine h.of_local hst hwait ?_ ?_ ?_ ?_ (by simp) ?_ ⟨hstatus.1, hstatus.2, hholder, hnull⟩ <;>
      rcases hf with rfl | ⟨old, rfl⟩ <;>
        simp [Frame.wins, Frame.isCall, Frame.loops, Frame.executes]

theorem registerCas (h : s.Inv addr) {c : C} {old : Word A}
    (hst : s.stack t = .registerCas c old :: rest) (hword : s.word = old) :
    Inv addr { s.goto t rest with
      word := .callback (addr c)
      status := Function.update s.status c .registered } := by
  obtain ⟨hstatus, hzero, hholder, hnull⟩ := h.frames t (.registerCas c old) (by simp [hst])
  have hrun : s.word.stopped = false := by rw [hword, hnull]; rfl
  obtain ⟨hwin, htrue, htaken, hthread, hdue, hwaiters, hcount⟩ := h.unstopped hrun
  obtain ⟨hby, halive, hnone⟩ := h.called_status hst (c := c) (by simp [Frame.isCall])
  have hobj := (h.callback c).object halive
  have hs : Stacked s.taken (.registerCas c old :: rest) := hst ▸ h.stacked t
  have hsub : ∀ g ∈ rest, g ∈ s.stack t := by simp +contextual [hst]
  have hne : ∀ c', s.executions c' = 1 ∨ (s.status c').held = true →
      Function.update s.status c .registered c' = s.status c' := by
    intro c' hc'
    refine Function.update_of_ne ?_ _ _
    rintro rfl
    rcases hc' with hc' | hc'
    · omega
    · simp [hstatus, Status.held] at hc'
  exact { h with
    stacked := forall_stack_update h.stacked hs.tail
    frames := by
      refine frames_update (s := s) h.frames hsub (fun g hg => .inl hg) fun t' g hg hok => ?_
      have hother := h.other_call hst (c := c) (by simp [Frame.isCall]) hg
      cases g <;>
        simp_all [FrameOk, goto, Frame.isCall, Word.stopped, Function.update_of_ne, Status.held]
    wins := by
      refine h.wins_update ?_
      rw [hst, List.countP_cons_of_neg (by simp [Frame.wins])]
    calls := by
      refine h.calls_status ?_ ?_ ?_
      · rw [hnone]
        simp [Status.calledBy]
      · intro t' ht'
        simp [hstatus, Status.calledBy, ht'.symm]
      · intro c' hc'
        rw [hst, List.countP_cons_of_neg (by simpa [Frame.isCall] using hc'.symm)]
    word := by
      simp only [WordOk, goto]
      exact ⟨hwin, c, hobj, rfl, hholder, by simp [Status.held]⟩
    callback := by
      intro c'
      by_cases hc : c' = c
      · subst hc
        exact
          { held := fun _ => ⟨hholder, .inl rfl⟩
            registering := by simp
            object := fun _ => hobj
            executionsLe := (h.callback c').executionsLe
            unexecuted := fun _ _ => hzero
            fresh := by simp
            refused := by simp
            due := fun hd => by simp [goto, hdue] at hd
            executed := fun he => absurd hzero he }
      · obtain ⟨hheld, hregistering⟩ := h.others_idle hholder hrun hc
        refine (h.callback c').congr (Function.update_of_ne hc _ _) rfl rfl rfl rfl id ?_
        rintro (hholds | ⟨t', ht'⟩)
        · rw [hheld] at hholds
          cases hholds
        · exact absurd ht' (hregistering t')
    objects := h.objects_status rfl
    taken := fun c' hc' => by simp [goto, htaken] at hc'
    inside := h.inside_status (fun c hc => hsub _ hc) (by simp)
    returned := fun hn => by simp [goto, htrue] at hn
    waiting := by simp [goto, hwaiters]
    woken := by simp [goto, hwaiters]
    called := by
      refine h.called_update fun g hg hp => ?_
      rw [hst] at hg
      rcases List.mem_cons.mp hg with rfl | hg
      · cases hp
      · exact .inr ⟨g, hg, hp⟩ }

theorem registerExecute (h : s.Inv addr) {c : C} (hst : s.stack t = .registerExecute c :: rest) :
    (s.execute t (addr c) (.registerReturn c) rest).Inv addr := by
  obtain ⟨hstatus, hzero, hstop⟩ := h.frames t (.registerExecute c) (by simp [hst])
  have hwin := h.stopped_iff.mp hstop
  obtain ⟨hby, halive, hnone⟩ := h.called_status hst (c := c) (by simp [Frame.isCall])
  have hobj := (h.callback c).object halive
  have hs : Stacked s.taken (.registerExecute c :: rest) := hst ▸ h.stacked t
  have hsub : ∀ g ∈ rest, g ∈ s.stack t := by simp +contextual [hst]
  have htaken : s.taken ≠ some c := by
    intro hc
    have := (h.taken c hc).1
    simp [hstatus, Status.held] at this
  unfold execute
  simp only [hobj]
  exact { h with
    stacked := forall_stack_update h.stacked (hs.execute rfl rfl (by simp))
    frames := by
      refine frames_update (s := s) h.frames hsub ?_ fun t' g hg hok => ?_
      · intro g hg
        rcases List.mem_cons.mp hg with rfl | hg
        · exact .inr ⟨by simp [hzero], .inl hstatus⟩
        · rcases List.mem_cons.mp hg with rfl | hg
          · exact .inr ⟨hstatus, by simp [hzero], hstop⟩
          · exact .inl hg
      · have hother := h.other_call hst (c := c) (by simp [Frame.isCall]) hg
        have hne : ∀ c', s.executions c' = 1 ∨ s.taken = some c' ∨ c' ≠ c →
            Function.update s.executions c (s.executions c + 1) c' = s.executions c' := by
          intro c' hc'
          refine Function.update_of_ne ?_ _ _
          rintro rfl
          rcases hc' with hc' | hc' | hc'
          · omega
          · exact htaken hc'
          · exact hc' rfl
        cases g <;> simp_all [FrameOk, goto, Frame.isCall]
        all_goals
          obtain ⟨-, -, -, c', hc', h1, h2, h3⟩ := hok
          exact ⟨c', hc', h1, h2, by simp [hne c' (.inr (.inl hc')), h3]⟩
    wins := by
      refine h.wins_update ?_
      rw [hst]
      rfl
    calls := by
      refine h.calls_update fun c => ?_
      rw [hst]
      rfl
    callback := by
      intro c'
      by_cases hc : c' = c
      · subst hc
        exact { h.callback c' with
          executionsLe := by simp [hzero]
          unexecuted := fun hheld => by simp [goto, hstatus, Status.held] at hheld
          fresh := fun hf => by simp [goto, hstatus] at hf
          refused := fun hf => by simp [goto, hstatus] at hf
          executed := fun _ => by simpa [goto] using hwin }
      · exact (h.callback c').congr rfl (Function.update_of_ne hc _ _) rfl rfl rfl id
          fun _ => ⟨rfl, id⟩
    taken := by
      intro c' hc'
      have hc : c' ≠ c := by
        rintro rfl
        exact htaken hc'
      refine ⟨(h.taken c' hc').1, ?_⟩
      simp only [goto, Function.update_of_ne hc]
      refine h.taken_update ?_ hc'
      intro g hg hp
      rw [hst] at hg
      rcases List.mem_cons.mp hg with rfl | hg
      · cases hp
      · exact ⟨g, by simp [hg], hp⟩
    inside := by
      intro t' c' hc' hr
      rcases mem_update hr with ⟨rfl, hr'⟩ | ⟨-, hr'⟩
      · rcases List.mem_cons.mp hr' with he | hr'
        · cases he
          rw [show s.status c = .deregistering t' from hc'] at hstatus
          cases hstatus
        · rcases List.mem_cons.mp hr' with he | hr'
          · cases he
          · exact h.inside t' c' hc' (hsub _ hr')
      · exact h.inside t' c' hc' hr'
    waiting := h.waiting_update (h.not_waiting hst (by simp))
    woken := h.woken_update (by simp [hst])
    called := h.called_update fun _ _ _ => .inl hwin }

variable [DecidableEq A]

/-- A callback's call ends after the stop took effect, and its object with it. -/
theorem of_finish (h : s.Inv addr) (hst : s.stack t = f :: rest) {c : C} {status : Status T}
    (hcall : f.isCall c = true) (honly : ∀ c', c' ≠ c → f.isCall c' = false)
    (hwins : f.wins = false) (hexec : f.executes = false) (hloops : f.loops = false)
    (hwait : t ∉ s.waiters) (hstop : s.word.stopped = true)
    (hstatus : status = .gone ∧ s.taken = some c ∨
      status = .refused ∧ s.taken ≠ some c ∧ s.executions c = 1)
    (hrun : ∀ t', s.Other t rest t' (.running c) → status = .gone ∧ s.inside c = true ∧
      s.winner = some t' ∧ s.word = .stopRequested ∧ s.stoppingThread = some t')
    (hnoexec : status = .gone → ∀ t', ∀ g ∈ s.stack t', g.executes = false) :
    (s.finish addr t c status rest).Inv addr := by
  have hwin := h.stopped_iff.mp hstop
  obtain ⟨hby, halive, hnone⟩ := h.called_status hst hcall
  have hobj := (h.callback c).object halive
  have hs : Stacked s.taken (f :: rest) := hst ▸ h.stacked t
  have hsub : ∀ g ∈ rest, g ∈ s.stack t := by simp +contextual [hst]
  have hdead : status.held = false ∧ status.alive = false ∧ (∀ t', status.calledBy t' = false) ∧
      (∀ t', status ≠ .registering t') ∧ (∀ t', status ≠ .deregistering t') ∧ status ≠ .fresh := by
    rcases hstatus with ⟨rfl, -⟩ | ⟨rfl, -⟩ <;> simp [Status.held, Status.alive, Status.calledBy]
  exact { h with
    stacked := forall_stack_update h.stacked hs.tail
    frames := by
      refine frames_update (s := s) h.frames hsub (fun g hg => .inl hg) fun t' g hg hok => ?_
      have hother := h.other_call hst hcall hg
      have hmem : g ∈ s.stack t' := by
        rcases hg with ⟨-, hg⟩ | ⟨rfl, hg⟩
        · exact hg
        · exact hsub g hg
      by_cases hrunning : g = .running c
      · subst hrunning
        obtain ⟨hgone, hin, h1, h2, h3⟩ := hrun t' hg
        have htaken : s.taken = some c := by
          rcases hstatus with ⟨-, ht⟩ | ⟨hr, -⟩
          · exact ht
          · rw [hr] at hgone
            cases hgone
        exact ⟨hok.1, .inr ⟨htaken, h1, h2, h3, fun _ => hin⟩⟩
      have hne : ∀ c', g.isCall c' = true ∨ g = .running c' → c' ≠ c := by
        rintro c' (hc' | hc') rfl
        · rw [hother] at hc'
          cases hc'
        · exact hrunning hc'
      refine hok.congr (fun c' hc' => Function.update_of_ne (hne c' hc') _ _) (fun _ _ => rfl)
        ?_ ?_ rfl rfl rfl rfl rfl
      · intro c' hc' hholds
        have hne' : some c' ≠ some c := fun he => hne c' (.inl hc') (Option.some.inj he)
        simp only [finish, goto, hholds, if_neg hne']
      · rintro a hp ⟨c', h1, h2, h3, h4⟩
        have hc : c' ≠ c := by
          rintro rfl
          rcases hstatus with ⟨hgone, -⟩ | ⟨-, hne, -⟩
          · rw [hnoexec hgone t' g hmem] at hp
            cases hp
          · exact hne h1
        subst h2
        exact ⟨c', h1, rfl, object_finish hobj hc h3, h4⟩
    wins := by
      refine h.wins_update ?_
      rw [hst, List.countP_cons_of_neg (by simp [hwins])]
    unwon := fun hn => absurd hn hwin
    calls := by
      refine h.calls_status ?_ ?_ ?_
      · rw [hnone, hdead.2.2.1]
        rfl
      · intro t' ht'
        rw [hdead.2.2.1]
        cases hs : s.status c <;> rw [hs] at hby <;> simp [Status.calledBy] at hby ⊢ <;>
          exact fun he => ht' (he.symm.trans hby)
      · intro c' hc'
        rw [hst, List.countP_cons_of_neg (by simp [honly c' hc'])]
    word := by
      have hw := h.word
      cases hword : s.word <;> simp_all [WordOk, finish, goto, Word.stopped]
    callback := by
      intro c'
      by_cases hc : c' = c
      · subst hc
        have hself : (s.finish addr t c' status rest).status c' = status := Function.update_self ..
        exact
          { held := by simp [hself, hdead]
            registering := by simp [hself, hdead]
            object := by simp [hself, hdead]
            executionsLe := (h.callback c').executionsLe
            unexecuted := by simp [hself, hdead]
            fresh := by simp [hself, hdead]
            refused := by
              rw [hself]
              intro hr
              rcases hstatus with ⟨hg, -⟩ | ⟨-, -, he⟩
              · rw [hr] at hg
                cases hg
              · exact he
            due := by
              intro _
              rcases hstatus with ⟨-, ht⟩ | ⟨hr, -⟩
              · exact .inl ht
              · exact .inr (.inr (hself.trans hr))
            executed := fun _ => hwin }
      · refine (h.callback c').congr (Function.update_of_ne hc _ _) rfl rfl rfl rfl
          (object_finish hobj hc) fun _ => ⟨rfl, fun hholds => ?_⟩
        have hne : some c' ≠ some c := fun he => hc (Option.some.inj he)
        simp only [finish, goto, hholds, if_neg hne]
    objects := h.objects_finish
    taken := by
      intro c' hc'
      have htaken : s.taken = some c' := hc'
      have hexecs : s.executions c' = 1 ∨ ∃ t', s.winner = some t' ∧
          ∃ f ∈ Function.update s.stack t rest t', f.executes = true := by
        refine h.taken_update ?_ htaken
        intro g hg hp
        rw [hst] at hg
        rcases List.mem_cons.mp hg with rfl | hg
        · simp [hexec] at hp
        · exact ⟨g, hg, hp⟩
      refine ⟨?_, hexecs⟩
      by_cases hc : c' = c
      · subst hc
        rcases hstatus with ⟨hg, -⟩ | ⟨-, hne, -⟩
        · exact .inr (by simp [finish, goto, hg])
        · exact absurd htaken hne
      · simp only [finish, goto, Function.update_of_ne hc]
        exact (h.taken c' htaken).1
    inside := h.inside_status (fun c hc => hsub _ hc) hdead.2.2.2.2.1
    waiting := h.waiting_update hwait
    woken := by
      refine h.woken_update ?_
      rw [hst]
      intro hn
      refine (List.mem_cons.mp hn).resolve_left fun he => ?_
      rw [← he] at hwins
      cases hwins
    called := h.called_update fun _ _ _ => .inl hwin }

theorem registerReturn (h : s.Inv addr) {c : C} (hst : s.stack t = .registerReturn c :: rest) :
    (s.finish addr t c .refused rest).Inv addr := by
  obtain ⟨hstatus, hone, hstop⟩ := h.frames t (.registerReturn c) (by simp [hst])
  have hs : Stacked s.taken (.registerReturn c :: rest) := hst ▸ h.stacked t
  have hsub : ∀ g ∈ rest, g ∈ s.stack t := by simp +contextual [hst]
  have htaken : s.taken ≠ some c := by
    intro hc
    have := (h.taken c hc).1
    simp [hstatus, Status.held] at this
  refine h.of_finish hst (by simp [Frame.isCall])
    (fun c' hc' => by simpa [Frame.isCall] using hc'.symm)
    rfl rfl rfl (h.not_waiting hst (by simp)) hstop (.inr ⟨rfl, htaken, hone⟩) ?_ nofun
  rintro t' (⟨hne, hg⟩ | ⟨rfl, hg⟩)
  · obtain ⟨-, hok | ⟨hok, -⟩⟩ := h.frames t' _ hg
    · rw [hstatus] at hok
      cases hok
      exact absurd rfl hne
    · exact absurd hok htaken
  · obtain ⟨g, hgt, hinv⟩ := hs.tail.invoker hg
    have hother := h.other_call hst (c := c) (by simp [Frame.isCall])
      (.inr ⟨rfl, List.mem_of_mem_tail hgt⟩)
    cases g <;> simp [Frame.Invokes, Frame.isCall] at hinv hother
    · exact absurd hinv htaken
    · exact absurd hinv hother

omit [DecidableEq A] in
/-- A registered callback was taken, once the stop has taken effect. -/
theorem taken_of_held (h : s.Inv addr) {c : C} (hheld : (s.status c).held = true)
    (hstop : s.word.stopped = true) : s.taken = some c := by
  rcases ((h.callback c).held hheld).2 with hw | ⟨-, hw⟩
  · rw [hw] at hstop
    cases hstop
  · exact hw

/-- `deregister_callback()` returns when the execution has ended. -/
theorem finish_done (h : s.Inv addr) (hst : s.stack t = f :: rest) {c : C}
    (hcall : f.isCall c = true) (honly : ∀ c', c' ≠ c → f.isCall c' = false)
    (hwins : f.wins = false) (hexec : f.executes = false) (hloops : f.loops = false)
    (hwait : t ∉ s.waiters) (hstatus : s.status c = .deregistering t)
    (hword : s.word = .stopRequestedCallbackDone) : (s.finish addr t c .gone rest).Inv addr := by
  have hstop : s.word.stopped = true := by rw [hword]; rfl
  have hsub : ∀ g ∈ rest, g ∈ s.stack t := by simp +contextual [hst]
  refine h.of_finish hst hcall honly hwins hexec hloops hwait hstop
    (.inl ⟨rfl, h.taken_of_held (by rw [hstatus]; rfl) hstop⟩) ?_ ?_
  · intro t' hg
    have hmem : Frame.running c ∈ s.stack t' := by
      rcases hg with ⟨-, hg⟩ | ⟨rfl, hg⟩
      · exact hg
      · exact hsub _ hg
    obtain ⟨-, hok | ⟨-, -, hok, -⟩⟩ := h.frames t' _ hmem
    · rw [hstatus] at hok
      cases hok
    · rw [hword] at hok
      cases hok
  · intro _ t' g hg
    have hok := h.frames t' g hg
    cases g <;> simp_all [Frame.executes, FrameOk]

theorem deregisterLoadId (h : s.Inv addr) {c : C} (hst : s.stack t = .deregisterLoadId c :: rest) :
    (if s.stoppingThread = some t then s.finish addr t c .gone rest
      else s.goto t (.deregisterWait c .stopRequested :: rest)).Inv addr := by
  obtain ⟨hstatus, hstop, hthread⟩ := h.frames t (.deregisterLoadId c) (by simp [hst])
  have hsub : ∀ g ∈ rest, g ∈ s.stack t := by simp +contextual [hst]
  have hwait := h.not_waiting hst (by simp)
  split_ifs with hself
  · refine h.of_finish hst (by simp [Frame.isCall])
      (fun c' hc' => by simpa [Frame.isCall] using hc'.symm) rfl rfl rfl hwait hstop
      (.inl ⟨rfl, h.taken_of_held (by rw [hstatus]; rfl) hstop⟩) ?_ ?_
    · intro t' hg
      have hmem : Frame.running c ∈ s.stack t' := by
        rcases hg with ⟨-, hg⟩ | ⟨rfl, hg⟩
        · exact hg
        · exact hsub _ hg
      obtain ⟨-, hok | ⟨-, h1, h2, h3, -⟩⟩ := h.frames t' _ hmem
      · rw [hstatus] at hok
        cases hok
      · have ht : t' = t := by
          rw [hself] at h3
          exact (Option.some.inj h3).symm
        subst ht
        exact ⟨rfl, h.inside t' c hstatus hmem, h1, h2, h3⟩
    · intro _ t' g hg
      have hok := h.frames t' g hg
      cases g <;> simp only [Frame.executes]
      · have hok := hok.2.2.1
        rw [hself] at hok
        cases hok
      · have ht : t' = t := by
          have hok := hok.2.2.1
          rw [hself] at hok
          exact (Option.some.inj hok).symm
        subst ht
        rw [hst] at hg
        rcases List.mem_cons.mp hg with he | hg
        · cases he
        · have := h.suspended hst hg
          cases this
  · refine h.of_local hst hwait rfl (fun _ => rfl) (by simp [Frame.loops]) rfl (by simp) (by simp)
      ⟨hstatus, hstop, fun hw => hself (hthread hw), rfl⟩

/-- The loop of `deregister_callback()` for the state it has read. -/
theorem deregisterTest (h : s.Inv addr) {c : C} {old : Word A}
    (hst : s.stack t = .deregisterCas c old :: rest) :
    (s.deregisterTest addr t c rest).Inv addr := by
  obtain ⟨hstatus, -⟩ := h.frames t (.deregisterCas c old) (by simp [hst])
  have hheld : (s.status c).held = true := by rw [hstatus]; rfl
  have hwait := h.not_waiting hst (by simp)
  have hsub : ∀ g ∈ rest, g ∈ s.stack t := by simp +contextual [hst]
  unfold Source.deregisterTest
  split
  case h_1 hword =>
    have hstop : s.word.stopped = true := by rw [hword]; rfl
    have htaken := h.taken_of_held hheld hstop
    refine h.of_local hst hwait rfl (fun _ => rfl) (by simp [Frame.loops]) rfl (by simp) (by simp)
      ⟨hstatus, hstop, fun hwin => ?_⟩
    -- a winner with a call below this one is executing the callback
    have ht := h.wins t
    rw [if_pos hwin, if_pos hwin, hst, List.countP_cons_of_neg (by simp [Frame.wins])] at ht
    by_cases htrue : s.stopTrue = 1
    · have := (h.returned htrue (by simp [htaken])).2
      rw [hword] at this
      cases this
    · obtain ⟨g, hg, hgw⟩ := List.countP_pos_iff.mp (by omega : 0 < rest.countP Frame.wins)
      have hsusp := h.suspended hst hg
      have hok := h.frames t g (hsub g hg)
      cases g <;> simp [Frame.wins, Frame.suspended] at hgw hsusp
      exact hok.2.2.1
  case h_2 hword =>
    exact h.finish_done hst (by simp [Frame.isCall])
      (fun c' hc' => by simpa [Frame.isCall] using hc'.symm) rfl rfl rfl hwait hstatus hword
  case h_3 h1 h2 =>
    have hstop : s.word.stopped = false := by cases hword : s.word <;> simp_all [Word.stopped]
    refine h.of_local hst hwait rfl (fun _ => rfl) (by simp [Frame.loops]) rfl (by simp) (by simp)
      ⟨hstatus, ?_⟩
    rcases ((h.callback c).held hheld).2 with hw | ⟨hw, -⟩
    · exact hw
    · rw [hstop] at hw
      cases hw

theorem deregisterCas (h : s.Inv addr) {c : C} {old : Word A}
    (hst : s.stack t = .deregisterCas c old :: rest) (hword : s.word = old) :
    Inv addr { s.finish addr t c .gone rest with word := .null } := by
  obtain ⟨hstatus, hold⟩ := h.frames t (.deregisterCas c old) (by simp [hst])
  have hrun : s.word.stopped = false := by rw [hword, hold]; rfl
  obtain ⟨hwin, htrue, htaken, hthread, hdue, hwaiters, hcount⟩ := h.unstopped hrun
  obtain ⟨hby, halive, hnone⟩ := h.called_status hst (c := c) (by simp [Frame.isCall])
  have hheld : (s.status c).held = true := by rw [hstatus]; rfl
  have hholder := ((h.callback c).held hheld).1
  have hobj := (h.callback c).object halive
  have hs : Stacked s.taken (.deregisterCas c old :: rest) := hst ▸ h.stacked t
  have hsub : ∀ g ∈ rest, g ∈ s.stack t := by simp +contextual [hst]
  have hothers : ∀ c', c' ≠ c →
      (s.status c').held = false ∧ ∀ t', s.status c' ≠ .registering t' :=
    fun c' hc => h.others_idle hholder hrun hc
  exact { h with
    stacked := forall_stack_update h.stacked hs.tail
    frames := by
      refine frames_update (s := s) h.frames hsub (fun g hg => .inl hg) fun t' g hg hok => ?_
      have hother := h.other_call hst (c := c) (by simp [Frame.isCall]) hg
      cases g <;> simp only [Frame.isCall, decide_eq_false_iff_not] at hother
      case running c' =>
        obtain ⟨-, hok | ⟨hok, -⟩⟩ := hok
        · by_cases hc : c' = c
          · subst hc
            rw [hstatus] at hok
            cases hok
          · exact absurd hok ((hothers c' hc).2 t')
        · rw [htaken] at hok
          cases hok
      case stopLoad | stopCas => exact hok
      case registerLoad c' | registerCas c' _ | registerExecute c' | registerReturn c' =>
        exact absurd hok.1 ((hothers c' hother).2 t')
      case deregisterCas c' _ | deregisterLoadId c' | deregisterWait c' _ | deregisterLoad c' =>
        have hn := (hothers c' hother).1
        rw [hok.1] at hn
        cases hn
      all_goals
        have hok := hok.1
        rw [hwin] at hok
        cases hok
    wins := by
      refine h.wins_update ?_
      rw [hst, List.countP_cons_of_neg (by simp [Frame.wins])]
    calls := by
      refine h.calls_status ?_ ?_ ?_
      · rw [hnone]
        rfl
      · intro t' ht'
        simp [hstatus, Status.calledBy, ht'.symm]
      · intro c' hc'
        rw [hst, List.countP_cons_of_neg (by simpa [Frame.isCall] using hc'.symm)]
    word := hwin
    callback := by
      intro c'
      by_cases hc : c' = c
      · subst hc
        have hself : (s.finish addr t c' .gone rest).status c' = .gone := Function.update_self ..
        exact
          { held := by simp [hself, Status.held]
            registering := by simp [hself]
            object := by simp [hself, Status.alive]
            executionsLe := (h.callback c').executionsLe
            unexecuted := by simp [hself, Status.held]
            fresh := by simp [hself]
            refused := by simp [hself]
            due := fun hd => by simp [finish, goto, hdue] at hd
            executed := (h.callback c').executed }
      · obtain ⟨hheld', hregistering⟩ := hothers c' hc
        refine (h.callback c').congr (Function.update_of_ne hc _ _) rfl rfl rfl rfl
          (object_finish hobj hc) ?_
        rintro (hholds | ⟨t', ht'⟩)
        · rw [hheld'] at hholds
          cases hholds
        · exact absurd ht' (hregistering t')
    objects := h.objects_finish
    taken := fun c' hc' => by simp [finish, goto, htaken] at hc'
    inside := h.inside_status (fun c hc => hsub _ hc) (by simp)
    returned := fun hn => by simp [finish, goto, htrue] at hn
    waiting := by simp [finish, goto, hwaiters]
    woken := by simp [finish, goto, hwaiters]
    called := by
      refine h.called_update fun g hg hp => ?_
      rw [hst] at hg
      rcases List.mem_cons.mp hg with rfl | hg
      · cases hp
      · exact .inr ⟨g, hg, hp⟩ }

omit [DecidableEq A] in
/-- `state_.wait` blocks. -/
theorem park (h : s.Inv addr) {c : C} {old : Word A}
    (hst : s.stack t = .deregisterWait c old :: rest) (hwait : t ∉ s.waiters)
    (hword : s.word = old) : Inv addr { s with waiters := t :: s.waiters } := by
  obtain ⟨hstatus, hstop, hwin, hold⟩ := h.frames t (.deregisterWait c old) (by simp [hst])
  subst hold
  have hheld : (s.status c).held = true := by rw [hstatus]; rfl
  have htaken := h.taken_of_held hheld hstop
  -- whoever waits already waits for the same callback
  have hnil : s.waiters = [] := by
    refine List.eq_nil_iff_forall_not_mem.mpr fun t' ht' => ?_
    obtain ⟨c', rest', hc'⟩ := h.waiting t' ht'
    have hok := h.frames t' (.deregisterWait c' .stopRequested) (by simp [hc'])
    have htaken' := h.taken_of_held (c := c') (by rw [hok.1]; rfl) hstop
    rw [htaken] at htaken'
    cases htaken'
    have hst' := hok.1
    rw [hstatus] at hst'
    cases hst'
    exact hwait ht'
  exact { h with
    frames := by
      intro t' g hg
      have hok := h.frames t' g hg
      cases g <;> exact hok
    callback := fun c => { h.callback c with }
    waiting := by
      intro t' ht'
      rcases List.mem_cons.mp ht' with rfl | ht'
      · exact ⟨c, rest, hst⟩
      · exact h.waiting t' ht'
    oneWaiter := by simp [hnil]
    woken := fun _ => .inl hword }

omit [DecidableEq A] in
theorem waits_not (h : s.Inv addr) (hcall : s.mayCall t = true) : t ∉ s.waiters := by
  intro hw
  obtain ⟨c, rest, hc⟩ := h.waiting t hw
  rw [mayCall, hc] at hcall
  cases hcall

omit [DecidableEq A] in
/-- A new call of `request_stop()`. -/
theorem callStop (h : s.Inv addr) (hcall : s.mayCall t = true) :
    Inv addr { s.goto t (.stopLoad :: s.stack t) with stopCalls := s.stopCalls + 1 } :=
  { h with
    stacked := forall_stack_update h.stacked (stacked_of_mayCall (h.stacked t) hcall (by simp))
    frames := by
      refine frames_update (s := s) h.frames (fun g hg => hg) ?_ fun t' g hg hok => ?_
      · intro g hg
        rcases List.mem_cons.mp hg with rfl | hg
        · exact .inr trivial
        · exact .inl hg
      · cases g <;> exact hok
    wins := h.wins_update (List.countP_cons_of_neg (by simp [Frame.wins]))
    calls := h.calls_update fun c => List.countP_cons_of_neg (by simp [Frame.isCall])
    callback := fun c => { h.callback c with }
    taken := fun c hc => ⟨(h.taken c hc).1,
      h.taken_update (fun g hg hp => ⟨g, List.mem_cons_of_mem _ hg, hp⟩) hc⟩
    inside := h.inside_update fun c hc => by simpa using hc
    waiting := h.waiting_update (h.waits_not hcall)
    woken := h.woken_update fun hn => List.mem_cons_of_mem _ hn
    called := fun _ => .inr ⟨t, .stopLoad, by simp [goto], rfl⟩ }

theorem callRegister (h : s.Inv addr) {c : C} (hcall : s.mayCall t = true)
    (hfresh : s.status c = .fresh) (hobj : s.object (addr c) = none)
    (hguard : s.holder = none ∨ s.word.stopped = true) :
    Inv addr { s.goto t (.registerLoad c :: s.stack t) with
      status := Function.update s.status c (.registering t)
      object := Function.update s.object (addr c) (some c)
      holder := if s.word.stopped then s.holder else some c
      due := Function.update s.due c s.word.stopped } := by
  have hzero := (h.callback c).fresh hfresh
  have htaken : s.taken ≠ some c := by
    intro hc
    have := (h.taken c hc).1
    simp [hfresh, Status.held] at this
  have hother : ∀ c', c' ≠ c → ∀ status,
      Function.update s.status c status c' = s.status c' :=
    fun c' hc _ => Function.update_of_ne hc _ _
  have haddr : ∀ a c', s.object a = some c' →
      Function.update s.object (addr c) (some c) a = some c' := by
    intro a c' hc'
    rw [Function.update_of_ne ?_, hc']
    rintro rfl
    rw [hobj] at hc'
    cases hc'
  have hstay : ∀ c', s.holder = some c' → s.word.stopped = true := by
    intro c' hc'
    refine hguard.resolve_left fun hn => ?_
    rw [hn] at hc'
    cases hc'
  exact { h with
    stacked := forall_stack_update h.stacked (stacked_of_mayCall (h.stacked t) hcall (by simp))
    frames := by
      refine frames_update (s := s) h.frames (fun g hg => hg) ?_ fun t' g hg hok => ?_
      · intro g hg
        rcases List.mem_cons.mp hg with rfl | hg
        · exact .inr ⟨by simp, hzero⟩
        · exact .inl hg
      · have hne : ∀ c', g.isCall c' = true ∨ g = .running c' → c' ≠ c := by
          rintro c' (hc' | rfl) rfl
          · have hcalled := hok.calledBy hc'
            simp [hfresh] at hcalled
          · have hone := hok.1
            omega
        refine hok.congr (fun c' hc' => hother c' (hne c' hc') _) (fun _ _ => rfl) ?_ ?_
          rfl rfl rfl rfl rfl
        · intro c' _ hholds
          simp only [hstay c' hholds, if_true, hholds]
        · rintro a - ⟨c', h1, h2, h3, h4⟩
          exact ⟨c', h1, h2, haddr a c' h3, h4⟩
    wins := h.wins_update (List.countP_cons_of_neg (by simp [Frame.wins]))
    unwon := by
      intro hn
      obtain ⟨h1, h2, h3, h4⟩ := h.unwon hn
      refine ⟨h1, h2, h3, fun c' => ?_⟩
      have hrun : s.word.stopped = false := by
        by_contra hstop
        exact h.stopped_iff.mp (by simpa using hstop) hn
      by_cases hc : c' = c
      · simp [hc, hrun]
      · simp [Function.update_of_ne hc, h4]
    calls := by
      have hzero' := h.calls t c
      rw [hfresh, if_neg (by simp [Status.calledBy])] at hzero'
      refine h.calls_status ?_ ?_ ?_
      · rw [List.countP_cons_of_pos (by simp [Frame.isCall]), hzero']
        simp [Status.calledBy]
      · intro t' ht'
        simp [hfresh, Status.calledBy, ht'.symm]
      · intro c' hc'
        exact List.countP_cons_of_neg (by simpa [Frame.isCall] using hc'.symm)
    word := by
      have hw := h.word
      unfold WordOk at hw ⊢
      simp only [goto]
      cases hword : s.word <;> rw [hword] at hw
      case callback a =>
        obtain ⟨-, c', -, -, hc', -⟩ := hw
        have := hstay c' hc'
        rw [hword] at this
        cases this
      all_goals exact hw
    callback := by
      intro c'
      by_cases hc : c' = c
      · subst hc
        exact
          { held := by simp [Status.held]
            registering := by
              intro _ _
              cases hstop : s.word.stopped
              · exact .inl (by simp)
              · exact .inr hstop
            object := by simp
            executionsLe := (h.callback c').executionsLe
            unexecuted := by simp [Status.held]
            fresh := by simp
            refused := by simp
            due := fun _ => .inr (.inl ⟨t, by simp⟩)
            executed := (h.callback c').executed }
      · refine (h.callback c').congr (hother c' hc _) rfl (Function.update_of_ne hc _ _) rfl rfl
          (haddr _ _) fun _ => ⟨rfl, fun hholds => ?_⟩
        simp only [hstay c' hholds, if_true, hholds]
    objects := by
      intro a c' hc'
      by_cases ha : a = addr c
      · subst ha
        simp only [Function.update_self, Option.some.injEq] at hc'
        subst hc'
        exact ⟨rfl, by simp [Status.alive]⟩
      · simp only [Function.update_of_ne ha] at hc'
        obtain ⟨h1, h2⟩ := h.objects a c' hc'
        have hc : c' ≠ c := by
          rintro rfl
          exact ha h1.symm
        exact ⟨h1, by simpa [Function.update_of_ne hc] using h2⟩
    taken := by
      intro c' hc'
      have hc : c' ≠ c := by
        rintro rfl
        exact htaken hc'
      simp only [hother c' hc]
      exact ⟨(h.taken c' hc').1,
        h.taken_update (fun g hg hp => ⟨g, List.mem_cons_of_mem _ hg, hp⟩) hc'⟩
    inside := h.inside_status (fun c hc => by simpa using hc) nofun
    waiting := h.waiting_update (h.waits_not hcall)
    woken := h.woken_update fun hn => List.mem_cons_of_mem _ hn
    called := h.called_update fun g hg hp => .inr ⟨g, List.mem_cons_of_mem _ hg, hp⟩ }

theorem callDeregister (h : s.Inv addr) {c : C} (hcall : s.mayCall t = true)
    (hstatus : s.status c = .registered) :
    Inv addr { s.goto t (.deregisterCas c (.callback (addr c)) :: s.stack t) with
      status := Function.update s.status c (.deregistering t)
      inside := Function.update s.inside c (decide (Frame.running c ∈ s.stack t)) } := by
  have hother : ∀ c', c' ≠ c → ∀ status,
      Function.update s.status c status c' = s.status c' :=
    fun c' hc _ => Function.update_of_ne hc _ _
  have hheld : (s.status c).held = true := by rw [hstatus]; rfl
  exact { h with
    stacked := forall_stack_update h.stacked (stacked_of_mayCall (h.stacked t) hcall (by simp))
    frames := by
      refine frames_update (s := s) h.frames (fun g hg => hg) ?_ fun t' g hg hok => ?_
      · intro g hg
        rcases List.mem_cons.mp hg with rfl | hg
        · exact .inr ⟨by simp, rfl⟩
        · exact .inl hg
      · by_cases hrunning : g = .running c
        · subst hrunning
          obtain ⟨h1, h2 | ⟨h2, h3, h4, h5, -⟩⟩ := hok
          · rw [hstatus] at h2
            cases h2
          · exact ⟨h1, .inr ⟨h2, h3, h4, h5, fun hgone => by simp at hgone⟩⟩
        have hne : ∀ c', g.isCall c' = true ∨ g = .running c' → c' ≠ c := by
          rintro c' (hc' | hc') rfl
          · have hcalled := hok.calledBy hc'
            simp [hstatus] at hcalled
          · exact hrunning hc'
        exact hok.congr (fun c' hc' => hother c' (hne c' hc') _)
          (fun c' hc' => Function.update_of_ne (hne c' (.inr hc')) _ _) (fun _ _ hholds => hholds)
          (fun _ _ hpending => hpending) rfl rfl rfl rfl rfl
    wins := h.wins_update (List.countP_cons_of_neg (by simp [Frame.wins]))
    calls := by
      have hzero' := h.calls t c
      rw [hstatus, if_neg (by simp [Status.calledBy])] at hzero'
      refine h.calls_status ?_ ?_ ?_
      · rw [List.countP_cons_of_pos (by simp [Frame.isCall]), hzero']
        simp [Status.calledBy]
      · intro t' ht'
        simp [hstatus, Status.calledBy, ht'.symm]
      · intro c' hc'
        exact List.countP_cons_of_neg (by simpa [Frame.isCall] using hc'.symm)
    word := by
      have hw := h.word
      unfold WordOk at hw ⊢
      simp only [goto]
      cases hword : s.word <;> rw [hword] at hw
      case callback a =>
        obtain ⟨h1, c', h2, h3, h4, h5⟩ := hw
        refine ⟨h1, c', h2, h3, h4, ?_⟩
        by_cases hc : c' = c
        · simp [hc, Status.held]
        · rwa [hother c' hc]
      all_goals exact hw
    callback := by
      intro c'
      by_cases hc : c' = c
      · subst hc
        exact
          { held := fun _ => (h.callback c').held hheld
            registering := by simp
            object := fun _ => (h.callback c').object (by rw [hstatus]; rfl)
            executionsLe := (h.callback c').executionsLe
            unexecuted := fun _ => (h.callback c').unexecuted hheld
            fresh := by simp
            refused := by simp
            due := by
              intro hd
              rcases (h.callback c').due hd with hd | ⟨t', ht'⟩ | hd
              · exact .inl hd
              · rw [hstatus] at ht'
                cases ht'
              · rw [hstatus] at hd
                cases hd
            executed := (h.callback c').executed }
      · exact (h.callback c').congr (hother c' hc _) rfl rfl rfl rfl id fun _ => ⟨rfl, id⟩
    objects := h.objects_status rfl
    taken := by
      intro c' hc'
      obtain ⟨h1, -⟩ := h.taken c' hc'
      refine ⟨?_, h.taken_update (fun g hg hp => ⟨g, List.mem_cons_of_mem _ hg, hp⟩) hc'⟩
      by_cases hc : c' = c
      · simp [hc, Status.held]
      · simpa only [hother c' hc] using h1
    inside := by
      intro t' c' hc' hr
      by_cases hc : c' = c
      · subst hc
        simp only [Function.update_self, Status.deregistering.injEq] at hc' ⊢
        subst hc'
        rcases mem_update hr with ⟨-, hr'⟩ | ⟨hne, -⟩
        · simpa using hr'
        · exact absurd rfl hne
      · simp only [hother c' hc, Function.update_of_ne hc] at hc' ⊢
        refine h.inside_update (fun c hc => ?_) t' c' hc' hr
        simpa using hc
    waiting := h.waiting_update (h.waits_not hcall)
    woken := h.woken_update fun hn => List.mem_cons_of_mem _ hn
    called := h.called_update fun g hg hp => .inr ⟨g, List.mem_cons_of_mem _ hg, hp⟩ }

theorem frameStep (h : s.Inv addr) {spurious : Bool} {woken : ℕ} {s' : Source T C A}
    (hst : s.stack t = f :: rest) (ht : s.frameStep addr t spurious woken rest f = some s') :
    s'.Inv addr := by
  cases f with
  | stopLoad =>
    cases ht
    exact h.stopTest hst rfl
  | stopCas old =>
    simp only [Source.frameStep] at ht
    split_ifs at ht with hcas <;> cases ht
    · exact h.stopTakesEffect hst hcas.1
    · exact h.stopTest hst rfl
  | stopStoreId a =>
    cases ht
    exact h.storeId hst
  | stopExecute a =>
    cases ht
    exact h.stopExecute hst
  | stopStoreDone =>
    cases ht
    exact h.storeDone hst
  | stopNotify =>
    simp only [Source.frameStep] at ht
    split_ifs at ht with hwoken
    cases ht
    exact h.notify hst hwoken
  | running c =>
    cases ht
    exact h.of_pop hst (h.not_waiting hst (by simp)) rfl (fun _ => rfl) (by simp [Frame.loops]) rfl
      (by simp)
  | registerLoad c =>
    cases ht
    exact h.registerTest hst (.inl rfl)
  | registerCas c old =>
    simp only [Source.frameStep] at ht
    split_ifs at ht with hcas <;> cases ht
    · exact h.registerCas hst hcas.1
    · exact h.registerTest hst (.inr ⟨old, rfl⟩)
  | registerExecute c =>
    cases ht
    exact h.registerExecute hst
  | registerReturn c =>
    cases ht
    exact h.registerReturn hst
  | deregisterCas c old =>
    simp only [Source.frameStep] at ht
    split_ifs at ht with hcas <;> cases ht
    · exact h.deregisterCas hst hcas.1
    · exact h.deregisterTest hst
  | deregisterLoadId c =>
    have hi := h.deregisterLoadId hst
    simp only [Source.frameStep] at ht
    split_ifs at ht hi <;> cases ht <;> exact hi
  | deregisterWait c old =>
    obtain ⟨hstatus, hstop, hwin, -⟩ := h.frames t (.deregisterWait c old) (by simp [hst])
    simp only [Source.frameStep] at ht
    split_ifs at ht with hwait hword <;> cases ht
    · exact h.park hst hwait hword
    · exact h.of_local hst hwait rfl (fun _ => rfl) (by simp [Frame.loops]) rfl (by simp) (by simp)
        ⟨hstatus, hstop, hwin⟩
  | deregisterLoad c =>
    obtain ⟨hstatus, hstop, hwin⟩ := h.frames t (.deregisterLoad c) (by simp [hst])
    have hwait := h.not_waiting hst (by simp)
    simp only [Source.frameStep] at ht
    split_ifs at ht with hword <;> cases ht
    · exact h.finish_done hst (by simp [Frame.isCall])
        (fun c' hc' => by simpa [Frame.isCall] using hc'.symm) rfl rfl rfl hwait hstatus hword
    · refine h.of_local hst hwait rfl (fun _ => rfl) (by simp [Frame.loops]) rfl (by simp) (by simp)
        ⟨hstatus, hstop, hwin, ?_⟩
      cases hw : s.word <;> simp_all [Word.stopped]

theorem step (h : s.Inv addr) {a : Act T C} {s' : Source T C A}
    (ht : s.step addr a = some s') : s'.Inv addr := by
  cases a with
  | requestStop t =>
    simp only [Source.step] at ht
    split_ifs at ht with hcall
    cases ht
    exact h.callStop hcall
  | tryRegister t c =>
    simp only [Source.step] at ht
    split at ht
    case isTrue hen =>
      cases ht
      exact h.callRegister hen.1 hen.2.1 hen.2.2.1 hen.2.2.2
    case isFalse => cases ht
  | deregister t c =>
    simp only [Source.step] at ht
    split_ifs at ht with hen
    cases ht
    exact h.callDeregister hen.1 hen.2
  | step t spurious woken =>
    simp only [Source.step] at ht
    split at ht
    case h_1 => cases ht
    case h_2 f rest hst => exact h.frameStep hst ht

end Inv
end Source
end Squiz.SingleInplaceStopSource
