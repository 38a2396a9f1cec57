import Squiz.ManualEventLoop.WakeUp

/-! `run()` returns only when its stop callback has set the flag. -/
namespace Squiz.ManualEventLoop.Loop
open Squiz.Lib
variable {ι α : Type*}

/-- What a call has found while it holds the mutex, and when it has left the loop. -/
structure Leaving (s : Loop ι α) : Prop where
  locked : ∀ i, s.owner = some i → (s.runs i).pc.holdsMutex = true
  found : ∀ i, (s.runs i).pc = .tryDequeueAgain →
    s.queue ≠ [] ∨ (s.runs i).stopRequested = true
  returned : ∀ i, (s.runs i).pc = .returned → (s.runs i).stopRequested = true

variable [DecidableEq ι] {s t : Loop ι α} {i : ι}

namespace Leaving

/-- A step of a call that has the mutex, or takes it, or needs it not. -/
theorem move (h : s.Leaving) (hi : s.Inv) {owner : Option ι} {queue : List α} {pc : RunPc α}
    (howner : (s.owner = none ∨ s.owner = some i) ∨ owner = s.owner ∧ queue = s.queue)
    (hlocked : owner = some i → pc.holdsMutex = true) (hothers : ∀ j, owner = some j → j ≠ i →
      s.owner = some j)
    (hfound : pc = .tryDequeueAgain → queue ≠ [] ∨ (s.runs i).stopRequested = true)
    (hreturned : pc = .returned → (s.runs i).stopRequested = true) :
    ({ s with owner, queue }.setPc i pc).Leaving := by
  constructor
  · intro j hj
    by_cases hji : j = i
    · subst j
      simp only [setPc, Function.update_self]
      exact hlocked hj
    · simp only [setPc, Function.update_of_ne hji]
      exact h.locked j (hothers j hj hji)
  · intro j hj
    by_cases hji : j = i
    · subst j
      simp only [setPc, Function.update_self] at hj ⊢
      exact hfound hj
    · simp only [setPc, Function.update_of_ne hji] at hj ⊢
      rcases howner with hmine | ⟨-, hsame⟩
      · have hheld := hi.not_holdsMutex hmine hji
        rw [hj] at hheld
        cases hheld
      · rw [hsame]
        exact h.found j hj
  · intro j hj
    by_cases hji : j = i
    · subst j
      simp only [setPc, Function.update_self] at hj ⊢
      exact hreturned hj
    · simp only [setPc, Function.update_of_ne hji] at hj ⊢
      exact h.returned j hj

theorem tryDequeue (h : s.Leaving) (hi : s.Inv) (hholds : (s.runs i).pc.holdsMutex = true)
    {u : Loop ι α} (hu : s.queue = [] → u.Leaving) : (s.tryDequeue i u).Leaving := by
  have howner : s.owner = some i := hi.owner i hholds
  unfold Loop.tryDequeue
  split
  · apply h.move hi (.inl (.inr howner))
    · intro hnone
      cases hnone
    · intro j hnone
      cases hnone
    · intro hpc
      cases hpc
    · intro hpc
      cases hpc
  · next hqueue => exact hu hqueue

theorem run (h : s.Leaving) (hi : s.Inv) (ht : s.runStep i = some t) : t.Leaving := by
  unfold runStep at ht
  cases hpc : (s.runs i).pc with
  | notCalled | returned =>
    rw [hpc] at ht
    cases ht
  | lock =>
    simp only [hpc] at ht
    split_ifs at ht with howner
    cases ht
    apply h.move hi (.inl (.inl howner)) (fun _ => rfl) _ (by simp) (by simp)
    intro j hj hji
    exact absurd (Option.some.inj hj).symm hji
  | testStop =>
    have howner : s.owner = some i := hi.owner i (by rw [hpc]; rfl)
    simp only [hpc] at ht
    split_ifs at ht with hstop
    · cases ht
      apply h.move hi (.inl (.inr howner)) (by simp) (by simp) (by simp)
      intro _
      exact hstop
    · cases ht
      exact h.move hi (.inl (.inr howner)) (fun _ => rfl) (fun _ hj _ => hj) (by simp) (by simp)
  | tryDequeue =>
    have howner : s.owner = some i := hi.owner i (by rw [hpc]; rfl)
    simp only [hpc] at ht
    cases ht
    apply h.tryDequeue hi (by rw [hpc]; rfl)
    intro _
    exact h.move hi (.inl (.inr howner)) (fun _ => rfl) (fun _ hj _ => hj) (by simp) (by simp)
  | predicate =>
    have howner : s.owner = some i := hi.owner i (by rw [hpc]; rfl)
    simp only [hpc] at ht
    split_ifs at ht with hpredicate
    · cases ht
      apply h.move hi (.inl (.inr howner)) (fun _ => rfl) (fun _ hj _ => hj) _ (by simp)
      intro _
      exact hpredicate
    · cases ht
      exact h.move hi (.inl (.inr howner)) (fun _ => rfl) (fun _ hj _ => hj) (by simp) (by simp)
  | block =>
    have howner : s.owner = some i := hi.owner i (by rw [hpc]; rfl)
    simp only [hpc] at ht
    cases ht
    have hmoved : ({ s with owner := none }.setPc i .wait).Leaving :=
      h.move hi (.inl (.inr howner)) (by simp) (by simp) (by simp) (by simp)
    exact ⟨hmoved.locked, hmoved.found, hmoved.returned⟩
  | wait =>
    simp only [hpc] at ht
    split_ifs at ht with hwake
    cases ht
    apply h.move hi (.inl (.inl hwake.2)) (fun _ => rfl) _ (by simp) (by simp)
    intro j hj hji
    exact absurd (Option.some.inj hj).symm hji
  | tryDequeueAgain =>
    have howner : s.owner = some i := hi.owner i (by rw [hpc]; rfl)
    simp only [hpc] at ht
    cases ht
    apply h.tryDequeue hi (by rw [hpc]; rfl)
    -- the predicate was true, and it was not for the queue
    intro hempty
    apply h.move hi (.inl (.inr howner)) (by simp) (by simp) (by simp)
    intro _
    exact (h.found i hpc).resolve_left fun hne => hne hempty
  | execute item =>
    have hholds : s.owner ≠ some i := by
      intro howner
      have hheld := h.locked i howner
      rw [hpc] at hheld
      cases hheld
    simp only [hpc] at ht
    cases ht
    exact h.move hi (.inr ⟨rfl, rfl⟩) (fun howner => absurd howner hholds) (fun _ hj _ => hj)
      (by simp) (by simp)

omit [DecidableEq ι] in
/-- A step that leaves each call where it is, and its flag unless it sets it. -/
theorem frame (h : s.Leaving) (howner : t.owner = s.owner)
    (hpc : ∀ i, (t.runs i).pc = (s.runs i).pc)
    (hstop : ∀ i, (s.runs i).stopRequested = true → (t.runs i).stopRequested = true)
    (hqueue : s.owner = none ∨ t.queue = s.queue) (hi : s.Inv) : t.Leaving := by
  constructor
  · intro i hj
    rw [hpc]
    exact h.locked i (howner ▸ hj)
  · intro i hj
    rw [hpc] at hj
    rcases hqueue with hfree | hsame
    · have hheld := hi.owner i (by rw [hj]; rfl)
      rw [hfree] at hheld
      cases hheld
    · rw [hsame]
      exact (h.found i hj).imp_right (hstop i)
  · intro i hj
    rw [hpc] at hj
    exact hstop i (h.returned i hj)

/-- A step of a stop callback. -/
theorem setRun (h : s.Leaving) (hi : s.Inv) {r : Run α} {waiters : Finset ι}
    (hpc : r.pc = (s.runs i).pc)
    (hstop : (s.runs i).stopRequested = true → r.stopRequested = true) :
    { s with waiters, runs := Function.update s.runs i r }.Leaving := by
  apply h.frame (t := { s with waiters, runs := Function.update s.runs i r }) rfl
    (fun j => pc_update hpc j) _ (.inr rfl) hi
  intro j hj
  by_cases hji : j = i
  · subst j
    simpa only [Function.update_self] using hstop hj
  · simpa only [Function.update_of_ne hji] using hj

end Leaving

/-- A step of a call in `run_impl` leaves the flags and the other calls alone. -/
theorem runs_of_runStep (ht : s.runStep i = some t) : (∀ j, j ≠ i → t.runs j = s.runs j) ∧
    (t.runs i).stopRequested = (s.runs i).stopRequested ∧
    (t.runs i).wakingUp = (s.runs i).wakingUp ∧ (t.runs i).pc ≠ .notCalled := by
  have hset : ∀ (u : Loop ι α) (pc : RunPc α), u.runs = s.runs → pc ≠ .notCalled →
      (∀ j, j ≠ i → (u.setPc i pc).runs j = s.runs j) ∧
      ((u.setPc i pc).runs i).stopRequested = (s.runs i).stopRequested ∧
      ((u.setPc i pc).runs i).wakingUp = (s.runs i).wakingUp ∧
      ((u.setPc i pc).runs i).pc ≠ .notCalled := by
    intro u pc hu hpc
    simp only [setPc, Function.update_self, hu]
    exact ⟨fun j hj => Function.update_of_ne hj _ _, trivial, trivial, hpc⟩
  unfold runStep at ht
  cases hpc : (s.runs i).pc with
  | notCalled | returned =>
    rw [hpc] at ht
    cases ht
  | tryDequeue | tryDequeueAgain =>
    simp only [hpc, Loop.tryDequeue] at ht
    split at ht <;> cases ht <;> exact hset _ _ rfl (by simp)
  | block | execute item =>
    simp only [hpc] at ht
    cases ht
    exact hset _ _ rfl (by simp)
  | lock | testStop | predicate | wait =>
    simp only [hpc] at ht
    split_ifs at ht <;> cases ht <;> exact hset _ _ rfl (by simp)

theorem enqueue_eq {item : α} {notified : Option ι} (ht : s.enqueue item notified = some t) :
    t.owner = s.owner ∧ t.runs = s.runs := by
  simp only [Loop.enqueue] at ht
  split_ifs at ht
  · cases notified with
    | none =>
      simp only [notifyOne] at ht
      split_ifs at ht
      cases ht
      exact ⟨rfl, rfl⟩
    | some j =>
      simp only [notifyOne] at ht
      split_ifs at ht
      cases ht
      exact ⟨rfl, rfl⟩
  · cases ht
    exact ⟨rfl, rfl⟩

variable [DecidableEq α]

theorem Leaving.init : (system ι α).init.Leaving where
  locked := fun _ h => by cases h
  found := fun _ h => by cases h
  returned := fun _ h => by cases h

theorem Leaving.step {a : Act ι α} (h : s.Leaving) (hi : s.Inv) (ht : s.step a = some t) :
    t.Leaving := by
  cases a with
  | call i =>
    simp only [Loop.step] at ht
    split_ifs at ht with hpc
    cases ht
    have hholds : s.owner ≠ some i := by
      intro howner
      have hheld := h.locked i howner
      rw [hpc] at hheld
      cases hheld
    exact h.move hi (.inr ⟨rfl, rfl⟩) (fun howner => absurd howner hholds) (fun _ hj _ => hj)
      (by simp) (by simp)
  | run i => exact h.run hi ht
  | wakeSpuriously i =>
    simp only [Loop.step] at ht
    split_ifs at ht
    cases ht
    exact h.frame rfl (fun _ => rfl) (fun _ hstop => hstop) (.inr rfl) hi
  | setStopRequested i =>
    simp only [Loop.step] at ht
    split_ifs at ht
    cases ht
    exact h.setRun hi rfl fun _ => rfl
  | wakeRunThreads i =>
    simp only [Loop.step] at ht
    split_ifs at ht
    cases ht
    exact h.setRun hi rfl id
  | enqueue item notified =>
    simp only [Loop.step] at ht
    split_ifs at ht with hfree
    obtain ⟨howner, hruns⟩ := enqueue_eq ht
    apply h.frame howner (fun j => by rw [hruns]) (fun j hstop => by rwa [hruns]) (.inl hfree) hi
  | tryRemove item =>
    simp only [Loop.step] at ht
    split_ifs at ht with hfree
    cases ht
    exact h.frame rfl (fun _ => rfl) (fun _ hstop => hstop) (.inl hfree) hi

theorem inv_of_reachable (hs : (system ι α).Reachable s) : s.Inv ∧ s.Leaving :=
  hs.invariant (P := fun s => s.Inv ∧ s.Leaving) ⟨Inv.init, .init⟩
    fun _ _ _ h _ ht => ⟨h.1.step ht, h.2.step h.1 ht⟩

end Squiz.ManualEventLoop.Loop
