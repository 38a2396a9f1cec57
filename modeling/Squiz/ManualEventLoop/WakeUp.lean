import Squiz.ManualEventLoop.Loop

/-! No item waits in the queue while every call of `run()` that should execute it is asleep. -/
namespace Squiz.ManualEventLoop
open Squiz.Lib

namespace Loop
variable {ι α : Type*}

/-- A call that can still be woken up: it has not been asked to stop, or its stop callback is still
to call `wake_run_threads()`. -/
def Wakeable (s : Loop ι α) (i : ι) : Prop :=
  (s.runs i).stopRequested = false ∨ (s.runs i).wakingUp = true

/-- A call that is awake and goes on to the queue, or a stop callback that will wake up all. -/
def Covered (s : Loop ι α) : Prop :=
  (∃ i, (s.runs i).pc.inside = true ∧ i ∉ s.waiters ∧ (s.runs i).stopRequested = false) ∨
    ∃ i, (s.runs i).wakingUp = true

structure Inv (s : Loop ι α) : Prop where
  owner : ∀ i, (s.runs i).pc.holdsMutex = true → s.owner = some i
  waiting : ∀ i ∈ s.waiters, (s.runs i).pc = .wait
  wakeable : ∀ i ∈ s.waiters, s.Wakeable i
  /-- what the predicate has found still holds when the call blocks -/
  blocking : ∀ i, (s.runs i).pc = .block → s.queue = [] ∧ s.Wakeable i
  covered : s.queue ≠ [] → s.waiters.Nonempty → s.Covered

theorem Inv.init [DecidableEq ι] [DecidableEq α] : (system ι α).init.Inv where
  owner := fun _ h => by cases h
  waiting := fun _ h => by cases h
  wakeable := fun _ h => by cases h
  blocking := fun _ h => by cases h
  covered := fun h => absurd rfl h

variable {s t : Loop ι α} {i : ι}

/-- No other call holds the mutex. -/
theorem Inv.not_holdsMutex (hi : s.Inv) (howner : s.owner = none ∨ s.owner = some i) {j : ι}
    (hj : j ≠ i) : (s.runs j).pc.holdsMutex = false := by
  by_contra hne
  have howner' : s.owner = some j := hi.owner j (by simpa using hne)
  rcases howner with h | h
  · rw [h] at howner'
    cases howner'
  · rw [h] at howner'
    cases howner'
    exact hj rfl

theorem Inv.awake (hi : s.Inv) (hpc : (s.runs i).pc ≠ .wait) : i ∉ s.waiters :=
  fun hmem => hpc (hi.waiting i hmem)

/-- Notifications and changes of the queue: they keep what a call that is about to block has found,
or no call holds the mutex. -/
theorem Inv.notify (hi : s.Inv) {queue : List α} {waiters : Finset ι} (hsub : waiters ⊆ s.waiters)
    (hqueue : s.owner = none ∨ queue = s.queue)
    (hcovered : queue ≠ [] → waiters.Nonempty → { s with queue, waiters }.Covered) :
    { s with queue, waiters }.Inv where
  owner := hi.owner
  waiting := fun j hj => hi.waiting j (hsub hj)
  wakeable := fun j hj => hi.wakeable j (hsub hj)
  blocking := by
    intro j hj
    rcases hqueue with hfree | hsame
    · have howner := hi.owner j (by rw [show (s.runs j).pc = .block from hj]; rfl)
      rw [hfree] at howner
      cases howner
    · obtain ⟨hempty, hwakeable⟩ := hi.blocking j hj
      exact ⟨hsame.trans hempty, hwakeable⟩
  covered := hcovered

/-- Fewer calls asleep, none of them with less to wake them up. -/
theorem Covered.mono (h : s.Covered) {queue : List α} {waiters : Finset ι}
    (hsub : waiters ⊆ s.waiters) : { s with queue, waiters }.Covered := by
  rcases h with ⟨j, hj, hawake, hstop⟩ | hwaking
  · exact .inl ⟨j, hj, fun hmem => hawake (hsub hmem), hstop⟩
  · exact .inr hwaking

variable [DecidableEq ι]

/-- A step of a call that is awake and has the mutex, or takes it: it moves to `pc`, and may take
items out of the queue. A call without the mutex leaves the queue and the mutex alone. -/
theorem Inv.move (hi : s.Inv) {owner : Option ι} {queue : List α} {pc : RunPc α}
    (hawake : i ∉ s.waiters)
    (howner : (s.owner = none ∨ s.owner = some i) ∨ owner = s.owner ∧ queue = s.queue)
    (hholds : pc.holdsMutex = true → owner = some i)
    (hblock : pc = .block → queue = [] ∧ s.Wakeable i)
    (hqueue : queue ≠ [] → s.queue ≠ [])
    (hinside : queue ≠ [] → (s.runs i).stopRequested = false → pc.inside = true) :
    ({ s with owner, queue }.setPc i pc).Inv where
  owner := by
    intro j hj
    by_cases hji : j = i
    · subst j
      simp only [setPc, Function.update_self] at hj
      exact hholds hj
    · simp only [setPc, Function.update_of_ne hji] at hj
      rcases howner with hmine | ⟨hsame, -⟩
      · rw [hi.not_holdsMutex hmine hji] at hj
        cases hj
      · rw [← hi.owner j hj]
        exact hsame
  waiting := by
    intro j hj
    have hji : j ≠ i := fun h => hawake (h ▸ hj)
    simp only [setPc, Function.update_of_ne hji]
    exact hi.waiting j hj
  wakeable := by
    intro j hj
    have hji : j ≠ i := fun h => hawake (h ▸ hj)
    simp only [Wakeable, setPc, Function.update_of_ne hji]
    exact hi.wakeable j hj
  blocking := by
    intro j hj
    by_cases hji : j = i
    · subst j
      simp only [setPc, Function.update_self] at hj
      simp only [Wakeable, setPc, Function.update_self]
      exact hblock hj
    · simp only [setPc, Function.update_of_ne hji] at hj
      rcases howner with hmine | ⟨-, hsame⟩
      · have hheld := hi.not_holdsMutex hmine hji
        rw [hj] at hheld
        cases hheld
      · simp only [Wakeable, setPc, Function.update_of_ne hji, hsame]
        exact hi.blocking j hj
  covered := by
    intro hne hwaiters
    rcases hi.covered (hqueue hne) hwaiters with ⟨j, hj, hawakej, hstop⟩ | ⟨j, hj⟩
    · left
      apply Exists.intro j
      by_cases hji : j = i
      · subst j
        simp only [setPc, Function.update_self]
        exact ⟨hinside hne hstop, hawakej, hstop⟩
      · simp only [setPc, Function.update_of_ne hji]
        exact ⟨hj, hawakej, hstop⟩
    · right
      apply Exists.intro j
      by_cases hji : j = i
      · subst j
        simpa only [setPc, Function.update_self] using hj
      · simpa only [setPc, Function.update_of_ne hji] using hj

theorem Inv.block (hi : s.Inv) (hpc : (s.runs i).pc = .block) :
    ({ s with owner := none, waiters := insert i s.waiters }.setPc i .wait).Inv := by
  obtain ⟨hempty, hwakeable⟩ := hi.blocking i hpc
  have howner : s.owner = some i := hi.owner i (by rw [hpc]; rfl)
  exact
    { owner := by
        intro j hj
        by_cases hji : j = i
        · subst j
          simp only [setPc, Function.update_self] at hj
          cases hj
        · simp only [setPc, Function.update_of_ne hji] at hj
          rw [hi.not_holdsMutex (.inr howner) hji] at hj
          cases hj
      waiting := by
        intro j hj
        by_cases hji : j = i
        · subst j
          simp only [setPc, Function.update_self]
        · simp only [setPc, Function.update_of_ne hji]
          exact hi.waiting j (Finset.mem_of_mem_insert_of_ne hj hji)
      wakeable := by
        intro j hj
        by_cases hji : j = i
        · subst j
          simpa only [Wakeable, setPc, Function.update_self] using hwakeable
        · simp only [Wakeable, setPc, Function.update_of_ne hji]
          exact hi.wakeable j (Finset.mem_of_mem_insert_of_ne hj hji)
      blocking := by
        intro j hj
        by_cases hji : j = i
        · subst j
          simp only [setPc, Function.update_self] at hj
          cases hj
        · simp only [setPc, Function.update_of_ne hji] at hj
          have hheld := hi.not_holdsMutex (.inr howner) hji
          rw [hj] at hheld
          cases hheld
      covered := fun hne => absurd hempty hne }

/-- `try_dequeue` of the call that holds the mutex. -/
theorem Inv.tryDequeue (hi : s.Inv) (hholds : (s.runs i).pc.holdsMutex = true) {u : Loop ι α}
    (hu : s.queue = [] → u.Inv) : (s.tryDequeue i u).Inv := by
  have howner : s.owner = some i := hi.owner i hholds
  have hawake : i ∉ s.waiters := by
    apply hi.awake
    intro hpc
    rw [hpc] at hholds
    cases hholds
  unfold Loop.tryDequeue
  split
  · rename_i item queue hqueue
    apply hi.move hawake (.inl (.inr howner))
    · intro h
      cases h
    · intro h
      cases h
    · intro _
      rw [hqueue]
      exact List.cons_ne_nil _ _
    · intro _ _
      rfl
  · rename_i hqueue
    exact hu hqueue

theorem Inv.run (hi : s.Inv) (ht : s.runStep i = some t) : t.Inv := by
  unfold runStep at ht
  cases hpc : (s.runs i).pc with
  | notCalled | returned =>
    rw [hpc] at ht
    cases ht
  | lock =>
    simp only [hpc] at ht
    split_ifs at ht with howner
    cases ht
    exact hi.move (hi.awake (by simp [hpc])) (.inl (.inl howner)) (fun _ => rfl) (by simp) id
      (fun _ _ => rfl)
  | testStop =>
    have howner : s.owner = some i := hi.owner i (by rw [hpc]; rfl)
    simp only [hpc] at ht
    split_ifs at ht with hstop
    · cases ht
      apply hi.move (hi.awake (by simp [hpc])) (.inl (.inr howner)) (by simp [RunPc.holdsMutex])
        (by simp) id
      intro _ hclear
      rw [hstop] at hclear
      cases hclear
    · cases ht
      exact hi.move (hi.awake (by simp [hpc])) (.inl (.inr howner)) (fun _ => howner) (by simp) id
        (fun _ _ => rfl)
  | tryDequeue =>
    have howner : s.owner = some i := hi.owner i (by rw [hpc]; rfl)
    simp only [hpc] at ht
    cases ht
    apply hi.tryDequeue (by rw [hpc]; rfl)
    intro _
    exact hi.move (hi.awake (by simp [hpc])) (.inl (.inr howner)) (fun _ => howner) (by simp) id
      (fun _ _ => rfl)
  | predicate =>
    have howner : s.owner = some i := hi.owner i (by rw [hpc]; rfl)
    simp only [hpc] at ht
    split_ifs at ht with hpredicate
    · cases ht
      exact hi.move (hi.awake (by simp [hpc])) (.inl (.inr howner)) (fun _ => howner) (by simp) id
        (fun _ _ => rfl)
    · cases ht
      apply hi.move (hi.awake (by simp [hpc])) (.inl (.inr howner)) (fun _ => howner) _ id
        (fun _ _ => rfl)
      intro _
      unfold Wakeable
      simpa [not_or] using And.imp_right Or.inl (not_or.mp hpredicate)
  | block =>
    simp only [hpc] at ht
    cases ht
    exact hi.block hpc
  | wait =>
    simp only [hpc] at ht
    split_ifs at ht with hwake
    cases ht
    exact hi.move hwake.1 (.inl (.inl hwake.2)) (fun _ => rfl) (by simp) id (fun _ _ => rfl)
  | tryDequeueAgain =>
    have howner : s.owner = some i := hi.owner i (by rw [hpc]; rfl)
    simp only [hpc] at ht
    cases ht
    apply hi.tryDequeue (by rw [hpc]; rfl)
    -- the loop is left with an empty queue
    intro hempty
    exact hi.move (hi.awake (by simp [hpc])) (.inl (.inr howner)) (by simp [RunPc.holdsMutex])
      (by simp) id (fun hne => absurd hempty hne)
  | execute item =>
    simp only [hpc] at ht
    cases ht
    exact hi.move (hi.awake (by simp [hpc])) (.inr ⟨rfl, rfl⟩) (by simp [RunPc.holdsMutex])
      (by simp) id (fun _ _ => rfl)

theorem Inv.enqueue (hi : s.Inv) (hfree : s.owner = none) {item : α} {notified : Option ι}
    (ht : s.enqueue item notified = some t) : t.Inv := by
  by_cases hempty : s.queue = []
  · simp only [Loop.enqueue, if_pos hempty] at ht
    cases notified with
    | some j =>
      simp only [notifyOne] at ht
      split_ifs at ht with hj
      cases ht
      apply hi.notify (Finset.erase_subset j s.waiters) (.inl hfree)
      intro _ _
      -- the notified call goes on to the item, unless a callback is about to wake up all
      rcases hi.wakeable j hj with hstop | hwaking
      · exact .inl ⟨j, by rw [hi.waiting j hj]; rfl, Finset.notMem_erase j s.waiters, hstop⟩
      · exact .inr ⟨j, hwaking⟩
    | none =>
      simp only [notifyOne] at ht
      split_ifs at ht with hwaiters
      cases ht
      apply hi.notify (Finset.Subset.refl s.waiters) (.inl hfree)
      intro _ hne
      exact absurd hwaiters hne.ne_empty
  · simp only [Loop.enqueue, if_neg hempty] at ht
    split_ifs at ht
    cases ht
    apply hi.notify (Finset.Subset.refl s.waiters) (.inl hfree)
    intro _ hne
    exact (hi.covered hempty hne).mono (Finset.Subset.refl _)

/-- A stop callback does not move the call. -/
theorem pc_update {r : Run α} (h : r.pc = (s.runs i).pc) (j : ι) :
    (Function.update s.runs i r j).pc = (s.runs j).pc := by
  by_cases hji : j = i
  · subst j
    rw [Function.update_self, h]
  · rw [Function.update_of_ne hji]

/-- A step of a stop callback: it has set the flag and is to wake up all calls, or it wakes them up
while it holds the mutex. -/
theorem Inv.setRun (hi : s.Inv) {r : Run α} {waiters : Finset ι} (hpc : r.pc = (s.runs i).pc)
    (hsub : waiters ⊆ s.waiters) (hwake : r.wakingUp = true ∨ s.owner = none ∧ waiters = ∅) :
    { s with waiters, runs := Function.update s.runs i r }.Inv := by
  have hwakeable : ∀ j, r.wakingUp = true → s.Wakeable j →
      { s with waiters, runs := Function.update s.runs i r }.Wakeable j := by
    intro j hwaking hj
    unfold Wakeable at hj ⊢
    by_cases hji : j = i
    · subst j
      right
      simpa only [Function.update_self] using hwaking
    · simpa only [Function.update_of_ne hji] using hj
  constructor
  · intro j hj
    rw [pc_update hpc] at hj
    exact hi.owner j hj
  · intro j hj
    rw [pc_update hpc]
    exact hi.waiting j (hsub hj)
  · intro j hj
    rcases hwake with hwaking | ⟨-, hnone⟩
    · exact hwakeable j hwaking (hi.wakeable j (hsub hj))
    · rw [hnone] at hj
      exact absurd hj (Finset.notMem_empty j)
  · intro j hj
    rw [pc_update hpc] at hj
    rcases hwake with hwaking | ⟨hfree, -⟩
    · obtain ⟨hempty, hj⟩ := hi.blocking j hj
      exact ⟨hempty, hwakeable j hwaking hj⟩
    · have howner := hi.owner j (by rw [hj]; rfl)
      rw [hfree] at howner
      cases howner
  · intro _ hne
    rcases hwake with hwaking | ⟨-, hnone⟩
    · right
      apply Exists.intro i
      simpa only [Function.update_self] using hwaking
    · exact absurd hnone hne.ne_empty

variable [DecidableEq α]

theorem Inv.step {a : Act ι α} (hi : s.Inv) (ht : s.step a = some t) : t.Inv := by
  cases a with
  | call i =>
    simp only [Loop.step] at ht
    split_ifs at ht with hpc
    cases ht
    exact hi.move (hi.awake (by simp [hpc])) (.inr ⟨rfl, rfl⟩) (by simp [RunPc.holdsMutex])
      (by simp) id (fun _ _ => rfl)
  | run i => exact hi.run ht
  | wakeSpuriously i =>
    simp only [Loop.step] at ht
    split_ifs at ht with hmem
    cases ht
    have hsub := Finset.erase_subset i s.waiters
    apply hi.notify hsub (.inr rfl)
    intro hne hwaiters
    exact (hi.covered hne (hwaiters.mono hsub)).mono hsub
  | setStopRequested i =>
    simp only [Loop.step] at ht
    split_ifs at ht
    cases ht
    exact hi.setRun rfl (Finset.Subset.refl _) (.inl rfl)
  | wakeRunThreads i =>
    simp only [Loop.step] at ht
    split_ifs at ht with hwaking
    cases ht
    exact hi.setRun rfl (Finset.empty_subset _) (.inr ⟨hwaking.2, rfl⟩)
  | enqueue item notified =>
    simp only [Loop.step] at ht
    split_ifs at ht with hfree
    exact hi.enqueue hfree ht
  | tryRemove item =>
    simp only [Loop.step] at ht
    split_ifs at ht with hfree
    cases ht
    apply hi.notify (Finset.Subset.refl s.waiters) (.inl hfree)
    intro hne hwaiters
    apply (hi.covered _ hwaiters).mono (Finset.Subset.refl _)
    intro hempty
    apply hne
    rw [hempty]
    rfl

/-- If an item is queued and some call that is not to stop is inside `run_impl`, then such a call is
not blocked there or has a notification, or a stop callback is still to wake up all calls. -/
theorem queue_not_stranded {s : Loop ι α} (hs : (system ι α).Reachable s) (hqueue : s.queue ≠ [])
    {i : ι} (hinside : (s.runs i).pc.inside = true) (hstop : (s.runs i).stopRequested = false) :
    (∃ j, (s.runs j).pc.inside = true ∧ j ∉ s.waiters ∧ (s.runs j).stopRequested = false) ∨
      ∃ j, (s.runs j).wakingUp = true := by
  have hi : s.Inv := hs.invariant Inv.init fun _ _ _ h _ ht => Inv.step h ht
  by_cases hmem : i ∈ s.waiters
  · exact hi.covered hqueue ⟨i, hmem⟩
  · exact .inl ⟨i, hinside, hmem, hstop⟩

/-- Two calls block, an item notifies the first one and a second item no call; the first call is
asked to stop, takes the first item and returns. Its stop callback has woken up the second call. -/
theorem queue_not_stranded_run : ∃ s : Loop (Fin 2) ℕ, s.queue = [8] ∧ (s.runs 1).pc = .wait ∧
    ((∃ j, (s.runs j).pc.inside = true ∧ j ∉ s.waiters ∧ (s.runs j).stopRequested = false) ∨
      ∃ j, (s.runs j).wakingUp = true) := by
  obtain ⟨s, hs, hp⟩ := (system (Fin 2) ℕ).exists_reachable
    [.call 0, .run 0, .run 0, .run 0, .run 0, .run 0, .call 1, .run 1, .run 1, .run 1, .run 1,
      .run 1, .enqueue 7 (some 0), .enqueue 8 none, .setStopRequested 0, .run 0, .run 0, .run 0,
      .run 0, .wakeRunThreads 0, .run 0, .run 0]
    (fun s => s.queue = [8] ∧ (s.runs 1).pc = .wait ∧ (s.runs 1).stopRequested = false ∧
      (s.runs 0).pc = .returned) (by decide +kernel)
  simp only [decide_eq_true_eq] at hp
  obtain ⟨hqueue, hpc, hstop, -⟩ := hp
  have hne : s.queue ≠ [] := by
    rw [hqueue]
    exact List.cons_ne_nil _ _
  have hinside : (s.runs 1).pc.inside = true := by
    rw [hpc]
    rfl
  exact ⟨s, hqueue, hpc, queue_not_stranded hs hne hinside hstop⟩

end Loop
end Squiz.ManualEventLoop
