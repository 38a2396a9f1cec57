import Squiz.LinuxOS.RunLoop.Loop
import Mathlib.Data.List.Basic

/-! Which operations wait for space in the submission queue, and how many CQEs are to come. -/
namespace Squiz.LinuxOS.RunLoop
open Squiz.Lib

namespace Loop
variable {T O : Type} [DecidableEq O] (cfg : Config) (s : Loop T O)

/-- The SQEs enqueued whose CQEs have not been processed. -/
def outstanding : ℕ := s.sq.length + s.kernel.length + s.cq.length

/-- The operation for which a step of the I/O thread calls `available_sqe_space`. -/
def starts : Act T O → Option O
  | .start (.io x) => some x
  | .io =>
    match s.pc, s.readyToRun with
    | .ready i, .io x :: _ => if i < 100 ∧ s.stopped (.io x) = false then some x else none
    | _, _ => none
  | _ => none

/-- The operation for which a step calls `request_stop_from_io_thread`. -/
def stops : Act T O → Option O
  | .requestStop (.io x) => some x
  | .io =>
    match s.pc with
    | .stopItems (.io x :: _) => some x
    | _ => none
  | _ => none

/-- `try_submit_cancel_for` succeeds. -/
def CanSubmitCancel : Prop :=
  0 < s.submissionQueueSpaceLeft cfg ∧ s.pendingCqes < cfg.maxPendingCqes

/-- An operation that a step starts, or asks to stop, finds space for its SQE. -/
def HasRoom (a : Act T O) : Prop :=
  (∀ x, s.starts a = some x → 0 < s.availableSqeSpace cfg) ∧
    ∀ x, s.stops a = some x → s.Submitted x → s.CanSubmitCancel cfg

/-- A step that enqueues an SQE: of an operation, of a cancel request, or of the wake-up read. -/
def Enqueues (a : Act T O) : Prop :=
  (∃ x, s.starts a = some x ∧ 0 < s.availableSqeSpace cfg) ∨
    (∃ x, s.stops a = some x ∧ s.Submitted x ∧ s.CanSubmitCancel cfg) ∨
    a = .io ∧ s.pc = .submitWaitForWakeUp ∧ 0 < s.submissionQueueSpaceLeft cfg

instance : Decidable (s.CanSubmitCancel cfg) := inferInstanceAs (Decidable (_ ∧ _))

instance (a : Act T O) : Decidable (s.HasRoom cfg a) :=
  inferInstanceAs (Decidable ((∀ x ∈ s.starts a, _) ∧ ∀ x ∈ s.stops a, _))

instance [DecidableEq T] (a : Act T O) : Decidable (s.Enqueues cfg a) :=
  inferInstanceAs (Decidable ((∃ x ∈ s.starts a, _) ∨ (∃ x ∈ s.stops a, _) ∨ _ ∧ _))

/-- No operation waits for SQEs while the loop is about to block and there is space. -/
def NotStranded : Prop :=
  s.pc = .submitAndWaitUntil → 0 < s.submissionQueueSpaceLeft cfg →
    s.pendingCqes < cfg.maxPendingCqes → s.waitingForSqes = [] ∧ s.waitingForCancelSqes = []

/-- The completion queue has room for all CQEs that are to come, which are counted. -/
def CqesFit : Prop :=
  s.outstanding ≤ cfg.cqEntryCount ∧ s.pendingCqes = s.outstanding ∧
    s.pendingCqes ≤ cfg.maxPendingCqes

/-- What a step does to the queues of operations that wait and to the number of CQEs to come. -/
inductive Change (a : Act T O) (t : Loop T O) : Prop where
  | keep (hwaiting : t.waitingForSqes = s.waitingForSqes)
      (hcancel : t.waitingForCancelSqes = s.waitingForCancelSqes)
      (hpending : t.pendingCqes = s.pendingCqes) (hout : t.outstanding ≤ s.outstanding)
  | enqueue (henqueues : s.Enqueues cfg a) (hwaiting : t.waitingForSqes = s.waitingForSqes)
      (hcancel : t.waitingForCancelSqes = s.waitingForCancelSqes)
      (hpending : t.pendingCqes = s.pendingCqes) (hout : t.outstanding = s.outstanding + 1)
  | wait (x : O) (hx : s.starts a = some x) (hfull : ¬ 0 < s.availableSqeSpace cfg)
      (hwaiting : t.waitingForSqes = s.waitingForSqes ++ [x])
      (hcancel : t.waitingForCancelSqes = s.waitingForCancelSqes)
      (hpending : t.pendingCqes = s.pendingCqes) (hout : t.outstanding = s.outstanding)
  | waitToCancel (x : O) (hx : s.stops a = some x) (hsubmitted : s.Submitted x)
      (hfull : ¬ s.CanSubmitCancel cfg) (hwaiting : t.waitingForSqes = s.waitingForSqes)
      (hcancel : t.waitingForCancelSqes = s.waitingForCancelSqes ++ [x])
      (hpending : t.pendingCqes = s.pendingCqes) (hout : t.outstanding = s.outstanding)
  | remove (x : O) (hx : s.stops a = some x)
      (hwaiting : t.waitingForSqes = s.waitingForSqes.erase x)
      (hcancel : t.waitingForCancelSqes = s.waitingForCancelSqes)
      (hpending : t.pendingCqes = s.pendingCqes) (hout : t.outstanding = s.outstanding)

variable {cfg s} {t : Loop T O} {a : Act T O}

/-- The states have the same operations waiting and the same SQEs and CQEs in the rings. -/
structure SameRings (r s : Loop T O) : Prop where
  waiting : r.waitingForSqes = s.waitingForSqes
  cancel : r.waitingForCancelSqes = s.waitingForCancelSqes
  pending : r.pendingCqes = s.pendingCqes
  sq : r.sq = s.sq
  kernel : r.kernel = s.kernel
  cq : r.cq = s.cq

omit [DecidableEq O] in
theorem sameRings_local (pc : Pc O) (busy submitted stop stopWakingUp : Bool)
    (readyToRun : List (Item O)) (remote remoteStop : InactiveQueue (Item O)) (eventfd : ℕ)
    (threads : T → Thread O) (started stopped : Item O → Bool) :
    SameRings { s with
      pc := pc
      busy := busy
      readyToRun := readyToRun
      remote := remote
      remoteStop := remoteStop
      isWakeUpReadSubmitted := submitted
      eventfd := eventfd
      stopRequested := stop
      stopCallbackWakingUp := stopWakingUp
      threads := threads
      started := started
      stopped := stopped } s := by
  constructor <;> rfl

omit [DecidableEq O] in
theorem SameRings.trans {r : Loop T O} (h : SameRings r s) (h' : SameRings s t) :
    SameRings r t where
  waiting := h.waiting.trans h'.waiting
  cancel := h.cancel.trans h'.cancel
  pending := h.pending.trans h'.pending
  sq := h.sq.trans h'.sq
  kernel := h.kernel.trans h'.kernel
  cq := h.cq.trans h'.cq

omit [DecidableEq O] in
theorem sameRings_acquireRemoteItems : SameRings s.acquireRemoteItems s := by
  unfold acquireRemoteItems
  split
  · constructor <;> rfl
  · constructor <;> rfl

namespace SameRings
variable {r : Loop T O} (h : SameRings r s)
omit [DecidableEq O]
include h

theorem availableSqeSpace : r.availableSqeSpace cfg = s.availableSqeSpace cfg := by
  unfold Loop.availableSqeSpace Loop.submissionQueueSpaceLeft
  rw [h.waiting, h.cancel, h.pending, h.sq]

theorem submissionQueueSpaceLeft :
    r.submissionQueueSpaceLeft cfg = s.submissionQueueSpaceLeft cfg := by
  simp only [Loop.submissionQueueSpaceLeft, h.sq]

theorem outstanding : r.outstanding = s.outstanding := by
  simp only [Loop.outstanding, h.sq, h.kernel, h.cq]

theorem submitted (x : O) : r.Submitted x ↔ s.Submitted x := by
  simp only [Submitted, h.sq, h.kernel, h.cq]

end SameRings

theorem change_trySubmitSqe {r : Loop T O} {x : O} (hr : SameRings r s) (hx : s.starts a = some x) :
    s.Change cfg a (r.trySubmitSqe cfg x) := by
  unfold trySubmitSqe
  rw [hr.availableSqeSpace]
  split
  · next hspace =>
    refine .enqueue (.inl ⟨x, hx, hspace⟩) hr.waiting hr.cancel hr.pending ?_
    rw [← hr.outstanding]
    simp only [outstanding, List.length_append, List.length_singleton]
    omega
  · next hfull =>
    refine .wait x hx hfull ?_ hr.cancel hr.pending hr.outstanding
    rw [← hr.waiting]

theorem change_submitCancelFor {r : Loop T O} {x : O} (hr : SameRings r s)
    (hx : s.stops a = some x) (hsubmitted : s.Submitted x) :
    s.Change cfg a (r.submitCancelFor cfg x) := by
  unfold submitCancelFor
  rw [hr.submissionQueueSpaceLeft]
  split
  · next hfull =>
    rw [hr.pending] at hfull
    refine .waitToCancel x hx hsubmitted ?_ hr.waiting ?_ hr.pending hr.outstanding
    · intro hcan
      rcases hfull with hfull | hfull
      · exact absurd hcan.1 (by omega)
      · exact absurd hcan.2 (by omega)
    · rw [← hr.cancel]
  · next hcan =>
    rw [not_or, Nat.not_le, hr.pending] at hcan
    have hcan : s.CanSubmitCancel cfg := ⟨Nat.pos_of_ne_zero hcan.1, hcan.2⟩
    refine .enqueue (.inr (.inl ⟨x, hx, hsubmitted, hcan⟩)) hr.waiting hr.cancel hr.pending ?_
    rw [← hr.outstanding]
    simp only [outstanding, List.length_append, List.length_singleton]
    omega

theorem change_removeQueued {r : Loop T O} {item : Item O} (hr : SameRings r s)
    (hx : ∀ x, item = .io x → s.stops a = some x) :
    s.Change cfg a { r.removeQueued item with busy := true } := by
  unfold removeQueued
  split
  · have hacquired := sameRings_acquireRemoteItems.trans hr
    exact .keep hacquired.waiting hacquired.cancel hacquired.pending
      (Nat.le_of_eq hacquired.outstanding)
  · cases item with
    | io x =>
      refine .remove x (hx x rfl) ?_ hr.cancel hr.pending hr.outstanding
      rw [← hr.waiting]
    | scheduled x => exact .keep hr.waiting hr.cancel hr.pending (Nat.le_of_eq hr.outstanding)

theorem change_requestStopFromIoThread {r : Loop T O} {item : Item O} (hr : SameRings r s)
    (hx : ∀ x, item = .io x → s.stops a = some x) :
    s.Change cfg a (r.requestStopFromIoThread cfg item) := by
  cases item with
  | io x =>
    unfold requestStopFromIoThread
    dsimp only
    split
    · next hsubmitted =>
      exact change_submitCancelFor hr (hx x rfl) ((hr.submitted x).mp hsubmitted)
    · exact change_removeQueued hr hx
  | scheduled x => exact change_removeQueued hr hx

/-- A step that leaves the rings and the operations that wait alone. -/
theorem Change.of_same (h : SameRings t s) : s.Change cfg a t :=
  .keep h.waiting h.cancel h.pending (Nat.le_of_eq h.outstanding)

theorem change_ioStep (ht : s.ioStep cfg = some t) : s.Change cfg .io t := by
  unfold ioStep at ht
  cases hpc : s.pc with
  | ready i =>
    simp only [hpc] at ht
    split at ht
    · cases ht
      exact .of_same (sameRings_local ..)
    · next item items hready =>
      split at ht
      · next hi =>
        cases ht
        cases item with
        | io x =>
          unfold execute
          dsimp only
          split
          · exact .of_same (sameRings_local ..)
          · next hstopped =>
            refine change_trySubmitSqe (sameRings_local ..) ?_
            simp only [starts, hpc, hready]
            rw [if_pos ⟨hi, by simpa using hstopped⟩]
        | scheduled x =>
          unfold execute
          dsimp only
          exact .of_same (sameRings_local ..)
      · cases ht
        exact .of_same (sameRings_local ..)
  | cqes n =>
    cases n with
    | zero =>
      simp only [hpc, Option.some.injEq] at ht
      subst ht
      exact .of_same (sameRings_local ..)
    | succ n =>
      simp only [hpc] at ht
      split at ht
      · contradiction
      · next cqe cq hcq =>
        cases ht
        have hlength : s.sq.length + s.kernel.length + cq.length ≤ s.outstanding := by
          simp only [outstanding, hcq, List.length_cons]
          omega
        cases cqe with
        | op x => exact .keep rfl rfl rfl hlength
        | cancel x => exact .keep rfl rfl rfl hlength
        | wakeUp => exact .keep rfl rfl rfl hlength
  | acquireRemoteItems =>
    simp only [hpc, Option.some.injEq] at ht
    subst ht
    exact .of_same ((sameRings_local ..).trans sameRings_acquireRemoteItems)
  | stopItems items =>
    cases items with
    | nil =>
      simp only [hpc, Option.some.injEq] at ht
      subst ht
      exact .of_same (sameRings_local ..)
    | cons item items =>
      simp only [hpc, Option.some.injEq] at ht
      subst ht
      refine change_requestStopFromIoThread (sameRings_local ..) ?_
      rintro x rfl
      simp only [stops, hpc]
  | submitWaitForWakeUp =>
    simp only [hpc] at ht
    split at ht
    · cases ht
      exact .of_same (sameRings_local ..)
    · next hspace =>
      cases ht
      refine .enqueue (.inr (.inr ⟨rfl, hpc, Nat.pos_of_ne_zero hspace⟩)) rfl rfl rfl ?_
      simp only [outstanding, List.length_append, List.length_singleton]
      omega
  | executeRemoteStopItems =>
    simp only [hpc] at ht
    split at ht
    · cases ht
      exact .of_same (sameRings_local ..)
    · cases ht
      exact .of_same (sameRings_local ..)
  | _ =>
    -- only the program counter, or whether a queue is active, changes
    simp only [hpc, Option.some.injEq, reduceCtorEq] at ht
    try
      subst ht
      exact .of_same (sameRings_local ..)

variable [DecidableEq T]

theorem step_change (ht : s.step cfg a = some t) : s.Change cfg a t := by
  cases a with
  | io =>
    simp only [step] at ht
    split at ht
    · contradiction
    · exact change_ioStep ht
  | start item =>
    simp only [step] at ht
    split at ht
    · cases item with
      | io x =>
        cases ht
        exact change_trySubmitSqe (sameRings_local ..) rfl
      | scheduled x =>
        cases ht
        exact .of_same (sameRings_local ..)
    · contradiction
  | requestStop item =>
    simp only [step] at ht
    split at ht
    · cases ht
      refine change_requestStopFromIoThread (sameRings_local ..) ?_
      rintro x rfl
      rfl
    · contradiction
  | receive =>
    simp only [step] at ht
    split at ht
    · contradiction
    · next sqe sq hsq =>
      cases ht
      refine .keep rfl rfl rfl ?_
      simp only [outstanding, hsq, List.length_append, List.length_cons, List.length_nil]
      omega
  | complete i =>
    have hlength {sqe : Sqe O} (hi : s.kernel[i]? = some sqe) :
        s.sq.length + (s.kernel.eraseIdx i).length + (s.cq ++ [sqe]).length ≤ s.outstanding := by
      have hlt : i < s.kernel.length := (List.getElem?_eq_some_iff.mp hi).1
      rw [List.length_eraseIdx_of_lt hlt, List.length_append, List.length_singleton]
      unfold outstanding
      omega
    simp only [step] at ht
    split at ht
    · contradiction
    · next hi =>
      split at ht
      · cases ht
        exact .keep rfl rfl rfl (hlength hi)
      · contradiction
    · next hi =>
      cases ht
      exact .keep rfl rfl rfl (hlength hi)
  | _ =>
    -- what is left sets flags, or enqueues an item for the I/O thread
    simp only [step] at ht
    split at ht
    all_goals first
      | contradiction
      | cases ht
        exact .of_same (sameRings_local ..)

theorem waiting_nil_step (ht : s.step cfg a = some t) (hroom : s.HasRoom cfg a)
    (hs : s.waitingForSqes = [] ∧ s.waitingForCancelSqes = []) :
    t.waitingForSqes = [] ∧ t.waitingForCancelSqes = [] := by
  rcases step_change ht with ⟨hwaiting, hcancel, _, _⟩ | ⟨_, hwaiting, hcancel, _, _⟩ |
    ⟨x, hx, hfull, _⟩ | ⟨x, hx, hsubmitted, hfull, _⟩ | ⟨x, hx, hwaiting, hcancel, _, _⟩
  · rwa [hwaiting, hcancel]
  · rwa [hwaiting, hcancel]
  · exact absurd (hroom.1 x hx) hfull
  · exact absurd (hroom.2 x hx hsubmitted) hfull
  · rw [hwaiting, hcancel, hs.1]
    exact ⟨rfl, hs.2⟩

/-- An operation that waits for an SQE goes on waiting until it is asked to stop. -/
theorem waiting_step {x : O} (ht : s.step cfg a = some t) (hstops : s.stops a ≠ some x)
    (hx : x ∈ s.waitingForSqes ∨ x ∈ s.waitingForCancelSqes) :
    x ∈ t.waitingForSqes ∨ x ∈ t.waitingForCancelSqes := by
  rcases step_change ht with ⟨hwaiting, hcancel, _, _⟩ | ⟨_, hwaiting, hcancel, _, _⟩ |
    ⟨y, _, _, hwaiting, hcancel, _, _⟩ | ⟨y, _, _, _, hwaiting, hcancel, _, _⟩ |
    ⟨y, hy, hwaiting, hcancel, _, _⟩
  · rwa [hwaiting, hcancel]
  · rwa [hwaiting, hcancel]
  · rw [hwaiting, hcancel]
    exact hx.imp_left (List.mem_append_left _)
  · rw [hwaiting, hcancel]
    exact hx.imp_right (List.mem_append_left _)
  · have hne : x ≠ y := by
      rintro rfl
      exact hstops hy
    rwa [hwaiting, hcancel, List.mem_erase_of_ne hne]

/-- No operation is stranded in a run where every operation that is started, or asked to stop, finds
space for its SQE. One that does not is stranded whenever the loop is about to block with space
left, unless it waits to be started and is asked to stop. -/
theorem not_stranded_when (T O : Type) [DecidableEq T] [DecidableEq O] (cfg : Config) :
    (∀ s, (system T O cfg).Reaches (fun s a => s.HasRoom cfg a) s → s.NotStranded cfg) ∧
      ∀ x s t as, x ∈ s.waitingForSqes ∨ x ∈ s.waitingForCancelSqes →
        (system T O cfg).exec (fun s a => s.stops a ≠ some x) s as = some t →
        t.pc = .submitAndWaitUntil → 0 < t.submissionQueueSpaceLeft cfg →
        t.pendingCqes < cfg.maxPendingCqes → ¬ t.NotStranded cfg := by
  constructor
  · intro s hs _ _ _
    exact hs.invariant (P := fun s => s.waitingForSqes = [] ∧ s.waitingForCancelSqes = [])
      ⟨rfl, rfl⟩ fun _ _ _ hnil hroom ht => waiting_nil_step ht hroom hnil
  · intro x s t as hx ht hpc hspace hpending hstranded
    have hwaits : x ∈ t.waitingForSqes ∨ x ∈ t.waitingForCancelSqes :=
      System.exec_invariant (P := fun s => x ∈ s.waitingForSqes ∨ x ∈ s.waitingForCancelSqes)
        (fun _ _ _ hx hok ht => waiting_step ht hok hx) hx ht
    obtain ⟨hwaiting, hcancel⟩ := hstranded hpc hspace hpending
    rw [hwaiting, hcancel] at hwaits
    rcases hwaits with hmem | hmem
    · cases hmem
    · cases hmem

/-- Two operations are submitted, and the second one is asked to stop: its cancel request finds
space, too. -/
theorem not_stranded_when_run : ∃ s : Loop ℕ ℕ,
    (system ℕ ℕ ⟨4, 8, true⟩).Reaches (fun s a => s.HasRoom ⟨4, 8, true⟩ a) s ∧
      (s.pc = .submitAndWaitUntil ∧ s.kernel = [.op 1, .op 2, .cancel 2] ∧
        s.submissionQueueSpaceLeft ⟨4, 8, true⟩ = 3) ∧ s.NotStranded ⟨4, 8, true⟩ := by
  obtain ⟨s, hs, hp⟩ := (system ℕ ℕ ⟨4, 8, true⟩).exists_reaches
    (fun s a => s.HasRoom ⟨4, 8, true⟩ a)
    [.run, .startRemote 0 (.io 1), .startRemote 0 (.io 2), .io, .io, .io, .io, .io, .io, .io, .io,
      .ret .ok, .io, .io, .io, .io, .io, .io, .io, .io, .io, .io, .receive, .receive, .ret .ok, .io,
      .io, .io, .io, .io, .io, .io, .io, .io, .io, .requestStopRemote 0 (.io 2),
      .scheduleStopRequestRemote 0, .wakeUp 0, .io, .receive, .complete 2, .ret .ok, .io, .io, .io,
      .io, .io, .io, .io, .io, .io, .io, .receive, .ret .ok, .io, .io, .io, .io, .io, .io, .io, .io,
      .io, .io]
    (fun s => decide (s.pc = .submitAndWaitUntil ∧ s.kernel = [.op 1, .op 2, .cancel 2] ∧
      s.submissionQueueSpaceLeft ⟨4, 8, true⟩ = 3)) (by decide +kernel)
  exact ⟨s, hs, of_decide_eq_true hp, (not_stranded_when ℕ ℕ ⟨4, 8, true⟩).1 s hs⟩

/-- The first of two operations takes the only entry of the submission queue. The second one waits
for it and is still waiting when the first has completed. -/
theorem not_stranded_fails : ∃ s : Loop ℕ ℕ,
    (system ℕ ℕ ⟨1, 2, true⟩).Reachable s ∧ ¬ s.NotStranded ⟨1, 2, true⟩ := by
  obtain ⟨s, hs, hp⟩ := (system ℕ ℕ ⟨1, 2, true⟩).exists_reachable
    [.run, .startRemote 0 (.io 1), .startRemote 0 (.io 2), .io, .io, .io, .io, .io, .io, .io, .io,
      .ret .ok, .io, .io, .io, .io, .io, .io, .io, .io, .io, .io, .receive, .ret .ok, .io, .io, .io,
      .io, .io, .io, .io, .io, .io, .io, .io, .receive, .complete 0, .ret .ok, .io, .io, .io, .io,
      .finish, .io, .io]
    (fun s => s.pc = .submitAndWaitUntil && (s.sq = [] && (s.pendingCqes = 0 &&
      s.waitingForSqes = [2]))) (by decide +kernel)
  simp only [Bool.and_eq_true, decide_eq_true_eq] at hp
  obtain ⟨hpc, hsq, hpending, hwaiting⟩ := hp
  refine ⟨s, hs, fun h => ?_⟩
  have hspace : s.submissionQueueSpaceLeft ⟨1, 2, true⟩ = 1 := by
    unfold submissionQueueSpaceLeft
    rw [hsq]
    rfl
  have hnil := (h hpc (by omega) (by rw [hpending]; decide)).1
  rw [hwaiting] at hnil
  cases hnil

theorem pendingCqes_step (ht : s.step cfg a = some t) : t.pendingCqes = s.pendingCqes := by
  rcases step_change ht with ⟨_, _, hpending, _⟩ | ⟨_, _, _, hpending, _⟩ |
    ⟨_, _, _, _, _, hpending, _⟩ | ⟨_, _, _, _, _, _, hpending, _⟩ | ⟨_, _, _, _, hpending, _⟩
  all_goals exact hpending

theorem outstanding_step (ht : s.step cfg a = some t) :
    t.outstanding ≤ s.outstanding ∨ s.Enqueues cfg a ∧ t.outstanding = s.outstanding + 1 := by
  rcases step_change ht with ⟨_, _, _, hout⟩ | ⟨henqueues, _, _, _, hout⟩ |
    ⟨_, _, _, _, _, _, hout⟩ | ⟨_, _, _, _, _, _, _, hout⟩ | ⟨_, _, _, _, _, hout⟩
  · exact .inl hout
  · exact .inr ⟨henqueues, hout⟩
  all_goals exact .inl (Nat.le_of_eq hout)

/-- The counter stays at zero, as nothing changes it. -/
theorem pendingCqes_eq_zero (hs : (system T O cfg).Reachable s) : s.pendingCqes = 0 :=
  hs.invariant (P := fun s => s.pendingCqes = 0) rfl fun _ _ _ hzero _ ht =>
    (pendingCqes_step ht).trans hzero

/-- The counter is right exactly while no CQE is to come, so in a run that enqueues no SQE. The
CQEs fit nevertheless where every SQE is enqueued while there is room for one more. -/
theorem cqes_fit_when (T O : Type) [DecidableEq T] [DecidableEq O] (cfg : Config) :
    (∀ s, (system T O cfg).Reachable s → (s.CqesFit cfg ↔ s.outstanding = 0)) ∧
      (∀ s, (system T O cfg).Reaches (fun s a => ¬ s.Enqueues cfg a) s → s.CqesFit cfg) ∧
      ∀ s, (system T O cfg).Reaches
        (fun s a => s.Enqueues cfg a → s.outstanding < cfg.cqEntryCount) s →
        s.outstanding ≤ cfg.cqEntryCount := by
  have hexact : ∀ s, (system T O cfg).Reachable s → (s.CqesFit cfg ↔ s.outstanding = 0) := by
    intro s hs
    have hpending : s.pendingCqes = 0 := pendingCqes_eq_zero hs
    constructor
    · intro hfit
      rw [← hfit.2.1, hpending]
    · intro hout
      unfold CqesFit
      rw [hout, hpending]
      exact ⟨Nat.zero_le _, rfl, Nat.zero_le _⟩
  refine ⟨hexact, ?_, ?_⟩
  · intro s hs
    have hout : s.outstanding = 0 := by
      refine hs.invariant (P := fun s => s.outstanding = 0) rfl ?_
      intro s a t hzero hno ht
      rcases outstanding_step ht with hle | ⟨henqueues, _⟩
      · omega
      · exact absurd henqueues hno
    exact (hexact s hs.reachable).mpr hout
  · intro s hs
    refine hs.invariant (P := fun s => s.outstanding ≤ cfg.cqEntryCount) (Nat.zero_le _) ?_
    intro s a t hle hroom ht
    rcases outstanding_step ht with hle' | ⟨henqueues, hout⟩
    · exact Nat.le_trans hle' hle
    · rw [hout]
      exact hroom henqueues

/-- An item is executed, which needs no SQE; and two operations and the wake-up read fill a
completion queue of three entries. -/
theorem cqes_fit_when_run :
    (∃ s : Loop ℕ ℕ, (system ℕ ℕ ⟨2, 3, false⟩).Reaches
        (fun s a => ¬ s.Enqueues ⟨2, 3, false⟩ a) s ∧
      (s.busy = true ∧ s.started (.scheduled 1) = true) ∧ s.CqesFit ⟨2, 3, false⟩) ∧
    ∃ s : Loop ℕ ℕ, (system ℕ ℕ ⟨2, 3, false⟩).Reaches
        (fun s a => s.Enqueues ⟨2, 3, false⟩ a → s.outstanding < 3) s ∧
      s.outstanding = 3 ∧ s.outstanding ≤ 3 := by
  obtain ⟨-, hquiet, hroom⟩ := cqes_fit_when ℕ ℕ ⟨2, 3, false⟩
  constructor
  · obtain ⟨s, hs, hp⟩ := (system ℕ ℕ ⟨2, 3, false⟩).exists_reaches
      (fun s a => ¬ s.Enqueues ⟨2, 3, false⟩ a)
      [.run, .startRemote 0 (.scheduled 1), .io, .io, .io, .io, .io, .io, .io, .io, .ret .ok, .io,
        .io]
      (fun s => decide (s.busy = true ∧ s.started (.scheduled 1) = true)) (by decide +kernel)
    exact ⟨s, hs, of_decide_eq_true hp, hquiet s hs⟩
  · obtain ⟨s, hs, hp⟩ := (system ℕ ℕ ⟨2, 3, false⟩).exists_reaches
      (fun s a => s.Enqueues ⟨2, 3, false⟩ a → s.outstanding < 3)
      [.run, .startRemote 0 (.io 1), .startRemote 0 (.io 2), .io, .io, .io, .io, .io, .io, .io, .io,
        .ret .ok, .io, .io, .io, .io, .io, .io, .io, .io, .io, .io, .receive, .receive, .ret .ok,
        .io, .io, .io, .io, .io]
      (fun s => decide (s.outstanding = 3)) (by decide +kernel)
    exact ⟨s, hs, of_decide_eq_true hp, hroom s hs⟩

/-- Two operations and the wake-up read are outstanding on a completion queue of two entries. -/
theorem cqes_fit_fails : ∃ s : Loop ℕ ℕ, (system ℕ ℕ ⟨2, 2, false⟩).Reachable s ∧
    (⟨2, 2, false⟩ : Config).cqEntryCount < s.outstanding ∧ ¬ s.CqesFit ⟨2, 2, false⟩ := by
  obtain ⟨s, hs, hp⟩ := (system ℕ ℕ ⟨2, 2, false⟩).exists_reachable
    [.run, .startRemote 0 (.io 1), .startRemote 0 (.io 2), .io, .io, .io, .io, .io, .io, .io, .io,
      .ret .ok, .io, .io, .io, .io, .io, .io, .io, .io, .io, .io, .receive, .receive, .ret .ok, .io,
      .io, .io, .io, .io]
    (fun s => s.outstanding = 3) (by decide +kernel)
  simp only [decide_eq_true_eq] at hp
  have hexceeds : (⟨2, 2, false⟩ : Config).cqEntryCount < s.outstanding := by
    rw [hp]
    decide
  exact ⟨s, hs, hexceeds, fun hfit => Nat.not_le_of_lt hexceeds hfit.1⟩

end Loop
end Squiz.LinuxOS.RunLoop
