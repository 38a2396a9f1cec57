import Squiz.LinuxOS.RunLoop.Loop
import Mathlib.Data.List.Perm.Basic

/-! A thread that enqueues an item or asks `run` to stop wakes the I/O thread up. -/
namespace Squiz.LinuxOS.RunLoop
open Squiz.Lib

/-- The condition of the loop was checked. -/
def Pc.inBody {O : Type} : Pc O → Bool
  | .exited | .loopTop => false
  | _ => true

/-- The wake-up read was found not to be submitted. -/
def Pc.withoutRead {O : Type} : Pc O → Bool
  | .getEvents | .gotEvents | .noEvents | .markRemote | .markRemoteStop
  | .submitWaitForWakeUp => true
  | _ => false

def Pc.withRead {O : Type} : Pc O → Bool
  | .submitAndWaitUntil | .blocked => true
  | _ => false

/-- The remote queue was marked inactive. -/
def Pc.remoteMarked {O : Type} : Pc O → Bool
  | .markRemoteStop | .submitWaitForWakeUp => true
  | _ => false

def Pc.remoteStopMarked {O : Type} : Pc O → Bool
  | .submitWaitForWakeUp => true
  | _ => false

namespace Loop
variable {T O : Type} [DecidableEq O] {cfg : Config} {s t : Loop T O}

/-- The wake-up read will complete, or has completed, or a thread is about to make it complete. -/
def WakeUpInFlight (s : Loop T O) : Prop :=
  0 < s.eventfd ∨ .wakeUp ∈ s.cq ∨ (∃ t, s.threads t = .wakingUp) ∨ s.stopCallbackWakingUp = true

structure Inv (s : Loop T O) : Prop where
  reads : (s.sq ++ s.kernel ++ s.cq).count .wakeUp = s.isWakeUpReadSubmitted.toNat
  active : s.isWakeUpReadSubmitted = true → s.remote.active = true ∨ s.remoteStop.active = true →
    s.WakeUpInFlight
  stop : s.pc.inBody = true → s.isWakeUpReadSubmitted = true → s.stopRequested = true →
    s.WakeUpInFlight
  withoutRead : s.pc.withoutRead = true → s.isWakeUpReadSubmitted = false
  withRead : s.pc.withRead = true → s.isWakeUpReadSubmitted = true
  remoteMarked : s.pc.remoteMarked = true → s.remote.active = true → s.WakeUpInFlight
  remoteStopMarked : s.pc.remoteStopMarked = true → s.remoteStop.active = true → s.WakeUpInFlight

/-- What a step leaves alone that has nothing to do with the wake-up. -/
structure Quiet (s t : Loop T O) : Prop where
  pc : t.pc = s.pc
  reads : (t.sq ++ t.kernel ++ t.cq).count .wakeUp = (s.sq ++ s.kernel ++ s.cq).count .wakeUp
  submitted : t.isWakeUpReadSubmitted = s.isWakeUpReadSubmitted
  remote : t.remote.active = s.remote.active
  remoteStop : t.remoteStop.active = s.remoteStop.active
  stop : t.stopRequested = s.stopRequested
  inFlight : s.WakeUpInFlight → t.WakeUpInFlight

theorem Quiet.refl (s : Loop T O) : Quiet s s := ⟨rfl, rfl, rfl, rfl, rfl, rfl, id⟩

theorem Quiet.trans {r : Loop T O} (h : Quiet r s) (h' : Quiet s t) : Quiet r t where
  pc := h'.pc.trans h.pc
  reads := h'.reads.trans h.reads
  submitted := h'.submitted.trans h.submitted
  remote := h'.remote.trans h.remote
  remoteStop := h'.remoteStop.trans h.remoteStop
  stop := h'.stop.trans h.stop
  inFlight := h'.inFlight ∘ h.inFlight

theorem Inv.quiet (h : s.Inv) (hq : Quiet s t) : t.Inv where
  reads := by rw [hq.reads, hq.submitted, h.reads]
  active hsubmitted hactive := by
    rw [hq.submitted] at hsubmitted
    rw [hq.remote, hq.remoteStop] at hactive
    exact hq.inFlight (h.active hsubmitted hactive)
  stop hpc hsubmitted hstop := by
    rw [hq.pc] at hpc
    rw [hq.submitted] at hsubmitted
    rw [hq.stop] at hstop
    exact hq.inFlight (h.stop hpc hsubmitted hstop)
  withoutRead hpc := by
    rw [hq.pc] at hpc
    rw [hq.submitted, h.withoutRead hpc]
  withRead hpc := by
    rw [hq.pc] at hpc
    rw [hq.submitted, h.withRead hpc]
  remoteMarked hpc hactive := by
    rw [hq.pc] at hpc
    rw [hq.remote] at hactive
    exact hq.inFlight (h.remoteMarked hpc hactive)
  remoteStopMarked hpc hactive := by
    rw [hq.pc] at hpc
    rw [hq.remoteStop] at hactive
    exact hq.inFlight (h.remoteStopMarked hpc hactive)

/-- A step that leaves a wake-up in flight. -/
theorem Inv.of_inFlight (h : s.Inv) (hpc : t.pc = s.pc)
    (hreads : (t.sq ++ t.kernel ++ t.cq).count .wakeUp = (s.sq ++ s.kernel ++ s.cq).count .wakeUp)
    (hsubmitted : t.isWakeUpReadSubmitted = s.isWakeUpReadSubmitted) (ht : t.WakeUpInFlight) :
    t.Inv where
  reads := by rw [hreads, hsubmitted, h.reads]
  active _ _ := ht
  stop _ _ _ := ht
  withoutRead h' := by
    rw [hpc] at h'
    rw [hsubmitted, h.withoutRead h']
  withRead h' := by
    rw [hpc] at h'
    rw [hsubmitted, h.withRead h']
  remoteMarked _ _ := ht
  remoteStopMarked _ _ := ht

/-- The I/O thread goes on to a point that knows nothing of the read or of the queues. -/
theorem Inv.goto (h : s.Inv) (pc : Pc O)
    (hstop : pc.inBody = true → s.pc.inBody = true ∨ s.stopRequested = false)
    (hwithoutRead : pc.withoutRead = true → s.isWakeUpReadSubmitted = false)
    (hwithRead : pc.withRead = true → s.isWakeUpReadSubmitted = true)
    (hremote : pc.remoteMarked = false) : ({ s with pc := pc } : Loop T O).Inv :=
  { h with
    stop := fun hpc hsubmitted hrequested => by
      rcases hstop hpc with hbody | hnot
      · exact h.stop hbody hsubmitted hrequested
      · rw [hnot] at hrequested
        contradiction
    withoutRead := hwithoutRead
    withRead := hwithRead
    remoteMarked := fun hpc => by
      rw [hremote] at hpc
      contradiction
    remoteStopMarked := fun hpc => by
      cases pc <;> simp_all [Pc.remoteMarked, Pc.remoteStopMarked] }

/-! What the operations do on the I/O thread. -/

theorem quiet_local (busy : Bool) (readyToRun : List (Item O)) (waiting waitingForCancel : List O)
    (started stopped : Item O → Bool) :
    Quiet s { s with
      busy := busy
      readyToRun := readyToRun
      waitingForSqes := waiting
      waitingForCancelSqes := waitingForCancel
      started := started
      stopped := stopped } := by
  constructor <;> first | rfl | exact id

theorem quiet_push {sqe : Sqe O} (hsqe : sqe ≠ .wakeUp) :
    Quiet s { s with sq := s.sq ++ [sqe] } where
  pc := rfl
  reads := by simp [List.count_append, hsqe]
  submitted := rfl
  remote := rfl
  remoteStop := rfl
  stop := rfl
  inFlight := id

theorem quiet_trySubmitSqe (x : O) : Quiet s (s.trySubmitSqe cfg x) := by
  unfold trySubmitSqe
  split
  · exact quiet_push (by simp)
  · exact quiet_local ..

theorem quiet_submitCancelFor (x : O) : Quiet s (s.submitCancelFor cfg x) := by
  unfold submitCancelFor
  split
  · exact quiet_local ..
  · exact quiet_push (by simp)

theorem quiet_acquireRemoteItems : Quiet s s.acquireRemoteItems := by
  unfold acquireRemoteItems
  split
  · constructor <;> first | rfl | exact id
  · exact Quiet.refl s

theorem quiet_removeQueued (item : Item O) : Quiet s (s.removeQueued item) := by
  unfold removeQueued
  split
  · exact quiet_acquireRemoteItems.trans (quiet_local ..)
  · cases item with
    | io x => exact quiet_local ..
    | scheduled x => exact Quiet.refl s

theorem quiet_requestStopFromIoThread (item : Item O) :
    Quiet s (s.requestStopFromIoThread cfg item) := by
  have hremoved := quiet_removeQueued (s := s) item
  have hbusy : Quiet (s.removeQueued item) { s.removeQueued item with busy := true } :=
    quiet_local ..
  cases item with
  | io x =>
    unfold requestStopFromIoThread
    dsimp only
    split
    · exact quiet_submitCancelFor x
    · exact hremoved.trans hbusy
  | scheduled x => exact hremoved.trans hbusy

theorem quiet_execute (item : Item O) : Quiet s (s.execute cfg item) := by
  cases item with
  | io x =>
    unfold execute
    dsimp only
    split
    · exact Quiet.refl s
    · exact quiet_trySubmitSqe x
  | scheduled x => exact quiet_local ..

/-- The body of the loop over the CQEs. -/
theorem Inv.handle (h : s.Inv) {n : ℕ} {cqe : Sqe O} {cq : List (Sqe O)} (hcq : s.cq = cqe :: cq)
    (hpc : s.pc = .cqes (n + 1)) :
    (Loop.handle { s with pc := .cqes n, cq := cq } cqe).Inv := by
  have hgoto := h.goto (.cqes n) (fun _ => .inl (by rw [hpc]; rfl)) nofun nofun rfl
  cases cqe with
  | op x =>
    refine hgoto.quiet ⟨rfl, ?_, rfl, rfl, rfl, rfl, ?_⟩
    · simp [Loop.handle, hcq, List.count_append]
    · simp [Loop.handle, WakeUpInFlight, hcq]
  | cancel x =>
    refine hgoto.quiet ⟨rfl, ?_, rfl, rfl, rfl, rfl, ?_⟩
    · simp [Loop.handle, hcq, List.count_append]
    · simp [Loop.handle, WakeUpInFlight, hcq]
  | wakeUp =>
    have hreads := h.reads
    have hle := Bool.toNat_le s.isWakeUpReadSubmitted
    simp only [hcq, List.count_append, List.count_cons_self] at hreads
    exact
      { reads := by
          simp only [Loop.handle, List.count_append, Bool.toNat_false]
          omega
        active := nofun
        stop := nofun
        withoutRead := fun _ => rfl
        withRead := nofun
        remoteMarked := nofun
        remoteStopMarked := nofun }

omit [DecidableEq O] in
/-- A queue that was marked inactive is so until an item is enqueued. -/
theorem isMarkedInactive_active {q : InactiveQueue (Item O)} (h : isMarkedInactive q = true) :
    q.markInactive.active = false := by
  unfold isMarkedInactive at h
  rw [InactiveQueue.markInactive_active]
  cases hactive : q.active <;> simp_all

theorem Inv.markRemote (h : s.Inv) (hsubmitted : s.isWakeUpReadSubmitted = false) :
    ({ s with
      pc := if isMarkedInactive s.remote then .markRemoteStop else .loopTop
      remote := s.remote.markInactive } : Loop T O).Inv where
  reads := h.reads
  active hsubmitted' := by
    rw [hsubmitted] at hsubmitted'
    contradiction
  stop _ hsubmitted' := by
    rw [hsubmitted] at hsubmitted'
    contradiction
  withoutRead _ := hsubmitted
  withRead hpc := by
    dsimp only at hpc
    split at hpc <;> contradiction
  remoteMarked hpc hactive := by
    dsimp only at hpc hactive
    split at hpc
    · next hmarked =>
      rw [isMarkedInactive_active hmarked] at hactive
      contradiction
    · contradiction
  remoteStopMarked hpc := by
    dsimp only at hpc
    split at hpc <;> contradiction

theorem Inv.markRemoteStop (h : s.Inv) (hsubmitted : s.isWakeUpReadSubmitted = false)
    (hremote : s.remote.active = true → s.WakeUpInFlight) :
    ({ s with
      pc := if isMarkedInactive s.remoteStop then .submitWaitForWakeUp else .loopTop
      remoteStop := s.remoteStop.markInactive } : Loop T O).Inv where
  reads := h.reads
  active hsubmitted' := by
    rw [hsubmitted] at hsubmitted'
    contradiction
  stop _ hsubmitted' := by
    rw [hsubmitted] at hsubmitted'
    contradiction
  withoutRead _ := hsubmitted
  withRead hpc := by
    dsimp only at hpc
    split at hpc <;> contradiction
  remoteMarked _ := hremote
  remoteStopMarked hpc hactive := by
    dsimp only at hpc hactive
    split at hpc
    · next hmarked =>
      rw [isMarkedInactive_active hmarked] at hactive
      contradiction
    · contradiction

/-- The read is enqueued once both queues were marked inactive: a thread that has enqueued an item
since then wakes the I/O thread up. -/
theorem Inv.submitWaitForWakeUp (h : s.Inv) (hsubmitted : s.isWakeUpReadSubmitted = false)
    (hremote : s.remote.active = true → s.WakeUpInFlight)
    (hremoteStop : s.remoteStop.active = true → s.WakeUpInFlight) :
    ({ s with
      pc := .loopTop
      sq := s.sq ++ [.wakeUp]
      isWakeUpReadSubmitted := true } : Loop T O).Inv where
  reads := by
    have hreads := h.reads
    rw [hsubmitted] at hreads
    simp only [List.count_append, Bool.toNat_false, List.count_singleton_self,
      Bool.toNat_true] at hreads ⊢
    omega
  active _ hactive := hactive.elim hremote hremoteStop
  stop := nofun
  withoutRead := nofun
  withRead := nofun
  remoteMarked := nofun
  remoteStopMarked := nofun

/-- The I/O thread takes its next step in `run_impl`. -/
theorem Inv.ioStep (h : s.Inv) (ht : s.ioStep cfg = some t) : t.Inv := by
  unfold Loop.ioStep at ht
  cases hpc : s.pc with
  | exited => simp [hpc] at ht
  | loopTop =>
    simp only [hpc, Option.some.injEq] at ht
    subst ht
    split
    · exact h.goto .exited nofun nofun nofun rfl
    · next hstop => exact h.goto (.ready 0) (fun _ => .inr (by simpa using hstop)) nofun nofun rfl
  | ready i =>
    have hbody : s.pc.inBody = true := by rw [hpc]; rfl
    have htimers := h.goto .timers (fun _ => .inl hbody) nofun nofun rfl
    have hnext := h.goto (.ready (i + 1)) (fun _ => .inl hbody) nofun nofun rfl
    simp only [hpc] at ht
    split at ht
    · cases ht
      exact htimers
    · split at ht
      · cases ht
        exact hnext.quiet ((quiet_local ..).trans (quiet_execute _))
      · cases ht
        exact htimers
  | timers =>
    simp only [hpc, Option.some.injEq] at ht
    subst ht
    exact h.goto (.cqes s.cq.length) (fun _ => .inl (by rw [hpc]; rfl)) nofun nofun rfl
  | cqes n =>
    have hbody : s.pc.inBody = true := by rw [hpc]; rfl
    cases n with
    | zero =>
      simp only [hpc, Option.some.injEq] at ht
      subst ht
      split
      · exact h.goto .select (fun _ => .inl hbody) nofun nofun rfl
      · exact h.goto .acquireRemoteItems (fun _ => .inl hbody) nofun nofun rfl
    | succ n =>
      simp only [hpc] at ht
      split at ht
      · contradiction
      · next cqe cq hcq =>
        cases ht
        exact h.handle hcq hpc
  | acquireRemoteItems =>
    simp only [hpc, Option.some.injEq] at ht
    subst ht
    have hquiet : Quiet s s.acquireRemoteItems := quiet_acquireRemoteItems
    apply (h.quiet hquiet).goto .executeRemoteStopItems (fun _ => .inl ?_) nofun nofun rfl
    rw [hquiet.pc, hpc]
    rfl
  | executeRemoteStopItems =>
    have hbody : s.pc.inBody = true := by rw [hpc]; rfl
    simp only [hpc] at ht
    split at ht
    · cases ht
      have hgoto := h.goto (.stopItems s.remoteStop.items.reverse) (fun _ => .inl hbody)
        nofun nofun rfl
      apply hgoto.quiet
      constructor <;> first | rfl | exact id
    · cases ht
      exact h.goto .select (fun _ => .inl hbody) nofun nofun rfl
  | stopItems items =>
    have hbody : s.pc.inBody = true := by rw [hpc]; rfl
    cases items with
    | nil =>
      simp only [hpc, Option.some.injEq] at ht
      subst ht
      exact h.goto .select (fun _ => .inl hbody) nofun nofun rfl
    | cons item items =>
      simp only [hpc, Option.some.injEq] at ht
      subst ht
      have hgoto := h.goto (.stopItems items) (fun _ => .inl hbody) nofun nofun rfl
      exact hgoto.quiet (quiet_requestStopFromIoThread item)
  | select =>
    have hbody : s.pc.inBody = true := by rw [hpc]; rfl
    simp only [hpc, Option.some.injEq] at ht
    subst ht
    split
    · split
      · next hsubmitted =>
        exact h.goto .submitAndWaitUntil (fun _ => .inl hbody) nofun (fun _ => hsubmitted) rfl
      · next hsubmitted =>
        have hwithout : s.isWakeUpReadSubmitted = false := by simpa using hsubmitted
        exact h.goto .getEvents (fun _ => .inl hbody) (fun _ => hwithout) nofun rfl
    · exact h.goto .submit (fun _ => .inl hbody) nofun nofun rfl
  | submitAndWaitUntil =>
    simp only [hpc, Option.some.injEq] at ht
    subst ht
    have hsubmitted := h.withRead (by rw [hpc]; rfl)
    exact h.goto .blocked (fun _ => .inl (by rw [hpc]; rfl)) nofun (fun _ => hsubmitted) rfl
  | gotEvents =>
    simp only [hpc, Option.some.injEq] at ht
    subst ht
    have hsubmitted := h.withoutRead (by rw [hpc]; rfl)
    split
    · exact h.goto .noEvents (fun _ => .inl (by rw [hpc]; rfl)) (fun _ => hsubmitted) nofun rfl
    · exact h.goto .loopTop nofun nofun nofun rfl
  | noEvents =>
    simp only [hpc, Option.some.injEq] at ht
    subst ht
    have hsubmitted := h.withoutRead (by rw [hpc]; rfl)
    split
    · exact h.goto .markRemote (fun _ => .inl (by rw [hpc]; rfl)) (fun _ => hsubmitted) nofun rfl
    · exact h.goto .loopTop nofun nofun nofun rfl
  | markRemote =>
    simp only [hpc, Option.some.injEq] at ht
    subst ht
    have hsubmitted := h.withoutRead (by rw [hpc]; rfl)
    exact h.markRemote hsubmitted
  | markRemoteStop =>
    simp only [hpc, Option.some.injEq] at ht
    subst ht
    have hsubmitted := h.withoutRead (by rw [hpc]; rfl)
    exact h.markRemoteStop hsubmitted (h.remoteMarked (by rw [hpc]; rfl))
  | submitWaitForWakeUp =>
    simp only [hpc] at ht
    split at ht
    · cases ht
      exact h.goto .loopTop nofun nofun nofun rfl
    · cases ht
      have hsubmitted := h.withoutRead (by rw [hpc]; rfl)
      exact h.submitWaitForWakeUp hsubmitted (h.remoteMarked (by rw [hpc]; rfl))
        (h.remoteStopMarked (by rw [hpc]; rfl))
  | blocked => simp [hpc] at ht
  | getEvents => simp [hpc] at ht
  | submit => simp [hpc] at ht

theorem Inv.afterCall (h : s.Inv) (ec : ErrorCode) (hbody : s.pc.inBody = true)
    (hpc : s.pc = .getEvents → s.isWakeUpReadSubmitted = false) :
    ({ s with pc := Loop.afterCall s.pc ec } : Loop T O).Inv := by
  cases ec with
  | ok =>
    unfold Loop.afterCall
    dsimp only
    split
    · next hevents => exact h.goto .gotEvents (fun _ => .inl hbody) (fun _ => hpc hevents) nofun rfl
    · exact h.goto .loopTop nofun nofun nofun rfl
  | time => exact h.goto .timers (fun _ => .inl hbody) nofun nofun rfl
  | retry => exact h.goto .loopTop nofun nofun nofun rfl
  | fatal => exact h.goto .exited nofun nofun nofun rfl

/-! What the other threads and the kernel do. -/

variable [DecidableEq T]

omit [DecidableEq O] in
/-- A thread that is not about to call `wake_up_io_thread()` does something else. -/
theorem WakeUpInFlight.update {x : T} {thread : Thread O} (h : s.WakeUpInFlight)
    (hx : s.threads x ≠ .wakingUp) :
    ({ s with threads := Function.update s.threads x thread } : Loop T O).WakeUpInFlight := by
  rcases h with h | h | ⟨y, hy⟩ | h
  · exact .inl h
  · exact .inr (.inl h)
  · have hne : y ≠ x := by
      rintro rfl
      exact hx hy
    have hupdate : Function.update s.threads x thread y = .wakingUp := by
      rw [Function.update_of_ne hne, hy]
    exact .inr (.inr (.inl ⟨y, hupdate⟩))
  · exact .inr (.inr (.inr h))

/-- `schedule_now_remote` or `schedule_stop_request_remote` has enqueued an item: unless that queue
was active before, the thread is to wake the I/O thread up. -/
theorem Inv.enqueued {x : T} {active : Bool} (remote remoteStop : InactiveQueue (Item O))
    (h : s.Inv) (hx : s.threads x ≠ .wakingUp)
    (hactive : active = true → remote.active = s.remote.active ∧
      remoteStop.active = s.remoteStop.active) :
    ({ s with
      remote := remote
      remoteStop := remoteStop
      threads := Function.update s.threads x (if active then .idle else .wakingUp) } :
      Loop T O).Inv := by
  cases active with
  | false =>
    have hwaking : Function.update s.threads x .wakingUp x = .wakingUp := Function.update_self ..
    exact h.of_inFlight rfl rfl rfl (.inr (.inr (.inl ⟨x, hwaking⟩)))
  | true =>
    obtain ⟨hremote, hremoteStop⟩ := hactive rfl
    exact h.quiet ⟨rfl, rfl, rfl, hremote, hremoteStop, rfl, fun hflight => hflight.update hx⟩

omit [DecidableEq T] in
theorem quiet_receive {sqe : Sqe O} {sq : List (Sqe O)} (hsq : s.sq = sqe :: sq) :
    Quiet s { s with sq := sq, kernel := s.kernel ++ [sqe] } where
  pc := rfl
  reads := by
    simp only [hsq, List.count_append, List.count_cons, List.count_nil]
    omega
  submitted := rfl
  remote := rfl
  remoteStop := rfl
  stop := rfl
  inFlight := id

omit [DecidableEq T] in
/-- A request that completes goes on being counted. -/
theorem count_complete {i : ℕ} {sqe : Sqe O} (hi : s.kernel[i]? = some sqe) :
    (s.sq ++ s.kernel.eraseIdx i ++ (s.cq ++ [sqe])).count .wakeUp =
      (s.sq ++ s.kernel ++ s.cq).count .wakeUp := by
  obtain ⟨hlt, hget⟩ := List.getElem?_eq_some_iff.mp hi
  have hperm := List.getElem_cons_eraseIdx_perm hlt
  have hcount := hperm.count_eq .wakeUp
  rw [hget, List.count_cons] at hcount
  simp only [List.count_append, List.count_cons, List.count_nil]
  omega

theorem Inv.step {a : Act T O} (h : s.Inv) (ht : s.step cfg a = some t) : t.Inv := by
  cases a with
  | run =>
    simp only [Loop.step] at ht
    split at ht
    · cases ht
      have hgoto := h.goto .loopTop nofun nofun nofun rfl
      exact { hgoto with stop := nofun }
    · contradiction
  | io =>
    simp only [Loop.step] at ht
    split at ht
    · contradiction
    · exact h.ioStep ht
  | timerDue =>
    simp only [Loop.step] at ht
    split at ht
    · cases ht
      exact h.quiet (quiet_local ..)
    · contradiction
  | ret ec =>
    simp only [Loop.step] at ht
    split at ht
    · next hpc =>
      cases ht
      apply h.afterCall ec
      · rcases hpc with hpc | hpc | hpc <;> rw [hpc] <;> rfl
      · intro hpc
        exact h.withoutRead (by rw [hpc]; rfl)
    · contradiction
  | finish =>
    simp only [Loop.step] at ht
    split at ht
    · cases ht
      exact h.quiet (quiet_local ..)
    · contradiction
  | start item =>
    simp only [Loop.step] at ht
    split at ht
    · cases item with
      | io x =>
        cases ht
        exact h.quiet ((quiet_local ..).trans (quiet_trySubmitSqe x))
      | scheduled x =>
        cases ht
        exact h.quiet (quiet_local ..)
    · contradiction
  | requestStop item =>
    simp only [Loop.step] at ht
    split at ht
    · cases ht
      exact h.quiet ((quiet_local ..).trans (quiet_requestStopFromIoThread item))
    · contradiction
  | startRemote x item =>
    simp only [Loop.step] at ht
    split at ht
    · next hidle =>
      cases ht
      have hx : s.threads x ≠ .wakingUp := by simp [hidle.1]
      have henqueued := h.enqueued (s.remote.enqueue item) s.remoteStop hx
        fun hactive => ⟨hactive.symm, rfl⟩
      exact henqueued.quiet (quiet_local ..)
    · contradiction
  | requestStopRemote x item =>
    simp only [Loop.step] at ht
    split at ht
    · next hidle =>
      cases ht
      have hx : s.threads x ≠ .wakingUp := by simp [hidle.1]
      exact h.quiet ⟨rfl, rfl, rfl, rfl, rfl, rfl, fun hflight => hflight.update hx⟩
    · contradiction
  | scheduleStopRequestRemote x =>
    simp only [Loop.step] at ht
    split at ht
    · next item hitem =>
      cases ht
      have hx : s.threads x ≠ .wakingUp := by simp [hitem]
      exact h.enqueued s.remote (s.remoteStop.enqueue item) hx fun hactive => ⟨rfl, hactive.symm⟩
    · contradiction
  | wakeUp x =>
    simp only [Loop.step] at ht
    split at ht
    · cases ht
      exact h.of_inFlight rfl rfl rfl (.inl (Nat.succ_pos _))
    · contradiction
  | stopCallback =>
    simp only [Loop.step] at ht
    split at ht
    · cases ht
      exact h.of_inFlight rfl rfl rfl (.inr (.inr (.inr rfl)))
    · contradiction
  | stopCallbackWakeUp =>
    simp only [Loop.step] at ht
    split at ht
    · cases ht
      exact h.of_inFlight rfl rfl rfl (.inl (Nat.succ_pos _))
    · contradiction
  | receive =>
    simp only [Loop.step] at ht
    split at ht
    · contradiction
    · next hsq =>
      cases ht
      exact h.quiet (quiet_receive hsq)
  | complete i =>
    simp only [Loop.step] at ht
    split at ht
    · contradiction
    · next hi =>
      split at ht
      · cases ht
        refine h.of_inFlight rfl (count_complete hi) rfl ?_
        exact .inr (.inl (List.mem_append_right _ (List.mem_singleton_self _)))
      · contradiction
    · next hi =>
      cases ht
      refine h.quiet ⟨rfl, count_complete hi, rfl, rfl, rfl, rfl, ?_⟩
      rintro (hflight | hflight | hflight | hflight)
      · exact .inl hflight
      · exact .inr (.inl (List.mem_append_left _ hflight))
      · exact .inr (.inr (.inl hflight))
      · exact .inr (.inr (.inr hflight))

omit [DecidableEq T] in
theorem inv_init : (({} : Loop T O)).Inv where
  reads := rfl
  active := nofun
  stop := nofun
  withoutRead := nofun
  withRead := nofun
  remoteMarked := nofun
  remoteStopMarked := nofun

theorem inv_of_reachable (hs : (system T O cfg).Reachable s) : s.Inv :=
  hs.invariant (P := Inv) inv_init fun _ _ _ h _ ht => h.step ht

/-- While the I/O thread is blocked, its read of the eventfd is outstanding. -/
theorem wakeUp_mem_of_blocked (hs : (system T O cfg).Reachable s) (hpc : s.pc = .blocked) :
    .wakeUp ∈ s.sq ++ s.kernel ++ s.cq := by
  have h := inv_of_reachable hs
  have hsubmitted : s.isWakeUpReadSubmitted = true := h.withRead (by rw [hpc]; rfl)
  have hreads := h.reads
  rw [hsubmitted] at hreads
  exact List.count_pos_iff.mp (by rw [hreads]; exact Nat.one_pos)

/-- Whenever the I/O thread is blocked and an item was enqueued for it or a stop was requested, the
read of the eventfd has completed or is going to. -/
theorem wake_up_not_lost (hs : (system T O cfg).Reachable s) (hpc : s.pc = .blocked)
    (hwork : s.remote.items ≠ [] ∨ s.remoteStop.items ≠ [] ∨ s.stopRequested = true) :
    s.WakeUpInFlight := by
  have h := inv_of_reachable hs
  have hsubmitted : s.isWakeUpReadSubmitted = true := h.withRead (by rw [hpc]; rfl)
  have hactive {q : InactiveQueue (Item O)} (hq : q.items ≠ []) : q.active = true := by
    by_contra hinactive
    exact hq (q.empty (by simpa using hinactive))
  rcases hwork with hitems | hitems | hstop
  · exact h.active hsubmitted (.inl (hactive hitems))
  · exact h.active hsubmitted (.inr (hactive hitems))
  · exact h.stop (by rw [hpc]; rfl) hsubmitted hstop

/-- A thread is about to wake the I/O thread up for an item that is acquired and removed before,
and another one enqueues an item meanwhile. -/
theorem wake_up_not_lost_run : ∃ s : Loop ℕ ℕ,
    (s.remote.items = [.scheduled 6] ∧ s.threads 0 = .wakingUp ∧ s.threads 1 = .idle) ∧
      s.WakeUpInFlight := by
  obtain ⟨s, hs, hp⟩ := (system ℕ ℕ ⟨4, 8, true⟩).exists_reachable
    [.run, .startRemote 1 (.io 9), .io, .io, .io, .io, .io, .io, .io, .io, .ret .ok, .io, .io, .io,
      .io, .io, .io, .io, .io, .io, .ret .ok, .io, .io, .io, .io, .io, .io, .io, .io, .io, .io, .io,
      .receive, .startRemote 0 (.scheduled 5), .complete 0, .ret .ok, .io, .io, .io, .io,
      .requestStop (.scheduled 5), .finish, .io, .io, .io, .startRemote 1 (.scheduled 6)]
    (fun s => s.pc = .blocked && (s.remote.items = [.scheduled 6] &&
      (s.threads 0 = .wakingUp && s.threads 1 = .idle))) (by decide +kernel)
  simp only [Bool.and_eq_true, decide_eq_true_eq] at hp
  exact ⟨s, hp.2, wake_up_not_lost hs hp.1 (.inl (by rw [hp.2.1]; exact List.cons_ne_nil _ _))⟩

end Loop
end Squiz.LinuxOS.RunLoop
