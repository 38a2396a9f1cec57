import Squiz.Lib.Enumerates
import Squiz.LinuxOS.IoUringOperation.ContextProtocol
import Squiz.LinuxOS.IoUringOperation.Queues

/-! The queues of the context hold live operations only, each at most once, and an operation leaves
them all before its receiver is completed. -/
namespace Squiz.LinuxOS.IoUringOperation
open Squiz.Lib

namespace Op
variable {s t : Op}

/-- In the same queues. -/
structure SameLinks (s t : Op) : Prop where
  remote : t.inRemote = s.inRemote
  ready : t.inReady = s.inReady
  waiting : t.inWaiting = s.inWaiting
  cancel : t.inCancel = s.inCancel
  stop : t.inStop = s.inStop

/-- A step of the I/O thread that has nothing to do with a queue. -/
theorem sameLinks_ioStep {space : Bool} (ht : s.ioStep space = some t)
    (hqueue : (s.io = .trySubmit ∨ s.io = .tryCancel) → space = true)
    (hacquire : s.io ≠ .acquire) (hready : s.io ≠ .removeLocal)
    (hwaiting : s.io ≠ .removeWaiting) : s.SameLinks t := by
  cases hio : s.io with
  | acquire => exact absurd hio hacquire
  | removeLocal => exact absurd hio hready
  | removeWaiting => exact absurd hio hwaiting
  | idle => simp [ioStep, hio] at ht
  | trySubmit =>
    simp only [ioStep, hio, hqueue (.inl hio), trySubmitSqe, if_true, Option.some.injEq] at ht
    subst ht
    exact ⟨rfl, rfl, rfl, rfl, rfl⟩
  | tryCancel =>
    simp only [ioStep, hio, hqueue (.inr hio), if_true, Option.some.injEq] at ht
    subst ht
    exact ⟨rfl, rfl, rfl, rfl, rfl⟩
  | completedAdd cqe =>
    simp only [ioStep, hio] at ht
    split at ht <;> cases ht <;> exact ⟨rfl, rfl, rfl, rfl, rfl⟩
  | requestStop =>
    simp only [ioStep, hio, Option.some.injEq] at ht
    subst ht
    unfold requestStopFromIoThread
    split_ifs <;> exact ⟨rfl, rfl, rfl, rfl, rfl⟩
  | _ =>
    simp only [ioStep, hio, Option.some.injEq] at ht
    subst ht
    exact ⟨rfl, rfl, rfl, rfl, rfl⟩

theorem sameLinks_cqe {cqe : Cqe} (ht : s.step (.cqe cqe) = some t) : s.SameLinks t := by
  simp only [step] at ht
  split at ht <;> cases ht
  unfold handleCompletion
  split <;> exact ⟨rfl, rfl, rfl, rfl, rfl⟩

/-- The receiver is completed at most once in a step, and only by the I/O thread. -/
theorem completions_ioStep {space : Bool} (ht : s.ioStep space = some t) :
    t.completions = s.completions ∨ ∃ signal, t.completions = s.completions ++ [signal] := by
  cases hio : s.io with
  | idle => simp [ioStep, hio] at ht
  | deliver cqe =>
    simp only [ioStep, hio, Option.some.injEq] at ht
    subst ht
    exact .inr ⟨_, rfl⟩
  | setStopped =>
    simp only [ioStep, hio, Option.some.injEq] at ht
    subst ht
    exact .inr ⟨_, rfl⟩
  | trySubmit =>
    simp only [ioStep, hio, trySubmitSqe, Option.some.injEq] at ht
    subst ht
    split <;> exact .inl rfl
  | tryCancel | completedAdd cqe =>
    simp only [ioStep, hio] at ht
    split at ht <;> cases ht <;> exact .inl rfl
  | requestStop =>
    simp only [ioStep, hio, Option.some.injEq] at ht
    subst ht
    unfold requestStopFromIoThread
    split_ifs <;> exact .inl rfl
  | _ =>
    simp only [ioStep, hio, Option.some.injEq] at ht
    subst ht
    exact .inl rfl

theorem completions_of_ne_io {act : Act} (ht : s.step act = some t)
    (hio : ∀ space, act ≠ .io space) : t.completions = s.completions := by
  cases act with
  | io space => exact absurd rfl (hio space)
  | remote =>
    simp only [step] at ht
    unfold remoteStep at ht
    split at ht <;> cases ht <;> rfl
  | cqe cqe =>
    simp only [step] at ht
    split at ht <;> cases ht
    unfold handleCompletion
    split <;> rfl
  | runReady =>
    simp only [step] at ht
    split at ht <;> cases ht
    unfold execute
    split <;> rfl
  | runWaiting =>
    simp only [step] at ht
    split at ht <;> cases ht
    unfold submitSqes
    split <;> rfl
  | runCancel =>
    simp only [step] at ht
    split at ht <;> cases ht
    unfold submitCancelSqes
    split <;> rfl
  | runStop =>
    simp only [step] at ht
    split at ht <;> cases ht
    unfold executeStop
    split <;> rfl
  | _ =>
    simp only [step] at ht
    split at ht <;> cases ht
    rfl

theorem completions_step {act : Act} (ht : s.step act = some t) :
    t.completions = s.completions ∨ ∃ signal, t.completions = s.completions ++ [signal] := by
  cases act with
  | io space => exact completions_ioStep ht
  | _ => exact .inl (completions_of_ne_io ht (by simp))

/-- What the call of an operation that was popped does to its place in the queues. -/
theorem links_runReady (hio : s.io = .idle) (hready : s.inReady = true) :
    ∃ t, s.step .runReady = some t ∧ { s with inReady := false }.SameLinks t := by
  refine ⟨_, if_pos ⟨hio, hready⟩, ?_⟩
  unfold execute
  split <;> exact ⟨rfl, rfl, rfl, rfl, rfl⟩

theorem links_runWaiting (hio : s.io = .idle) (hwaiting : s.inWaiting = true) :
    ∃ t, s.step .runWaiting = some t ∧ { s with inWaiting := false }.SameLinks t := by
  refine ⟨_, if_pos ⟨hio, hwaiting⟩, ?_⟩
  unfold submitSqes
  split <;> exact ⟨rfl, rfl, rfl, rfl, rfl⟩

theorem links_runCancel (hio : s.io = .idle) (hcancel : s.inCancel = true) :
    ∃ t, s.step .runCancel = some t ∧ { s with inCancel := false }.SameLinks t := by
  refine ⟨_, if_pos ⟨hio, hcancel⟩, ?_⟩
  unfold submitCancelSqes
  split <;> exact ⟨rfl, rfl, rfl, rfl, rfl⟩

theorem links_runStop (hio : s.io = .idle) (hstop : s.inStop = true) :
    ∃ t, s.step .runStop = some t ∧ { s with inStop := false }.SameLinks t := by
  refine ⟨_, if_pos ⟨hio, hstop⟩, ?_⟩
  unfold executeStop
  split <;> exact ⟨rfl, rfl, rfl, rfl, rfl⟩

theorem Inv.not_ready_of_remote (h : s.Inv) (hio : s.io = .idle ∨ s.io = .acquire)
    (hready : s.inReady = true) : s.inRemote = false := by
  have hqueued : s.Queued := by
    rcases hio with hio | hio
    · refine ((h.idleOk hio).of_queued ?_).2.1
      rintro ⟨-, hnot⟩
      rw [hready] at hnot
      cases hnot
    · have hok := h.io
      rw [hio] at hok
      exact hok.2.2
  rcases hqueued.1 with ⟨-, hnot⟩ | ⟨hnot, -⟩
  · rw [hready] at hnot
    cases hnot
  · exact hnot

end Op

variable {A : Type} [DecidableEq A] {a b : A}

namespace Context
variable {c c' : Context A}

theorem eq_of_op {act : Act} (ht : c.step (.op a act) = some c') :
    ∃ object op, c.objects a = some object ∧ object.op.step act = some op ∧
      c'.objects = Function.update c.objects a (some { object with op := op }) ∧
      c'.created = c.created := by
  obtain ⟨object, ho, ht⟩ := Option.bind_eq_some_iff.mp ht
  split at ht
  · cases ht
  · split_ifs at ht
    obtain ⟨op, hop, rfl⟩ := Option.map_eq_some_iff.mp ht
    exact ⟨object, op, ho, hop, rfl, rfl⟩

/-- The function of an item is called from the loop. -/
theorem step_op {act : Act} {object : Object} {op : Op} (hbusy : c.busy = none)
    (ho : c.objects a = some object) (hop : object.op.step act = some op)
    (hcqe : ∀ cqe, act ≠ .cqe cqe) : ∃ c', c.step (.op a act) = some c' := by
  simp only [Context.step, ho, Option.bind_some]
  cases act with
  | cqe cqe => exact absurd rfl (hcqe cqe)
  | _ =>
    rw [if_pos (.inr (.inl hbusy)), Context.opStep, hop]
    exact ⟨_, rfl⟩

namespace Inv

theorem idle (h : c.Inv) (hbusy : c.busy = none) {object : Object}
    (ho : c.objects a = some object) : object.op.io = .idle := by
  by_contra hne
  have hsome := h.busy a object ho hne
  rw [hbusy] at hsome
  cases hsome

theorem acquireRemoteItems (h : c.Inv)
    (hidle : ∀ a object, c.objects a = some object → object.op.io = .idle ∨
      object.op.inRemote = false) : c.acquireRemoteItems.Inv := by
  have hobject : ∀ a object, c.acquireRemoteItems.objects a = some object →
      ∃ old, c.objects a = some old ∧ object = { old with op := old.op.acquireRemoteItems } := by
    intro a object ho
    obtain ⟨old, hold, rfl⟩ := Option.map_eq_some_iff.mp ho
    exact ⟨old, hold, rfl⟩
  refine { h with
    reachable := fun a object ho => ?_
    busy := fun a object ho hio => ?_
    matching_entries := fun a => ?_ }
  · obtain ⟨old, hold, rfl⟩ := hobject a object ho
    rcases hidle a old hold with hio | hremote
    · exact (h.reachable a old hold).step (a := .acquire) trivial (if_pos hio)
    · have hsame : old.op.acquireRemoteItems = old.op := by
        rw [Op.acquireRemoteItems, hremote, Bool.or_false, ← hremote]
      rw [hsame]
      exact h.reachable a old hold
  · obtain ⟨old, hold, rfl⟩ := hobject a object ho
    exact h.busy a old hold hio
  · refine (h.matching_entries a).trans ?_
    have hexpected : c.acquireRemoteItems.expected a = c.expected a := by
      unfold expected Context.acquireRemoteItems
      dsimp only
      cases c.objects a <;> rfl
    rw [hexpected]

end Inv
end Context

namespace Queues
variable {q q' : Queues A}

/-- The queues hold the operations that are in them. -/
structure Listed (objects : A → Option Object) (q : Queues A) : Prop where
  remote : Enumerates objects (fun object => object.op.inRemote) q.remote
  ready : Enumerates objects (fun object => object.op.inReady) q.ready
  waiting : Enumerates objects (fun object => object.op.inWaiting) q.waiting
  cancel : Enumerates objects (fun object => object.op.inCancel) q.waitingForCancel
  stop : Enumerates objects (fun object => object.op.inStop) (q.stopItems ++ q.remoteStop)

structure Inv (q : Queues A) : Prop where
  context : q.context.Inv
  listed : Listed q.context.objects q
  noFault : q.fault = false

variable {objects : A → Option Object} {object object' : Object}

theorem Listed.update (h : Listed objects q) (ho : objects a = some object)
    (hsame : object.op.SameLinks object'.op) :
    Listed (Function.update objects a (some object')) q where
  remote := h.remote.update ho hsame.remote
  ready := h.ready.update ho hsame.ready
  waiting := h.waiting.update ho hsame.waiting
  cancel := h.cancel.update ho hsame.cancel
  stop := h.stop.update ho hsame.stop

/-- An operation that may be pushed to a queue is in none that uses the same pointer. -/
theorem Listed.not_linked (h : Listed objects q) (ho : objects a = some object)
    (hgone : object.op.Gone) : q.linked a = false := by
  simp [linked, h.remote.mem_iff ho, h.ready.mem_iff ho, h.waiting.mem_iff ho, hgone.1, hgone.2.1,
    hgone.2.2.1]

theorem Listed.not_stopLinked (h : Listed objects q) (ho : objects a = some object)
    (hcancel : object.op.inCancel = false) (hstop : object.op.inStop = false) :
    q.stopLinked a = false := by
  have hnot : a ∉ q.stopItems ++ q.remoteStop := by
    rw [h.stop.mem_iff ho, hstop]
    exact Bool.false_ne_true
  simp only [stopLinked, List.append_assoc, List.mem_append, h.cancel.mem_iff ho, hcancel]
  simpa using hnot

omit [DecidableEq A] in
theorem Listed.acquire (h : Listed objects q)
    (hboth : ∀ a object, objects a = some object → object.op.inReady = true →
      object.op.inRemote = false) :
    Listed (fun a => (objects a).map fun object =>
      { object with op := object.op.acquireRemoteItems }) q.acquire where
  remote := Enumerates.map_nil fun _ => rfl
  ready := h.ready.map_append h.remote hboth fun _ => rfl
  waiting := h.waiting.map fun _ => rfl
  cancel := h.cancel.map fun _ => rfl
  stop := h.stop.map fun _ => rfl

namespace Inv

theorem op_inv (h : q.Inv) (ho : q.context.objects a = some object) : object.op.Inv :=
  h.context.op_inv ho

/-- A step that leaves the queues alone. -/
theorem frame {c : Context A} (h : q.Inv) (hc : c.Inv) (hlisted : Listed c.objects q) :
    { q with context := c }.Inv where
  context := hc
  listed := { hlisted with }
  noFault := h.noFault

theorem create (h : q.Inv) (ht : q.contextStep (.create a) = some q') : q'.Inv := by
  obtain ⟨c, hc, rfl⟩ := Option.map_eq_some_iff.mp ht
  apply h.frame (h.context.step hc)
  simp only [Context.step] at hc
  split_ifs at hc with hnone
  cases hc
  exact
    { remote := h.listed.remote.create hnone rfl
      ready := h.listed.ready.create hnone rfl
      waiting := h.listed.waiting.create hnone rfl
      cancel := h.listed.cancel.create hnone rfl
      stop := h.listed.stop.create hnone rfl }

theorem destroy (h : q.Inv) (ht : q.contextStep (.destroy a) = some q') : q'.Inv := by
  obtain ⟨c, hc, rfl⟩ := Option.map_eq_some_iff.mp ht
  apply h.frame (h.context.step hc)
  obtain ⟨object, ho, hc⟩ := Option.bind_eq_some_iff.mp hc
  split_ifs at hc with hen
  cases hc
  have hclear := (h.op_inv ho).orderly.clear (.inr (.inr hen.1))
  exact
    { remote := h.listed.remote.destroy ho hclear.inRemote
      ready := h.listed.ready.destroy ho hclear.inReady
      waiting := h.listed.waiting.destroy ho hclear.inWaiting
      cancel := h.listed.cancel.destroy ho hclear.inCancel
      stop := h.listed.stop.destroy ho hclear.inStop }

theorem process (h : q.Inv) (ht : q.contextStep .process = some q') : q'.Inv := by
  obtain ⟨c, hc, rfl⟩ := Option.map_eq_some_iff.mp ht
  apply h.frame (h.context.step hc)
  simp only [Context.step] at hc
  split_ifs at hc
  split at hc
  · cases hc
  · cases hc
    unfold Context.dispatch
    split
    · exact h.listed
    · next object ho =>
      split
      · exact h.listed
      · next op hop => exact h.listed.update ho (Op.sameLinks_cqe hop)
  · cases hc
    exact h.listed

/-- A step of the rings or of the kernel. -/
theorem rings {act : ContextAct A} (h : q.Inv) (ht : q.contextStep act = some q')
    (hobjects : ∀ c, q.context.step act = some c → c.objects = q.context.objects) : q'.Inv := by
  obtain ⟨c, hc, rfl⟩ := Option.map_eq_some_iff.mp ht
  apply h.frame (h.context.step hc)
  rw [hobjects c hc]
  exact h.listed

theorem not_both (h : q.Inv) (hidle : ∀ a object, q.context.objects a = some object →
      object.op.io = .idle ∨ object.op.io = .acquire) (a : A) (object : Object)
    (ho : q.context.objects a = some object) (hready : object.op.inReady = true) :
    object.op.inRemote = false :=
  (h.op_inv ho).not_ready_of_remote (hidle a object ho) hready

theorem acquireRemoteItems (h : q.Inv) (hbusy : q.context.busy = none) : q.acquire.Inv where
  context := h.context.acquireRemoteItems fun _ _ ho => .inl (h.context.idle hbusy ho)
  listed := h.listed.acquire (h.not_both fun _ _ ho => .inl (h.context.idle hbusy ho))
  noFault := h.noFault

theorem delivered (h : q.Inv) (delivered : List (ℕ × Signal)) :
    { q with delivered := delivered }.Inv :=
  ⟨h.context, { h.listed with }, h.noFault⟩

/-- The next step of the I/O thread in a function of the operation. -/
theorem link_io {space : Bool} {c : Context A} {op : Op} (h : q.Inv)
    (ho : q.context.objects a = some object) (hc : c.Inv) (hop : object.op.ioStep space = some op)
    (hobjects : c.objects = Function.update q.context.objects a (some { object with op := op })) :
    ({ q with context := c }.link a object.op (.io space)).Inv := by
  have hlisted := h.listed
  have hok := (h.op_inv ho).io
  have hsame (hlinks : object.op.SameLinks op) : { q with context := c }.Inv :=
    h.frame hc (hobjects ▸ hlisted.update ho hlinks)
  cases hio : object.op.io with
  | trySubmit =>
    rw [hio] at hok
    simp only [Op.ioStep, hio, Option.some.injEq] at hop
    subst hop
    cases space with
    | true =>
      simp only [link, hio]
      exact hsame ⟨rfl, rfl, rfl, rfl, rfl⟩
    | false =>
      have hgone := hok.2.1.1
      have hlinked := hlisted.not_linked ho hgone
      have hlink : ({ q with context := c } : Queues A).link a object.op (.io false) =
          { q with
            context := c
            waiting := q.waiting ++ [a]
            fault := q.fault || q.linked a } := by
        simp only [link, hio]
        rfl
      rw [hlink]
      refine ⟨hc, ?_, ?_⟩
      · rw [hobjects]
        exact
          { remote := hlisted.remote.update ho rfl
            ready := hlisted.ready.update ho rfl
            waiting := hlisted.waiting.push ho hgone.2.2.1 rfl
            cancel := hlisted.cancel.update ho rfl
            stop := hlisted.stop.update ho rfl }
      · exact Bool.or_eq_false_iff.mpr ⟨h.noFault, hlinked⟩
  | tryCancel =>
    rw [hio] at hok
    simp only [Op.ioStep, hio] at hop
    cases space with
    | true =>
      cases hop
      simp only [link, hio]
      exact hsame ⟨rfl, rfl, rfl, rfl, rfl⟩
    | false =>
      cases hop
      have hhandling := hok.2.1
      have hlinked := hlisted.not_stopLinked ho hhandling.2.2 hhandling.1.2.2.1
      have hlink : ({ q with context := c } : Queues A).link a object.op (.io false) =
          { q with
            context := c
            waitingForCancel := q.waitingForCancel ++ [a]
            fault := q.fault || q.stopLinked a } := by
        simp only [link, hio]
        rfl
      rw [hlink]
      refine ⟨hc, ?_, ?_⟩
      · rw [hobjects]
        exact
          { remote := hlisted.remote.update ho rfl
            ready := hlisted.ready.update ho rfl
            waiting := hlisted.waiting.update ho rfl
            cancel := hlisted.cancel.push ho hhandling.2.2 rfl
            stop := hlisted.stop.update ho rfl }
      · exact Bool.or_eq_false_iff.mpr ⟨h.noFault, hlinked⟩
  | acquire =>
    simp only [Op.ioStep, hio, Option.some.injEq] at hop
    have hidle : ∀ b object', q.context.objects b = some object' →
        object'.op.io = .idle ∨ object'.op.io = .acquire := by
      intro b object' hb
      by_cases hne : object'.op.io = .idle
      · exact .inl hne
      · have hbusy := h.context.busy b object' hb hne
        rw [h.context.busy a object ho (by simp [hio])] at hbusy
        cases hbusy
        rw [ho] at hb
        cases hb
        exact .inr hio
    have hacquired := hlisted.acquire (h.not_both hidle)
    have hitem : ((q.context.objects a).map fun object =>
        { object with op := object.op.acquireRemoteItems }) =
        some { object with op := object.op.acquireRemoteItems } := by
      rw [ho]
      rfl
    simp only [link, hio]
    refine ⟨?_, ?_, h.noFault⟩
    · apply hc.acquireRemoteItems
      intro b object' hb
      rw [hobjects] at hb
      by_cases hba : b = a
      · subst hba
        rw [Function.update_self] at hb
        cases hb
        rw [← hop]
        exact .inr rfl
      · rw [Function.update_of_ne hba] at hb
        rcases hidle b object' hb with hidle | hacquire
        · exact .inl hidle
        · have hbusy := h.context.busy b object' hb (by simp [hacquire])
          rw [h.context.busy a object ho (by simp [hio])] at hbusy
          exact absurd (Option.some.inj hbusy).symm hba
    · -- the operation has acquired its own item, and finds none when all are acquired
      have hsame : object.op.acquireRemoteItems.SameLinks { object with op := op }.op := by
        rw [← hop]
        exact ⟨rfl, rfl, rfl, rfl, rfl⟩
      have hupdate := hacquired.update hitem hsame
      have heq : c.acquireRemoteItems.objects = Function.update
          (fun b => (q.context.objects b).map fun object =>
            { object with op := object.op.acquireRemoteItems }) a
          (some { object with op := op }) := by
        funext b
        simp only [Context.acquireRemoteItems, hobjects]
        by_cases hba : b = a
        · subst hba
          rw [Function.update_self, Function.update_self, ← hop]
          simp [Op.acquireRemoteItems]
        · rw [Function.update_of_ne hba, Function.update_of_ne hba]
      show Listed c.acquireRemoteItems.objects _
      rw [heq]
      exact { hupdate with }
  | removeLocal =>
    rw [hio] at hok
    simp only [Op.ioStep, hio, Option.some.injEq] at hop
    subst hop
    have hmem : a ∈ q.ready := (hlisted.ready.mem_iff ho).mpr hok.2.2.2
    simp only [link, hio]
    refine ⟨hc, ?_, ?_⟩
    · rw [hobjects]
      exact
        { remote := hlisted.remote.update ho rfl
          ready := hlisted.ready.erase rfl
          waiting := hlisted.waiting.update ho rfl
          cancel := hlisted.cancel.update ho rfl
          stop := hlisted.stop.update ho rfl }
    · simp [h.noFault, hmem]
  | removeWaiting =>
    rw [hio] at hok
    simp only [Op.ioStep, hio, Option.some.injEq] at hop
    subst hop
    have hmem : a ∈ q.waiting := (hlisted.waiting.mem_iff ho).mpr hok.2.2.2.2.1
    simp only [link, hio]
    refine ⟨hc, ?_, ?_⟩
    · rw [hobjects]
      exact
        { remote := hlisted.remote.update ho rfl
          ready := hlisted.ready.update ho rfl
          waiting := hlisted.waiting.erase rfl
          cancel := hlisted.cancel.update ho rfl
          stop := hlisted.stop.update ho rfl }
    · simp [h.noFault, hmem]
  | _ =>
    simp only [link, hio]
    apply hsame
    apply Op.sameLinks_ioStep hop <;> simp [hio]

/-- The next step of another thread in a function of the operation. -/
theorem link_remote {c : Context A} {op : Op} (h : q.Inv)
    (ho : q.context.objects a = some object) (hc : c.Inv) (hop : object.op.remoteStep = some op)
    (hobjects : c.objects = Function.update q.context.objects a (some { object with op := op })) :
    ({ q with context := c }.link a object.op .remote).Inv := by
  have hlisted := h.listed
  have hsame (hlinks : object.op.SameLinks op) : { q with context := c }.Inv :=
    h.frame hc (hobjects ▸ hlisted.update ho hlinks)
  cases hremote : object.op.remote with
  | idle => simp [Op.remoteStep, hremote] at hop
  | startEnqueue =>
    simp only [Op.remoteStep, hremote, Option.some.injEq] at hop
    subst hop
    have hgone : object.op.Gone := by
      rcases (h.op_inv ho).io.stage (by simp [hremote]) with ⟨-, hunstarted, -⟩ | ⟨-, hstage⟩
      · exact hunstarted.1
      · simp [Op.Open, Op.NoStop, Op.Posting, Op.Closed, Op.RemoteLate, hremote] at hstage
    have hlinked := hlisted.not_linked ho hgone
    simp only [link, hremote]
    refine ⟨hc, ?_, ?_⟩
    · rw [hobjects]
      exact
        { remote := hlisted.remote.push ho hgone.1 rfl
          ready := hlisted.ready.update ho rfl
          waiting := hlisted.waiting.update ho rfl
          cancel := hlisted.cancel.update ho rfl
          stop := hlisted.stop.update ho rfl }
    · exact Bool.or_eq_false_iff.mpr ⟨h.noFault, hlinked⟩
  | stopEnqueue =>
    simp only [Op.remoteStep, hremote, Option.some.injEq] at hop
    subst hop
    have hposting : object.op.inCancel = false ∧ object.op.inStop = false := by
      rcases (h.op_inv ho).io.stage (by simp [hremote]) with ⟨-, -, hstart⟩ | ⟨-, hstage⟩
      · simp [Op.RemoteStart, hremote] at hstart
      · simp only [Op.Open, Op.NoStop, Op.Posting, Op.Closed, Op.RemoteLate, hremote] at hstage
        tauto
    have hlinked := hlisted.not_stopLinked ho hposting.1 hposting.2
    simp only [link, hremote]
    refine ⟨hc, ?_, ?_⟩
    · rw [hobjects]
      exact
        { remote := hlisted.remote.update ho rfl
          ready := hlisted.ready.update ho rfl
          waiting := hlisted.waiting.update ho rfl
          cancel := hlisted.cancel.update ho rfl
          stop := by
            rw [← List.append_assoc]
            exact hlisted.stop.push ho hposting.2 rfl }
    · exact Bool.or_eq_false_iff.mpr ⟨h.noFault, hlinked⟩
  | _ =>
    simp only [Op.remoteStep, hremote, Option.some.injEq] at hop
    subst hop
    simp only [link, hremote]
    exact hsame ⟨rfl, rfl, rfl, rfl, rfl⟩

theorem opStep {act : Act} (h : q.Inv) (ho : q.context.objects a = some object)
    (hact : act.fromQueue = false) (ht : q.opStep a act object = some q') : q'.Inv := by
  obtain ⟨c, hc, rfl⟩ := Option.map_eq_some_iff.mp ht
  obtain ⟨object', op, ho', hop, hobjects, -⟩ := Context.eq_of_op hc
  rw [ho] at ho'
  cases ho'
  have hcinv := h.context.step hc
  apply Inv.delivered
  cases act with
  | io space => exact h.link_io ho hcinv hop hobjects
  | remote => exact h.link_remote ho hcinv hop hobjects
  | startLocal | startRemote | stopLocal | stopRemote =>
    simp only [Op.step] at hop
    split_ifs at hop
    cases hop
    apply h.frame hcinv
    rw [hobjects]
    exact h.listed.update ho ⟨rfl, rfl, rfl, rfl, rfl⟩
  | _ => cases hact

/-- The operation at `a`, which the I/O thread has popped from a queue, was in that queue. -/
theorem call {act : Act} {op : Op} {r : Queues A} (h : q.Inv) (hbusy : q.context.busy = none)
    (ho : q.context.objects a = some object) (hop : object.op.step act = some op)
    (hcqe : ∀ cqe, act ≠ .cqe cqe) (hcontext : r.context = q.context) (hfault : r.fault = q.fault)
    (hlisted : Listed (Function.update q.context.objects a (some { object with op := op })) r) :
    (r.call a act).Inv := by
  obtain ⟨c, hc⟩ := Context.step_op hbusy ho hop hcqe
  obtain ⟨object', op', ho', hop', hobjects, -⟩ := Context.eq_of_op hc
  rw [ho] at ho'
  cases ho'
  rw [hop] at hop'
  cases hop'
  unfold Queues.call
  rw [hcontext, hc]
  refine ⟨h.context.step hc, ?_, hfault.trans h.noFault⟩
  rw [hobjects]
  exact { hlisted with }

theorem runReady {l : List A} (h : q.Inv) (hbusy : q.context.busy = none)
    (hready : q.ready = a :: l) : ({ q with ready := l }.call a .runReady).Inv := by
  have hlisted := h.listed
  have henumerates := hlisted.ready
  rw [hready] at henumerates
  obtain ⟨object, ho, hflag⟩ := henumerates.head
  obtain ⟨op, hop, hlinks⟩ := Op.links_runReady (h.context.idle hbusy ho) hflag
  refine h.call hbusy ho hop (by simp) rfl rfl ?_
  exact
    { remote := hlisted.remote.update ho hlinks.remote
      ready := henumerates.pop hlinks.ready
      waiting := hlisted.waiting.update ho hlinks.waiting
      cancel := hlisted.cancel.update ho hlinks.cancel
      stop := hlisted.stop.update ho hlinks.stop }

theorem runWaiting {l : List A} (h : q.Inv) (hbusy : q.context.busy = none)
    (hwaiting : q.waiting = a :: l) : ({ q with waiting := l }.call a .runWaiting).Inv := by
  have hlisted := h.listed
  have henumerates := hlisted.waiting
  rw [hwaiting] at henumerates
  obtain ⟨object, ho, hflag⟩ := henumerates.head
  obtain ⟨op, hop, hlinks⟩ := Op.links_runWaiting (h.context.idle hbusy ho) hflag
  refine h.call hbusy ho hop (by simp) rfl rfl ?_
  exact
    { remote := hlisted.remote.update ho hlinks.remote
      ready := hlisted.ready.update ho hlinks.ready
      waiting := henumerates.pop hlinks.waiting
      cancel := hlisted.cancel.update ho hlinks.cancel
      stop := hlisted.stop.update ho hlinks.stop }

theorem runCancel {l : List A} (h : q.Inv) (hbusy : q.context.busy = none)
    (hcancel : q.waitingForCancel = a :: l) :
    ({ q with waitingForCancel := l }.call a .runCancel).Inv := by
  have hlisted := h.listed
  have henumerates := hlisted.cancel
  rw [hcancel] at henumerates
  obtain ⟨object, ho, hflag⟩ := henumerates.head
  obtain ⟨op, hop, hlinks⟩ := Op.links_runCancel (h.context.idle hbusy ho) hflag
  refine h.call hbusy ho hop (by simp) rfl rfl ?_
  exact
    { remote := hlisted.remote.update ho hlinks.remote
      ready := hlisted.ready.update ho hlinks.ready
      waiting := hlisted.waiting.update ho hlinks.waiting
      cancel := henumerates.pop hlinks.cancel
      stop := hlisted.stop.update ho hlinks.stop }

theorem runStop {l : List A} (h : q.Inv) (hbusy : q.context.busy = none)
    (hstop : q.stopItems = a :: l) : ({ q with stopItems := l }.call a .runStop).Inv := by
  have hlisted := h.listed
  have henumerates := hlisted.stop
  rw [hstop, List.cons_append] at henumerates
  obtain ⟨object, ho, hflag⟩ := henumerates.head
  obtain ⟨op, hop, hlinks⟩ := Op.links_runStop (h.context.idle hbusy ho) hflag
  refine h.call hbusy ho hop (by simp) rfl rfl ?_
  exact
    { remote := hlisted.remote.update ho hlinks.remote
      ready := hlisted.ready.update ho hlinks.ready
      waiting := hlisted.waiting.update ho hlinks.waiting
      cancel := hlisted.cancel.update ho hlinks.cancel
      stop := henumerates.pop hlinks.stop }

theorem dequeueStopItems (h : q.Inv) (hitems : q.stopItems = []) :
    { q with stopItems := q.remoteStop.reverse, remoteStop := [] }.Inv where
  context := h.context
  listed :=
    { h.listed with
      stop := by
        have hstop := h.listed.stop
        rw [hitems, List.nil_append] at hstop
        rw [List.append_nil]
        exact ⟨List.nodup_reverse.mpr hstop.nodup, fun a => by
          rw [List.mem_reverse, hstop.mem]⟩ }
  noFault := h.noFault

theorem step {act : QueuesAct A} (h : q.Inv) (ht : q.step act = some q') : q'.Inv := by
  cases act with
  | create a => exact h.create ht
  | destroy a => exact h.destroy ht
  | op a act =>
    simp only [Queues.step] at ht
    split_ifs at ht with hact
    obtain ⟨object, ho, ht⟩ := Option.bind_eq_some_iff.mp ht
    exact h.opStep ho (Bool.of_not_eq_true hact) ht
  | submitWakeUp =>
    apply h.rings ht
    intro c hc
    cases hc
    rfl
  | receive =>
    apply h.rings ht
    intro c hc
    simp only [Context.step] at hc
    split at hc <;> cases hc
    rfl
  | complete i cqe =>
    apply h.rings ht
    intro c hc
    obtain ⟨entry, -, rfl⟩ := Option.map_eq_some_iff.mp hc
    rfl
  | process => exact h.process ht
  | acquireRemoteItems =>
    simp only [Queues.step] at ht
    split_ifs at ht with hen
    cases ht
    exact h.acquireRemoteItems hen.1
  | runReady =>
    simp only [Queues.step] at ht
    split at ht
    · cases ht
    · next a l hready =>
      split_ifs at ht with hbusy
      cases ht
      exact h.runReady hbusy hready
  | dequeueStopItems =>
    simp only [Queues.step] at ht
    split_ifs at ht with hen
    cases ht
    exact h.dequeueStopItems hen.2.1
  | runStop =>
    simp only [Queues.step] at ht
    split at ht
    · cases ht
    · next a l hitems =>
      split_ifs at ht with hbusy
      cases ht
      exact h.runStop hbusy hitems
  | runCancel =>
    simp only [Queues.step] at ht
    split at ht
    · cases ht
    · next a l hitems =>
      split_ifs at ht with hbusy
      cases ht
      exact h.runCancel hbusy hitems
  | runWaiting =>
    simp only [Queues.step] at ht
    split at ht
    · cases ht
    · next a l hitems =>
      split_ifs at ht with hbusy
      cases ht
      exact h.runWaiting hbusy hitems

theorem init : (system A).init.Inv where
  context := Context.inv_init
  listed := ⟨.empty, .empty, .empty, .empty, .empty⟩
  noFault := rfl

end Inv
/-- Each object completes its receiver at most once. -/
structure Delivers (q : Queues A) : Prop where
  ids : ∀ a object, q.context.objects a = some object → object.id < q.context.created
  distinct : ∀ a b object object', q.context.objects a = some object →
    q.context.objects b = some object' → object.id = object'.id → a = b
  bound : ∀ id ∈ q.delivered.map Prod.fst, id < q.context.created
  pending : ∀ a object, q.context.objects a = some object →
    (object.op.completions = [] ↔ object.id ∉ q.delivered.map Prod.fst)
  nodup : (q.delivered.map Prod.fst).Nodup

/-- The objects are those that there were, and have completed their receivers as before. -/
def SameCompletions (c c' : Context A) : Prop :=
  c'.created = c.created ∧ ∀ a object', c'.objects a = some object' →
    ∃ object, c.objects a = some object ∧ object'.id = object.id ∧
      object'.op.completions = object.op.completions

omit [DecidableEq A] in
theorem SameCompletions.refl (c : Context A) : SameCompletions c c :=
  ⟨rfl, fun _ object ho => ⟨object, ho, rfl, rfl⟩⟩

omit [DecidableEq A] in
theorem SameCompletions.trans {c c' c'' : Context A} (h : SameCompletions c c')
    (h' : SameCompletions c' c'') : SameCompletions c c'' := by
  refine ⟨h'.1.trans h.1, fun a object'' ho'' => ?_⟩
  obtain ⟨object', ho', hid', hcompletions'⟩ := h'.2 a object'' ho''
  obtain ⟨object, ho, hid, hcompletions⟩ := h.2 a object' ho'
  exact ⟨object, ho, hid'.trans hid, hcompletions'.trans hcompletions⟩

theorem sameCompletions_update {c c' : Context A} {op : Op} (ho : c.objects a = some object)
    (hobjects : c'.objects = Function.update c.objects a (some { object with op := op }))
    (hcreated : c'.created = c.created) (hop : op.completions = object.op.completions) :
    SameCompletions c c' := by
  refine ⟨hcreated, fun b object' hb => ?_⟩
  rw [hobjects] at hb
  by_cases hba : b = a
  · subst hba
    rw [Function.update_self] at hb
    cases hb
    exact ⟨object, ho, rfl, hop⟩
  · rw [Function.update_of_ne hba] at hb
    exact ⟨object', hb, rfl, rfl⟩

omit [DecidableEq A] in
theorem sameCompletions_acquire (c : Context A) : SameCompletions c c.acquireRemoteItems := by
  refine ⟨rfl, fun a object' ho' => ?_⟩
  obtain ⟨object, ho, rfl⟩ := Option.map_eq_some_iff.mp ho'
  exact ⟨object, ho, rfl, rfl⟩

theorem link_delivered (q : Queues A) (a : A) (op : Op) (act : Act) :
    (q.link a op act).delivered = q.delivered ∧
      SameCompletions q.context (q.link a op act).context := by
  have hsame := SameCompletions.refl q.context
  unfold link
  cases act with
  | io space =>
    dsimp only
    split
    · split_ifs <;> exact ⟨rfl, hsame⟩
    · split_ifs <;> exact ⟨rfl, hsame⟩
    · exact ⟨rfl, sameCompletions_acquire q.context⟩
    all_goals exact ⟨rfl, hsame⟩
  | remote =>
    dsimp only
    split <;> exact ⟨rfl, hsame⟩
  | _ => exact ⟨rfl, hsame⟩

namespace Delivers

omit [DecidableEq A] in
theorem congr (h : q.Delivers) (hsame : SameCompletions q.context q'.context)
    (hdelivered : q'.delivered = q.delivered) : q'.Delivers := by
  obtain ⟨hcreated, hobjects⟩ := hsame
  constructor
  · intro a object' ho'
    obtain ⟨object, ho, hid, -⟩ := hobjects a object' ho'
    rw [hid, hcreated]
    exact h.ids a object ho
  · intro a b object' object'' ho' ho'' heq
    obtain ⟨object, ho, hid, -⟩ := hobjects a object' ho'
    obtain ⟨other, hother, hid', -⟩ := hobjects b object'' ho''
    exact h.distinct a b object other ho hother (by rw [← hid, ← hid', heq])
  · rw [hdelivered, hcreated]
    exact h.bound
  · intro a object' ho'
    obtain ⟨object, ho, hid, hcompletions⟩ := hobjects a object' ho'
    rw [hid, hcompletions, hdelivered]
    exact h.pending a object ho
  · rw [hdelivered]
    exact h.nodup

/-- An operation completes its receiver. -/
theorem deliver {op : Op} {signal : Signal} (h : q.Delivers)
    (ho : q.context.objects a = some object) (hold : object.op.completions = [])
    (hnew : op.completions = [signal]) (hcreated : q'.context.created = q.context.created)
    (hobjects : q'.context.objects =
      Function.update q.context.objects a (some { object with op := op }))
    (hdelivered : q'.delivered = q.delivered ++ [(object.id, signal)]) : q'.Delivers := by
  have hmap : q'.delivered.map Prod.fst = q.delivered.map Prod.fst ++ [object.id] := by
    rw [hdelivered, List.map_append, List.map_singleton]
  have hnot := (h.pending a object ho).mp hold
  have hobject : ∀ b object', q'.context.objects b = some object' →
      ∃ object'', q.context.objects b = some object'' ∧ object'.id = object''.id ∧
        (b = a → object'.op.completions = [signal]) ∧ (b ≠ a → object' = object'') := by
    intro b object' hb
    rw [hobjects] at hb
    by_cases hba : b = a
    · subst hba
      rw [Function.update_self] at hb
      cases hb
      exact ⟨object, ho, rfl, fun _ => hnew, fun hne => absurd rfl hne⟩
    · rw [Function.update_of_ne hba] at hb
      exact ⟨object', hb, rfl, fun heq => absurd heq hba, fun _ => rfl⟩
  constructor
  · intro b object' hb
    obtain ⟨object'', hb'', hid, -⟩ := hobject b object' hb
    rw [hid, hcreated]
    exact h.ids b object'' hb''
  · intro b b' object' object'' hb hb' heq
    obtain ⟨other, hother, hid, -⟩ := hobject b object' hb
    obtain ⟨other', hother', hid', -⟩ := hobject b' object'' hb'
    exact h.distinct b b' other other' hother hother' (by rw [← hid, ← hid', heq])
  · intro id hid
    rw [hmap, List.mem_append, List.mem_singleton] at hid
    rw [hcreated]
    rcases hid with hid | rfl
    · exact h.bound id hid
    · exact h.ids a object ho
  · intro b object' hb
    obtain ⟨object'', hb'', hid, hself, hother⟩ := hobject b object' hb
    rw [hmap, List.mem_append, List.mem_singleton, hid]
    by_cases hba : b = a
    · subst hba
      rw [ho] at hb''
      cases hb''
      simp [hself rfl]
    · have hne : object''.id ≠ object.id := fun heq =>
        hba (h.distinct b a object'' object hb'' ho heq)
      rw [hother hba, h.pending b object'' hb'']
      simp [hne]
  · rw [hmap]
    refine List.nodup_append.mpr ⟨h.nodup, List.nodup_singleton _, ?_⟩
    rintro id hid id' hid' rfl
    rw [List.mem_singleton] at hid'
    exact hnot (hid' ▸ hid)

theorem create (h : q.Delivers) (hnone : q.context.objects a = none)
    {c : Context A} (hobjects : c.objects = Function.update q.context.objects a
      (some ⟨q.context.created, {}⟩)) (hcreated : c.created = q.context.created + 1) :
    { q with context := c }.Delivers := by
  have hobject : ∀ b object', c.objects b = some object' →
      b = a ∧ object' = ⟨q.context.created, {}⟩ ∨ b ≠ a ∧ q.context.objects b = some object' := by
    intro b object' hb
    rw [hobjects] at hb
    by_cases hba : b = a
    · subst hba
      rw [Function.update_self] at hb
      exact .inl ⟨rfl, (Option.some.inj hb).symm⟩
    · rw [Function.update_of_ne hba] at hb
      exact .inr ⟨hba, hb⟩
  constructor
  · intro b object' hb
    simp only [hcreated]
    rcases hobject b object' hb with ⟨-, rfl⟩ | ⟨-, hb⟩
    · exact Nat.lt_succ_self _
    · exact Nat.lt_succ_of_lt (h.ids b object' hb)
  · intro b b' object' object'' hb hb' heq
    rcases hobject b object' hb with ⟨rfl, rfl⟩ | ⟨-, hold⟩
    · rcases hobject b' object'' hb' with ⟨rfl, -⟩ | ⟨-, hold'⟩
      · rfl
      · have hlt := h.ids b' object'' hold'
        rw [← heq] at hlt
        exact absurd hlt (lt_irrefl _)
    · rcases hobject b' object'' hb' with ⟨rfl, rfl⟩ | ⟨-, hold'⟩
      · have hlt := h.ids b object' hold
        rw [heq] at hlt
        exact absurd hlt (lt_irrefl _)
      · exact h.distinct b b' object' object'' hold hold' heq
  · intro id hid
    simp only [hcreated]
    exact Nat.lt_succ_of_lt (h.bound id hid)
  · intro b object' hb
    rcases hobject b object' hb with ⟨rfl, rfl⟩ | ⟨-, hold⟩
    · refine ⟨fun _ hmem => ?_, fun _ => rfl⟩
      exact absurd (h.bound _ hmem) (lt_irrefl _)
    · exact h.pending b object' hold
  · exact h.nodup

theorem opStep {act : Act} (h : q.Delivers) (hinv : q.Inv)
    (ho : q.context.objects a = some object) (ht : q.opStep a act object = some q') :
    q'.Delivers := by
  obtain ⟨c, hc, rfl⟩ := Option.map_eq_some_iff.mp ht
  obtain ⟨object', op, ho', hop, hobjects, hcreated⟩ := Context.eq_of_op hc
  rw [ho] at ho'
  cases ho'
  have hself : c.objects a = some { object with op := op } := by
    rw [hobjects, Function.update_self]
  obtain ⟨hdelivered, hlink⟩ := link_delivered { q with context := c } a object.op act
  simp only [hself, Option.elim_some]
  rcases Op.completions_step hop with hsame | ⟨signal, hnew⟩
  · refine h.congr ((sameCompletions_update ho hobjects hcreated hsame).trans hlink) ?_
    rw [hsame, List.drop_length, List.map_nil, List.append_nil]
  · have hold : object.op.completions = [] := by
      have hlength := ((hinv.context.step hc).op_inv hself).orderly.completed_once
      rw [hnew, List.length_append, List.length_singleton] at hlength
      exact List.length_eq_zero_iff.mp (by omega)
    rw [hold, List.nil_append] at hnew
    have hmoved : { q with
        context := c, delivered := q.delivered ++ [(object.id, signal)] }.Delivers :=
      h.deliver ho hold hnew hcreated hobjects rfl
    refine hmoved.congr hlink ?_
    rw [hold, hnew]
    rfl

theorem call {act : Act} {r : Queues A} (h : q.Delivers) (hact : ∀ space, act ≠ .io space)
    (hcontext : r.context = q.context) (hdelivered : r.delivered = q.delivered) :
    (r.call a act).Delivers := by
  unfold Queues.call
  split
  · next c hc =>
    rw [hcontext] at hc
    obtain ⟨object, op, ho, hop, hobjects, hcreated⟩ := Context.eq_of_op hc
    have hsame := Op.completions_of_ne_io hop hact
    exact h.congr (sameCompletions_update ho hobjects hcreated hsame) hdelivered
  · refine h.congr ?_ hdelivered
    show SameCompletions q.context r.context
    rw [hcontext]
    exact .refl _

theorem contextStep {act : ContextAct A} (h : q.Delivers) (ht : q.contextStep act = some q')
    (hsame : ∀ c, q.context.step act = some c → SameCompletions q.context c) : q'.Delivers := by
  obtain ⟨c, hc, rfl⟩ := Option.map_eq_some_iff.mp ht
  exact h.congr (hsame c hc) rfl

theorem step {act : QueuesAct A} (h : q.Delivers) (hinv : q.Inv) (ht : q.step act = some q') :
    q'.Delivers := by
  cases act with
  | create a =>
    obtain ⟨c, hc, rfl⟩ := Option.map_eq_some_iff.mp ht
    simp only [Context.step] at hc
    split_ifs at hc with hnone
    cases hc
    exact h.create hnone rfl rfl
  | destroy a =>
    apply h.contextStep ht
    intro c hc
    obtain ⟨object, ho, hc⟩ := Option.bind_eq_some_iff.mp hc
    split_ifs at hc
    cases hc
    refine ⟨rfl, fun b object' hb => ?_⟩
    by_cases hba : b = a
    · subst hba
      simp at hb
    · simp only [Function.update_of_ne hba] at hb
      exact ⟨object', hb, rfl, rfl⟩
  | op a act =>
    simp only [Queues.step] at ht
    split_ifs at ht
    obtain ⟨object, ho, ht⟩ := Option.bind_eq_some_iff.mp ht
    exact h.opStep hinv ho ht
  | submitWakeUp =>
    apply h.contextStep ht
    intro c hc
    cases hc
    exact .refl _
  | receive =>
    apply h.contextStep ht
    intro c hc
    simp only [Context.step] at hc
    split at hc <;> cases hc
    exact .refl _
  | complete i cqe =>
    apply h.contextStep ht
    intro c hc
    obtain ⟨entry, -, rfl⟩ := Option.map_eq_some_iff.mp hc
    exact .refl _
  | process =>
    apply h.contextStep ht
    intro c hc
    simp only [Context.step] at hc
    split_ifs at hc
    split at hc
    · cases hc
    · cases hc
      unfold Context.dispatch
      split
      · exact .refl _
      · next object ho =>
        split
        · exact .refl _
        · next op hop =>
          have hsame := Op.completions_of_ne_io hop (by simp)
          exact sameCompletions_update ho rfl rfl hsame
    · cases hc
      exact .refl _
  | acquireRemoteItems =>
    simp only [Queues.step] at ht
    split_ifs at ht
    cases ht
    exact h.congr (sameCompletions_acquire q.context) rfl
  | dequeueStopItems =>
    simp only [Queues.step] at ht
    split_ifs at ht
    cases ht
    exact h.congr (.refl _) rfl
  | runReady | runStop | runCancel | runWaiting =>
    simp only [Queues.step] at ht
    split at ht
    · cases ht
    · split_ifs at ht
      cases ht
      exact h.call (by simp) rfl rfl

theorem init : (system A).init.Delivers where
  ids := fun _ _ h => by cases h
  distinct := fun _ _ _ _ h => by cases h
  bound := fun _ h => by cases h
  pending := fun _ _ h => by cases h
  nodup := .nil

end Delivers

/-- What the queues and the receivers can rely on. -/
structure Safe (q : Queues A) : Prop where
  context : q.context.Orderly
  /-- no queue is corrupted, and what is popped from one is an operation that waits there -/
  links : q.fault = false
  /-- no queue refers to an operation-state that was destroyed -/
  alive : ∀ a, q.linked a = true ∨ q.stopLinked a = true → q.context.objects a ≠ none
  /-- no queue refers to an operation whose receiver was completed -/
  completed : ∀ a object, q.context.objects a = some object → object.op.completions ≠ [] →
    q.linked a = false ∧ q.stopLinked a = false
  /-- no receiver is completed twice -/
  once : (q.delivered.map Prod.fst).Nodup

theorem Inv.safe (h : q.Inv) (hdelivers : q.Delivers) : q.Safe where
  context := ⟨h.context.hits, h.context.dispatched, h.context.ok⟩
  links := h.noFault
  alive a hlinked hnone := by
    have hnot : ∀ {flag : Object → Bool} {l : List A},
        Enumerates q.context.objects flag l → a ∉ l := by
      intro flag l henumerates hmem
      obtain ⟨object, ho, -⟩ := henumerates.exists_of_mem hmem
      rw [hnone] at ho
      cases ho
    have hstop := hnot h.listed.stop
    rw [List.mem_append, not_or] at hstop
    simp [linked, stopLinked, hnot h.listed.remote, hnot h.listed.ready, hnot h.listed.waiting,
      hnot h.listed.cancel, hstop.1, hstop.2] at hlinked
  completed a object ho hne := by
    have hclear := (h.op_inv ho).orderly.clear (.inr (.inr hne))
    refine ⟨?_, h.listed.not_stopLinked ho hclear.inCancel hclear.inStop⟩
    simp [linked, h.listed.remote.mem_iff ho, h.listed.ready.mem_iff ho,
      h.listed.waiting.mem_iff ho, hclear.inRemote, hclear.inReady, hclear.inWaiting]
  once := hdelivers.nodup

theorem inv_of_reachable (hq : (system A).Reachable q) : q.Inv ∧ q.Delivers :=
  hq.invariant (P := fun q => q.Inv ∧ q.Delivers) ⟨.init, .init⟩
    fun _ _ _ h _ ht => ⟨h.1.step ht, h.2.step h.1 ht⟩

/-- Whatever the operations, their owners, the other threads and the kernel do. -/
theorem queues_safe (hq : (system A).Reachable q) : q.Safe :=
  (inv_of_reachable hq).1.safe (inv_of_reachable hq).2

/-- One operation waits for an SQE and is stopped, while a remote thread starts another one, whose
CQE is processed before its stop request. -/
theorem queues_safe_run : ∃ q : Queues ℕ,
    (q.delivered = [(0, .stopped), (1, .complete (7, 0))] ∧ q.remoteStop = [] ∧
      q.context.objects 8 = none) ∧ q.Safe := by
  obtain ⟨q, hq, hp⟩ := (system ℕ).exists_reachable
    [.create 8, .create 16, .op 16 .startRemote, .op 8 .startLocal, .op 8 (.io false),
      .op 16 .remote, .op 16 .remote, .op 16 .remote, .acquireRemoteItems, .op 8 .stopLocal,
      .op 8 (.io true), .op 8 (.io true), .op 8 (.io true), .op 8 (.io true), .destroy 8,
      .runReady, .op 16 (.io true), .op 16 (.io true), .receive, .op 16 .stopRemote,
      .op 16 .remote, .op 16 .remote, .complete 0 (7, 0), .process, .op 16 (.io true),
      .op 16 .remote, .op 16 (.io true), .op 16 .remote, .dequeueStopItems, .runStop,
      .op 16 (.io true), .op 16 (.io true)]
    (fun q => q.delivered = [(0, .stopped), (1, .complete (7, 0))] && q.remoteStop = [] &&
      q.context.objects 8 = none) (by decide +kernel)
  exact ⟨q, by simpa [and_assoc] using hp, queues_safe hq⟩

end Queues
end Squiz.LinuxOS.IoUringOperation
