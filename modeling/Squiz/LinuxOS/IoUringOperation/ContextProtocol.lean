import Squiz.LinuxOS.IoUringOperation.Context
import Mathlib.Data.List.Perm.Basic

/-! A cancel request matches only the operation that asked for it, and every CQE finds the
operation that submitted it. -/
namespace Squiz.LinuxOS.IoUringOperation
open Squiz.Lib

namespace Op
variable {s t : Op}

theorem remote_io {a : Act} (ha : a.isRemote = true) (ht : s.step a = some t) : t.io = s.io := by
  cases a with
  | startRemote | stopRemote =>
    simp only [Op.step] at ht
    split at ht <;> cases ht
    rfl
  | remote =>
    simp only [Op.step] at ht
    unfold Op.remoteStep at ht
    split at ht <;> cases ht <;> rfl
  | _ => cases ha

/-- A step that does not process the CQE enqueues nothing, or the operation's SQE, which it has not
enqueued before, or a cancel request while the CQE is still to come. -/
def Emits (s t : Op) : Prop :=
  t.submits = s.submits ∧ t.cancels = s.cancels ∧ t.outstanding = s.outstanding ∨
    t.submits = s.submits + 1 ∧ t.cancels = s.cancels ∧ s.outstanding = false ∧
      t.outstanding = true ∨
    t.submits = s.submits ∧ t.cancels = s.cancels + 1 ∧ s.outstanding = true ∧
      t.outstanding = true

theorem Inv.emits_ioStep {space : Bool} (h : s.Inv) (ht : s.ioStep space = some t) :
    s.Emits t := by
  have hio := h.io
  cases hpc : s.io with
  | idle => simp [Op.ioStep, hpc] at ht
  | trySubmit =>
    rw [hpc] at hio
    simp only [Op.ioStep, hpc, Option.some.injEq] at ht
    subst ht
    cases space with
    | true => exact .inr (.inl ⟨rfl, rfl, hio.2.1.1.2.2.2.2.1, rfl⟩)
    | false => exact .inl ⟨rfl, rfl, rfl⟩
  | submit =>
    rw [hpc] at hio
    simp only [Op.ioStep, hpc, Option.some.injEq] at ht
    subst ht
    exact .inr (.inl ⟨rfl, rfl, hio.2.1.1.2.2.2.2.1, rfl⟩)
  | tryCancel =>
    rw [hpc] at hio
    have houtstanding := hio.2.2.2.2.2.2.1
    simp only [Op.ioStep, hpc] at ht
    split at ht <;> cases ht
    · exact .inr (.inr ⟨rfl, rfl, houtstanding, houtstanding⟩)
    · exact .inl ⟨rfl, rfl, rfl⟩
  | cancel =>
    rw [hpc] at hio
    have houtstanding := hio.2.2.2.2.2.2.1
    simp only [Op.ioStep, hpc, Option.some.injEq] at ht
    subst ht
    exact .inr (.inr ⟨rfl, rfl, houtstanding, houtstanding⟩)
  | completedAdd cqe =>
    simp only [Op.ioStep, hpc] at ht
    split at ht <;> cases ht <;> exact .inl ⟨rfl, rfl, rfl⟩
  | requestStop =>
    simp only [Op.ioStep, hpc, Option.some.injEq] at ht
    subst ht
    unfold requestStopFromIoThread
    split_ifs <;> exact .inl ⟨rfl, rfl, rfl⟩
  | _ =>
    simp only [Op.ioStep, hpc, Option.some.injEq] at ht
    subst ht
    exact .inl ⟨rfl, rfl, rfl⟩

theorem Inv.emits {a : Act} (h : s.Inv) (ha : ∀ cqe, a ≠ .cqe cqe) (ht : s.step a = some t) :
    s.Emits t := by
  cases a with
  | io space => exact h.emits_ioStep ht
  | remote =>
    simp only [Op.step] at ht
    unfold Op.remoteStep at ht
    split at ht <;> cases ht <;> exact .inl ⟨rfl, rfl, rfl⟩
  | cqe cqe => exact absurd rfl (ha cqe)
  | runReady =>
    simp only [Op.step] at ht
    split at ht <;> cases ht
    unfold execute
    split <;> exact .inl ⟨rfl, rfl, rfl⟩
  | runWaiting =>
    simp only [Op.step] at ht
    split at ht <;> cases ht
    unfold submitSqes
    split <;> exact .inl ⟨rfl, rfl, rfl⟩
  | runCancel =>
    simp only [Op.step] at ht
    split at ht <;> cases ht
    unfold submitCancelSqes
    split <;> exact .inl ⟨rfl, rfl, rfl⟩
  | runStop =>
    simp only [Op.step] at ht
    split at ht <;> cases ht
    unfold executeStop
    split <;> exact .inl ⟨rfl, rfl, rfl⟩
  | _ =>
    simp only [Op.step] at ht
    split at ht <;> cases ht
    exact .inl ⟨rfl, rfl, rfl⟩

/-- The CQE that an operation waits for can be processed, and no other comes after it. -/
theorem exists_step_cqe (hio : s.io = .idle) (ho : s.outstanding = true) (cqe : Cqe) :
    ∃ t, s.step (.cqe cqe) = some t ∧ t.outstanding = false := by
  refine ⟨_, if_pos ⟨hio, ho⟩, ?_⟩
  unfold handleCompletion
  split <;> rfl

end Op

variable {A : Type} [DecidableEq A] {a b : A} {id : ℕ} {l l' : List (Entry A)}

@[simp] theorem matching_nil : matching a ([] : List (Entry A)) = [] := rfl

@[simp] theorem matching_append : matching a (l ++ l') = matching a l ++ matching a l' :=
  List.filterMap_append

theorem matching_cons (e : Entry A) : matching a (e :: l) = matching a [e] ++ matching a l :=
  matching_append (l := [e])

@[simp] theorem matching_op_self : matching a [.op a id] = [id] := by
  simp [matching]

theorem matching_op_of_ne (h : b ≠ a) : matching a [.op b id] = [] := by
  simp [matching, h]

@[simp] theorem matching_cancel : matching a [.cancel b id] = [] := rfl

@[simp] theorem matching_wakeUp : matching a [(.wakeUp : Entry A)] = [] := rfl

theorem matching_perm (h : l.Perm l') : (matching a l).Perm (matching a l') := h.filterMap _

namespace Context
variable {c c' : Context A}

/-- The operations whose SQE or CQE may be in the rings or in the kernel: the one at the address, if
it waits for its CQE. -/
def expected (c : Context A) (a : A) : List ℕ :=
  match c.objects a with
  | some object => if object.op.outstanding then [object.id] else []
  | none => []

/-- All entries on their way from the submission queue to the I/O thread. -/
def entries (c : Context A) : List (Entry A) := c.sq ++ c.kernel ++ c.cq.map Prod.fst

structure Inv (c : Context A) : Prop where
  reachable : ∀ a object, c.objects a = some object →
    IoUringOperation.system.Reachable object.op
  busy : ∀ a object, c.objects a = some object → object.op.io ≠ .idle → c.busy = some a
  matching_entries : ∀ a, (matching a c.entries).Perm (c.expected a)
  /-- No other operation with the address stands before a cancel request. -/
  order : ∀ l a id l', c.sq = l ++ .cancel a id :: l' →
    ∀ i ∈ matching a (l ++ c.kernel), i = id
  hits : ∀ hit ∈ c.hits, ∀ i ∈ hit.2, i = hit.1
  dispatched : ∀ d ∈ c.dispatched, d.2 = d.1
  ok : c.fault = false

theorem inv_init : ({} : Context A).Inv where
  reachable := by simp
  busy := by simp
  matching_entries _ := .nil
  order l a id l' h := by simp at h
  hits := by simp
  dispatched := by simp
  ok := rfl

namespace Inv

theorem op_inv (h : c.Inv) {object : Object} (ho : c.objects a = some object) : object.op.Inv :=
  (h.reachable a object ho).invariant Op.inv_init fun _ _ _ h _ ht => h.step ht

/-- An entry of an operation belongs to the object at its address, which waits for it. -/
theorem object_of_mem (h : c.Inv) (hmem : id ∈ matching a c.entries) :
    ∃ object, c.objects a = some object ∧ object.id = id ∧ object.op.outstanding = true := by
  have hexpected := (h.matching_entries a).subset hmem
  unfold expected at hexpected
  split at hexpected
  case h_1 object ho =>
    split at hexpected
    case isTrue hout => exact ⟨object, ho, (List.mem_singleton.mp hexpected).symm, hout⟩
    case isFalse => cases hexpected
  case h_2 => cases hexpected

end Inv

omit [DecidableEq A] in
theorem expected_eq {object : Object} (ho : c.objects a = some object) :
    c.expected a = if object.op.outstanding then [object.id] else [] := by
  rw [expected, ho]

omit [DecidableEq A] in
theorem expected_congr (h : c'.objects a = c.objects a) : c'.expected a = c.expected a := by
  rw [expected, h, expected]

theorem matching_enqueue (c : Context A) (sq : List (Entry A)) :
    (matching a (c.sq ++ sq ++ c.kernel ++ c.cq.map Prod.fst)).Perm
      (matching a c.entries ++ matching a sq) := by
  have hperm : (c.sq ++ sq ++ c.kernel ++ c.cq.map Prod.fst).Perm (c.entries ++ sq) := by
    rw [entries]
    simp only [List.append_assoc]
    refine .append_left _ ?_
    simpa only [List.append_assoc] using
      (List.perm_append_comm : (sq ++ (c.kernel ++ c.cq.map Prod.fst)).Perm _)
  exact (matching_perm hperm).trans (by rw [matching_append])

/-- An SQE may be added behind the others if no other operation with its address stands before a
cancel request. -/
theorem Inv.order_concat (h : c.Inv) {e : Entry A}
    (he : ∀ a id, e = .cancel a id → ∀ i ∈ matching a (c.sq ++ c.kernel), i = id) :
    ∀ l a id l', c.sq ++ [e] = l ++ .cancel a id :: l' →
      ∀ i ∈ matching a (l ++ c.kernel), i = id := by
  intro l a id l' hsq
  rcases List.eq_nil_or_concat l' with rfl | ⟨l', e', rfl⟩
  · obtain ⟨rfl, hlast⟩ := List.append_inj' hsq rfl
    exact he a id (List.singleton_inj.mp hlast)
  · have hsplit : c.sq ++ [e] = (l ++ .cancel a id :: l') ++ [e'] := by simpa using hsq
    exact h.order l a id l' (List.append_inj' hsplit rfl).1

omit [DecidableEq A] in
/-- What a step of an operation enqueues, and whether it waits for a CQE then. -/
theorem emitted_cases {op op' : Op} (a : A) (id : ℕ) (h : op.Emits op') :
    emitted a id op op' = [] ∧ op'.outstanding = op.outstanding ∨
      emitted a id op op' = [.op a id] ∧ op.outstanding = false ∧ op'.outstanding = true ∨
      emitted a id op op' = [.cancel a id] ∧ op.outstanding = true ∧ op'.outstanding = true := by
  unfold emitted
  rcases h with ⟨h1, h2, h3⟩ | ⟨h1, h2, h3⟩ | ⟨h1, h2, h3⟩
  · exact .inl ⟨by simp [h1, h2], h3⟩
  · exact .inr (.inl ⟨by simp [h1, h2], h3⟩)
  · exact .inr (.inr ⟨by simp [h1, h2], h3⟩)

namespace Inv

theorem opStep {act : Act} {object : Object} (h : c.Inv) (ho : c.objects a = some object)
    (hne : ∀ cqe, act ≠ .cqe cqe)
    (hen : act.isRemote = true ∨ c.busy = none ∨ c.busy = some a)
    (ht : c.opStep a act object = some c') : c'.Inv := by
  obtain ⟨op, hstep, rfl⟩ := Option.map_eq_some_iff.mp ht
  have hemit := emitted_cases a object.id ((h.op_inv ho).emits hne hstep)
  refine { h with
    reachable := fun b object' hb => ?_
    busy := fun b object' hb hio => ?_
    matching_entries := fun b => ?_
    order := ?_ }
  · by_cases hba : b = a
    · subst hba
      simp only [Function.update_self, Option.some.injEq] at hb
      subst hb
      exact (h.reachable b object ho).step trivial hstep
    · simp only [Function.update_of_ne hba] at hb
      exact h.reachable b object' hb
  · by_cases hba : b = a
    · subst hba
      simp only [Function.update_self, Option.some.injEq] at hb
      subst hb
      dsimp only
      split
      case isTrue hr =>
        rw [Op.remote_io hr hstep] at hio
        exact h.busy b object ho hio
      case isFalse => exact if_neg hio
    · simp only [Function.update_of_ne hba] at hb
      have hbusy := h.busy b object' hb hio
      dsimp only
      split
      case isTrue => exact hbusy
      case isFalse hr =>
        rcases hen with hen | hen | hen
        · exact absurd hen hr
        · rw [hen] at hbusy
          cases hbusy
        · rw [hen, Option.some.injEq] at hbusy
          exact absurd hbusy.symm hba
  · refine (matching_enqueue c (emitted a object.id object.op op)).trans ?_
    by_cases hba : b = a
    · subst hba
      have hexpected := (h.matching_entries b).append_right
        (matching b (emitted b object.id object.op op))
      refine hexpected.trans ?_
      rw [expected_eq ho, expected_eq (Function.update_self ..)]
      rcases hemit with ⟨he, h1⟩ | ⟨he, h1, h2⟩ | ⟨he, h1, h2⟩
      · simp [he, h1]
      · simp [he, h1, h2]
      · simp [he, h1, h2]
    · have hnone : matching b (emitted a object.id object.op op) = [] := by
        rcases hemit with ⟨he, -⟩ | ⟨he, -⟩ | ⟨he, -⟩
        · rw [he, matching_nil]
        · rw [he, matching_op_of_ne (Ne.symm hba)]
        · rw [he, matching_cancel]
      rw [hnone, List.append_nil, expected_congr (Function.update_of_ne hba ..)]
      exact h.matching_entries b
  · dsimp only
    rcases hemit with ⟨he, -⟩ | ⟨he, -⟩ | ⟨he, hout, -⟩
    · rw [he, List.append_nil]
      exact h.order
    · rw [he]
      exact h.order_concat (by simp)
    · rw [he]
      refine h.order_concat ?_
      rintro b id heq i hi
      obtain ⟨rfl, rfl⟩ := Entry.cancel.inj heq
      have hmem : i ∈ matching a c.entries := by
        rw [entries, matching_append]
        exact List.mem_append_left _ hi
      obtain ⟨object', ho', hid, -⟩ := h.object_of_mem hmem
      rw [ho, Option.some.injEq] at ho'
      rw [← hid, ho']

/-- An object takes the place of none, or of one that waits for no CQE. -/
theorem replace {o : Option Object} {n : ℕ} (h : c.Inv) (hold : c.expected a = [])
    (hnew : ∀ object, o = some object → object.op = {}) :
    { c with objects := Function.update c.objects a o, created := n }.Inv := by
  refine { h with
    reachable := fun b object hb => ?_
    busy := fun b object hb hio => ?_
    matching_entries := fun b => ?_ }
  · by_cases hba : b = a
    · subst hba
      simp only [Function.update_self] at hb
      rw [hnew object hb]
      exact .init
    · simp only [Function.update_of_ne hba] at hb
      exact h.reachable b object hb
  · by_cases hba : b = a
    · subst hba
      simp only [Function.update_self] at hb
      rw [hnew object hb] at hio
      exact absurd rfl hio
    · simp only [Function.update_of_ne hba] at hb
      exact h.busy b object hb hio
  · by_cases hba : b = a
    · subst hba
      have hnone := h.matching_entries b
      rw [hold] at hnone
      cases ho : o with
      | none => simpa [expected, entries] using hnone
      | some object =>
        have hop := hnew object ho
        have hself : ({ c with
            objects := Function.update c.objects b (some object), created := n } :
            Context A).objects b = some object := Function.update_self ..
        rw [expected_eq hself, hop]
        exact hnone
    · rw [expected_congr (Function.update_of_ne hba ..)]
      exact h.matching_entries b

theorem create (h : c.Inv) (ht : c.step (.create a) = some c') : c'.Inv := by
  simp only [Context.step] at ht
  split at ht
  case isTrue hnone =>
    cases ht
    refine h.replace ?_ fun object ho => ?_
    · rw [expected, hnone]
    · rw [← Option.some.inj ho]
  case isFalse => cases ht

theorem destroy (h : c.Inv) (ht : c.step (.destroy a) = some c') : c'.Inv := by
  obtain ⟨object, ho, ht⟩ := Option.bind_eq_some_iff.mp ht
  split at ht
  case isTrue hen =>
    cases ht
    have hclear := (h.op_inv ho).orderly.clear (.inr (.inr hen.1))
    refine h.replace (n := c.created) ?_ (by simp)
    rw [expected_eq ho, hclear.outstanding]
    rfl
  case isFalse => cases ht

theorem submitWakeUp (h : c.Inv) : ({ c with sq := c.sq ++ [.wakeUp] } : Context A).Inv := by
  refine { h with
    matching_entries := fun b => ?_
    order := h.order_concat (by simp) }
  refine (matching_enqueue c [.wakeUp]).trans ?_
  rw [matching_wakeUp, List.append_nil]
  exact h.matching_entries b

theorem receive (h : c.Inv) (ht : c.step .receive = some c') : c'.Inv := by
  simp only [Context.step] at ht
  split at ht
  case h_1 => cases ht
  case h_2 entry sq hsq =>
    cases ht
    have hperm : (sq ++ (c.kernel ++ [entry]) ++ c.cq.map Prod.fst).Perm c.entries := by
      rw [entries, hsq]
      refine .append_right _ ?_
      rw [← List.append_assoc]
      exact List.perm_append_singleton ..
    have hsub : ∀ a i, i ∈ matching a c.kernel → i ∈ matching a c.entries := fun a i hi => by
      rw [entries, matching_append, matching_append]
      exact List.mem_append_left _ (List.mem_append_right _ hi)
    refine { h with
      matching_entries := fun b => (matching_perm hperm).trans (h.matching_entries b)
      order := fun l a id l' (hsplit : sq = l ++ .cancel a id :: l') i hi => ?_
      hits := ?_ }
    · have hperm' : (l ++ (c.kernel ++ [entry])).Perm (entry :: l ++ c.kernel) := by
        rw [← List.append_assoc]
        exact List.perm_append_singleton ..
      have hfront : c.sq = (entry :: l) ++ .cancel a id :: l' := by rw [hsq, hsplit]; rfl
      exact h.order (entry :: l) a id l' hfront i ((matching_perm hperm').subset hi)
    · cases entry with
      | cancel a id =>
        intro hit hmem
        rcases List.mem_append.mp hmem with hmem | hmem
        · exact h.hits hit hmem
        · rw [List.mem_singleton] at hmem
          subst hmem
          exact h.order [] a id sq hsq
      | op a id | wakeUp => exact h.hits

theorem complete {i : ℕ} {cqe : Cqe} (h : c.Inv) (ht : c.step (.complete i cqe) = some c') :
    c'.Inv := by
  obtain ⟨entry, hentry, rfl⟩ := Option.map_eq_some_iff.mp ht
  obtain ⟨hi, rfl⟩ := List.getElem?_eq_some_iff.mp hentry
  have hkernel : (c.kernel[i] :: c.kernel.eraseIdx i).Perm c.kernel :=
    List.getElem_cons_eraseIdx_perm hi
  have hperm : (c.sq ++ c.kernel.eraseIdx i ++
      (c.cq ++ [(c.kernel[i], cqe)]).map Prod.fst).Perm c.entries := by
    rw [entries, List.append_assoc, List.append_assoc, List.map_append, List.map_singleton,
      ← List.append_assoc (c.kernel.eraseIdx i)]
    refine .append_left _ ((List.perm_append_singleton ..).trans ?_)
    exact hkernel.append_right _
  refine { h with
    matching_entries := fun b => (matching_perm hperm).trans (h.matching_entries b)
    order := fun l a id l' hsplit j hj => h.order l a id l' hsplit j ?_ }
  rw [matching_append] at hj ⊢
  refine (List.mem_append.mp hj).elim (List.mem_append_left _) fun hj => ?_
  refine List.mem_append_right _ ((matching_perm hkernel).subset ?_)
  rw [matching_cons]
  exact List.mem_append_right _ hj

/-- The CQE is taken from the queue. -/
theorem matching_tail {entry : Entry A} {cqe : Cqe} {cq : List (Entry A × Cqe)}
    (hcq : c.cq = (entry, cqe) :: cq) :
    (matching a c.entries).Perm
      (matching a [entry] ++ matching a (c.sq ++ c.kernel ++ cq.map Prod.fst)) := by
  rw [entries, hcq, List.map_cons, ← matching_append]
  exact matching_perm List.perm_middle

theorem dispatch {cqe : Cqe} {cq : List (Entry A × Cqe)} (h : c.Inv) (hbusy : c.busy = none)
    (hcq : c.cq = (.op a id, cqe) :: cq) : ({ c with cq := cq }.dispatch a id cqe).Inv := by
  have hself : id ∈ matching a c.entries := (matching_tail hcq).symm.subset (by simp)
  obtain ⟨object, ho, hid, hout⟩ := h.object_of_mem hself
  have hio : object.op.io = .idle := by
    by_contra hne
    have hsome := h.busy a object ho hne
    rw [hbusy] at hsome
    cases hsome
  obtain ⟨op, hstep, hland⟩ := Op.exists_step_cqe hio hout cqe
  simp only [Context.dispatch, ho, hstep]
  refine { h with
    reachable := fun b object' hb => ?_
    busy := fun b object' hb hio' => ?_
    matching_entries := fun b => ?_
    dispatched := fun d hd => ?_ }
  · by_cases hba : b = a
    · subst hba
      simp only [Function.update_self, Option.some.injEq] at hb
      subst hb
      exact (h.reachable b object ho).step (a := .cqe cqe) trivial hstep
    · simp only [Function.update_of_ne hba] at hb
      exact h.reachable b object' hb
  · by_cases hba : b = a
    · subst hba
      simp only [Function.update_self, Option.some.injEq] at hb
      subst hb
      exact if_neg hio'
    · simp only [Function.update_of_ne hba] at hb
      have hsome := h.busy b object' hb hio'
      rw [hbusy] at hsome
      cases hsome
  · by_cases hba : b = a
    · subst hba
      have hold := (matching_tail hcq).symm.trans (h.matching_entries b)
      rw [expected_eq ho, hout, if_pos rfl, matching_op_self, ← hid] at hold
      have hnil : (matching b (c.sq ++ c.kernel ++ cq.map Prod.fst)).Perm [] :=
        List.Perm.cons_inv hold
      rw [expected_eq (Function.update_self ..), hland]
      exact hnil
    · rw [expected_congr (Function.update_of_ne hba ..)]
      refine List.Perm.trans ?_ (h.matching_entries b)
      have hold : (matching b c.entries).Perm _ := matching_tail hcq
      rw [matching_op_of_ne (Ne.symm hba), List.nil_append] at hold
      exact hold.symm
  · rcases List.mem_append.mp hd with hd | hd
    · exact h.dispatched d hd
    · rw [List.mem_singleton] at hd
      subst hd
      exact hid

theorem process (h : c.Inv) (ht : c.step .process = some c') : c'.Inv := by
  simp only [Context.step] at ht
  split at ht
  case isTrue hbusy =>
    split at ht
    case h_1 => cases ht
    case h_2 a id cqe cq hcq =>
      cases ht
      exact h.dispatch hbusy hcq
    case h_3 entry cq hne hcq =>
      cases ht
      obtain ⟨entry, cqe⟩ := entry
      have hnone : ∀ b, matching b [entry] = [] := fun b => by
        cases entry with
        | op a id => exact absurd rfl (hne a id cqe)
        | cancel a id => rfl
        | wakeUp => rfl
      refine { h with matching_entries := fun b => ?_ }
      have hold : (matching b c.entries).Perm _ := matching_tail hcq
      rw [hnone b, List.nil_append] at hold
      exact hold.symm.trans (h.matching_entries b)
  case isFalse => cases ht

theorem step {a : ContextAct A} (h : c.Inv) (ht : c.step a = some c') : c'.Inv := by
  cases a with
  | create a => exact h.create ht
  | destroy a => exact h.destroy ht
  | op a act =>
    obtain ⟨object, ho, ht⟩ := Option.bind_eq_some_iff.mp ht
    split at ht
    case h_1 => cases ht
    case h_2 hne =>
      split at ht
      case isTrue hen => exact h.opStep ho hne hen ht
      case isFalse => cases ht
  | submitWakeUp =>
    cases ht
    exact h.submitWakeUp
  | receive => exact h.receive ht
  | complete i cqe => exact h.complete ht
  | process => exact h.process ht

end Inv

structure Orderly (c : Context A) : Prop where
  /-- The kernel has matched each cancel request with the operation that asked for it, or with
  none. -/
  hits : ∀ hit ∈ c.hits, ∀ i ∈ hit.2, i = hit.1
  /-- Each CQE was dispatched to the object that submitted the operation. -/
  dispatched : ∀ d ∈ c.dispatched, d.2 = d.1
  /-- The object was there, and waited for the CQE. -/
  ok : c.fault = false

/-- A cancel request hits the operation whose `request_stop()` caused it or none, and every CQE is
dispatched to the object that submitted its operation, although addresses are used again. -/
theorem cancels_own_operation (hc : (system A).Reachable c) : c.Orderly :=
  have h : c.Inv := hc.invariant (P := Inv) inv_init fun _ _ _ h _ ht => h.step ht
  ⟨h.hits, h.dispatched, h.ok⟩

/-- The cancel request waits in the ring while its operation completes, the object is destroyed and
another one at the same address submits. -/
theorem cancels_own_operation_run : ∃ c : Context ℕ,
    (c.hits = [(0, [])] ∧ c.dispatched = [(0, 0), (1, 1)]) ∧ c.Orderly := by
  obtain ⟨c, hc, hp⟩ := (system ℕ).exists_reachable
    [.create 8, .op 8 .startLocal, .op 8 (.io true), .receive, .op 8 .stopLocal, .op 8 (.io true),
      .op 8 (.io true), .complete 0 (7, 0), .op 8 (.io true), .process, .op 8 (.io true),
      .destroy 8, .create 8, .op 8 .startLocal, .op 8 (.io true), .receive, .receive,
      .complete 1 (0, 0), .process, .op 8 (.io true), .op 8 (.io true), .op 8 (.io true)]
    (fun c => c.hits = [(0, [])] && c.dispatched = [(0, 0), (1, 1)]) (by decide +kernel)
  exact ⟨c, by simpa using hp, cancels_own_operation hc⟩

end Context
end Squiz.LinuxOS.IoUringOperation
