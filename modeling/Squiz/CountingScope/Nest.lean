import Squiz.CountingScope.Scope

/-! `counting_scope_nest_op`: it constructs and starts its source only if it was given a valid
reference to the scope, and gives the reference up when the source has completed. -/
namespace Squiz.CountingScope.Nest
open Squiz.Lib

/-- What the receiver is completed with. -/
inductive Outcome (R : Type) where
  | stopped
  | of (r : R)

inductive StartPc where
  | notCalled
  /-- in the source's `start()` -/
  | inChild
  | setStopped
  | returned
  deriving DecidableEq

/-- Progress of `request_stop()`. -/
inductive StopPc where
  | notCalled | inChild | returned
  deriving DecidableEq

/-- Progress of `set_result`. -/
inductive SetPc (R : Type) where
  | notCalled
  /-- about to give the reference up -/
  | reset (r : R)
  | deliver (r : R)
  | returned

structure Op (R : Type) where
  /-- `scope_` -/
  scopeRef : Option Ref
  /-- `active_` -/
  active : Bool
  /-- the source's operation exists in the storage -/
  alive : Bool
  start : StartPc := .notCalled
  stop : StopPc := .notCalled
  set : SetPc R := .notCalled
  /-- the source's result -/
  completion : Option R := none
  delivered : List (Outcome R) := []
  /-- `~counting_scope_nest_op()` has run -/
  destroyed : Bool := false
  /-- the source was used while it did not exist -/
  fault : Bool := false

inductive Act (R : Type) where
  /-- the call of `start()` and its next step -/
  | start
  /-- the call of `request_stop()`, and then its return from the source's -/
  | stop
  /-- the source completes: it calls `set_result` -/
  | complete (r : R)
  /-- the next step of `set_result` -/
  | set
  | destroy

variable {R : Type}

namespace Op

/-- `counting_scope_nest_op(scope_handle, source, receiver)` -/
def construct (scopeHandle : Option Ref) : Op R where
  scopeRef := scopeHandle
  active := scopeHandle.isSome
  alive := scopeHandle.isSome

/-- A call of the source's operation. -/
def useChild (s : Op R) : Op R := { s with fault := s.fault || !s.alive }

/-- The receiver may destroy the operation once it is completed and no `request_stop()` runs; the
owner may also destroy it before `start()`. -/
def mayDestroy (s : Op R) : Bool :=
  decide (s.stop ≠ .inChild) && (decide (s.start = .notCalled) || !s.delivered.isEmpty)

/-- The source was started and has not completed. -/
def childRuns (s : Op R) : Bool :=
  match s.start, s.set with
  | .inChild, .notCalled => true
  | .returned, .notCalled => s.active
  | _, _ => false

def step (s : Op R) : Act R → Option (Op R)
  | .start =>
    match s.start with
    | .notCalled =>
      if s.destroyed then none
      else if s.active then some { s.useChild with start := .inChild }
      else some { s with start := .setStopped }
    | .inChild => some { s with start := .returned }
    | .setStopped => some { s with delivered := s.delivered ++ [.stopped], start := .returned }
    | .returned => none
  | .stop =>
    match s.stop with
    | .notCalled =>
      if s.start = .returned ∧ s.destroyed = false then
        if s.active then some { s.useChild with stop := .inChild }
        else some { s with stop := .returned }
      else none
    | .inChild => some { s with stop := .returned }
    | .returned => none
  | .complete r =>
    if s.childRuns then some { s with set := .reset r, completion := some r } else none
  | .set =>
    match s.set with
    | .notCalled | .returned => none
    | .reset r => some { s with scopeRef := none, set := .deliver r }
    | .deliver r => some { s with delivered := s.delivered ++ [.of r], set := .returned }
  | .destroy =>
    if s.destroyed = false ∧ s.mayDestroy = true then
      if s.active then
        some { s.useChild with scopeRef := none, alive := false, destroyed := true }
      else some { s with scopeRef := none, destroyed := true }
    else none

/-- The reference that a step gives up. -/
def released (s : Op R) : Act R → Option Ref
  | .set =>
    match s.set with
    | .reset _ => s.scopeRef
    | _ => none
  | .destroy => s.scopeRef
  | _ => none

/-- The reference is held until the source has completed or the operation is destroyed. -/
def holds (s : Op R) : Bool :=
  s.active && !s.destroyed && match s.set with
    | .notCalled | .reset _ => true
    | _ => false

/-- What `set_result` says about the completion and what is delivered by it. -/
def SetPc.Ok (completion : Option R) (delivered : List (Outcome R)) : SetPc R → Prop
  | .notCalled => completion = none ∧ delivered = []
  | .reset r | .deliver r => completion = some r ∧ delivered = []
  | .returned => ∃ r, completion = some r ∧ delivered = [.of r]

structure Inv (s : Op R) : Prop where
  scopeRef : s.scopeRef.isSome = s.holds
  alive : s.alive = (s.active && !s.destroyed)
  active : s.active = true → s.start ≠ .setStopped ∧ SetPc.Ok s.completion s.delivered s.set
  inactive : s.active = false → s.start ≠ .inChild ∧ s.set = .notCalled ∧ s.stop ≠ .inChild ∧
    s.completion = none ∧ s.delivered = if s.start = .returned then [.stopped] else []
  unstarted : s.start = .notCalled → s.set = .notCalled
  unstopped : s.start ≠ .returned → s.stop = .notCalled
  destroyed : s.destroyed = true →
    s.stop ≠ .inChild ∧ (s.start = .notCalled ∨ s.delivered ≠ [])
  noFault : s.fault = false

namespace Inv
variable {s t : Op R} {a : Act R}

theorem construct (scopeHandle : Option Ref) : Inv (construct scopeHandle : Op R) where
  scopeRef := by simp [Op.construct, holds]
  alive := by simp [Op.construct]
  active _ := ⟨by simp [Op.construct], rfl, rfl⟩
  inactive _ := ⟨by simp [Op.construct], rfl, by simp [Op.construct], rfl, rfl⟩
  unstarted _ := rfl
  unstopped _ := rfl
  destroyed hd := by cases hd
  noFault := rfl

theorem useChild (hi : s.Inv) (hactive : s.active = true) (hd : s.destroyed = false) :
    s.useChild = s := by
  have halive : s.alive = true := by rw [hi.alive, hactive, hd]; rfl
  have hfault : (s.fault || !s.alive) = s.fault := by simp [halive]
  unfold Op.useChild
  rw [hfault]

theorem start (hi : s.Inv) (ht : s.step .start = some t) : t.Inv := by
  simp only [Op.step] at ht
  cases hpc : s.start with
  | notCalled =>
    simp only [hpc] at ht
    have hset := hi.unstarted hpc
    have hstop := hi.unstopped (by rw [hpc]; simp)
    split_ifs at ht with hd hactive
    · rw [hi.useChild hactive (Bool.of_not_eq_true hd)] at ht
      cases ht
      exact
        { hi with
          active := fun h => ⟨by simp, (hi.active h).2⟩
          inactive := fun h => by simp [hactive] at h
          unstarted := fun h => by cases h
          unstopped := fun _ => hstop
          destroyed := fun h => absurd h hd }
    · cases ht
      obtain ⟨-, -, -, hnone, hnil⟩ := hi.inactive (Bool.of_not_eq_true hactive)
      exact
        { hi with
          active := fun h => absurd h hactive
          inactive := fun _ => ⟨by simp, hset, by simp [hstop], hnone, by simpa [hpc] using hnil⟩
          unstarted := fun h => by cases h
          unstopped := fun _ => hstop
          destroyed := fun h => absurd h hd }
  | inChild =>
    simp only [hpc] at ht
    cases ht
    have hactive : s.active = true := by
      by_contra h
      exact (hi.inactive (Bool.of_not_eq_true h)).1 hpc
    exact
      { hi with
        active := fun h => ⟨by simp, (hi.active h).2⟩
        inactive := fun h => by simp [hactive] at h
        unstarted := fun h => by cases h
        unstopped := fun h => absurd rfl h
        destroyed := fun h => ⟨(hi.destroyed h).1, .inr (by simpa [hpc] using (hi.destroyed h).2)⟩ }
  | setStopped =>
    simp only [hpc] at ht
    cases ht
    have hactive : s.active = false := by
      by_contra h
      exact (hi.active (by simpa using h)).1 hpc
    obtain ⟨-, hset, hstop, hnone, hnil⟩ := hi.inactive hactive
    rw [hpc] at hnil
    exact
      { hi with
        active := fun h => by simp [hactive] at h
        inactive := fun _ => ⟨by simp, hset, hstop, hnone, by simpa using hnil⟩
        unstarted := fun h => by cases h
        unstopped := fun h => absurd rfl h
        destroyed := fun h => ⟨(hi.destroyed h).1, .inr (by simp)⟩ }
  | returned =>
    simp only [hpc] at ht
    cases ht

theorem stop (hi : s.Inv) (ht : s.step .stop = some t) : t.Inv := by
  simp only [Op.step] at ht
  cases hpc : s.stop with
  | notCalled =>
    simp only [hpc] at ht
    split_ifs at ht with hcalled hactive
    · rw [hi.useChild hactive hcalled.2] at ht
      cases ht
      exact
        { hi with
          inactive := fun h => by simp [hactive] at h
          unstopped := fun h => absurd hcalled.1 h
          destroyed := fun h => by simp [hcalled.2] at h }
    · cases ht
      exact
        { hi with
          inactive := fun h =>
            have ⟨h1, h2, _, h4⟩ := hi.inactive h
            ⟨h1, h2, by simp, h4⟩
          unstopped := fun h => absurd hcalled.1 h
          destroyed := fun h => by simp [hcalled.2] at h }
  | inChild =>
    simp only [hpc] at ht
    cases ht
    have hreturned : s.start = .returned := by
      by_contra h
      rw [hi.unstopped h] at hpc
      cases hpc
    exact
      { hi with
        inactive := fun h => absurd hpc (hi.inactive h).2.2.1
        unstopped := fun h => absurd hreturned h
        destroyed := fun h => absurd hpc (hi.destroyed h).1 }
  | returned =>
    simp only [hpc] at ht
    cases ht

theorem childRuns_iff (hi : s.Inv) : s.childRuns = true ↔
    s.active = true ∧ s.start ≠ .notCalled ∧ s.set = .notCalled := by
  have hinactive := hi.inactive
  have hactive := hi.active
  unfold childRuns
  cases ha : s.active <;> rw [ha] at hinactive hactive <;> cases hpc : s.start <;>
    rw [hpc] at hinactive hactive <;> cases s.set <;> simp_all

/-- An operation whose source runs has not been destroyed. -/
theorem alive_of_childRuns (hi : s.Inv) (hrun : s.childRuns = true) : s.destroyed = false := by
  obtain ⟨hactive, hstart, hset⟩ := hi.childRuns_iff.mp hrun
  by_contra hd
  rcases (hi.destroyed (by simpa using hd)).2 with h | h
  · exact hstart h
  · have hok := (hi.active hactive).2
    rw [hset] at hok
    exact h hok.2

theorem complete (hi : s.Inv) {r : R} (ht : s.step (.complete r) = some t) : t.Inv := by
  simp only [Op.step] at ht
  split_ifs at ht with hrun
  cases ht
  obtain ⟨hactive, hstart, hset⟩ := hi.childRuns_iff.mp hrun
  have hok := (hi.active hactive).2
  rw [hset] at hok
  exact
    { hi with
      scopeRef := by
        rw [hi.scopeRef]
        simp [holds, hset]
      active := fun h => ⟨(hi.active h).1, rfl, hok.2⟩
      inactive := fun h => by simp [hactive] at h
      unstarted := fun h => absurd h hstart }

theorem set (hi : s.Inv) (ht : s.step .set = some t) : t.Inv := by
  have hactive : s.set ≠ .notCalled → s.active = true := by
    intro h
    by_contra ha
    exact h (hi.inactive (Bool.of_not_eq_true ha)).2.1
  have hstart : s.set ≠ .notCalled → s.start ≠ .notCalled := fun h hs => h (hi.unstarted hs)
  simp only [Op.step] at ht
  cases hpc : s.set with
  | notCalled | returned =>
    simp only [hpc] at ht
    cases ht
  | reset r =>
    have hne : s.set ≠ .notCalled := by rw [hpc]; simp
    have hok := (hi.active (hactive hne)).2
    simp only [hpc] at ht hok
    cases ht
    exact
      { hi with
        scopeRef := by simp [holds]
        active := fun h => ⟨(hi.active h).1, hok⟩
        inactive := fun h => by simp [hactive hne] at h
        unstarted := fun h => absurd h (hstart hne) }
  | deliver r =>
    have hne : s.set ≠ .notCalled := by rw [hpc]; simp
    obtain ⟨hc, hnil⟩ := (hpc ▸ (hi.active (hactive hne)).2 : SetPc.Ok _ _ (.deliver r))
    simp only [hpc] at ht
    cases ht
    exact
      { hi with
        scopeRef := by
          rw [hi.scopeRef]
          simp [holds, hpc]
        active := fun h => ⟨(hi.active h).1, r, hc, by rw [hnil]; rfl⟩
        inactive := fun h => by simp [hactive hne] at h
        unstarted := fun h => absurd h (hstart hne)
        destroyed := fun h => ⟨(hi.destroyed h).1, .inr (by simp)⟩ }

theorem destroy (hi : s.Inv) (ht : s.step .destroy = some t) : t.Inv := by
  simp only [Op.step] at ht
  split_ifs at ht with hmay hactive
  all_goals
    obtain ⟨hd, hmay⟩ := hmay
    obtain ⟨hstop, hor⟩ : s.stop ≠ .inChild ∧ (s.start = .notCalled ∨ s.delivered ≠ []) := by
      simpa [mayDestroy] using hmay
    try rw [hi.useChild hactive hd] at ht
    cases ht
  · exact
      { hi with
        scopeRef := by simp [holds]
        alive := by simp
        destroyed := fun _ => ⟨hstop, hor⟩ }
  · exact
      { hi with
        scopeRef := by simp [holds]
        alive := by
          rw [hi.alive]
          simp [Bool.of_not_eq_true hactive]
        destroyed := fun _ => ⟨hstop, hor⟩ }

theorem step (hi : s.Inv) (ht : s.step a = some t) : t.Inv := by
  cases a with
  | start => exact hi.start ht
  | stop => exact hi.stop ht
  | complete r => exact hi.complete ht
  | set => exact hi.set ht
  | destroy => exact hi.destroy ht

theorem once (hi : s.Inv) : s.delivered.length ≤ 1 := by
  cases ha : s.active with
  | true =>
    have hok := (hi.active ha).2
    cases hpc : s.set <;> rw [hpc] at hok
    case returned =>
      obtain ⟨r, -, hone⟩ := hok
      rw [hone]
      exact Nat.le_refl 1
    all_goals
      rw [hok.2]
      exact Nat.zero_le 1
  | false =>
    rw [(hi.inactive ha).2.2.2.2]
    split_ifs
    · exact Nat.le_refl 1
    · exact Nat.zero_le 1

/-- A result is that of the source, which was constructed. -/
theorem result (hi : s.Inv) {r : R} (hr : .of r ∈ s.delivered) :
    s.active = true ∧ s.completion = some r := by
  cases ha : s.active with
  | true =>
    have hok := (hi.active ha).2
    cases hpc : s.set <;> rw [hpc] at hok
    case returned =>
      obtain ⟨r', hc, hone⟩ := hok
      rw [hone, List.mem_singleton] at hr
      cases hr
      exact ⟨rfl, hc⟩
    all_goals
      rw [hok.2] at hr
      cases hr
  | false =>
    rw [(hi.inactive ha).2.2.2.2] at hr
    split_ifs at hr
    · cases List.mem_singleton.mp hr
    · cases hr

/-- Where neither `start()` nor `set_result` has a step left, and the source does not run. -/
theorem delivered_ne_nil (hi : s.Inv) (hd : s.destroyed = false) (hstart : s.step .start = none)
    (hset : s.step .set = none) (hrun : s.childRuns ≠ true) : s.delivered ≠ [] := by
  have hreturned : s.start = .returned := by
    cases hpc : s.start with
    | returned => rfl
    | notCalled =>
      simp only [Op.step, hpc, hd, Bool.false_eq_true, if_false] at hstart
      split_ifs at hstart
    | inChild | setStopped => simp [Op.step, hpc] at hstart
  cases ha : s.active with
  | false =>
    rw [(hi.inactive ha).2.2.2.2, if_pos hreturned]
    exact List.cons_ne_nil _ _
  | true =>
    have hok := (hi.active ha).2
    cases hpc : s.set <;> rw [hpc] at hok
    case notCalled =>
      refine absurd (hi.childRuns_iff.mpr ⟨ha, ?_, hpc⟩) hrun
      rw [hreturned]
      simp
    case returned =>
      obtain ⟨r, -, hone⟩ := hok
      rw [hone]
      exact List.cons_ne_nil _ _
    all_goals simp [Op.step, hpc] at hset

end Inv
end Op
end Squiz.CountingScope.Nest
