import Mathlib.Data.List.Basic
import Mathlib.Tactic.Common

/-! Queues that their consumer may mark as inactive while they are empty, with what has happened
to them so far. -/
namespace Squiz.Lib

structure InactiveQueue (α : Type*) where
  /-- in the order in which they were enqueued -/
  items : List α := []
  active : Bool := true
  accepted : List α := []
  /-- what each dequeue has taken -/
  drained : List (List α) := []
  inactivations : ℕ := 0
  /-- how many calls have found the queue inactive and made it active -/
  observations : ℕ := 0
  fifo : drained.flatten ++ items = accepted := by rfl
  empty : active = false → items = [] := by simp
  observed : inactivations = observations + (!active).toNat := by rfl

namespace InactiveQueue

/-- Active, and nothing has happened to it. -/
abbrev initial {α : Type*} : InactiveQueue α := {}

variable {α : Type*} (q : InactiveQueue α)

def enqueue (a : α) : InactiveQueue α :=
  { q with
    items := q.items ++ [a]
    active := true
    accepted := q.accepted ++ [a]
    observations := q.observations + (!q.active).toNat
    fifo := by rw [← List.append_assoc, q.fifo]
    empty := by simp
    observed := by simpa using q.observed }

def markActive : InactiveQueue α :=
  { q with
    active := true
    observations := q.observations + (!q.active).toNat
    empty := by simp
    observed := by simpa using q.observed }

/-- Has no effect unless the queue is active and empty. -/
def markInactive : InactiveQueue α :=
  { q with
    active := q.active && !q.items.isEmpty
    inactivations := q.inactivations + (q.active && q.items.isEmpty).toNat
    empty := by
      intro h
      cases hactive : q.active with
      | false => exact q.empty hactive
      | true => simpa [hactive] using h
    observed := by
      have hobserved := q.observed
      cases hactive : q.active <;> cases hitems : q.items.isEmpty <;>
        simp_all }

def drain : InactiveQueue α :=
  { q with
    items := []
    drained := q.drained ++ [q.items]
    fifo := by simpa using q.fifo
    empty := fun _ => rfl }

@[simp] theorem enqueue_items (a : α) : (q.enqueue a).items = q.items ++ [a] := rfl
@[simp] theorem enqueue_active (a : α) : (q.enqueue a).active = true := rfl
@[simp] theorem enqueue_accepted (a : α) : (q.enqueue a).accepted = q.accepted ++ [a] := rfl
@[simp] theorem enqueue_drained (a : α) : (q.enqueue a).drained = q.drained := rfl
@[simp] theorem enqueue_observations (a : α) :
    (q.enqueue a).observations = q.observations + (!q.active).toNat := rfl

@[simp] theorem markActive_items : q.markActive.items = q.items := rfl
@[simp] theorem markActive_active : q.markActive.active = true := rfl
@[simp] theorem markActive_accepted : q.markActive.accepted = q.accepted := rfl
@[simp] theorem markActive_drained : q.markActive.drained = q.drained := rfl
@[simp] theorem markActive_observations :
    q.markActive.observations = q.observations + (!q.active).toNat := rfl

@[simp] theorem markInactive_items : q.markInactive.items = q.items := rfl
@[simp] theorem markInactive_active :
    q.markInactive.active = (q.active && !q.items.isEmpty) := rfl
@[simp] theorem markInactive_accepted : q.markInactive.accepted = q.accepted := rfl
@[simp] theorem markInactive_drained : q.markInactive.drained = q.drained := rfl
@[simp] theorem markInactive_observations : q.markInactive.observations = q.observations := rfl

@[simp] theorem drain_items : q.drain.items = [] := rfl
@[simp] theorem drain_active : q.drain.active = q.active := rfl
@[simp] theorem drain_accepted : q.drain.accepted = q.accepted := rfl
@[simp] theorem drain_drained : q.drain.drained = q.drained ++ [q.items] := rfl
@[simp] theorem drain_observations : q.drain.observations = q.observations := rfl

theorem length_drained : q.drain.drained.flatten.length = q.accepted.length := by
  rw [← q.fifo, drain_drained, List.flatten_append, List.flatten_singleton]

end InactiveQueue
end Squiz.Lib
