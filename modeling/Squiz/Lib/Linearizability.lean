import Squiz.Lib.History
import Mathlib.Logic.Function.Basic

/-! Linearizability: the calls and returns of a concurrent object are those of a sequential object
on which each call takes effect at one point between its call and its return. -/
namespace Squiz.Lib

/-- What each operation does, and returns, where it may be called. -/
structure SequentialObject (Op Ret : Type) where
  State : Type
  init : State
  apply : State → Op → Option (State × Ret)

/-- What a client of a concurrent object sees. -/
inductive Event (T Op Ret : Type) where
  | call (t : T) (op : Op)
  | ret (t : T) (r : Ret)
  deriving DecidableEq

/-- A thread's call. -/
inductive Status (Op Ret : Type) where
  | idle
  | called (op : Op)
  /-- it has taken effect, and is to return -/
  | done (r : Ret)

namespace SequentialObject
variable {Op Ret : Type} (O : SequentialObject Op Ret) (T : Type)

/-- The object with the calls in progress. -/
structure Atomic where
  state : O.State
  status : T → Status Op Ret

inductive AtomicAct (T Op Ret : Type) where
  | call (t : T) (op : Op)
  | effect (t : T)
  | ret (t : T) (r : Ret)

def AtomicAct.events {T : Type} : AtomicAct T Op Ret → List (Event T Op Ret)
  | .call t op => [.call t op]
  | .effect _ => []
  | .ret t r => [.ret t r]

variable {O T} [DecidableEq T] [DecidableEq Ret]

def Atomic.setStatus (s : O.Atomic T) (t : T) (status : Status Op Ret) : O.Atomic T :=
  { s with status := Function.update s.status t status }

def Atomic.step (s : O.Atomic T) : AtomicAct T Op Ret → Option (O.Atomic T)
  | .call t op =>
    match s.status t with
    | .idle => some (s.setStatus t (.called op))
    | _ => none
  | .effect t =>
    match s.status t with
    | .called op => (O.apply s.state op).map fun (state, r) =>
      { s.setStatus t (.done r) with state := state }
    | _ => none
  | .ret t r =>
    match s.status t with
    | .done r' => if r' = r then some (s.setStatus t .idle) else none
    | _ => none

variable (O T) in
/-- Calls take effect one at a time, each at some point before it returns. -/
def atomic : System (O.Atomic T) (AtomicAct T Op Ret) :=
  ⟨⟨O.init, fun _ => .idle⟩, Atomic.step⟩

/-- The history is one of the object, as used by threads whose calls take effect at once. -/
def Linearizable (O : SequentialObject Op Ret) (history : List (Event T Op Ret)) : Prop :=
  ∃ s, (O.atomic T).Produces (fun _ => AtomicAct.events) history s

namespace Atomic
variable {s : O.Atomic T} {t : T} {op : Op} {r : Ret} {state : O.State}

omit [DecidableEq Ret] in
@[simp] theorem setStatus_setStatus (status status' : Status Op Ret) :
    (s.setStatus t status).setStatus t status' = s.setStatus t status' := by
  simp [setStatus]

theorem run_call (h : s.status t = .idle) :
    (O.atomic T).run s [.call t op] = some (s.setStatus t (.called op)) :=
  System.run_singleton (by simp [atomic, step, h])

theorem run_effect (h : s.status t = .called op) (hop : O.apply s.state op = some (state, r)) :
    (O.atomic T).run s [.effect t] = some { s.setStatus t (.done r) with state := state } :=
  System.run_singleton (by simp [atomic, step, h, hop])

theorem run_ret (h : s.status t = .done r) :
    (O.atomic T).run s [.ret t r] = some (s.setStatus t .idle) :=
  System.run_singleton (by simp [atomic, step, h])

/-- The call takes effect and returns. -/
theorem run_effect_ret (h : s.status t = .called op) (hop : O.apply s.state op = some (state, r)) :
    (O.atomic T).run s [.effect t, .ret t r] =
      some { s.setStatus t .idle with state := state } := by
  rw [show [AtomicAct.effect t, .ret t r] = [.effect t] ++ [.ret t r] from rfl, System.run_append,
    run_effect h hop, Option.bind_some, run_ret (by simp [setStatus])]
  simp [setStatus]

/-- A call that takes effect and returns. -/
theorem run_call_effect_ret (h : s.status t = .idle) (hop : O.apply s.state op = some (state, r)) :
    (O.atomic T).run s [.call t op, .effect t, .ret t r] =
      some { s.setStatus t .idle with state := state } := by
  have hcalled : (s.setStatus t (.called op)).status t = .called op := by simp [setStatus]
  have hop' : O.apply (s.setStatus t (.called op)).state op = some (state, r) := hop
  rw [show [AtomicAct.call t op, .effect t, .ret t r] = [.call t op] ++ [.effect t, .ret t r] from
    rfl, System.run_append, run_call h, Option.bind_some, run_effect_ret hcalled hop']
  simp [setStatus]

end Atomic
end SequentialObject
end Squiz.Lib
