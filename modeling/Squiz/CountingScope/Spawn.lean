import Squiz.CountingScope.Scope

/-! `counting_scope_token::spawn()`: the operation-states that it allocates, and the way of the
scope reference through the variables, parameters and members of its calls. -/
namespace Squiz.CountingScope
open Squiz.Lib Squiz.Lib.Word

/-- The `counting_scope_ref` objects of one call of `spawn()`. -/
inductive RefPlace where
  /-- the local variable of `counting_scope_token::spawn` -/
  | token
  /-- the parameter of `counting_scope_spawn_op::spawn` -/
  | spawnOp
  /-- the parameter of the constructor -/
  | ctor
  /-- `scope_ref_` -/
  | member
  /-- the local variable of `destroy` -/
  | destroy

def RefPlace.index : RefPlace → ℕ
  | token => 0
  | spawnOp => 1
  | ctor => 2
  | member => 3
  | destroy => 4

def RefPlace.ref (p : RefPlace) (i : CallId) : Ref := 5 * i + p.index

/-- Where a call of `spawn()` gives up its reference to the scope. -/
inductive Exit where
  /-- the unwinding after `allocate_memory_unique` has thrown -/
  | allocateThrew
  /-- the unwinding of the constructor, after the one of `child_base` has thrown -/
  | connectThrew
  /-- the end of `destroy` -/
  | destroyed
  deriving DecidableEq

/-- Progress of one call of `spawn()` and of the operation that it launches. -/
inductive SpawnPc where
  | notCalled
  /-- in the loop of `try_get_counting_scope_ref` -/
  | tryGet
  /-- about to call `counting_scope_spawn_op::spawn` -/
  | callSpawn
  | allocate
  /-- about to call the constructor -/
  | callCtor
  /-- about to construct `child_base` -/
  | connect
  | initMembers
  | start
  | running
  /-- `destroy`, from its first line on -/
  | moveRef
  | destroyOp
  | deallocate
  /-- about to drop the reference -/
  | dropRef (e : Exit)
  /-- about to call `join_op_->execute(join_op_)` in `decrement_ref_count` -/
  | executeJoin (e : Exit)
  /-- about to destroy `ptr`, which has not been released -/
  | freeMemory
  /-- `spawn()` has returned `false` -/
  | refused
  | threw
  /-- the operation has completed and `destroy` has returned -/
  | completed
  deriving DecidableEq

/-- The object that holds the reference. -/
def Exit.place : Exit → RefPlace
  | allocateThrew => .spawnOp
  | connectThrew => .ctor
  | destroyed => .destroy

/-- What comes after the reference was dropped. -/
def Exit.next : Exit → SpawnPc
  | allocateThrew => .threw
  | connectThrew => .freeMemory
  | destroyed => .completed

structure Spawn where
  pc : SpawnPc := .notCalled
  allocations : ℕ := 0
  /-- the operation-state is constructed and not destroyed -/
  constructed : Bool := false
  deallocations : ℕ := 0

/-- Progress of `start_join`. -/
inductive JoinPc where
  | notCalled | decrement | executeJoin | done
  deriving DecidableEq

structure Spawning where
  scope : Scope := {}
  spawns : CallId → Spawn := fun _ => {}
  join : JoinPc := .notCalled

namespace Spawning

def setSpawn (s : Spawning) (i : CallId) (spawn : Spawn) : Spawning :=
  { s with spawns := Function.update s.spawns i spawn }

def setPc (s : Spawning) (i : CallId) (pc : SpawnPc) : Spawning :=
  s.setSpawn i { s.spawns i with pc }

/-- `dst` is constructed by moving from `src`. -/
def moveRef (s : Spawning) (i : CallId) (src dst : RefPlace) (spawn : Spawn) : Option Spawning :=
  (s.scope.step (.move (src.ref i) (dst.ref i))).map fun scope =>
    { s.setSpawn i spawn with scope }

/-- Where a load of the state or a `compare_exchange_weak` leads. -/
def afterGet : Call → SpawnPc
  | .returned (some _) => .callSpawn
  | .returned none => .refused
  | .idle | .exchange _ => .tryGet

/-- This decrement drops the last reference. -/
def lastRef (s : Spawning) : Bool := decide (s.scope.word < 2 * refCountIncrement)

/-- The next step of a call of `spawn()` or of `destroy`, which throws where it may and is to. -/
def next (s : Spawning) (i : CallId) (throws : Bool) : Option Spawning :=
  let spawn := s.spawns i
  match spawn.pc with
  | .callSpawn => s.moveRef i .token .spawnOp { spawn with pc := .allocate }
  | .allocate =>
    if throws then some (s.setPc i (.dropRef .allocateThrew))
    else
      some (s.setSpawn i { spawn with pc := .callCtor, allocations := spawn.allocations + 1 })
  | .callCtor => s.moveRef i .spawnOp .ctor { spawn with pc := .connect }
  | .connect =>
    if throws then some (s.setPc i (.dropRef .connectThrew)) else some (s.setPc i .initMembers)
  | .initMembers => s.moveRef i .ctor .member { spawn with pc := .start, constructed := true }
  | .start => some (s.setPc i .running)
  | .moveRef => s.moveRef i .member .destroy { spawn with pc := .destroyOp }
  | .destroyOp => some (s.setSpawn i { spawn with pc := .deallocate, constructed := false })
  | .deallocate =>
    some (s.setSpawn i { spawn with
      pc := .dropRef .destroyed
      deallocations := spawn.deallocations + 1 })
  | .dropRef e =>
    (s.scope.step (.reset (e.place.ref i))).map fun scope =>
      { s.setPc i (if s.lastRef then .executeJoin e else e.next) with scope }
  | .executeJoin e =>
    (s.scope.step .execute).map fun scope => { s.setPc i e.next with scope }
  | .freeMemory =>
    some (s.setSpawn i { spawn with pc := .threw, deallocations := spawn.deallocations + 1 })
  | .notCalled | .tryGet | .running | .refused | .threw | .completed => none

def joinStep (s : Spawning) : Option Spawning :=
  match s.join with
  | .notCalled =>
    (s.scope.step .startJoin).map fun scope => { s with scope, join := .decrement }
  | .decrement =>
    (s.scope.step .joinDecrement).map fun scope =>
      { s with scope, join := if s.lastRef then .executeJoin else .done }
  | .executeJoin => (s.scope.step .execute).map fun scope => { s with scope, join := .done }
  | .done => none

end Spawning

inductive SpawnAct where
  /-- `spawn()` is called and loads the state -/
  | call (i : CallId)
  /-- the `compare_exchange_weak` of `try_get_counting_scope_ref` -/
  | exchange (i : CallId) (spurious : Bool)
  /-- the next step of `spawn()` or of `destroy` -/
  | next (i : CallId) (throws : Bool)
  /-- the launched operation completes: it calls `set_result` -/
  | complete (i : CallId)
  /-- the call of `start_join` and its next step -/
  | join
  | close

/-- The call of `spawn()` that takes the step. -/
def SpawnAct.spawn : SpawnAct → Option CallId
  | .call i | .exchange i _ | .next i _ | .complete i => some i
  | .join | .close => none

def Spawning.step (s : Spawning) : SpawnAct → Option Spawning
  | .call i =>
    if (s.spawns i).pc = .notCalled then
      (s.scope.step (.tryGet i)).map fun scope =>
        { s.setPc i (afterGet (scope.calls i)) with scope }
    else none
  | .exchange i spurious =>
    if (s.spawns i).pc = .tryGet then
      (s.scope.step (.exchange i (RefPlace.token.ref i) spurious)).map fun scope =>
        { s.setPc i (afterGet (scope.calls i)) with scope }
    else none
  | .next i throws => s.next i throws
  | .complete i => if (s.spawns i).pc = .running then some (s.setPc i .moveRef) else none
  | .join => s.joinStep
  | .close => (s.scope.step .close).map fun scope => { s with scope }

def spawnSystem : System Spawning SpawnAct := ⟨{}, Spawning.step⟩

end Squiz.CountingScope
