import Squiz.LinuxOS.IoUringOperation.Protocol
import Mathlib.Data.List.Basic

/-! Any number of `iouring_operation` objects, which come and go at their addresses, between the
rings of one `iouring_context` and the kernel. -/
namespace Squiz.LinuxOS.IoUringOperation
open Squiz.Lib

/-- An SQE or a CQE. The address is what the entry holds, in `user_data` or as the target of an
`IORING_OP_ASYNC_CANCEL`. The number tells which of the objects at that address submitted it, or
which one's `request_stop()` did. -/
inductive Entry (A : Type) where
  | op (a : A) (id : ℕ)
  | cancel (a : A) (id : ℕ)
  | wakeUp

/-- An operation-state that was constructed, as the how many-th. -/
structure Object where
  id : ℕ
  op : Op

structure Context (A : Type) where
  /-- the operation-state that lives at an address -/
  objects : A → Option Object := fun _ => none
  created : ℕ := 0
  /-- the operation whose callback the I/O thread is in -/
  busy : Option A := none
  /-- the submission queue -/
  sq : List (Entry A) := []
  /-- what the kernel has received and not completed -/
  kernel : List (Entry A) := []
  /-- the completion queue -/
  cq : List (Entry A × Cqe) := []
  /-- the objects that caused the cancel requests which the kernel has processed, each with the
  objects whose operations the request matched -/
  hits : List (ℕ × List ℕ) := []
  /-- the objects that submitted the operations whose CQEs were processed, each with the object
  whose `handle_completion` was called -/
  dispatched : List (ℕ × ℕ) := []
  /-- a CQE was dispatched to an address without an operation that waits for it -/
  fault : Bool := false

/-- The action is taken by another thread than the I/O thread. -/
def Act.isRemote : Act → Bool
  | .startRemote | .stopRemote | .remote => true
  | _ => false

/-- Where the I/O thread is after a step of the operation at an address. -/
def busyAfter {A : Type} (a : A) (op : Op) : Option A := if op.io = .idle then none else some a

/-- The SQEs enqueued by a step of an operation. -/
def emitted {A : Type} (a : A) (id : ℕ) (op op' : Op) : List (Entry A) :=
  List.replicate (op'.submits - op.submits) (.op a id) ++
    List.replicate (op'.cancels - op.cancels) (.cancel a id)

/-- The objects whose operation at the address is among the entries. -/
def matching {A : Type} [DecidableEq A] (a : A) (entries : List (Entry A)) : List ℕ :=
  entries.filterMap fun
    | .op b id => if b = a then some id else none
    | _ => none

inductive ContextAct (A : Type) where
  | create (a : A)
  /-- the operation-state is destroyed, its receiver having been completed -/
  | destroy (a : A)
  | op (a : A) (act : Act)
  /-- `try_submit_wait_for_wake_up()` -/
  | submitWakeUp
  /-- the kernel receives the next SQE -/
  | receive
  /-- the kernel completes one of the requests it has received -/
  | complete (i : ℕ) (cqe : Cqe)
  /-- the I/O thread processes the next CQE -/
  | process

namespace Context
variable {A : Type} [DecidableEq A]

/-- The operation at `a` takes a step. -/
def opStep (c : Context A) (a : A) (act : Act) (object : Object) : Option (Context A) :=
  (object.op.step act).map fun op =>
    { c with
      objects := Function.update c.objects a (some { object with op := op })
      busy := if act.isRemote then c.busy else busyAfter a op
      sq := c.sq ++ emitted a object.id object.op op }

/-- The loop of `run_impl` over the CQEs, for one with the address of an operation. -/
def dispatch (c : Context A) (a : A) (id : ℕ) (cqe : Cqe) : Context A :=
  match c.objects a with
  | none => { c with fault := true }
  | some object =>
    match object.op.step (.cqe cqe) with
    | none => { c with fault := true }
    | some op =>
      { c with
        objects := Function.update c.objects a (some { object with op := op })
        busy := busyAfter a op
        dispatched := c.dispatched ++ [(id, object.id)] }

def step (c : Context A) : ContextAct A → Option (Context A)
  | .create a =>
    if c.objects a = none then
      some { c with
        objects := Function.update c.objects a (some ⟨c.created, {}⟩)
        created := c.created + 1 }
    else none
  | .destroy a =>
    (c.objects a).bind fun object =>
      if object.op.completions ≠ [] ∧ object.op.io = .idle ∧ object.op.remote = .idle then
        some { c with objects := Function.update c.objects a none }
      else none
  | .op a act =>
    (c.objects a).bind fun object =>
      match act with
      | .cqe _ => none
      | act =>
        if act.isRemote ∨ c.busy = none ∨ c.busy = some a then c.opStep a act object else none
  | .submitWakeUp => some { c with sq := c.sq ++ [.wakeUp] }
  | .receive =>
    match c.sq with
    | [] => none
    | entry :: sq =>
      some { c with
        sq := sq
        kernel := c.kernel ++ [entry]
        hits := match entry with
          | .cancel a id => c.hits ++ [(id, matching a c.kernel)]
          | _ => c.hits }
  | .complete i cqe =>
    (c.kernel[i]?).map fun entry =>
      { c with kernel := c.kernel.eraseIdx i, cq := c.cq ++ [(entry, cqe)] }
  | .process =>
    if c.busy = none then
      match c.cq with
      | [] => none
      | (.op a id, cqe) :: cq => some ({ c with cq := cq }.dispatch a id cqe)
      | _ :: cq => some { c with cq := cq }
    else none

variable (A) in
def system : System (Context A) (ContextAct A) := ⟨{}, step⟩

end Context
end Squiz.LinuxOS.IoUringOperation
