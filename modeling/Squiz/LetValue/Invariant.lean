import Squiz.LetValue.Op

/-! The invariant of `let_value_op`: the stage of the source's `set_result` fixes the flags, the
child in the storage, and where `request_stop()` and the body can be. -/
namespace Squiz.LetValue
open Squiz.Lib Squiz.Lib.Word Squiz.Detail

variable {V R X : Type}

inductive Phase where
  /-- no value was accepted -/
  | waiting
  /-- a value came after the stop request -/
  | stopped
  /-- the value is accepted and the body not started -/
  | building
  /-- the body was started, which is not published yet -/
  | starting
  /-- the body gets the deferred stop request -/
  | requesting
  /-- the body left its result to `set_result` -/
  | dispatching
  | finished
  deriving DecidableEq

namespace SourcePc

def phase : SourcePc V R X → Phase
  | .notStarted | .running | .add _ _ | .forward _ | .returnedForwarded => .waiting
  | .setStopped | .returnedStopped => .stopped
  | .emplace _ _ | .destruct _ | .invokeFactory _ | .construct _ | .startBody | .handler _
  | .setError _ | .returnedError => .building
  | .inStart | .addStarted => .starting
  | .requestBody | .inRequestStop | .addDone => .requesting
  | .dispatch | .returnedDispatched => .dispatching
  | .returned => .finished

/-- How often `set_result` has completed the receiver. -/
def deliveries : SourcePc V R X → ℕ
  | .returnedForwarded | .returnedStopped | .returnedError | .returnedDispatched => 1
  | _ => 0

/-- Calls of the body's `request_stop()` before `stop_request_done_flag` is set. -/
def bodyStops : SourcePc V R X → ℕ
  | .inRequestStop | .addDone => 1
  | _ => 0

/-- The child that `child_index_` names. -/
def Holds (pc : SourcePc V R X) (index : ChildIndex) : Prop :=
  match pc with
  | .emplace _ _ | .destruct _ => index = .child .source
  | .invokeFactory _ | .construct _ => index = .empty
  | .handler _ | .setError _ | .returnedError => index ≠ .child .body
  | .startBody => index = .child .body
  | pc => if pc.phase = .waiting ∨ pc.phase = .stopped then index = .child .source
    else index = .child .body

/-- What the program counter says about the source's completion and the stored values. -/
def Ok (pc : SourcePc V R X) (completion : Option (SourceCompletion V R X)) (values : Option V) :
    Prop :=
  match pc with
  | .notStarted | .running => completion = none
  | .add v throws | .emplace v throws => completion = some (.value v throws)
  | .destruct throws | .invokeFactory throws =>
    ∃ v, completion = some (.value v throws) ∧ values = some v
  | .construct throws => ∃ v, completion = some (.value v throws)
  | .handler x | .setError x => ∃ v stage, completion = some (.value v (some (stage, x)))
  | .forward r => completion = some (.other r)
  | .returnedForwarded => ∃ r, completion = some (.other r)
  | _ => ∃ v throws, completion = some (.value v throws)

/-- The body factory has not been invoked. -/
def uninvoked : SourcePc V R X → Bool
  | .emplace _ _ | .destruct _ | .invokeFactory _ => true
  | pc => pc.phase = .waiting ∨ pc.phase = .stopped

end SourcePc

namespace Phase

def srcDone : Phase → ℕ
  | .waiting => 0
  | _ => 1

def bodyStarted : Phase → ℕ
  | .requesting | .dispatching | .finished => 1
  | _ => 0

end Phase

namespace StopPc

/-- `stop_requested_flag` was set before the source's value was accepted. -/
def early : StopPc → Bool
  | .requestSource | .inSource | .returnedSource => true
  | _ => false

/-- The body is requested to stop by `request_stop()` itself. -/
def toBody : StopPc → Bool
  | .requestBody | .inBody | .returnedBody => true
  | _ => false

/-- `stop_requested_flag` is set. -/
def asked (pc : StopPc) : ℕ := (pc.early || decide (pc = .deferred)).toNat

def sourceStops : StopPc → ℕ
  | .inSource | .returnedSource => 1
  | _ => 0

def bodyStops : StopPc → ℕ
  | .inBody | .returnedBody => 1
  | _ => 0

/-- The state a `compare_exchange` expects. -/
def Expects : StopPc → Prop
  | .casDeferred old =>
    hasFlag old bodyDoneFlag = false ∧ hasFlag old bodyStartedFlag = false ∧
      hasFlag old srcDoneFlag = true
  | .casSource old =>
    hasFlag old bodyDoneFlag = false ∧ hasFlag old bodyStartedFlag = false ∧
      hasFlag old srcDoneFlag = false
  | _ => True

end StopPc

namespace BodyPc

/-- `body_done_flag` is set. -/
def done : BodyPc R X → ℕ
  | .deliver | .returnedDelivered | .deferred => 1
  | _ => 0

/-- The body has completed at most as far as an operation whose `set_result` of the source is still
running allows. -/
def held : BodyPc R X → Bool
  | .running | .load _ | .store _ | .add | .deferred => true
  | _ => false

def deliveries : BodyPc R X → ℕ
  | .returnedForwarded | .returnedDelivered => 1
  | _ => 0

/-- What the program counter says about the body's completion and the stored result. -/
def Ok (pc : BodyPc R X) (completion : Option (Completion R X)) (result : Option (Result R X)) :
    Prop :=
  match pc with
  | .notStarted | .running => completion = none
  | .load c | .forward c | .store c => completion = some c
  | .add | .deliver | .deferred => ∃ c r, completion = some c ∧ result = some r ∧ c.Gives r
  | .returnedForwarded | .returnedDelivered => completion.isSome = true

end BodyPc

/-- Where `request_stop()` and the body can be at each phase, and whether
`stop_request_done_flag` is set. -/
def Phase.Joint (phase : Phase) (stop : StopPc) (body : BodyPc R X) (done : Bool) : Prop :=
  match phase with
  | .waiting => body = .notStarted ∧ stop ≠ .deferred ∧ stop.toBody = false ∧ done = false
  | .stopped => body = .notStarted ∧ stop.early = true ∧ done = false
  | .building => body = .notStarted ∧ stop.early = false ∧ stop.toBody = false ∧ done = false
  | .starting => body.held = true ∧ stop.early = false ∧ stop.toBody = false ∧ done = false
  | .requesting => body.held = true ∧ stop = .deferred ∧ done = false
  | .dispatching =>
    body = .deferred ∧ stop.early = false ∧ stop.toBody = false ∧ (done = true → stop = .deferred)
  | .finished =>
    body ≠ .notStarted ∧ body ≠ .deferred ∧ stop.early = false ∧ (done = true ↔ stop = .deferred)

/-- Where a result comes from. -/
def Gives (completion : Option (SourceCompletion V R X)) (bodyCompletion : Option (Completion R X))
    (stop : StopPc) : Outcome R X → Prop
  | .stopped => stop.early = true ∧ ∃ v throws, completion = some (.value v throws)
  | .of r =>
    (∃ r', completion = some (.other r') ∧ r = .child r') ∨
      stop.early = false ∧ ((∃ v stage x, completion = some (.value v (some (stage, x))) ∧
        r = .exceptionPtr x) ∨ ∃ c, bodyCompletion = some c ∧ c.Gives r)

namespace Op

structure Inv (s : Op V R X) : Prop where
  word : s.word = s.source.phase.srcDone + 2 * s.source.phase.bodyStarted + 4 * s.body.done +
    8 * s.stop.asked + 16 * s.stopRequestDone.toNat
  joint : s.source.phase.Joint s.stop s.body s.stopRequestDone
  expects : s.stop.Expects
  holds : s.source.Holds s.childIndex
  alive : s.alive = if s.destroyed then none else
    match s.childIndex with
    | .empty => none
    | .child c => some c
  ok : s.source.Ok s.completion s.values
  bodyOk : s.body.Ok s.bodyCompletion s.result
  deliveries : s.delivered.length = s.source.deliveries + s.body.deliveries
  gives : ∀ o ∈ s.delivered, Gives s.completion s.bodyCompletion s.stop o
  uninvoked : s.source.uninvoked = true → s.factoryCalls = []
  sourceStops : s.sourceStops = s.stop.sourceStops
  bodyStops : s.bodyStops = s.source.bodyStops + s.stop.bodyStops + s.stopRequestDone.toNat
  unstarted : s.start = .notCalled ↔ s.source = .notStarted
  destroyed : s.destroyed = true →
    s.stop.ended = true ∧ (s.start = .notCalled ∨ s.delivered ≠ [])
  noFault : s.fault = false

end Op
end Squiz.LetValue
