import Squiz.StopWhen.Op

/-! The invariant of `stop_when_op`. Each program counter has a share in the flags of the word, in
the calls of `request_stop()` and in the deliveries; the invariant bounds the sums of the shares. -/
namespace Squiz.StopWhen
open Squiz.Lib Squiz.Lib.Word Squiz.Detail

variable {R X : Type}

/-- What one program counter adds to each sum: zero or one. -/
structure Share where
  /-- the counter's own flag is set in the word -/
  flag : ℕ := 0
  /-- the completion found everything else done and does not set its flag -/
  direct : ℕ := 0
  /-- between the decision to call `request_stop()` and `stop_request_done_flag` -/
  requesting : ℕ := 0
  /-- has still to call `request_stop()` of the source -/
  callsSource : ℕ := 0
  callsTrigger : ℕ := 0
  delivering : ℕ := 0

def StartPc.share : StartPc → Share
  | .requestStop .source => { flag := 1, requesting := 1, callsSource := 1 }
  | .requestStop .trigger => { flag := 1, requesting := 1, callsTrigger := 1 }
  | .inRequestStop _ | .addDone => { flag := 1, requesting := 1 }
  | .deliver => { flag := 1, delivering := 1 }
  | .returned => { flag := 1 }
  | _ => {}

def StopPc.share : StopPc → Share
  | .notCalled | .cas | .ignored => {}
  | .requestSource => { flag := 1, callsSource := 1, callsTrigger := 1 }
  | .inSource | .requestTrigger => { flag := 1, callsTrigger := 1 }
  | .inTrigger | .returned => { flag := 1 }

def SourcePc.share : SourcePc R X → Share
  | .requestTrigger => { flag := 1, requesting := 1, callsTrigger := 1 }
  | .inTrigger | .addDone => { flag := 1, requesting := 1 }
  | .deliver => { flag := 1, delivering := 1 }
  | .returned => { flag := 1 }
  | .forward _ => { direct := 1, delivering := 1 }
  | .returnedForwarded => { direct := 1 }
  | _ => {}

def TriggerPc.share : TriggerPc → Share
  | .requestSource => { flag := 1, requesting := 1, callsSource := 1 }
  | .inSource | .addDone => { flag := 1, requesting := 1 }
  | .deliver => { flag := 1, delivering := 1 }
  | .returned => { flag := 1 }
  | .deliverInline => { direct := 1, delivering := 1 }
  | .returnedInline => { direct := 1 }
  | _ => {}

/-! The shares are only read off at a known program counter. -/

theorem StartPc.share_eq : StartPc.notCalled.share = {} ∧ StartPc.inSource.share = {} ∧
    StartPc.loadSource.share = {} ∧ StartPc.callTrigger.share = {} ∧
    StartPc.inTrigger.share = {} ∧ StartPc.loadBoth.share = {} ∧ StartPc.addStarted.share = {} ∧
    (StartPc.requestStop .source).share = { flag := 1, requesting := 1, callsSource := 1 } ∧
    (StartPc.requestStop .trigger).share = { flag := 1, requesting := 1, callsTrigger := 1 } ∧
    (∀ c, (StartPc.inRequestStop c).share = { flag := 1, requesting := 1 }) ∧
    StartPc.addDone.share = { flag := 1, requesting := 1 } ∧
    StartPc.deliver.share = { flag := 1, delivering := 1 } ∧
    StartPc.deliverEarly.share = {} ∧ StartPc.returned.share = { flag := 1 } ∧
    StartPc.returnedEarly.share = {} := by
  simp [StartPc.share]

theorem StopPc.share_eq : StopPc.notCalled.share = {} ∧ StopPc.cas.share = {} ∧
    StopPc.requestSource.share = { flag := 1, callsSource := 1, callsTrigger := 1 } ∧
    StopPc.inSource.share = { flag := 1, callsTrigger := 1 } ∧
    StopPc.requestTrigger.share = { flag := 1, callsTrigger := 1 } ∧
    StopPc.inTrigger.share = { flag := 1 } ∧ StopPc.returned.share = { flag := 1 } ∧
    StopPc.ignored.share = {} := by
  simp [StopPc.share]

theorem SourcePc.share_eq : (SourcePc.notStarted : SourcePc R X).share = {} ∧
    (SourcePc.running : SourcePc R X).share = {} ∧
    (∀ c, (SourcePc.load c : SourcePc R X).share = {}) ∧
    (∀ c, (SourcePc.forward c : SourcePc R X).share = { direct := 1, delivering := 1 }) ∧
    (∀ c, (SourcePc.store c : SourcePc R X).share = {}) ∧
    (SourcePc.add : SourcePc R X).share = {} ∧
    (SourcePc.requestTrigger : SourcePc R X).share =
      { flag := 1, requesting := 1, callsTrigger := 1 } ∧
    (SourcePc.inTrigger : SourcePc R X).share = { flag := 1, requesting := 1 } ∧
    (SourcePc.addDone : SourcePc R X).share = { flag := 1, requesting := 1 } ∧
    (SourcePc.deliver : SourcePc R X).share = { flag := 1, delivering := 1 } ∧
    (SourcePc.returned : SourcePc R X).share = { flag := 1 } ∧
    (SourcePc.returnedForwarded : SourcePc R X).share = { direct := 1 } := by
  simp [SourcePc.share]

theorem TriggerPc.share_eq : TriggerPc.notStarted.share = {} ∧ TriggerPc.running.share = {} ∧
    TriggerPc.load.share = {} ∧
    TriggerPc.deliverInline.share = { direct := 1, delivering := 1 } ∧ TriggerPc.add.share = {} ∧
    TriggerPc.requestSource.share = { flag := 1, requesting := 1, callsSource := 1 } ∧
    TriggerPc.inSource.share = { flag := 1, requesting := 1 } ∧
    TriggerPc.addDone.share = { flag := 1, requesting := 1 } ∧
    TriggerPc.deliver.share = { flag := 1, delivering := 1 } ∧
    TriggerPc.returned.share = { flag := 1 } ∧
    TriggerPc.returnedInline.share = { direct := 1 } := by
  simp [TriggerPc.share]

/-- The children completed during `start()`. -/
def StartPc.early : StartPc → Bool
  | .deliverEarly | .returnedEarly => true
  | _ => false

/-- Which children `start()` has started. -/
def StartPc.Launched (start : StartPc) (source : SourcePc R X) (trigger : TriggerPc) : Prop :=
  match start with
  | .notCalled => source = .notStarted ∧ trigger = .notStarted
  | .inSource | .loadSource | .callTrigger => source ≠ .notStarted ∧ trigger = .notStarted
  | .deliverEarly | .returnedEarly => source ≠ .notStarted
  | _ => source ≠ .notStarted ∧ trigger ≠ .notStarted

/-- What the program counter says about the completion and the stored result. -/
def SourcePc.Ok (pc : SourcePc R X) (completion : Option (Completion R X))
    (result : Option (Result R X)) : Prop :=
  match pc with
  | .notStarted | .running => completion = none
  | .load c | .forward c | .store c => completion = some c
  | .returnedForwarded => completion.isSome = true
  | _ => ∃ c r, completion = some c ∧ result = some r ∧ c.Gives r

namespace Op

/-- Calls of `request_stop()` by `start()` or a completion whose `stop_request_done_flag` is still
to be set. -/
def requesting (s : Op R X) : ℕ :=
  s.start.share.requesting + s.source.share.requesting + s.trigger.share.requesting

/-- Everybody who has got to request the children to stop. -/
def requesters (s : Op R X) : ℕ :=
  s.requesting + s.stop.share.flag + s.stopRequestDone.toNat

/-- Deliveries, made or decided on. -/
def deliveries (s : Op R X) : ℕ :=
  s.start.share.delivering + s.source.share.delivering + s.trigger.share.delivering +
    s.delivered.length

/-- The invariant while `start()` has not found the children completed. -/
structure Open (s : Op R X) : Prop where
  word : s.word = s.start.share.flag + 2 * s.source.share.flag + 4 * s.trigger.share.flag +
    8 * s.stop.share.flag + 16 * s.stopRequestDone.toNat
  oneRequester : s.requesters ≤ 1
  started : s.requesters ≤ s.start.share.flag
  /-- a child that has completed after `start()` gets the other one stopped -/
  sourceRequests : s.start.share.flag + s.source.share.flag ≤ 1 + s.requesters
  triggerRequests : s.start.share.flag + s.trigger.share.flag ≤ 1 + s.requesters
  completed : s.requesting + s.stopRequestDone.toNat ≤ s.source.share.flag + s.trigger.share.flag
  oneDelivery : s.deliveries ≤ 1
  afterStart : s.deliveries ≤ s.start.share.flag
  afterSource : s.deliveries ≤ s.source.share.flag + s.source.share.direct
  afterTrigger : s.deliveries ≤ s.trigger.share.flag + s.trigger.share.direct
  afterRequest : s.deliveries ≤ s.stop.share.flag + s.stopRequestDone.toNat
  /-- when all have come, somebody delivers -/
  delivers : s.start.share.flag + (s.source.share.flag + s.source.share.direct) +
    (s.trigger.share.flag + s.trigger.share.direct) +
    (s.stop.share.flag + s.stopRequestDone.toNat) ≤ 3 + s.deliveries
  sourceDirect : s.source.share.direct ≤ s.source.share.delivering + s.delivered.length
  triggerDirect : s.trigger.share.direct ≤ s.trigger.share.delivering + s.delivered.length
  sourceStops : s.sourceStops + s.start.share.callsSource + s.stop.share.callsSource +
    s.trigger.share.callsSource ≤ s.requesters
  triggerStops : s.triggerStops + s.start.share.callsTrigger + s.stop.share.callsTrigger +
    s.source.share.callsTrigger ≤ s.requesters

/-- The invariant once it has. -/
structure Early (s : Op R X) : Prop where
  source : s.source = .returned
  unrequested : s.stop.share.flag = 0 ∧ s.stopRequestDone = false
  trigger : s.trigger = .notStarted ∧ s.word = 2 ∨
    s.trigger = .returned ∧ (s.word = 6 ∨ s.word = 7)
  unstopped : s.sourceStops = 0 ∧ s.triggerStops = 0
  delivered : s.delivered.length = if s.start = .returnedEarly then 1 else 0

structure Inv (s : Op R X) : Prop where
  phase : if s.start.early then s.Early else s.Open
  launched : s.start.Launched s.source s.trigger
  ok : s.source.Ok s.completion s.result
  gives : ∀ r ∈ s.delivered, ∃ c, s.completion = some c ∧ c.Gives r
  stopped : s.stop ≠ .notCalled → s.start = .returned ∨ s.start = .returnedEarly
  noFault : s.fault = false

/-- The bounds as one fact of arithmetic about the shares. -/
theorem open_iff {s : Op R X} : s.Open ↔
    s.word = s.start.share.flag + 2 * s.source.share.flag + 4 * s.trigger.share.flag +
      8 * s.stop.share.flag + 16 * s.stopRequestDone.toNat ∧
    ∃ r q d, r = s.start.share.requesting + s.source.share.requesting +
        s.trigger.share.requesting ∧
      q = r + s.stop.share.flag + s.stopRequestDone.toNat ∧
      d = s.start.share.delivering + s.source.share.delivering + s.trigger.share.delivering +
        s.delivered.length ∧
      (q ≤ 1 ∧ q ≤ s.start.share.flag ∧ s.start.share.flag + s.source.share.flag ≤ 1 + q ∧
        s.start.share.flag + s.trigger.share.flag ≤ 1 + q ∧
        r + s.stopRequestDone.toNat ≤ s.source.share.flag + s.trigger.share.flag) ∧
      (d ≤ 1 ∧ d ≤ s.start.share.flag ∧ d ≤ s.source.share.flag + s.source.share.direct ∧
        d ≤ s.trigger.share.flag + s.trigger.share.direct ∧
        d ≤ s.stop.share.flag + s.stopRequestDone.toNat ∧
        s.start.share.flag + (s.source.share.flag + s.source.share.direct) +
          (s.trigger.share.flag + s.trigger.share.direct) +
          (s.stop.share.flag + s.stopRequestDone.toNat) ≤ 3 + d) ∧
      (s.source.share.direct ≤ s.source.share.delivering + s.delivered.length ∧
        s.trigger.share.direct ≤ s.trigger.share.delivering + s.delivered.length) ∧
      s.sourceStops + s.start.share.callsSource + s.stop.share.callsSource +
        s.trigger.share.callsSource ≤ q ∧
      s.triggerStops + s.start.share.callsTrigger + s.stop.share.callsTrigger +
        s.source.share.callsTrigger ≤ q := by
  constructor
  · rintro ⟨h1, h2, h3, h4, h5, h6, h7, h8, h9, h10, h11, h12, h13, h14, h15, h16⟩
    exact ⟨h1, _, _, _, rfl, rfl, rfl, ⟨h2, h3, h4, h5, h6⟩, ⟨h7, h8, h9, h10, h11, h12⟩,
      ⟨h13, h14⟩, h15, h16⟩
  · rintro ⟨h1, r, q, d, rfl, rfl, rfl, ⟨h2, h3, h4, h5, h6⟩, ⟨h7, h8, h9, h10, h11, h12⟩,
      ⟨h13, h14⟩, h15, h16⟩
    exact ⟨h1, h2, h3, h4, h5, h6, h7, h8, h9, h10, h11, h12, h13, h14, h15, h16⟩

end Op

namespace SourcePc

theorem share_le (pc : SourcePc R X) : pc.share.flag + pc.share.direct ≤ 1 ∧
    pc.share.requesting + pc.share.delivering ≤ pc.share.flag + pc.share.direct ∧
    pc.share.callsTrigger ≤ pc.share.requesting := by
  cases pc <;> simp [share]

theorem eq_returned {pc : SourcePc R X} (hflag : pc.share.flag = 1)
    (hrequesting : pc.share.requesting = 0) (hdelivering : pc.share.delivering = 0) :
    pc = .returned := by
  cases pc <;> simp [share] at hflag hrequesting hdelivering ⊢

end SourcePc

namespace TriggerPc

theorem share_le (pc : TriggerPc) : pc.share.flag + pc.share.direct ≤ 1 ∧
    pc.share.requesting + pc.share.delivering ≤ pc.share.flag + pc.share.direct ∧
    pc.share.callsSource ≤ pc.share.requesting := by
  cases pc <;> simp [share]

theorem eq_returned {pc : TriggerPc} (hflag : pc.share.flag = 1)
    (hrequesting : pc.share.requesting = 0) (hdelivering : pc.share.delivering = 0) :
    pc = .returned := by
  cases pc <;> simp [share] at hflag hrequesting hdelivering ⊢

end TriggerPc
end Squiz.StopWhen
