import Squiz.Senders.FirstSuccessful
import Squiz.Senders.Forward
import Squiz.Senders.LetValue
import Squiz.Senders.Nest
import Squiz.Senders.Statement
import Squiz.Senders.StopWhen
import Squiz.Senders.WhenAll

/-! Sender expressions: what they declare, the operations that they connect to, and that these
complete once, as declared. A datum stands for its type; an environment is one in which stop is or
is not possible. That `statement` and `let_value` destroy a child is in their own models; the state
of the child in the tree stays as it was. -/
namespace Squiz
open Squiz.Lib Squiz.Detail Squiz.SigSet

/-- A sender from outside, which completes by itself. -/
structure External (T : Type) where
  completionSignatures : Bool → SigSet T
  isAlwaysNothrowConnectable : Bool → Bool
  isStoppable : Bool → Bool

/-- Sender types with those values of theirs that decide what the operation does: the alternative
that a `variant_sender` holds and the reference to the scope of a nested sender. -/
inductive Sender (T : Type) where
  | justValue (vs : List T)
  | justError (e : T)
  | justStopped
  | external (sender : External T)
  | andThen (source : Sender T) (func : Then.Func T) (funcNothrowConstructible : Bool)
  | letValue (source : Sender T) (body : List T → Sender T) (nothrowInvocable : List T → Bool)
      (factoryNothrowConstructible : Bool)
  | whenAll (N : Arity) (children : N.Child → Sender T)
  | firstSuccessful (N : Arity) (children : N.Child → Sender T)
  | stopWhen (source trigger : Sender T)
  | statement (source : Sender T)
  | unstoppable (source : Sender T)
  | variant (last : ℕ) (senders : Fin (last + 1) → Sender T) (index : Fin (last + 1))
  | nest (scope : Option CountingScope.Ref) (source : Sender T)

/-! `just_op` completes in `start()`. -/
namespace Just

inductive Pc where
  | notStarted | started

def Pc.step : Pc → Unit → Option Pc
  | .notStarted, _ => some .started
  | .started, _ => none

def Pc.rank : Pc → ℕ
  | .notStarted => 1
  | .started => 0

variable {R : Type}

def operation (r : R) : Operation R where
  State := Pc
  Act := Unit
  system := ⟨.notStarted, Pc.step⟩
  asksToStop _ _ := false
  spurious _ := false
  delivered
    | .notStarted => []
    | .started => [r]

theorem operation_safe (r : R) : (operation r).Safe (· = r) where
  once := by
    intro s _
    cases s
    · exact Nat.zero_le 1
    · exact Nat.le_refl 1
  declares := by
    intro s _ r' hr
    cases s with
    | notStarted => cases hr
    | started => exact List.mem_singleton.mp hr
  terminates := by
    have hranked : (operation r).Ranked Pc.rank := by
      intro s a t _ ht
      cases s <;> cases ht
      exact ⟨Nat.zero_le 1, fun _ => Nat.zero_lt_one⟩
    exact hranked.exists_ordinal

theorem operation_ends (r : R) : (operation r).Ends := by
  intro s _ hstuck
  cases s with
  | notStarted => cases hstuck () rfl
  | started => exact List.cons_ne_nil _ _

theorem operation_structured (r : R) : (operation r).Structured where
  keeps := by
    intro s a t ht hne
    cases s with
    | notStarted => exact absurd rfl hne
    | started => cases ht
  ended := fun _ _ _ h => h

theorem operation_cancels (r : R) : (operation r).Cancels where
  pending := fun _ _ h => h
  asks := fun _ _ _ h => h.elim
  heeds := fun _ _ _ _ h => h
  attends := fun _ _ _ h => h

end Just

/-! An operation from outside completes with some result that it has declared, whether it has been
asked to stop or not. -/
namespace External

inductive Op (R : Type) where
  | notStarted
  | running (stopRequested : Bool)
  | completed (r : R)
  deriving DecidableEq

inductive Act (R : Type) where
  | start
  | requestStop
  | complete (r : R)

variable {R : Type}

def Op.step [DecidableEq R] (declared : List R) : Op R → Act R → Option (Op R)
  | .notStarted, .start => some (.running false)
  | .running false, .requestStop => some (.running true)
  | .running _, .complete r => if r ∈ declared then some (.completed r) else none
  | _, _ => none

def Op.rank : Op R → ℕ
  | .notStarted => 3
  | .running false => 2
  | .running true => 1
  | .completed _ => 0

variable [DecidableEq R]

def operation (declared : List R) : Operation R where
  State := Op R
  Act := Act R
  system := ⟨.notStarted, Op.step declared⟩
  asksToStop _
    | .requestStop => true
    | _ => false
  spurious _ := false
  delivered
    | .completed r => [r]
    | _ => []
  outside
    | .complete _ => true
    | _ => false
  pending s := ∃ stopRequested, s = .running stopRequested
  stopCalled
    | .running stopRequested => stopRequested
    | _ => false
  unasked s := s = .running false

theorem Op.step_complete (declared : List R) (stopRequested : Bool) (r : R) :
    (running stopRequested).step declared (.complete r) =
      if r ∈ declared then some (completed r) else none := by
  cases stopRequested <;> rfl

theorem Op.rank_step {declared : List R} {s t : Op R} {a : Act R}
    (ht : s.step declared a = some t) : t.rank < s.rank := by
  cases s with
  | notStarted =>
    cases a <;> cases ht
    exact Nat.lt_succ_self 2
  | running stopRequested =>
    cases a with
    | start => cases stopRequested <;> cases ht
    | requestStop =>
      cases stopRequested <;> cases ht
      exact Nat.lt_succ_self 1
    | complete r =>
      rw [step_complete] at ht
      split_ifs at ht
      cases ht
      cases stopRequested
      · exact Nat.zero_lt_two
      · exact Nat.zero_lt_one
  | completed r => cases a <;> cases ht

theorem operation_safe (declared : List R) : (operation declared).Safe (· ∈ declared) where
  once := by
    intro s _
    cases s
    · exact Nat.zero_le 1
    · exact Nat.zero_le 1
    · exact Nat.le_refl 1
  declares := by
    intro s hs r hr
    have hinv : ∀ r, s = .completed r → r ∈ declared := by
      refine hs.invariant (P := fun s : Op R => ∀ r, s = .completed r → r ∈ declared)
        (fun r h => by cases h) ?_
      rintro s a t - - ht r rfl
      cases s with
      | notStarted | completed => cases a <;> cases ht
      | running stopRequested =>
        cases a with
        | start | requestStop => cases stopRequested <;> cases ht
        | complete r' =>
          obtain ⟨hmem, heq⟩ := Option.ite_none_right_eq_some.mp
            ((Op.step_complete declared stopRequested r').symm.trans ht)
          cases heq
          exact hmem
    cases s with
    | notStarted | running => cases hr
    | completed r' =>
      obtain rfl := List.mem_singleton.mp hr
      exact hinv r rfl
  terminates := by
    have hranked : (operation declared).Ranked Op.rank := fun s a t _ ht =>
      have hlt := Op.rank_step ht
      ⟨hlt.le, fun _ => hlt⟩
    exact hranked.exists_ordinal

theorem operation_ends {declared : List R} (hne : declared ≠ []) : (operation declared).Ends := by
  intro s _ hstuck
  cases s with
  | notStarted => cases hstuck .start rfl
  | running stopRequested =>
    obtain ⟨r, hr⟩ := List.exists_mem_of_ne_nil _ hne
    have hnone : (Op.running stopRequested).step declared (.complete r) = none :=
      hstuck (.complete r) rfl
    rw [Op.step_complete, if_pos hr] at hnone
    cases hnone
  | completed r => exact List.cons_ne_nil _ _

theorem operation_structured (declared : List R) : (operation declared).Structured where
  keeps := by
    intro s a t ht hne
    cases s with
    | notStarted | running => exact absurd rfl hne
    | completed r => cases a <;> cases ht
  ended := by
    rintro s - hne ⟨stopRequested, rfl⟩
    exact hne rfl

theorem operation_cancels (declared : List R) : (operation declared).Cancels where
  pending := fun _ _ h => ⟨false, h⟩
  asks := by
    rintro s - - rfl -
    exact ⟨.requestStop, rfl, rfl, Option.some_ne_none _⟩
  heeds := by
    rintro s - - hcalled rfl
    cases hcalled
  attends := fun _ _ _ h => h

end External

namespace Sender
variable {T : Type} [DecidableEq T] (types : DatumTypes T)

mutual

/-- `get_completion_signatures` -/
def completionSignatures : Sender T → Bool → SigSet T
  | justValue vs, _ => [.value vs]
  | justError e, _ => [.error e]
  | justStopped, _ => [.stopped]
  | external sender, stopPossible => sender.completionSignatures stopPossible
  | andThen source func _, stopPossible =>
    transform (Then.completionTransform types func) (completionSignatures source stopPossible)
  | letValue source body nothrowInvocable _, stopPossible =>
    LetValue.completionSignatures types
      ⟨fun vs => completionSignatures (body vs) stopPossible, nothrowInvocable,
        fun vs => isAlwaysNothrowConnectable (body vs) stopPossible⟩
      (completionSignatures source stopPossible)
  | whenAll _ children, stopPossible =>
    WhenAll.getCompletionSignatures types (fun i => completionSignatures (children i)) stopPossible
  | firstSuccessful N children, _ =>
    addErrorIfMoveCanThrow types
      (merge ((List.finRange N.children).map fun i => completionSignatures (children i) true))
  | stopWhen source _, _ => addErrorIfMoveCanThrow types (completionSignatures source true)
  | statement source, stopPossible =>
    addErrorIfMoveCanThrow types (completionSignatures source stopPossible)
  | unstoppable source, _ => completionSignatures source false
  | variant last senders _, stopPossible =>
    merge ((List.finRange (last + 1)).map fun i => completionSignatures (senders i) stopPossible)
  | nest _ source, stopPossible => merge [completionSignatures source stopPossible, [.stopped]]

/-- `is_always_nothrow_connectable_v` -/
def isAlwaysNothrowConnectable : Sender T → Bool → Bool
  | justValue vs, _ => vs.all types.nothrowMove
  | justError e, _ => types.nothrowMove e
  | justStopped, _ => true
  | external sender, stopPossible => sender.isAlwaysNothrowConnectable stopPossible
  | andThen source _ funcNothrowConstructible, stopPossible =>
    funcNothrowConstructible && isAlwaysNothrowConnectable source stopPossible
  | letValue source _ _ factoryNothrowConstructible, stopPossible =>
    isAlwaysNothrowConnectable source stopPossible && factoryNothrowConstructible
  | whenAll N children, stopPossible =>
    if WhenAll.allSucceed types (fun i => completionSignatures (children i)) stopPossible then
      (List.finRange N.children).all fun i => isAlwaysNothrowConnectable (children i) stopPossible
    else (List.finRange N.children).all fun i => isAlwaysNothrowConnectable (children i) true
  | firstSuccessful N children, _ =>
    (List.finRange N.children).all fun i => isAlwaysNothrowConnectable (children i) true
  | stopWhen source trigger, _ =>
    isAlwaysNothrowConnectable source true && isAlwaysNothrowConnectable trigger true
  -- the template parameter of the member function cannot be deduced
  | statement _, _ => false
  | unstoppable source, _ => isAlwaysNothrowConnectable source false
  | variant last senders _, stopPossible =>
    (List.finRange (last + 1)).all fun i => isAlwaysNothrowConnectable (senders i) stopPossible
  | nest _ source, stopPossible => isAlwaysNothrowConnectable source stopPossible

end

/-- `stoppable_operation_state`: the operation has a `request_stop()`. -/
def isStoppable : Sender T → Bool → Bool
  | justValue _, _ | justError _, _ | justStopped, _ | unstoppable _, _ => false
  | external sender, stopPossible => sender.isStoppable stopPossible
  | andThen source _ _, stopPossible | statement source, stopPossible
  | nest _ source, stopPossible => isStoppable source stopPossible
  | letValue source body _ _, stopPossible =>
    isStoppable source stopPossible || (source.completionSignatures types stopPossible).any fun
      | .value vs => isStoppable (body vs) stopPossible
      | _ => false
  | whenAll N children, stopPossible | firstSuccessful N children, stopPossible =>
    stopPossible && (List.finRange N.children).any fun i => isStoppable (children i) true
  | stopWhen source trigger, stopPossible =>
    stopPossible && (isStoppable source true || isStoppable trigger true)
  | variant last senders _, stopPossible =>
    (List.finRange (last + 1)).any fun i => isStoppable (senders i) stopPossible

/-- What `let_value` knows of its body. -/
def factory (body : List T → Sender T) (nothrowInvocable : List T → Bool) (stopPossible : Bool) :
    LetValue.Factory T where
  body vs := (body vs).completionSignatures types stopPossible
  nothrowInvocable := nothrowInvocable
  nothrowConnectable vs := (body vs).isAlwaysNothrowConnectable types stopPossible

/-- `connect_result_t`: the operation with those that it starts -/
def operation : Sender T → Bool → Operation (Signature T)
  | justValue vs, _ => Just.operation (.value vs)
  | justError e, _ => Just.operation (.error e)
  | justStopped, _ => Just.operation .stopped
  | external sender, stopPossible =>
    (External.operation (sender.completionSignatures stopPossible)).restrict
      (sender.isStoppable stopPossible)
  | andThen source func _, stopPossible =>
    (Then.adapter types func (source.isStoppable types stopPossible)).compose fun _ _ =>
      operation source stopPossible
  | letValue source body nothrowInvocable factoryNothrowConstructible, stopPossible =>
    ((LetValue.adapter types (factory types body nothrowInvocable stopPossible)).compose
      fun
        | .source, _ => operation source stopPossible
        | .body, vs => operation (body vs) stopPossible).restrict
      ((letValue source body nothrowInvocable factoryNothrowConstructible).isStoppable types
        stopPossible)
  | whenAll N children, stopPossible =>
    if WhenAll.allSucceed types (fun i => (children i).completionSignatures types) stopPossible then
      ((WhenAll.AlwaysSucceeds.adapter N T).compose fun i _ =>
        operation (children i) stopPossible).restrict
        ((whenAll N children).isStoppable types stopPossible)
    else
      ((WhenAll.adapter N types).compose fun i _ => operation (children i) true).restrict
        ((whenAll N children).isStoppable types stopPossible)
  | firstSuccessful N children, stopPossible =>
    (FirstSuccessful.adapter
      ⟨N, (firstSuccessful N children).isStoppable types stopPossible⟩ types).compose fun i _ =>
        operation (children i) true
  | stopWhen source trigger, stopPossible =>
    ((StopWhen.adapter types).compose
      fun
        | .source, _ => operation source true
        | .trigger, _ => operation trigger true).restrict
      ((stopWhen source trigger).isStoppable types stopPossible)
  | statement source, stopPossible =>
    if source.isStoppable types stopPossible then
      (Statement.adapter types).compose fun _ _ => operation source stopPossible
    else (Statement.unstoppableAdapter types).compose fun _ _ => operation source stopPossible
  | unstoppable source, _ => Unstoppable.adapter.compose fun _ _ => operation source false
  | variant last senders index, stopPossible =>
    (Variant.adapter ((variant last senders index).isStoppable types stopPossible)).compose
      fun _ _ => operation (senders index) stopPossible
  | nest scope source, stopPossible =>
    ((CountingScope.Nest.adapter scope).compose fun _ _ => operation source stopPossible).restrict
      (source.isStoppable types stopPossible)

/-- The property holds of the sender and of those that it is made of, each in its environment. -/
def Everywhere (P : Sender T → Bool → Prop) : Sender T → Bool → Prop
  | justValue vs, stopPossible => P (justValue vs) stopPossible
  | justError e, stopPossible => P (justError e) stopPossible
  | justStopped, stopPossible => P justStopped stopPossible
  | external sender, stopPossible => P (external sender) stopPossible
  | andThen source func funcNothrowConstructible, stopPossible =>
    P (andThen source func funcNothrowConstructible) stopPossible ∧
      Everywhere P source stopPossible
  | letValue source body nothrowInvocable factoryNothrowConstructible, stopPossible =>
    P (letValue source body nothrowInvocable factoryNothrowConstructible) stopPossible ∧
      Everywhere P source stopPossible ∧
      ∀ vs, .value vs ∈ source.completionSignatures types stopPossible →
        Everywhere P (body vs) stopPossible
  | whenAll N children, stopPossible =>
    P (whenAll N children) stopPossible ∧
      if WhenAll.allSucceed types (fun i => (children i).completionSignatures types) stopPossible
      then ∀ i, Everywhere P (children i) stopPossible
      else ∀ i, Everywhere P (children i) true
  | firstSuccessful N children, stopPossible =>
    P (firstSuccessful N children) stopPossible ∧ ∀ i, Everywhere P (children i) true
  | stopWhen source trigger, stopPossible =>
    P (stopWhen source trigger) stopPossible ∧ Everywhere P source true ∧ Everywhere P trigger true
  | statement source, stopPossible =>
    P (statement source) stopPossible ∧ Everywhere P source stopPossible
  | unstoppable source, stopPossible =>
    P (unstoppable source) stopPossible ∧ Everywhere P source false
  | variant last senders index, stopPossible =>
    P (variant last senders index) stopPossible ∧ ∀ i, Everywhere P (senders i) stopPossible
  | nest scope source, stopPossible =>
    P (nest scope source) stopPossible ∧ Everywhere P source stopPossible

/-- A `when_all` of children that may fail declares the exception that storing a datum may throw, if
such a datum may come. -/
def DeclaresException : Sender T → Bool → Prop
  | whenAll _ children, stopPossible =>
    WhenAll.allSucceed types (fun i => (children i).completionSignatures types) stopPossible =
        false →
      WhenAll.ExceptionDeclared types fun i => (children i).completionSignatures types
  | _, _ => True

/-- A sender from outside declares a completion. -/
def Completes : Sender T → Bool → Prop
  | external sender, stopPossible => sender.completionSignatures stopPossible ≠ []
  | _, _ => True

/-- The values of the children of a `first_successful` are moved without throwing. A child that wins
with another value leaves the others without a request to stop. -/
def MovesValues : Sender T → Bool → Prop
  | firstSuccessful _ children, _ => ∀ i vs,
    .value vs ∈ (children i).completionSignatures types true →
      (Signature.value vs).nothrowMove types = true
  | _, _ => True

variable {types} {sender : Sender T} {stopPossible : Bool}

theorem operation_safe (h : sender.Everywhere types (DeclaresException types) stopPossible) :
    (sender.operation types stopPossible).Safe
      fun sig => sig ∈ sender.completionSignatures types stopPossible := by
  induction sender generalizing stopPossible with
  | justValue vs | justError e | justStopped =>
    refine (Just.operation_safe _).mono ?_
    rintro sig rfl
    exact List.mem_singleton_self _
  | external sender => exact (External.operation_safe _).restrict
  | andThen source func _ ih =>
    obtain ⟨-, h⟩ := h
    refine ((Forward.adapter_safe _ _ _).compose fun _ _ _ => ih h).mono ?_
    rintro sig' ⟨sig, throws, hsig, hset⟩
    exact mem_transform.mpr ⟨sig, hsig, Then.setResult_mem hset⟩
  | letValue source body nothrowInvocable _ ih ihBody =>
    obtain ⟨-, h, hbody⟩ := h
    unfold operation completionSignatures
    refine ((LetValue.adapter_safe types (factory types body nothrowInvocable stopPossible)
      (source.completionSignatures types stopPossible)).compose ?_).restrict
    intro child vs hadmits
    cases child with
    | source => exact ih h
    | body => exact ihBody vs (hbody vs hadmits)
  | whenAll N children ih =>
    obtain ⟨hexception, h⟩ := h
    unfold operation
    split_ifs at h ⊢ with hall
    · exact ((WhenAll.AlwaysSucceeds.adapter_safe hall).compose fun i _ _ => ih i (h i)).restrict
    · have hgeneral := Bool.of_not_eq_true hall
      exact ((WhenAll.adapter_safe hgeneral (hexception hgeneral)).compose
        fun i _ _ => ih i (h i)).restrict
  | firstSuccessful N children ih =>
    obtain ⟨-, h⟩ := h
    exact (FirstSuccessful.adapter_safe _ _).compose fun i _ _ => ih i (h i)
  | stopWhen source trigger ih ihTrigger =>
    obtain ⟨-, h, htrigger⟩ := h
    refine ((StopWhen.adapter_safe types _ (trigger.completionSignatures types true)).compose
      ?_).restrict
    intro child _ _
    cases child with
    | source => exact ih h
    | trigger => exact ihTrigger htrigger
  | statement source ih =>
    obtain ⟨-, h⟩ := h
    unfold operation
    split_ifs
    · exact (Statement.adapter_safe _ _).compose fun _ _ _ => ih h
    · refine ((Forward.adapter_safe _ _ _).compose fun _ _ _ => ih h).mono ?_
      rintro sig' ⟨sig, throws, hsig, hset⟩
      exact Statement.setResult_mem hset hsig
  | unstoppable source ih =>
    obtain ⟨-, h⟩ := h
    refine ((Forward.adapter_safe _ _ _).compose fun _ _ _ => ih h).mono ?_
    rintro sig' ⟨sig, throws, hsig, hset⟩
    rwa [eq_of_passOn hset]
  | variant last senders index ih =>
    obtain ⟨-, h⟩ := h
    refine ((Forward.adapter_safe _ _ _).compose fun _ _ _ => ih index (h index)).mono ?_
    rintro sig' ⟨sig, throws, hsig, hset⟩
    rw [eq_of_passOn hset]
    exact mem_merge.mpr ⟨_, List.mem_map_of_mem (List.mem_finRange index), hsig⟩
  | nest scope source ih =>
    obtain ⟨-, h⟩ := h
    exact ((CountingScope.Nest.adapter_safe _ _).compose fun _ _ _ => ih h).restrict

theorem operation_ends (h : sender.Everywhere types (DeclaresException types) stopPossible)
    (hcompletes : sender.Everywhere types Completes stopPossible) :
    (sender.operation types stopPossible).Ends := by
  induction sender generalizing stopPossible with
  | justValue vs | justError e | justStopped => exact Just.operation_ends _
  | external sender => exact (External.operation_ends hcompletes).restrict
  | andThen source func _ ih =>
    obtain ⟨-, h⟩ := h
    obtain ⟨-, hcompletes⟩ := hcompletes
    exact (Forward.adapter_ends _ _ _ Then.setResult_isSome).compose (Forward.adapter_safe _ _ _)
      (fun _ _ _ => operation_safe h) fun _ _ _ => ih h hcompletes
  | letValue source body nothrowInvocable _ ih ihBody =>
    obtain ⟨-, h, hbody⟩ := h
    obtain ⟨-, hcompletes, hbodyCompletes⟩ := hcompletes
    unfold operation
    refine ((LetValue.adapter_ends types (factory types body nothrowInvocable stopPossible)
      (source.completionSignatures types stopPossible)).compose
      (LetValue.adapter_safe types _ _) ?_ ?_).restrict
    · intro child vs hadmits
      cases child with
      | source => exact operation_safe h
      | body => exact operation_safe (hbody vs hadmits)
    · intro child vs hadmits
      cases child with
      | source => exact ih h hcompletes
      | body => exact ihBody vs (hbody vs hadmits) (hbodyCompletes vs hadmits)
  | whenAll N children ih =>
    obtain ⟨hexception, h⟩ := h
    obtain ⟨-, hcompletes⟩ := hcompletes
    unfold operation
    split_ifs at h hcompletes ⊢ with hall
    · exact ((WhenAll.AlwaysSucceeds.adapter_ends hall).compose
        (WhenAll.AlwaysSucceeds.adapter_safe hall) (fun i _ _ => operation_safe (h i))
        fun i _ _ => ih i (h i) (hcompletes i)).restrict
    · have hgeneral := Bool.of_not_eq_true hall
      exact ((WhenAll.adapter_ends types _).compose
        (WhenAll.adapter_safe hgeneral (hexception hgeneral)) (fun i _ _ => operation_safe (h i))
        fun i _ _ => ih i (h i) (hcompletes i)).restrict
  | firstSuccessful N children ih =>
    obtain ⟨-, h⟩ := h
    obtain ⟨-, hcompletes⟩ := hcompletes
    exact (FirstSuccessful.adapter_ends _ _).compose (FirstSuccessful.adapter_safe _ _)
      (fun i _ _ => operation_safe (h i)) fun i _ _ => ih i (h i) (hcompletes i)
  | stopWhen source trigger ih ihTrigger =>
    obtain ⟨-, h, htrigger⟩ := h
    obtain ⟨-, hcompletes, htriggerCompletes⟩ := hcompletes
    refine ((StopWhen.adapter_ends types (source.completionSignatures types true)
      (trigger.completionSignatures types true)).compose (StopWhen.adapter_safe _ _ _) ?_ ?_
        ).restrict
    · intro child _ _
      cases child with
      | source => exact operation_safe h
      | trigger => exact operation_safe htrigger
    · intro child _ _
      cases child with
      | source => exact ih h hcompletes
      | trigger => exact ihTrigger htrigger htriggerCompletes
  | statement source ih =>
    obtain ⟨-, h⟩ := h
    obtain ⟨-, hcompletes⟩ := hcompletes
    unfold operation
    split_ifs
    · exact (Statement.adapter_ends _ _).compose (Statement.adapter_safe _ _)
        (fun _ _ _ => operation_safe h) fun _ _ _ => ih h hcompletes
    · exact (Forward.adapter_ends _ _ _ Statement.setResult_isSome).compose
        (Forward.adapter_safe _ _ _) (fun _ _ _ => operation_safe h) fun _ _ _ => ih h hcompletes
  | unstoppable source ih =>
    obtain ⟨-, h⟩ := h
    obtain ⟨-, hcompletes⟩ := hcompletes
    exact (Forward.adapter_ends _ _ _ fun _ => rfl).compose (Forward.adapter_safe _ _ _)
      (fun _ _ _ => operation_safe h) fun _ _ _ => ih h hcompletes
  | variant last senders index ih =>
    obtain ⟨-, h⟩ := h
    obtain ⟨-, hcompletes⟩ := hcompletes
    exact (Forward.adapter_ends _ _ _ fun _ => rfl).compose (Forward.adapter_safe _ _ _)
      (fun _ _ _ => operation_safe (h index)) fun _ _ _ => ih index (h index) (hcompletes index)
  | nest scope source ih =>
    obtain ⟨-, h⟩ := h
    obtain ⟨-, hcompletes⟩ := hcompletes
    exact ((CountingScope.Nest.adapter_ends _ _).compose (CountingScope.Nest.adapter_safe _ _)
      (fun _ _ _ => operation_safe h) fun _ _ _ => ih h hcompletes).restrict

theorem operation_structured (h : sender.Everywhere types (DeclaresException types) stopPossible) :
    (sender.operation types stopPossible).Structured := by
  induction sender generalizing stopPossible with
  | justValue vs | justError e | justStopped => exact Just.operation_structured _
  | external sender => exact (External.operation_structured _).restrict
  | andThen source func _ ih =>
    obtain ⟨-, h⟩ := h
    exact (Forward.adapter_structured _ _ _).compose (Forward.adapter_safe _ _ _)
      (fun _ _ _ => operation_safe h) fun _ _ _ => ih h
  | letValue source body nothrowInvocable _ ih ihBody =>
    obtain ⟨-, h, hbody⟩ := h
    unfold operation
    refine ((LetValue.adapter_structured types (factory types body nothrowInvocable stopPossible)
      (source.completionSignatures types stopPossible)).compose
      (LetValue.adapter_safe types _ _) ?_ ?_).restrict
    · intro child vs hadmits
      cases child with
      | source => exact operation_safe h
      | body => exact operation_safe (hbody vs hadmits)
    · intro child vs hadmits
      cases child with
      | source => exact ih h
      | body => exact ihBody vs (hbody vs hadmits)
  | whenAll N children ih =>
    obtain ⟨hexception, h⟩ := h
    unfold operation
    split_ifs at h ⊢ with hall
    · exact ((WhenAll.AlwaysSucceeds.adapter_structured _ _).compose
        (WhenAll.AlwaysSucceeds.adapter_safe hall) (fun i _ _ => operation_safe (h i))
        fun i _ _ => ih i (h i)).restrict
    · have hgeneral := Bool.of_not_eq_true hall
      exact ((WhenAll.adapter_structured types _).compose
        (WhenAll.adapter_safe hgeneral (hexception hgeneral)) (fun i _ _ => operation_safe (h i))
        fun i _ _ => ih i (h i)).restrict
  | firstSuccessful N children ih =>
    obtain ⟨-, h⟩ := h
    exact (FirstSuccessful.adapter_structured _ _).compose (FirstSuccessful.adapter_safe _ _)
      (fun i _ _ => operation_safe (h i)) fun i _ _ => ih i (h i)
  | stopWhen source trigger ih ihTrigger =>
    obtain ⟨-, h, htrigger⟩ := h
    refine ((StopWhen.adapter_structured types (source.completionSignatures types true)
      (trigger.completionSignatures types true)).compose (StopWhen.adapter_safe _ _ _) ?_ ?_
        ).restrict
    · intro child _ _
      cases child with
      | source => exact operation_safe h
      | trigger => exact operation_safe htrigger
    · intro child _ _
      cases child with
      | source => exact ih h
      | trigger => exact ihTrigger htrigger
  | statement source ih =>
    obtain ⟨-, h⟩ := h
    unfold operation
    split_ifs
    · exact (Statement.adapter_structured _ _).compose (Statement.adapter_safe _ _)
        (fun _ _ _ => operation_safe h) fun _ _ _ => ih h
    · exact (Forward.adapter_structured _ _ _).compose (Forward.adapter_safe _ _ _)
        (fun _ _ _ => operation_safe h) fun _ _ _ => ih h
  | unstoppable source ih =>
    obtain ⟨-, h⟩ := h
    exact (Forward.adapter_structured _ _ _).compose (Forward.adapter_safe _ _ _)
      (fun _ _ _ => operation_safe h) fun _ _ _ => ih h
  | variant last senders index ih =>
    obtain ⟨-, h⟩ := h
    exact (Forward.adapter_structured _ _ _).compose (Forward.adapter_safe _ _ _)
      (fun _ _ _ => operation_safe (h index)) fun _ _ _ => ih index (h index)
  | nest scope source ih =>
    obtain ⟨-, h⟩ := h
    exact ((CountingScope.Nest.adapter_structured _ _).compose
      (CountingScope.Nest.adapter_safe _ _) (fun _ _ _ => operation_safe h)
      fun _ _ _ => ih h).restrict

theorem operation_cancels (h : sender.Everywhere types (DeclaresException types) stopPossible)
    (hmoves : sender.Everywhere types (MovesValues types) stopPossible) :
    (sender.operation types stopPossible).Cancels := by
  induction sender generalizing stopPossible with
  | justValue vs | justError e | justStopped => exact Just.operation_cancels _
  | external sender => exact (External.operation_cancels _).restrict
  | andThen source func _ ih =>
    obtain ⟨-, h⟩ := h
    obtain ⟨-, hmoves⟩ := hmoves
    exact (Forward.adapter_cancels _ _ _).compose (Forward.adapter_safe _ _ _)
      (Forward.adapter_structured _ _ _) (fun _ _ _ => operation_safe h)
      (fun _ _ _ => operation_structured h) fun _ _ _ => ih h hmoves
  | letValue source body nothrowInvocable _ ih ihBody =>
    obtain ⟨-, h, hbody⟩ := h
    obtain ⟨-, hmoves, hbodyMoves⟩ := hmoves
    unfold operation
    refine ((LetValue.adapter_cancels types (factory types body nothrowInvocable stopPossible)
      (source.completionSignatures types stopPossible)).compose
      (LetValue.adapter_safe types _ _) (LetValue.adapter_structured types _ _) ?_ ?_ ?_).restrict
    · intro child vs hadmits
      cases child with
      | source => exact operation_safe h
      | body => exact operation_safe (hbody vs hadmits)
    · intro child vs hadmits
      cases child with
      | source => exact operation_structured h
      | body => exact operation_structured (hbody vs hadmits)
    · intro child vs hadmits
      cases child with
      | source => exact ih h hmoves
      | body => exact ihBody vs (hbody vs hadmits) (hbodyMoves vs hadmits)
  | whenAll N children ih =>
    obtain ⟨hexception, h⟩ := h
    obtain ⟨-, hmoves⟩ := hmoves
    unfold operation
    split_ifs at h hmoves ⊢ with hall
    · exact ((WhenAll.AlwaysSucceeds.adapter_cancels _ _).compose
        (WhenAll.AlwaysSucceeds.adapter_safe hall) (WhenAll.AlwaysSucceeds.adapter_structured _ _)
        (fun i _ _ => operation_safe (h i)) (fun i _ _ => operation_structured (h i))
        fun i _ _ => ih i (h i) (hmoves i)).restrict
    · have hgeneral := Bool.of_not_eq_true hall
      exact ((WhenAll.adapter_cancels types _).compose
        (WhenAll.adapter_safe hgeneral (hexception hgeneral)) (WhenAll.adapter_structured types _)
        (fun i _ _ => operation_safe (h i)) (fun i _ _ => operation_structured (h i))
        fun i _ _ => ih i (h i) (hmoves i)).restrict
  | firstSuccessful N children ih =>
    obtain ⟨-, h⟩ := h
    obtain ⟨hvalues, hmoves⟩ := hmoves
    have hvalues : FirstSuccessful.NothrowValues
        (C := ⟨N, (firstSuccessful N children).isStoppable types stopPossible⟩) types
        fun i : N.Child => (children i).completionSignatures types true := hvalues
    exact (FirstSuccessful.adapter_cancels hvalues).compose (FirstSuccessful.adapter_safe _ _)
      (FirstSuccessful.adapter_structured _ _) (fun i _ _ => operation_safe (h i))
      (fun i _ _ => operation_structured (h i)) fun i _ _ => ih i (h i) (hmoves i)
  | stopWhen source trigger ih ihTrigger =>
    obtain ⟨-, h, htrigger⟩ := h
    obtain ⟨-, hmoves, htriggerMoves⟩ := hmoves
    refine ((StopWhen.adapter_cancels types (source.completionSignatures types true)
      (trigger.completionSignatures types true)).compose (StopWhen.adapter_safe _ _ _)
      (StopWhen.adapter_structured _ _ _) ?_ ?_ ?_).restrict
    · intro child _ _
      cases child with
      | source => exact operation_safe h
      | trigger => exact operation_safe htrigger
    · intro child _ _
      cases child with
      | source => exact operation_structured h
      | trigger => exact operation_structured htrigger
    · intro child _ _
      cases child with
      | source => exact ih h hmoves
      | trigger => exact ihTrigger htrigger htriggerMoves
  | statement source ih =>
    obtain ⟨-, h⟩ := h
    obtain ⟨-, hmoves⟩ := hmoves
    unfold operation
    split_ifs
    · exact (Statement.adapter_cancels _ _).compose (Statement.adapter_safe _ _)
        (Statement.adapter_structured _ _) (fun _ _ _ => operation_safe h)
        (fun _ _ _ => operation_structured h) fun _ _ _ => ih h hmoves
    · exact (Forward.adapter_cancels _ _ _).compose (Forward.adapter_safe _ _ _)
        (Forward.adapter_structured _ _ _) (fun _ _ _ => operation_safe h)
        (fun _ _ _ => operation_structured h) fun _ _ _ => ih h hmoves
  | unstoppable source ih =>
    obtain ⟨-, h⟩ := h
    obtain ⟨-, hmoves⟩ := hmoves
    exact (Forward.adapter_cancels _ _ _).compose (Forward.adapter_safe _ _ _)
      (Forward.adapter_structured _ _ _) (fun _ _ _ => operation_safe h)
      (fun _ _ _ => operation_structured h) fun _ _ _ => ih h hmoves
  | variant last senders index ih =>
    obtain ⟨-, h⟩ := h
    obtain ⟨-, hmoves⟩ := hmoves
    exact (Forward.adapter_cancels _ _ _).compose (Forward.adapter_safe _ _ _)
      (Forward.adapter_structured _ _ _) (fun _ _ _ => operation_safe (h index))
      (fun _ _ _ => operation_structured (h index)) fun _ _ _ => ih index (h index) (hmoves index)
  | nest scope source ih =>
    obtain ⟨-, h⟩ := h
    obtain ⟨-, hmoves⟩ := hmoves
    exact ((CountingScope.Nest.adapter_cancels _ _).compose
      (CountingScope.Nest.adapter_safe _ _) (CountingScope.Nest.adapter_structured _ _)
      (fun _ _ _ => operation_safe h) (fun _ _ _ => operation_structured h)
      fun _ _ _ => ih h hmoves).restrict

/-- A request to outside, which may fail or be stopped. -/
def request : Sender ℕ :=
  .external ⟨fun stopPossible => if stopPossible then [.value [1], .error 0, .stopped]
    else [.value [1], .error 0], fun _ => true, id⟩

/-- `0` is `std::exception_ptr`, and moving a `2` may throw. -/
def natTypes : DatumTypes ℕ := ⟨fun type => decide (type ≠ 2), 0⟩

/-- `when_all(request, request)` -/
def bothRequests : Sender ℕ := .whenAll .two fun _ => request

/-- `stop_when(when_all(request, request), request)` -/
def untilRequest : Sender ℕ := .stopWhen bothRequests request

/-- `statement(first_successful(request, request))` -/
def anyRequest : Sender ℕ := .statement (.firstSuccessful .two fun _ => request)

/-- `stop_when(when_all(request, request), request) | let_value(...)`, where the body tries two
requests -/
def requests : Sender ℕ := .letValue untilRequest (fun _ => anyRequest) (fun _ => true) true

theorem requests_declaresException :
    requests.Everywhere natTypes (DeclaresException natTypes) true := by
  refine ⟨trivial, ⟨trivial, ⟨fun _ => .inl (by decide), ?_⟩, trivial⟩, fun vs _ =>
    ⟨trivial, trivial, fun _ => trivial⟩⟩
  rw [if_neg (by decide)]
  exact fun _ => trivial

theorem requests_complete : requests.Everywhere natTypes Completes true := by
  refine ⟨trivial, ⟨trivial, ⟨trivial, ?_⟩, List.cons_ne_nil _ _⟩, fun vs _ =>
    ⟨trivial, trivial, fun _ => List.cons_ne_nil _ _⟩⟩
  rw [if_neg (by decide)]
  exact fun _ => List.cons_ne_nil _ _

theorem requests_moveValues : requests.Everywhere natTypes (MovesValues natTypes) true := by
  refine ⟨trivial, ⟨trivial, ⟨trivial, ?_⟩, trivial⟩, fun vs _ =>
    ⟨trivial, fun i vs hvs => ?_, fun _ => trivial⟩⟩
  · rw [if_neg (by decide)]
    exact fun _ => trivial
  · have hvs : Signature.value vs ∈ [Signature.value [1], .error 0, .stopped] := hvs
    simp only [List.mem_cons, Signature.value.injEq, reduceCtorEq, List.not_mem_nil, or_self,
      or_false] at hvs
    subst hvs
    decide

/-- What `operation` gives for a `let_value`. -/
def letValueOperation (types : DatumTypes T) (source : Sender T) (body : List T → Sender T)
    (nothrowInvocable : List T → Bool) (stopPossible isStoppable : Bool) :
    Operation (Signature T) :=
  ((LetValue.adapter types (factory types body nothrowInvocable stopPossible)).compose fun
    | .source, _ => source.operation types stopPossible
    | .body, vs => (body vs).operation types stopPossible).restrict isStoppable

theorem operation_letValue (types : DatumTypes T) (source : Sender T) (body : List T → Sender T)
    (nothrowInvocable : List T → Bool) (factoryNothrowConstructible stopPossible : Bool) :
    (letValue source body nothrowInvocable factoryNothrowConstructible).operation types
      stopPossible = letValueOperation types source body nothrowInvocable stopPossible
        ((letValue source body nothrowInvocable factoryNothrowConstructible).isStoppable types
          stopPossible) := by
  rw [operation]
  rfl

def requestsOperation : Operation (Signature ℕ) :=
  letValueOperation natTypes untilRequest (fun _ => anyRequest) (fun _ => true) true
    (requests.isStoppable natTypes true)

theorem operation_requests : requests.operation natTypes true = requestsOperation :=
  operation_letValue natTypes untilRequest (fun _ => anyRequest) (fun _ => true) true true

namespace Requests
open Adapter.CompositeAct (op child complete)

/-! The steps of the operations in it. -/

def inUntil (a : (untilRequest.operation natTypes true).Act) : requestsOperation.Act :=
  child LetValue.Child.source [] a

def inBoth (a : (bothRequests.operation natTypes true).Act) : requestsOperation.Act :=
  inUntil (child StopWhen.Child.source () a)

def trigger (a : External.Act (Signature ℕ)) : requestsOperation.Act :=
  inUntil (child StopWhen.Child.trigger () a)

def inStatement (a : (anyRequest.operation natTypes true).Act) : requestsOperation.Act :=
  child LetValue.Child.body [1, 1] a

def inFirst (a : ((firstSuccessful .two fun _ => request).operation natTypes true).Act) :
    requestsOperation.Act :=
  inStatement (child () () a)

/-- `start()` of the source and of what it starts -/
def start : List requestsOperation.Act :=
  [op LetValue.Act.start, inUntil (op StopWhen.Act.start), inBoth (op WhenAll.Act.start),
    inBoth (child 0 () External.Act.start), inBoth (op WhenAll.Act.start),
    inBoth (child 1 () External.Act.start), inBoth (op WhenAll.Act.start),
    inUntil (op StopWhen.Act.start), inUntil (op StopWhen.Act.start),
    inUntil (op StopWhen.Act.start), trigger .start, inUntil (op StopWhen.Act.start),
    inUntil (op StopWhen.Act.start), inUntil (op StopWhen.Act.start), op LetValue.Act.start]

/-- Both requests give their values, and the trigger is asked to stop. -/
def giveValues : List requestsOperation.Act :=
  [inBoth (child 0 () (External.Act.complete (.value [1]))),
    inBoth (complete 0 (WhenAll.Act.complete 0 (.value [1] none))),
    inBoth (op (WhenAll.Act.child 0)), inBoth (op (WhenAll.Act.child 0)),
    inBoth (child 1 () (External.Act.complete (.value [1]))),
    inBoth (complete 1 (WhenAll.Act.complete 1 (.value [1] none))),
    inBoth (op (WhenAll.Act.child 1)), inBoth (op (WhenAll.Act.child 1)),
    inBoth (op (WhenAll.Act.child 1)),
    inUntil (complete StopWhen.Child.source (StopWhen.Act.completeSource ⟨.value [1, 1], none⟩)),
    inUntil (op StopWhen.Act.source), inUntil (op StopWhen.Act.source),
    inUntil (op StopWhen.Act.source), inUntil (op StopWhen.Act.source), trigger .requestStop,
    inUntil (op StopWhen.Act.source), inUntil (op StopWhen.Act.source),
    trigger (.complete .stopped),
    inUntil (complete StopWhen.Child.trigger StopWhen.Act.completeTrigger),
    inUntil (op StopWhen.Act.trigger), inUntil (op StopWhen.Act.trigger)]

/-- The body is built from them and started. -/
def startBody : List requestsOperation.Act :=
  [complete LetValue.Child.source (LetValue.Act.completeSource (.value [1, 1] none)),
    op LetValue.Act.source, op LetValue.Act.source, op LetValue.Act.source,
    op LetValue.Act.source, op LetValue.Act.source, op LetValue.Act.source,
    inStatement (op Statement.Act.start), inFirst (op (FirstSuccessful.Act.start false)),
    inFirst (child 0 () External.Act.start), inFirst (op (FirstSuccessful.Act.start false)),
    inFirst (child 1 () External.Act.start), inFirst (op (FirstSuccessful.Act.start false)),
    inFirst (op (FirstSuccessful.Act.start false)), inStatement (op Statement.Act.start),
    op LetValue.Act.source, op LetValue.Act.source]

/-- One request of the body fails, and the other gives a value. -/
def giveValue : List requestsOperation.Act :=
  [inFirst (child 0 () (External.Act.complete (.error 0))),
    inFirst (complete 0 (FirstSuccessful.Act.complete 0 (.signal .error [0] .nothrow))),
    inFirst (op (FirstSuccessful.Act.child 0 false)),
    inFirst (op (FirstSuccessful.Act.child 0 false)),
    inFirst (child 1 () (External.Act.complete (.value [1]))),
    inFirst (complete 1 (FirstSuccessful.Act.complete 1 (.value [1] .nothrow))),
    inFirst (op (FirstSuccessful.Act.child 1 false)),
    inFirst (op (FirstSuccessful.Act.child 1 false)),
    inFirst (op (FirstSuccessful.Act.child 1 false)),
    inStatement (complete () (Statement.Act.complete ⟨⟨.value [1], none⟩, false⟩)),
    inStatement (op Statement.Act.set), inStatement (op Statement.Act.set),
    inStatement (op Statement.Act.set),
    complete LetValue.Child.body (LetValue.Act.completeBody ⟨.value [1], none⟩),
    op LetValue.Act.body, op LetValue.Act.body]

end Requests

open Requests in
/-- The source gives its values, and the body a value. -/
theorem requests_reachable : ∃ s, (requests.operation natTypes true).system.Reachable s ∧
    (requests.operation natTypes true).delivered s = [.value [1]] := by
  rw [operation_requests]
  obtain ⟨s, hs, hp⟩ := requestsOperation.system.exists_reachable
    (start ++ giveValues ++ startBody ++ giveValue)
    (fun s => decide (requestsOperation.delivered s = [.value [1]])) (by decide +kernel)
  exact ⟨s, hs, of_decide_eq_true hp⟩

/-- What the operation completes with, in any run, the sender declares. -/
theorem delivers_as_declared (h : sender.Everywhere types (DeclaresException types) stopPossible)
    {s : (sender.operation types stopPossible).State}
    (hs : (sender.operation types stopPossible).system.Reachable s) {sig : Signature T}
    (hsig : sig ∈ (sender.operation types stopPossible).delivered s) :
    sig ∈ sender.completionSignatures types stopPossible :=
  (operation_safe h).declares s hs sig hsig

/-- The body's value is declared. -/
theorem requests_delivers : ∃ s, (requests.operation natTypes true).system.Reachable s ∧
    (requests.operation natTypes true).delivered s = [.value [1]] ∧
    .value [1] ∈ requests.completionSignatures natTypes true := by
  obtain ⟨s, hs, hdelivered⟩ := requests_reachable
  have hmem : .value [1] ∈ (requests.operation natTypes true).delivered s := by
    rw [hdelivered]
    exact List.mem_singleton_self _
  exact ⟨s, hs, hdelivered,
    @delivers_as_declared ℕ _ natTypes requests true requests_declaresException s hs _ hmem⟩

/-- The operation completes at most once, and has completed when no step is left. -/
theorem completes_exactly_once (h : sender.Everywhere types (DeclaresException types) stopPossible)
    (hcompletes : sender.Everywhere types Completes stopPossible)
    {s : (sender.operation types stopPossible).State}
    (hs : (sender.operation types stopPossible).system.Reachable s) :
    ((sender.operation types stopPossible).delivered s).length ≤ 1 ∧
      ((sender.operation types stopPossible).Stuck s →
        ((sender.operation types stopPossible).delivered s).length = 1) := by
  have hle := (operation_safe h).once s hs
  refine ⟨hle, fun hstuck => ?_⟩
  have hpos := List.length_pos_of_ne_nil (operation_ends h hcompletes s hs hstuck)
  omega

theorem requests_completes : ∃ s, (requests.operation natTypes true).system.Reachable s ∧
    (requests.operation natTypes true).delivered s = [.value [1]] ∧
    ((requests.operation natTypes true).delivered s).length ≤ 1 ∧
      ((requests.operation natTypes true).Stuck s →
        ((requests.operation natTypes true).delivered s).length = 1) := by
  obtain ⟨s, hs, hdelivered⟩ := requests_reachable
  exact ⟨s, hs, hdelivered, @completes_exactly_once ℕ _ natTypes requests true
    requests_declaresException requests_complete s hs⟩

/-- When the operation has completed, nothing that was started outside for it is pending. -/
theorem leaves_nothing_pending
    (h : sender.Everywhere types (DeclaresException types) stopPossible)
    {s : (sender.operation types stopPossible).State}
    (hs : (sender.operation types stopPossible).system.Reachable s)
    (hdelivered : (sender.operation types stopPossible).delivered s ≠ []) :
    ¬ (sender.operation types stopPossible).pending s :=
  (operation_structured h).ended s hs hdelivered

theorem requests_pending : ∃ s, (requests.operation natTypes true).system.Reachable s ∧
    (requests.operation natTypes true).delivered s = [.value [1]] ∧
    ¬ (requests.operation natTypes true).pending s := by
  obtain ⟨s, hs, hdelivered⟩ := requests_reachable
  have hne : (requests.operation natTypes true).delivered s ≠ [] := by
    rw [hdelivered]
    exact List.cons_ne_nil _ _
  exact ⟨s, hs, hdelivered, @leaves_nothing_pending ℕ _ natTypes requests true
    requests_declaresException s hs hne⟩

/-- When nothing is left to do but to wait for what was started outside, all of it has been asked to
stop after a request to the operation, and so has what some part of it does not want any more. -/
theorem stops_what_is_unwanted
    (h : sender.Everywhere types (DeclaresException types) stopPossible)
    (hmoves : sender.Everywhere types (MovesValues types) stopPossible)
    {s : (sender.operation types stopPossible).State}
    (hs : (sender.operation types stopPossible).system.Reachable s)
    (hsettled : (sender.operation types stopPossible).Settled s) :
    ((sender.operation types stopPossible).stopCalled s = true →
        ¬ (sender.operation types stopPossible).unasked s) ∧
      ¬ (sender.operation types stopPossible).neglected s := by
  have hcancels := operation_cancels h hmoves
  exact ⟨hcancels.heeds s hs hsettled, hcancels.attends s hs hsettled⟩

namespace Requests
open Adapter
open Adapter.CompositeAct (op child complete)

/-- One of both requests fails, and the other is asked to stop. -/
def fail : List requestsOperation.Act :=
  [inBoth (child 0 () (External.Act.complete (.error 0))),
    inBoth (complete 0 (WhenAll.Act.complete 0 (.signal .error [0] none))),
    inBoth (op (WhenAll.Act.child 0)), inBoth (op (WhenAll.Act.child 0)),
    inBoth (op (WhenAll.Act.child 0)), inBoth (op (WhenAll.Act.child 0)),
    inBoth (op (WhenAll.Act.child 0)), inBoth (op (WhenAll.Act.child 0)),
    inBoth (child 1 () External.Act.requestStop)]

/-- `request_stop()`, which reaches the trigger -/
def requestStop : List requestsOperation.Act :=
  [op LetValue.Act.requestStop, op (LetValue.Act.stop false), op (LetValue.Act.stop false),
    op (LetValue.Act.stop false), inUntil (op StopWhen.Act.requestStop),
    inUntil (op StopWhen.Act.stop), inUntil (op StopWhen.Act.stop), inBoth (op WhenAll.Act.stop),
    inUntil (op StopWhen.Act.stop), inUntil (op StopWhen.Act.stop), trigger .requestStop,
    inUntil (op StopWhen.Act.stop), op (LetValue.Act.stop false)]

/-- One request and the trigger are left, and both have been asked to stop. -/
def asked : requestsOperation.State :=
  (requestsOperation.system.run requestsOperation.system.init
    (start ++ fail ++ requestStop)).get (by decide +kernel)

def askedUntil : (untilRequest.operation natTypes true).State :=
  (Started.state [] (asked.child .source)).get (by decide +kernel)

def askedBoth : (bothRequests.operation natTypes true).State :=
  (Started.state () (askedUntil.child .source)).get (by decide +kernel)

theorem asked_reachable : requestsOperation.system.Reachable asked :=
  System.Reaches.init.exec (Option.some_get _).symm

theorem asked_source : asked.child .source = some ⟨[], askedUntil⟩ :=
  Started.eq_of_state (Option.some_get _).symm

theorem asked_body : asked.child .body = none := by decide +kernel

theorem askedUntil_source : askedUntil.child .source = some ⟨(), askedBoth⟩ :=
  Started.eq_of_state (Option.some_get _).symm

/-- The request that triggers the stop. -/
def askedTrigger : External.Op (Signature ℕ) :=
  (Started.state () (askedUntil.child .trigger)).get (by decide +kernel)

def askedRequest (i : Arity.two.Child) : External.Op (Signature ℕ) :=
  (Started.state () (askedBoth.child i)).get (by revert i; decide +kernel)

theorem askedUntil_trigger : askedUntil.child .trigger = some ⟨(), askedTrigger⟩ :=
  Started.eq_of_state (Option.some_get _).symm

theorem askedBoth_request (i : Arity.two.Child) : askedBoth.child i = some ⟨(), askedRequest i⟩ :=
  Started.eq_of_state (Option.some_get _).symm

theorem askedTrigger_eq : askedTrigger = .running true := by decide +kernel

theorem askedRequest_eq :
    askedRequest 0 = .completed (.error 0) ∧ askedRequest 1 = .running true := by
  decide +kernel

/-- A request that has completed, or was asked to stop, does nothing by itself. -/
theorem request_step {u : External.Op (Signature ℕ)}
    (hu : u = .running true ∨ ∃ r, u = .completed r) {a : External.Act (Signature ℕ)}
    (hout : (request.operation natTypes true).outside a = false) :
    (request.operation natTypes true).system.step u a = none := by
  cases a with
  | complete r => cases hout
  | start | requestStop =>
    rcases hu with rfl | ⟨r, rfl⟩
    · rfl
    · rfl

theorem request_heeds {u : External.Op (Signature ℕ)}
    (hu : u = .running true ∨ ∃ r, u = .completed r) {a : External.Act (Signature ℕ)}
    (hasks : (request.operation natTypes true).asksToStop u a = true) :
    (request.operation natTypes true).system.step u a = none := by
  cases a with
  | complete r | start => cases hasks
  | requestStop => exact request_step hu rfl

theorem askedRequest_cases (i : Arity.two.Child) :
    askedRequest i = .running true ∨ ∃ r, askedRequest i = .completed r := by
  obtain ⟨hfirst, hsecond⟩ := askedRequest_eq
  match i with
  | (0 : Fin 2) => exact .inr ⟨_, hfirst⟩
  | (1 : Fin 2) => exact .inl hsecond

theorem askedBoth_settled : (bothRequests.operation natTypes true).Settled askedBoth := by
  refine Operation.Settled.restrict (compose_settled ?_ ?_ ?_ ?_)
  · intro a hown hasks
    cases a with
    | start | stop => decide +kernel
    | complete i c => cases hown
    | child i =>
      revert i
      decide +kernel
  · intro i p u hu
    cases (askedBoth_request i).symm.trans hu
    exact fun a _ hout => request_step (askedRequest_cases i) hout
  · intro i p u hu _ a hasks
    cases (askedBoth_request i).symm.trans hu
    exact request_heeds (askedRequest_cases i) hasks
  · intro i r hr a hcompletes
    have hr : r ∈ (request.operation natTypes true).delivered (askedRequest i) := by
      rwa [askedBoth_request i] at hr
    -- a request that has completed has told its parent
    have htold : ∀ i, (request.operation natTypes true).delivered (askedRequest i) ≠ [] →
        (askedBoth.op : WhenAll.Op .two ℕ Unit).child i ≠ .running := by decide +kernel
    cases a with
    | complete j c =>
      obtain ⟨hj, -⟩ := Bool.and_eq_true_iff.mp hcompletes
      obtain rfl : j = i := of_decide_eq_true hj
      change WhenAll.Op.step (askedBoth.op : WhenAll.Op .two ℕ Unit) (.complete j c) = none
      unfold WhenAll.Op.step
      dsimp only
      split
      · next hrunning => exact absurd hrunning (htold j (List.ne_nil_of_mem hr))
      · rfl
    | start | stop | child j => cases hcompletes

theorem askedUntil_settled : (untilRequest.operation natTypes true).Settled askedUntil := by
  refine Operation.Settled.restrict (compose_settled ?_ ?_ ?_ ?_)
  · intro a hown hasks
    cases a with
    | requestStop => cases hasks
    | completeSource c | completeTrigger => cases hown
    | start | stop | source | trigger => decide +kernel
  · intro i p u hu
    cases i with
    | source =>
      cases askedUntil_source.symm.trans hu
      exact askedBoth_settled
    | trigger =>
      cases askedUntil_trigger.symm.trans hu
      exact fun a _ hout => request_step (.inl askedTrigger_eq) hout
  · intro i p u hu _ a hasks
    cases i with
    | source =>
      cases askedUntil_source.symm.trans hu
      rcases a with (a | ⟨j, q, a⟩ | ⟨j, a⟩)
      · cases a with
        | stop => decide +kernel
        | start | complete j c | child j => cases hasks
      · cases hasks
      · cases hasks
    | trigger =>
      cases askedUntil_trigger.symm.trans hu
      exact request_heeds (.inl askedTrigger_eq) hasks
  · intro i r hr a hcompletes
    cases i with
    | source =>
      have hnone : (bothRequests.operation natTypes true).delivered askedBoth = [] := by
        decide +kernel
      rw [askedUntil_source] at hr
      change r ∈ (bothRequests.operation natTypes true).delivered askedBoth at hr
      rw [hnone] at hr
      cases hr
    | trigger =>
      rw [askedUntil_trigger, askedTrigger_eq] at hr
      cases hr

theorem asked_settled : requestsOperation.Settled asked := by
  refine Operation.Settled.restrict (compose_settled ?_ ?_ ?_ ?_)
  · intro a hown hasks
    cases a with
    | requestStop => cases hasks
    | completeSource c | completeBody c | destroy => cases hown
    | start | source | body => decide +kernel
    | stop spurious => cases spurious <;> decide +kernel
  · intro i p u hu
    cases i with
    | source =>
      cases asked_source.symm.trans hu
      exact askedUntil_settled
    | body => cases asked_body.symm.trans hu
  · intro i p u hu _ a hasks
    cases i with
    | source =>
      cases asked_source.symm.trans hu
      rcases a with (a | ⟨j, q, a⟩ | ⟨j, a⟩)
      · cases a with
        | requestStop => decide +kernel
        | start | stop | completeSource c | source | completeTrigger | trigger => cases hasks
      · cases hasks
      · cases hasks
    | body => cases asked_body.symm.trans hu
  · intro i r hr a hcompletes
    cases i with
    | source =>
      have hnone : (untilRequest.operation natTypes true).delivered askedUntil = [] := by
        decide +kernel
      rw [asked_source] at hr
      change r ∈ (untilRequest.operation natTypes true).delivered askedUntil at hr
      rw [hnone] at hr
      cases hr
    | body =>
      rw [asked_body] at hr
      cases hr

theorem asked_pending : requestsOperation.pending asked :=
  ⟨.source, [], askedUntil, asked_source, .source, (), askedBoth, askedUntil_source, 1, (),
    askedRequest 1, askedBoth_request 1, true, askedRequest_eq.2⟩

end Requests

open Requests in
/-- One of the requests in `when_all` has failed and the operation is asked to stop, which reaches
what is left. -/
theorem requests_stop : ∃ s, (requests.operation natTypes true).system.Reachable s ∧
    (requests.operation natTypes true).pending s ∧
    (requests.operation natTypes true).stopCalled s = true ∧
    ¬ (requests.operation natTypes true).unasked s ∧
    ¬ (requests.operation natTypes true).neglected s := by
  have hstops := @stops_what_is_unwanted ℕ _ natTypes requests true requests_declaresException
    requests_moveValues
  rw [operation_requests] at hstops ⊢
  have hcalled : requestsOperation.stopCalled asked = true := by decide +kernel
  obtain ⟨hheeds, hattends⟩ := @hstops asked asked_reachable asked_settled
  exact ⟨asked, asked_reachable, asked_pending, hcalled, hheeds hcalled, hattends⟩

/-- No run goes on without end, but for spurious failures. -/
theorem run_ends (h : sender.Everywhere types (DeclaresException types) stopPossible) :
    ¬ ∃ (run : ℕ → (sender.operation types stopPossible).State)
      (acts : ℕ → (sender.operation types stopPossible).Act),
      run 0 = (sender.operation types stopPossible).system.init ∧
      (∀ n, (sender.operation types stopPossible).system.step (run n) (acts n) =
        some (run (n + 1))) ∧
      ∀ n, ∃ m ≥ n, (sender.operation types stopPossible).spurious (acts m) = false := by
  rintro ⟨run, acts, h0, hsteps, hprogress⟩
  obtain ⟨n, hn⟩ := (operation_safe h).finite (h0 ▸ .init) hsteps
  obtain ⟨m, hm, hspurious⟩ := hprogress n
  rw [hn m hm] at hspurious
  cases hspurious

theorem requests_end : ¬ ∃ (run : ℕ → (requests.operation natTypes true).State)
    (acts : ℕ → (requests.operation natTypes true).Act),
    run 0 = (requests.operation natTypes true).system.init ∧
    (∀ n, (requests.operation natTypes true).system.step (run n) (acts n) = some (run (n + 1))) ∧
    ∀ n, ∃ m ≥ n, (requests.operation natTypes true).spurious (acts m) = false :=
  run_ends requests_declaresException

end Sender
end Squiz
