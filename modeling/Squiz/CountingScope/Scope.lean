import Squiz.Lib.System
import Squiz.Lib.Word
import Mathlib.Data.Finset.Card

/-! The `counting_scope` word: a reference count above a closed flag, shared by
`try_get_counting_scope_ref`, copies, moves and resets of refs, `close` and `start_join`. -/
namespace Squiz.CountingScope
open Squiz.Lib Squiz.Lib.Word

/-- A `counting_scope_ref` object. -/
abbrev Ref := ℕ

/-- A call of `try_get_counting_scope_ref`. -/
abbrev CallId := ℕ

def refCountIncrement : ℕ := 2
def closedFlag : ℕ := 1

/-- Width of `std::size_t`. -/
def sizeBits : ℕ := 64

/-- A ref holds an eight-byte pointer, so at most this many fit in the address space. -/
@[irreducible] def maxRefs : ℕ := 2 ^ 61

/-- Progress of one `try_get_counting_scope_ref` call. -/
inductive Call where
  | idle
  /-- past the test of the loop body, about to compare-and-exchange `old_state` -/
  | exchange (oldState : ℕ)
  | returned (ref : Option Ref)
  deriving DecidableEq

/-- Progress of `start_join`. -/
inductive Join where
  | notStarted | opStored | decremented
  deriving DecidableEq

structure Scope where
  /-- `ref_count_and_closed_flag_` -/
  word : ℕ := refCountIncrement
  /-- whether `join_op_` is set -/
  joinOp : Bool := false
  join : Join := .notStarted
  /-- the valid refs -/
  refs : Finset Ref := ∅
  calls : CallId → Call := fun _ => .idle
  /-- whether some `close()` has returned -/
  closeReturned : Bool := false
  /-- calls that began after a `close()` had returned -/
  late : CallId → Bool := fun _ => false
  /-- threads about to run `join_op_->execute(join_op_)` -/
  pending : ℕ := 0
  /-- how often the join operation was executed -/
  executed : ℕ := 0
  /-- an assert failed, or `execute` was called through a null `join_op_` -/
  fault : Bool := false

namespace Scope

def incrementRefCount (s : Scope) : Scope :=
  { s with
    word := fetchAdd sizeBits s.word refCountIncrement
    fault := s.fault || decide (s.word < refCountIncrement) }

def decrementRefCount (s : Scope) : Scope :=
  { s with
    word := fetchSub sizeBits s.word refCountIncrement
    fault := s.fault || decide (s.word < refCountIncrement)
    pending := if s.word < 2 * refCountIncrement then s.pending + 1 else s.pending }

def close (s : Scope) : Scope :=
  { s with word := fetchOr s.word closedFlag, closeReturned := true }

section Fields
variable (s : Scope)

@[simp] theorem decrementRefCount_joinOp : s.decrementRefCount.joinOp = s.joinOp := rfl
@[simp] theorem decrementRefCount_calls : s.decrementRefCount.calls = s.calls := rfl
@[simp] theorem decrementRefCount_late : s.decrementRefCount.late = s.late := rfl
@[simp] theorem decrementRefCount_executed : s.decrementRefCount.executed = s.executed := rfl
@[simp] theorem decrementRefCount_closeReturned :
    s.decrementRefCount.closeReturned = s.closeReturned := rfl

end Fields

/-- The test in the loop body: an invalid ref is returned if the scope is closed or joined. -/
def enterLoop (oldState : ℕ) : Call :=
  if hasFlag oldState closedFlag || decide (oldState < refCountIncrement) then .returned none
  else .exchange oldState

end Scope

inductive Act where
  /-- the load that begins a `try_get_counting_scope_ref` call -/
  | tryGet (c : CallId)
  /-- its `compare_exchange_weak`, for a ref to be constructed at `r` -/
  | exchange (c : CallId) (r : Ref) (spurious : Bool)
  | copy (src dst : Ref)
  | move (src dst : Ref)
  | reset (r : Ref)
  | close
  /-- `start_join`: the store to `join_op_` -/
  | startJoin
  /-- `start_join`: the decrement -/
  | joinDecrement
  /-- the call `join_op_->execute(join_op_)` of the last decrement -/
  | execute

def Scope.step (s : Scope) : Act → Option Scope
  | .tryGet c =>
    if s.calls c = .idle then
      some { s with
        calls := Function.update s.calls c (Scope.enterLoop s.word)
        late := Function.update s.late c s.closeReturned }
    else none
  | .exchange c r spurious =>
    match s.calls c with
    | .exchange oldState =>
      if s.word = oldState ∧ spurious = false then
        if r ∉ s.refs ∧ s.refs.card < maxRefs then
          some { s with
            word := fetchAdd sizeBits oldState refCountIncrement
            refs := insert r s.refs
            calls := Function.update s.calls c (.returned (some r)) }
        else none
      else some { s with calls := Function.update s.calls c (Scope.enterLoop s.word) }
    | _ => none
  | .copy src dst =>
    if src ∈ s.refs ∧ dst ∉ s.refs ∧ s.refs.card < maxRefs then
      some { s.incrementRefCount with refs := insert dst s.refs }
    else none
  | .move src dst =>
    if src ∈ s.refs ∧ dst ∉ s.refs then
      some { s with refs := insert dst (s.refs.erase src) }
    else none
  | .reset r =>
    if r ∈ s.refs then some { s.decrementRefCount with refs := s.refs.erase r } else none
  | .close => some s.close
  | .startJoin =>
    if s.join = .notStarted then
      some { s with joinOp := true, join := .opStored, fault := s.fault || s.joinOp }
    else none
  | .joinDecrement =>
    if s.join = .opStored then some { s.decrementRefCount with join := .decremented } else none
  | .execute =>
    if 0 < s.pending then
      some { s with
        pending := s.pending - 1
        executed := s.executed + 1
        fault := s.fault || !s.joinOp }
    else none

def system : System Scope Act := ⟨{}, Scope.step⟩

/-- The initial reference, until `start_join` gives it up. -/
def Join.ownRef (j : Join) : ℕ := if j = .decremented then 0 else 1

/-- `start_join` has happened and every valid ref is gone. -/
def Drained (j : Join) (refs : Finset Ref) : Prop := j = .decremented ∧ refs = ∅

instance (j : Join) (refs : Finset Ref) : Decidable (Drained j refs) :=
  inferInstanceAs (Decidable (_ ∧ _))

theorem drained_iff {j : Join} {refs : Finset Ref} :
    refs.card + j.ownRef = 0 ↔ Drained j refs := by
  unfold Drained Join.ownRef
  split_ifs with h <;> simp [h]

theorem Join.ownRef_le (j : Join) : j.ownRef ≤ 1 := by
  unfold ownRef
  split_ifs <;> omega

/-- What holds in every reachable state. -/
structure Scope.Inv (s : Scope) : Prop where
  word : s.word = pack 1 (s.refs.card + s.join.ownRef) s.closeReturned.toNat
  bound : s.refs.card ≤ maxRefs
  joinOp : s.join ≠ .notStarted → s.joinOp = true
  notStarted : s.join = .notStarted → s.joinOp = false
  decided : s.pending + s.executed = if Drained s.join s.refs then 1 else 0
  exchange : ∀ c v, s.calls c = .exchange v → hasFlag v closedFlag = false ∧ refCountIncrement ≤ v
  late : ∀ c, s.late c = true → s.closeReturned = true ∧ ∀ v, s.calls c ≠ .exchange v ∧
    s.calls c ≠ .returned (some v)
  noFault : s.fault = false

section Word
variable {n : ℕ} {closed : Bool}

theorem closed_toNat_lt : closed.toNat < 2 ^ 1 := by
  cases closed <;> decide

theorem hasFlag_closed : hasFlag (pack 1 n closed.toNat) closedFlag = closed := by
  unfold hasFlag closedFlag
  rw [pack_and (by decide)]
  cases closed <;> rfl

theorem pack_or_closed : fetchOr (pack 1 n closed.toNat) closedFlag = pack 1 n true.toNat := by
  unfold fetchOr closedFlag
  rw [pack_or closed_toNat_lt (by decide)]
  cases closed <;> rfl

end Word

namespace Scope
variable {s t : Scope}

theorem Inv.initial : Inv {} where
  word := by decide
  bound := Nat.zero_le _
  joinOp := by decide
  notStarted := by decide
  decided := by decide
  exchange := by intro c v h; cases h
  late := by intro c h; cases h
  noFault := rfl

theorem Inv.word_lt (hi : s.Inv) : s.word < 2 ^ sizeBits := by
  have hb := hi.bound
  have ho := s.join.ownRef_le
  have hc := @closed_toNat_lt s.closeReturned
  rw [hi.word]
  unfold pack maxRefs sizeBits at *
  omega

theorem Inv.increment_fits (hi : s.Inv) (h : s.refs.card < maxRefs) :
    s.word + refCountIncrement < 2 ^ sizeBits := by
  have ho := s.join.ownRef_le
  have hc := @closed_toNat_lt s.closeReturned
  rw [hi.word]
  unfold pack maxRefs refCountIncrement sizeBits at *
  omega

/-- One more reference: the word of the state with one ref or own reference more. -/
theorem Inv.word_add (hi : s.Inv) :
    s.word + refCountIncrement =
      pack 1 (s.refs.card + s.join.ownRef + 1) s.closeReturned.toNat := by
  rw [pack_succ, ← hi.word]
  rfl

theorem Inv.word_sub (hi : s.Inv) {m : ℕ} (hm : s.refs.card + s.join.ownRef = m + 1) :
    s.word = pack 1 m s.closeReturned.toNat + refCountIncrement := by
  rw [hi.word, hm, pack_succ]
  rfl

/-- A decrement with `m` references left: what it stores, and when it decides to run the
join operation. -/
theorem Inv.decrement (hi : s.Inv) {m : ℕ} (hm : s.refs.card + s.join.ownRef = m + 1) :
    s.decrementRefCount.word = pack 1 m s.closeReturned.toNat ∧
      s.decrementRefCount.fault = false ∧
      s.decrementRefCount.pending = s.pending + if m = 0 then 1 else 0 := by
  have hw := hi.word_sub hm
  have hlt := hi.word_lt
  have hc := @closed_toNat_lt s.closeReturned
  refine ⟨?_, ?_, ?_⟩
  · simp only [decrementRefCount]
    rw [fetchSub_of_le (by omega) hlt, hw, Nat.add_sub_cancel]
  · have hge : ¬ s.word < refCountIncrement := by omega
    simp [decrementRefCount, hge, hi.noFault]
  · simp only [decrementRefCount]
    unfold pack refCountIncrement at *
    split_ifs <;> omega

theorem enterLoop_exchange {w v : ℕ} (h : enterLoop w = .exchange v) :
    hasFlag v closedFlag = false ∧ refCountIncrement ≤ v := by
  unfold enterLoop at h
  split_ifs at h with hc
  cases h
  simpa [not_or] using hc

theorem enterLoop_closed {w : ℕ} (h : hasFlag w closedFlag = true) :
    enterLoop w = .returned none := by
  simp [enterLoop, h]

theorem Inv.closed_word (hi : s.Inv) : hasFlag s.word closedFlag = s.closeReturned := by
  rw [hi.word]
  exact hasFlag_closed

/-- A call whose `old_state` changes to what it just loaded keeps the invariant. -/
theorem Inv.reload (hi : s.Inv) (c : CallId) (late : Bool)
    (hlate : late = true → s.closeReturned = true) :
    Inv { s with
      calls := Function.update s.calls c (enterLoop s.word)
      late := Function.update s.late c late } where
  word := hi.word
  bound := hi.bound
  joinOp := hi.joinOp
  notStarted := hi.notStarted
  decided := hi.decided
  noFault := hi.noFault
  exchange := by
    intro d v hd
    by_cases hdc : d = c
    · subst d
      simp only [Function.update_self] at hd
      exact enterLoop_exchange hd
    · simp only [Function.update_of_ne hdc] at hd
      exact hi.exchange d v hd
  late := by
    intro d hd
    by_cases hdc : d = c
    · subst d
      simp only [Function.update_self] at hd
      have hclosed := hlate hd
      have hret := enterLoop_closed (hi.closed_word.trans hclosed)
      refine ⟨hclosed, fun v => ?_⟩
      simp only [Function.update_self, hret]
      exact ⟨by simp, by simp⟩
    · simp only [Function.update_of_ne hdc] at hd ⊢
      exact hi.late d hd

/-- Giving up one reference keeps the invariant. -/
theorem Inv.drop (hi : s.Inv) {refs : Finset Ref} {join : Join} {m : ℕ}
    (hm : s.refs.card + s.join.ownRef = m + 1) (ht : refs.card + join.ownRef = m)
    (hb : refs.card ≤ maxRefs) (hj : join = .notStarted ↔ s.join = .notStarted) :
    Inv { s.decrementRefCount with refs := refs, join := join } := by
  obtain ⟨hword, hfault, hpending⟩ := hi.decrement hm
  constructor
  · simp only [decrementRefCount_closeReturned, ht]
    exact hword
  · exact hb
  · intro hne
    exact hi.joinOp (mt hj.mpr hne)
  · intro hns
    exact hi.notStarted (hj.mp hns)
  · have hbefore := hi.decided
    rw [if_neg (by rw [← drained_iff]; omega)] at hbefore
    simp only [hpending, decrementRefCount_executed, ← drained_iff, ht]
    split_ifs <;> omega
  · simpa only [decrementRefCount_calls] using hi.exchange
  · simpa only [decrementRefCount_calls, decrementRefCount_late,
      decrementRefCount_closeReturned] using hi.late
  · exact hfault

/-- Gaining one ref, out of the open word of a call or by a copy, keeps the invariant. -/
theorem Inv.gain (hi : s.Inv) {r : Ref} (hr : r ∉ s.refs) (hlt : s.refs.card < maxRefs)
    {word : ℕ} (hw : word = s.word + refCountIncrement) (hpos : 1 ≤ s.refs.card + s.join.ownRef)
    {calls : CallId → Call} (hex : ∀ c v, calls c = .exchange v → s.calls c = .exchange v)
    (hret : ∀ c v, s.late c = true → calls c = .returned (some v) →
      s.calls c = .returned (some v)) :
    Inv { s with word := word, refs := insert r s.refs, calls := calls } := by
  have hcard : (insert r s.refs).card = s.refs.card + 1 := Finset.card_insert_of_notMem hr
  refine ⟨?_, ?_, hi.joinOp, hi.notStarted, ?_, fun c v hc => hi.exchange c v (hex c v hc), ?_,
    hi.noFault⟩
  · change word = pack 1 ((insert r s.refs).card + s.join.ownRef) s.closeReturned.toNat
    rw [hw, hi.word_add, hcard]
    congr 1
    omega
  · change (insert r s.refs).card ≤ maxRefs
    omega
  · have hbefore := hi.decided
    rw [if_neg (by rw [← drained_iff]; omega)] at hbefore
    simp only [hbefore, Drained, Finset.insert_ne_empty, and_false, if_false]
  · intro c hc
    obtain ⟨hclosed, hcall⟩ := hi.late c hc
    exact ⟨hclosed, fun v =>
      ⟨fun h => (hcall v).1 (hex c v h), fun h => (hcall v).2 (hret c v hc h)⟩⟩

theorem Inv.exchangeStep (hi : s.Inv) {c : CallId} {r : Ref} {spurious : Bool}
    (ht : s.step (.exchange c r spurious) = some t) : t.Inv := by
  simp only [step] at ht
  split at ht
  · next v hv =>
    split_ifs at ht with hcas hfree
    · cases ht
      obtain ⟨rfl, -⟩ := hcas
      obtain ⟨hopen, hge⟩ := hi.exchange c s.word hv
      have hpos : 1 ≤ s.refs.card + s.join.ownRef := by
        rw [hi.word] at hge
        have := @closed_toNat_lt s.closeReturned
        unfold pack refCountIncrement at hge
        omega
      have hclosed : s.closeReturned = false := by rw [← hi.closed_word, hopen]
      refine hi.gain hfree.1 hfree.2 (fetchAdd_of_lt (hi.increment_fits hfree.2)) hpos ?_ ?_
      · intro d v hd
        by_cases hdc : d = c
        · subst d
          simp at hd
        · rwa [Function.update_of_ne hdc] at hd
      · intro d v hd
        rw [(hi.late d hd).1] at hclosed
        cases hclosed
    · cases ht
      have hself : Function.update s.late c (s.late c) = s.late := Function.update_eq_self c s.late
      have hkeep := hi.reload c (s.late c) (fun h => (hi.late c h).1)
      rwa [hself] at hkeep
  · cases ht

theorem Inv.copyStep (hi : s.Inv) {src dst : Ref} (ht : s.step (.copy src dst) = some t) :
    t.Inv := by
  simp only [step] at ht
  split_ifs at ht with h
  cases ht
  obtain ⟨hsrc, hdst, hlt⟩ := h
  have hpos : 1 ≤ s.refs.card := Finset.card_pos.mpr ⟨src, hsrc⟩
  have hfits := hi.increment_fits hlt
  have hge : ¬ s.word < refCountIncrement := by
    rw [hi.word]
    unfold pack refCountIncrement
    omega
  have hgain := hi.gain hdst hlt (fetchAdd_of_lt hfits) (by omega) (fun _ _ h => h) fun _ _ _ h => h
  have heq : ({ s.incrementRefCount with refs := insert dst s.refs } : Scope) =
      { s with
        word := fetchAdd sizeBits s.word refCountIncrement
        refs := insert dst s.refs
        calls := s.calls } := by
    simp [incrementRefCount, hge]
  rw [heq]
  exact hgain

theorem Inv.moveStep (hi : s.Inv) {src dst : Ref} (ht : s.step (.move src dst) = some t) :
    t.Inv := by
  simp only [step] at ht
  split_ifs at ht with h
  cases ht
  obtain ⟨hsrc, hdst⟩ := h
  have hcard : (insert dst (s.refs.erase src)).card = s.refs.card := by
    rw [Finset.card_insert_of_notMem (fun hmem => hdst (Finset.mem_of_mem_erase hmem)),
      Finset.card_erase_add_one hsrc]
  have hne : s.refs ≠ ∅ := Finset.ne_empty_of_mem hsrc
  have hdecided := hi.decided
  rw [if_neg (fun h => hne h.2)] at hdecided
  refine ⟨?_, ?_, hi.joinOp, hi.notStarted, ?_, hi.exchange, hi.late, hi.noFault⟩
  · change s.word = pack 1 ((insert dst (s.refs.erase src)).card + s.join.ownRef) _
    rw [hcard]
    exact hi.word
  · exact hcard.le.trans hi.bound
  · simp only [hdecided, Drained, Finset.insert_ne_empty, and_false, if_false]

theorem Inv.resetStep (hi : s.Inv) {r : Ref} (ht : s.step (.reset r) = some t) : t.Inv := by
  simp only [step] at ht
  split_ifs at ht with h
  cases ht
  have hcard := Finset.card_erase_add_one h
  have hb := hi.bound
  exact hi.drop (m := (s.refs.erase r).card + s.join.ownRef) (by omega) rfl (by omega) Iff.rfl

theorem Inv.closeStep (hi : s.Inv) : s.close.Inv where
  word := by
    change fetchOr s.word closedFlag = _
    rw [hi.word]
    exact pack_or_closed
  bound := hi.bound
  joinOp := hi.joinOp
  notStarted := hi.notStarted
  decided := hi.decided
  exchange := hi.exchange
  late := fun c hc => ⟨rfl, (hi.late c hc).2⟩
  noFault := hi.noFault

theorem Inv.startJoinStep (hi : s.Inv) (ht : s.step .startJoin = some t) : t.Inv := by
  simp only [step] at ht
  split_ifs at ht with h
  cases ht
  have hword := hi.word
  have hdecided := hi.decided
  simp only [h, Drained, reduceCtorEq, false_and, if_false] at hdecided
  refine ⟨?_, hi.bound, fun _ => rfl, by simp, ?_, hi.exchange, hi.late, ?_⟩
  · simpa [h, Join.ownRef] using hword
  · simp [hdecided, Drained]
  · simp [hi.noFault, hi.notStarted h]

theorem Inv.joinDecrementStep (hi : s.Inv) (ht : s.step .joinDecrement = some t) : t.Inv := by
  simp only [step] at ht
  split_ifs at ht with h
  cases ht
  have hown : s.join.ownRef = 1 := by simp [Join.ownRef, h]
  exact hi.drop (m := s.refs.card) (by rw [hown]) rfl hi.bound (by simp [h])

theorem Inv.executeStep (hi : s.Inv) (ht : s.step .execute = some t) : t.Inv := by
  simp only [step] at ht
  split_ifs at ht with h
  cases ht
  have hdecided := hi.decided
  have hdrained : Drained s.join s.refs := by
    by_contra hn
    rw [if_neg hn] at hdecided
    omega
  have hjoin : s.joinOp = true := hi.joinOp (by simp [hdrained.1])
  refine ⟨hi.word, hi.bound, hi.joinOp, hi.notStarted, ?_, hi.exchange, hi.late, ?_⟩
  · rw [if_pos hdrained] at hdecided
    change s.pending - 1 + (s.executed + 1) = if Drained s.join s.refs then 1 else 0
    rw [if_pos hdrained]
    omega
  · simp [hi.noFault, hjoin]

theorem Inv.step (hi : s.Inv) (a : Act) (ht : s.step a = some t) : t.Inv := by
  cases a with
  | tryGet c =>
    simp only [Scope.step] at ht
    split_ifs at ht with h
    cases ht
    exact hi.reload c s.closeReturned id
  | exchange c r spurious => exact hi.exchangeStep ht
  | copy src dst => exact hi.copyStep ht
  | move src dst => exact hi.moveStep ht
  | reset r => exact hi.resetStep ht
  | close =>
    cases ht
    exact hi.closeStep
  | startJoin => exact hi.startJoinStep ht
  | joinDecrement => exact hi.joinDecrementStep ht
  | execute => exact hi.executeStep ht

theorem inv_of_reachable (hs : system.Reachable s) : s.Inv :=
  hs.invariant Inv.initial fun _ a _ hi _ ht => hi.step a ht

/-- A ref stays valid through every step except its own reset or move. -/
theorem mem_refs_step {a : Act} {r : Ref} (hr : r ∈ s.refs) (ht : s.step a = some t)
    (hreset : a ≠ .reset r) (hmove : ∀ dst, a ≠ .move r dst) : r ∈ t.refs := by
  cases a with
  | exchange c dst spurious =>
    simp only [step] at ht
    split at ht
    · split_ifs at ht <;> cases ht
      · exact Finset.mem_insert_of_mem hr
      · exact hr
    · cases ht
  | copy src dst =>
    simp only [step] at ht
    split_ifs at ht
    cases ht
    exact Finset.mem_insert_of_mem hr
  | move src dst =>
    have hne : r ≠ src := fun h => hmove dst (h ▸ rfl)
    simp only [step] at ht
    split_ifs at ht
    cases ht
    exact Finset.mem_insert_of_mem (Finset.mem_erase_of_ne_of_mem hne hr)
  | reset q =>
    have hne : r ≠ q := fun h => hreset (h ▸ rfl)
    simp only [step] at ht
    split_ifs at ht
    cases ht
    exact Finset.mem_erase_of_ne_of_mem hne hr
  | close =>
    cases ht
    exact hr
  | tryGet | startJoin | joinDecrement | execute =>
    simp only [step] at ht
    split_ifs at ht
    cases ht
    exact hr

/-- What `counting_scope` promises about its count, its refs and its join operation. -/
structure JoinIsExact (s : Scope) : Prop where
  refCount : s.word / refCountIncrement = s.refs.card + if s.join = .decremented then 0 else 1
  /-- the join operation is decided on, once, exactly where the last reference goes away -/
  decidedOnce : s.pending + s.executed = if s.join = .decremented ∧ s.refs = ∅ then 1 else 0
  executedOnce : s.executed ≤ 1
  noneValidAfter : 0 < s.executed → s.refs = ∅
  lateInvalid : ∀ c r, s.late c = true → s.calls c ≠ .returned (some r)
  staysValid : ∀ r ∈ s.refs, ∀ a t, s.step a = some t → a ≠ .reset r →
    (∀ dst, a ≠ .move r dst) → r ∈ t.refs
  copyable : ∀ r ∈ s.refs, ∀ dst ∉ s.refs, s.refs.card < maxRefs →
    ∃ t, s.step (.copy r dst) = some t ∧ r ∈ t.refs ∧ dst ∈ t.refs
  noFault : s.fault = false

/-- Over every interleaving of calls, copies, moves, resets, closes and one `start_join`. -/
theorem join_is_exact (hs : system.Reachable s) : s.JoinIsExact := by
  have hi := inv_of_reachable hs
  have hdecided := hi.decided
  refine ⟨?_, hi.decided, ?_, ?_, ?_, ?_, ?_, hi.noFault⟩
  · rw [hi.word]
    exact pack_div closed_toNat_lt
  · split_ifs at hdecided <;> omega
  · intro hpos
    by_contra hne
    rw [if_neg (fun h => hne h.2)] at hdecided
    omega
  · intro c r hc
    exact ((hi.late c hc).2 r).2
  · intro r hr a t ht hreset hmove
    exact mem_refs_step hr ht hreset hmove
  · intro r hr dst hdst hlt
    refine ⟨_, if_pos ⟨hr, hdst, hlt⟩, ?_, ?_⟩
    · exact Finset.mem_insert_of_mem hr
    · exact Finset.mem_insert_self dst s.refs

/-- Two refs, one late call that gets none, and the join run by the last reset. -/
theorem join_is_exact_run : ∃ s : Scope, (s.executed = 1 ∧ s.calls 1 = .returned none) ∧
    s.JoinIsExact := by
  obtain ⟨s, hs, hp⟩ := system.exists_reachable
    [.tryGet 0, .exchange 0 5 true, .exchange 0 5 false, .copy 5 6, .close, .tryGet 1, .reset 5,
      .startJoin, .joinDecrement, .move 6 7, .reset 7, .execute]
    (fun s => s.executed = 1 ∧ s.calls 1 = .returned none) (by decide +kernel)
  exact ⟨s, by simpa using hp, join_is_exact hs⟩

end Scope
end Squiz.CountingScope
