import Squiz.Lib.StructuredOperations
import Squiz.FirstSuccessful.Protocol
import Squiz.WhenAll.Signatures

/-! `first_successful_op` as the parent of its children. -/
namespace Squiz.FirstSuccessful
open Squiz.Lib Squiz.Lib.Word Squiz.Detail Squiz.SigSet Op

variable {C : Config} {T : Type} [DecidableEq T] {types : DatumTypes T}
  {children : C.Child → SigSet T}

def Completion.signature : Completion T Unit → Option (Signature T)
  | .value vs _ => some (.value vs)
  | .signal tag datums _ => WhenAll.SignalTag.signature tag datums

/-- Moving the datums is `noexcept`, or the path for datums whose moves may throw is taken. -/
def Move.accords (types : DatumTypes T) (sig : Signature T) : Move Unit → Bool
  | .nothrow => sig.nothrowMove types
  | .mayThrow _ => !sig.nothrowMove types

/-- The child completes with the signature. -/
def Completion.matches (types : DatumTypes T) (sig : Signature T) (c : Completion T Unit) : Bool :=
  decide (c.signature = some sig) && c.move.accords types sig

def Result.signature (types : DatumTypes T) : Result T Unit → Option (Signature T)
  | .value vs => some (.value vs)
  | .signal tag datums => WhenAll.SignalTag.signature tag datums
  | .exceptionPtr _ => some (.error types.exceptionPtr)

/-- The completion with the datums of a signature. -/
def Signature.completion (move : Move Unit) : Signature T → Completion T Unit
  | .value vs => .value vs move
  | .error e => .signal .error [e] move
  | .stopped => .signal .stopped [] move

theorem Signature.completion_matches (types : DatumTypes T) (sig : Signature T) :
    ∃ c : Completion T Unit, c.matches types sig = true := by
  cases hmove : sig.nothrowMove types with
  | true =>
    refine ⟨Signature.completion .nothrow sig, ?_⟩
    cases sig <;> simp [Completion.matches, Signature.completion, Completion.signature,
      Completion.move, Move.accords, WhenAll.SignalTag.signature, hmove]
  | false =>
    refine ⟨Signature.completion (.mayThrow none) sig, ?_⟩
    cases sig <;> simp [Completion.matches, Signature.completion, Completion.signature,
      Completion.move, Move.accords, WhenAll.SignalTag.signature, hmove]

/-- The result is the signature, or the exception that storing it threw. -/
theorem Completion.Gives.mem {c : Completion T Unit} {r : Result T Unit} {sig : Signature T}
    {sigs : SigSet T} (h : c.Gives r) (hc : c.matches types sig = true) (hsig : sig ∈ sigs) :
    ∃ sig' ∈ addErrorIfMoveCanThrow types sigs, r.signature types = some sig' := by
  obtain ⟨hsignature, hmove⟩ := Bool.and_eq_true_iff.mp hc
  have hsignature : c.signature = some sig := of_decide_eq_true hsignature
  cases c with
  | value vs move | signal tag datums move =>
    rcases h with rfl | ⟨x, rfl, rfl⟩
    · exact ⟨sig, mem_addErrorIfMoveCanThrow.mpr (.inl hsig), hsignature⟩
    · have hmove : sig.nothrowMove types = false := by
        simpa [Move.accords, Completion.move] using hmove
      exact ⟨_, mem_addErrorIfMoveCanThrow.mpr (.inr ⟨rfl, sig, hsig, hmove⟩), rfl⟩

def adapter (C : Config) (types : DatumTypes T) : Adapter C.Child Unit (Signature T) where
  State := Op C T Unit
  Act := Act C T Unit
  system := system C T Unit
  asksToStop s
    | .stop => decide (s.stop = .idle)
    | _ => false
  spurious := Act.spurious
  delivered s := s.delivered.filterMap (Result.signature types)
  own
    | .complete _ _ => false
    | _ => true
  completes i sig
    | .complete j c => decide (j = i) && c.matches types sig
    | _ => false
  running s i := if s.child i = .running then some () else none
  asked s i := decide (s.stopRequests i ≠ 0)
  stopCalled s := s.stop.requested
  forwards := C.isRequestStopSupported
  decided s := s.winner.isSome = true

theorem Op.completion_of_step {D X : Type} {s t : Op C D X} {a : Act C D X} (ht : s.step a = some t)
    {i : C.Child} {c : Completion D X} (hc : t.completion i = some c) :
    s.completion i = some c ∨ a = .complete i c := by
  cases a with
  | start spurious =>
    left
    rwa [← (startStep_history ht).1]
  | stop =>
    left
    rwa [← (stopStep_history ht).1]
  | child j spurious =>
    left
    rcases childStep_history ht with h | ⟨-, -, h, -⟩
    · rwa [← h.1]
    · rwa [← h]
  | complete j c' =>
    simp only [Op.step] at ht
    split at ht <;> cases ht
    change Function.update s.completion j (some c') i = some c at hc
    rw [Function.update_apply] at hc
    split_ifs at hc with hij
    · cases hij
      cases hc
      exact .inr rfl
    · exact .inl hc

/-- Without the failure the step would be the same, so it would lower the rank. -/
theorem Op.not_progress {D X : Type} {s t : Op C D X} (hi : s.Inv) {a : Act C D X}
    (ha : a.spurious = false) (heq : t.rank = s.rank) : s.step a ≠ some t := by
  intro ht
  have hle := Op.rank_step hi ht
  rw [ha, heq] at hle
  exact absurd hle (Nat.not_succ_le_self _)

/-- A step that does not lower the rank starts no child. -/
theorem Op.running_of_step {D X : Type} {s t : Op C D X} (hi : s.Inv) {a : Act C D X}
    (ht : s.step a = some t) (heq : t.rank = s.rank) {i : C.Child}
    (hrunning : t.child i = .running) : s.child i = .running := by
  cases a with
  | stop => exact absurd ht (Op.not_progress hi rfl heq)
  | complete j c => exact absurd ht (Op.not_progress hi rfl heq)
  | start spurious =>
    have hne : s.step (.start false) ≠ some t := Op.not_progress hi rfl heq
    cases spurious with
    | false => exact absurd ht hne
    | true =>
      cases hpc : s.start with
      | cas old =>
        simp only [Op.step, startStep, hpc, Bool.true_eq_false, and_false, if_false,
          Option.some.injEq] at ht
        rwa [← ht, (startLoop_pcs s s.word).2.2.1] at hrunning
      | _ => exact absurd (by simpa only [Op.step, startStep, hpc] using ht) hne
  | child j spurious =>
    have hne : s.step (.child j false) ≠ some t := Op.not_progress hi rfl heq
    cases spurious with
    | false => exact absurd ht hne
    | true =>
      cases hpc : s.child j with
      | resultCas r move old =>
        simp only [Op.step, childStep, hpc, Bool.true_eq_false, and_false, if_false,
          Option.some.injEq] at ht
        obtain ⟨-, -, -, pc, hchild, hrank⟩ := resultLoop_pcs s j r move s.word
        rw [← ht, hchild] at hrunning
        by_cases hij : i = j
        · subst hij
          rw [Function.update_self] at hrunning
          subst hrunning
          rcases hrank with hlt | hcas
          · simp only [ChildPc.rank] at hlt
            omega
          · cases hcas
        · rwa [Function.update_of_ne hij] at hrunning
      | storeThrowing vs throws =>
        cases throws <;> exact absurd (by simpa only [Op.step, childStep, hpc] using ht) hne
      | _ => exact absurd (by simpa only [Op.step, childStep, hpc] using ht) hne

namespace Op
variable {D X : Type} {s t : Op C D X} {a : Act C D X} {i : C.Child} {spurious : Bool}

theorem deliverFrom_grows (s : Op C D X) (r : Option (Result D X)) :
    s.delivered <+: (s.deliverFrom r).delivered := by
  cases r with
  | some r => exact List.prefix_append _ _
  | none => exact List.prefix_rfl

theorem startLoop_delivered (s : Op C D X) (old : ℕ) :
    (s.startLoop old).delivered = s.delivered := by
  unfold startLoop
  split_ifs <;> rfl

theorem resultLoop_delivered (s : Op C D X) (i : C.Child) (r : Result D X) (move : Move X)
    (old : ℕ) : (s.resultLoop i r move old).delivered = s.delivered := by
  unfold resultLoop
  split_ifs <;> rfl

/-- The child moves alone. -/
theorem childStep_child (ht : s.childStep i spurious = some t) :
    ∃ pc, t.child = Function.update s.child i pc := by
  have hloop : ∀ r move, ∃ pc,
      (s.resultLoop i r move s.word).child = Function.update s.child i pc := by
    intro r move
    obtain ⟨-, -, -, pc, hchild, -⟩ := resultLoop_pcs s i r move s.word
    exact ⟨pc, hchild⟩
  unfold childStep at ht
  split at ht
  case h_1 | h_3 | h_4 | h_8 =>
    cases ht
    simp only [valueLoad, valueOr, storeValue, throwingOr]
    repeat' split
    all_goals exact ⟨_, rfl⟩
  case h_13 =>
    cases ht
    exact hloop _ _
  case h_14 =>
    split_ifs at ht <;> cases ht
    · exact ⟨_, rfl⟩
    · exact hloop _ _
  case h_20 | h_21 =>
    cases ht
    refine ⟨.done, ?_⟩
    change Function.update (s.deliverFrom _).child i .done = _
    rw [(deliverFrom_pcs s _).2.2]
  all_goals
    cases ht
    try exact ⟨_, rfl⟩

theorem childStep_grows (ht : s.childStep i spurious = some t) : s.delivered <+: t.delivered := by
  unfold childStep at ht
  split at ht
  case h_1 | h_3 | h_4 | h_8 =>
    cases ht
    simp only [valueLoad, valueOr, storeValue, throwingOr]
    repeat' split
    all_goals exact List.prefix_rfl
  case h_13 =>
    cases ht
    rw [resultLoop_delivered]
  case h_14 =>
    split_ifs at ht <;> cases ht
    · exact List.prefix_rfl
    · rw [resultLoop_delivered]
  case h_19 | h_20 | h_21 =>
    cases ht
    exact s.deliverFrom_grows _
  all_goals
    cases ht
    try exact List.prefix_rfl

theorem delivered_grows (ht : s.step a = some t) : s.delivered <+: t.delivered := by
  cases a with
  | start spurious =>
    simp only [step, startStep] at ht
    split at ht
    case h_2 =>
      cases ht
      rw [startLoop_delivered]
    case h_6 =>
      split_ifs at ht <;> cases ht
      · exact List.prefix_rfl
      · rw [startLoop_delivered]
    case h_7 =>
      cases ht
      exact s.deliverFrom_grows _
    all_goals
      cases ht
      try exact List.prefix_rfl
  | stop =>
    simp only [step, stopStep] at ht
    split at ht <;> try split_ifs at ht
    all_goals
      cases ht
      try exact List.prefix_rfl
  | complete j c =>
    simp only [step] at ht
    split at ht <;> cases ht
    exact List.prefix_rfl
  | child j spurious => exact childStep_grows ht

/-- A child runs until it completes. -/
theorem runs_on (ht : s.step a = some t) (hrunning : s.child i = .running)
    (ha : ∀ c, a ≠ .complete i c) : t.child i = .running := by
  cases a with
  | start spurious =>
    simp only [step, startStep] at ht
    split at ht
    case h_1 =>
      cases ht
      change Function.update s.child _ .running i = .running
      rw [Function.update_apply, hrunning, ite_self]
    case h_2 =>
      cases ht
      rwa [(startLoop_pcs s s.word).2.2.1]
    case h_6 =>
      split_ifs at ht <;> cases ht
      · exact hrunning
      · rwa [(startLoop_pcs s s.word).2.2.1]
    case h_7 =>
      cases ht
      change (s.deliverFrom _).child i = .running
      rwa [(deliverFrom_pcs s _).2.2]
    all_goals
      cases ht
      try exact hrunning
  | stop =>
    simp only [step, stopStep] at ht
    split at ht <;> try split_ifs at ht
    all_goals
      cases ht
      try exact hrunning
  | complete j c =>
    have hij : i ≠ j := fun h => ha c (by rw [h])
    simp only [step] at ht
    split at ht <;> cases ht
    change Function.update s.child j _ i = .running
    rwa [Function.update_of_ne hij]
  | child j spurious =>
    obtain ⟨pc, hchild⟩ := childStep_child ht
    have hij : i ≠ j := by
      rintro rfl
      simp [step, childStep, hrunning] at ht
    rwa [hchild, Function.update_of_ne hij]

/-! A winner has noted that there are losers, as long as there are. -/

/-- A child that wins looks for the others that are outstanding. -/
theorem childStep_winner (ht : s.childStep i spurious = some t) :
    (t.winner = s.winner ∧ t.othersRunning = s.othersRunning) ∨
      t.winner = some i ∧
        t.othersRunning = decide (∃ j, j ≠ i ∧ (s.child j).held = true) := by
  have hloop : ∀ r move, (s.resultLoop i r move s.word).winner = s.winner ∧
      (s.resultLoop i r move s.word).othersRunning = s.othersRunning := by
    intro r move
    unfold resultLoop
    split_ifs <;> exact ⟨rfl, rfl⟩
  have hdeliver : ∀ r, (s.deliverFrom r).winner = s.winner ∧
      (s.deliverFrom r).othersRunning = s.othersRunning := by
    intro r
    cases r <;> exact ⟨rfl, rfl⟩
  unfold childStep at ht
  split at ht
  case h_1 | h_3 | h_4 | h_8 =>
    cases ht
    simp only [valueLoad, valueOr, storeValue, throwingOr]
    repeat' split
    all_goals first
      | exact .inl ⟨rfl, rfl⟩
      | exact .inr ⟨rfl, rfl⟩
  case h_13 =>
    cases ht
    exact .inl (hloop _ _)
  case h_14 =>
    split_ifs at ht <;> cases ht
    · exact .inl ⟨rfl, rfl⟩
    · exact .inl (hloop _ _)
  case h_19 | h_20 | h_21 =>
    cases ht
    exact .inl (hdeliver _)
  all_goals
    cases ht
    try exact .inl ⟨rfl, rfl⟩

/-- Only a child whose value may throw can win too late to ask the others to stop. -/
theorem childStep_lateThrowing (ht : s.childStep i spurious = some t) :
    t.lateThrowing = s.lateThrowing ∨ s.child i = .throwingOr := by
  have hloop : ∀ r move, (s.resultLoop i r move s.word).lateThrowing = s.lateThrowing := by
    intro r move
    unfold resultLoop
    split_ifs <;> rfl
  have hdeliver : ∀ r, (s.deliverFrom r).lateThrowing = s.lateThrowing := by
    intro r
    cases r <;> rfl
  unfold childStep at ht
  split at ht
  case h_8 hpc => exact .inr hpc
  case h_1 | h_3 | h_4 =>
    cases ht
    simp only [valueLoad, valueOr, storeValue]
    repeat' split
    all_goals exact .inl rfl
  case h_13 =>
    cases ht
    exact .inl (hloop _ _)
  case h_14 =>
    split_ifs at ht <;> cases ht
    · exact .inl rfl
    · exact .inl (hloop _ _)
  case h_19 | h_20 | h_21 =>
    cases ht
    exact .inl (hdeliver _)
  all_goals
    cases ht
    try exact .inl rfl

/-- A child that has left the count does not come back. -/
theorem held_of_childStep (ht : s.childStep i spurious = some t) {j : C.Child}
    (h : (t.child j).held = true) : (s.child j).held = true := by
  by_cases hij : j = i
  · subst hij
    by_contra hnot
    cases hpc : s.child j <;> rw [hpc] at hnot <;> try exact hnot rfl
    all_goals
      simp only [childStep, hpc, Option.some.injEq, reduceCtorEq] at ht
      try
        subst ht
        simp [setChild, ChildPc.held] at h
  · obtain ⟨pc, hchild⟩ := childStep_child ht
    rwa [hchild, Function.update_of_ne hij] at h

/-- What the operation does for its losers rests on these two notes. -/
structure Watched (s : Op C D X) : Prop where
  others : ∀ w, s.winner = some w → (∃ j, j ≠ w ∧ (s.child j).held = true) →
    s.othersRunning = true
  late : s.lateThrowing = false

theorem Watched.of_same (h : s.Watched) (hwinner : t.winner = s.winner)
    (hothers : t.othersRunning = s.othersRunning) (hlate : t.lateThrowing = s.lateThrowing)
    (hheld : ∀ j, (t.child j).held = true → (s.child j).held = true) : t.Watched where
  others := by
    rintro w hw ⟨j, hj, hjheld⟩
    rw [hothers]
    exact h.others w (hwinner ▸ hw) ⟨j, hj, hheld j hjheld⟩
  late := hlate.trans h.late

theorem Watched.startStep (hi : s.Inv) (h : s.Watched) (ht : s.startStep spurious = some t) :
    t.Watched := by
  have hloop : (s.startLoop s.word).Watched := by
    unfold startLoop
    split_ifs <;> exact h.of_same rfl rfl rfl fun _ => id
  have hdeliver : ∀ r, (s.deliverFrom r).Watched := by
    intro r
    cases r <;> exact h.of_same rfl rfl rfl fun _ => id
  unfold Op.startStep at ht
  split at ht
  case h_1 k hpc =>
    cases ht
    refine h.of_same rfl rfl rfl ?_
    intro j hj
    have hj : (Function.update s.child k .running j).held = true := hj
    rw [Function.update_apply] at hj
    split_ifs at hj with hjk
    · have hnot : s.child j = .notStarted := by
        apply (hi.launched j).mpr
        rw [hpc, hjk]
        exact le_refl k
      rw [hnot]
      rfl
    · exact hj
  case h_2 =>
    cases ht
    exact hloop
  case h_6 =>
    split_ifs at ht <;> cases ht
    · exact h.of_same rfl rfl rfl fun _ => id
    · exact hloop
  case h_7 =>
    cases ht
    exact (hdeliver _).of_same rfl rfl rfl fun _ => id
  all_goals
    cases ht
    try exact h.of_same rfl rfl rfl fun _ => id

theorem Watched.childStep (hi : s.Inv) (h : s.Watched)
    (hvalues : ∀ i vs move, s.completion i = some (.value vs move) → move = .nothrow)
    (ht : s.childStep i spurious = some t) : t.Watched where
  others := by
    rintro w hw ⟨j, hj, hjheld⟩
    have hjheld := held_of_childStep ht hjheld
    rcases childStep_winner ht with ⟨hwinner, hothers⟩ | ⟨hwinner, hothers⟩
    · rw [hothers]
      exact h.others w (hwinner ▸ hw) ⟨j, hj, hjheld⟩
    · rw [hwinner] at hw
      cases hw
      rw [hothers]
      exact decide_eq_true ⟨j, hj, hjheld⟩
  late := by
    rcases childStep_lateThrowing ht with hsame | hpc
    · exact hsame.trans h.late
    · have hok := hi.child i
      rw [hpc] at hok
      obtain ⟨vs, hcompletion, -⟩ := hok
      cases hvalues i vs _ hcompletion

theorem Watched.step (hi : s.Inv) (h : s.Watched)
    (hvalues : ∀ i vs move, s.completion i = some (.value vs move) → move = .nothrow)
    (ht : s.step a = some t) : t.Watched := by
  cases a with
  | start spurious => exact h.startStep hi ht
  | child i spurious => exact h.childStep hi hvalues ht
  | stop =>
    simp only [Op.step, stopStep] at ht
    split at ht <;> try split_ifs at ht
    all_goals
      cases ht
      try exact h.of_same rfl rfl rfl fun _ => id
  | complete i c =>
    simp only [Op.step] at ht
    split at ht <;> cases ht
    next hpc =>
    refine h.of_same rfl rfl rfl ?_
    intro j hj
    have hj : (Function.update s.child i (setResult c) j).held = true := hj
    rw [Function.update_apply] at hj
    split_ifs at hj with hij
    · rw [hij, hpc]
      rfl
    · exact hj

/-! Where nothing moves, the losers have been asked to stop. -/

theorem done_of_startStep (h : s.startStep false = none) : s.start = .done := by
  simp only [startStep] at h
  cases hpc : s.start with
  | done => rfl
  | cas old =>
    simp only [hpc] at h
    split_ifs at h
  | _ => simp [hpc] at h

theorem Inv.winner_done (hi : s.Inv) (hw : s.winner = some i) (h : s.childStep i false = none) :
    s.child i = .done := by
  have hwinner := hi.winner i hw
  simp only [Op.childStep] at h
  cases hpc : s.child i with
  | done => rfl
  | notStarted | running =>
    rw [hpc] at hwinner
    rcases hwinner with hpre | ⟨hsettled, -⟩
    · cases hpre
    · cases hsettled
  | storeThrowing vs throws => cases throws <;> simp [hpc] at h
  | resultCas r move old =>
    simp only [hpc] at h
    split_ifs at h
  | _ => simp [hpc] at h

theorem Inv.asked_of_stuck (hi : s.Inv) (h : s.Watched)
    (hfound : s.foundAllComplete = true → ∀ j, (s.completion j).isSome = true)
    (hstart : s.start = .done) (hchild : ∀ j, s.childStep j false = none)
    (hstop : s.stop.requested = true → s.stop = .done) (hrunning : s.child i = .running)
    (hcause : s.stop.requested = true ∨ s.winner.isSome = true) : s.stopRequests i = 1 := by
  have hnone : s.completion i = none := by
    have hok := hi.child i
    rwa [hrunning] at hok
  have hcomplete : ¬ s.Complete := Op.not_complete (i := i) (by rw [hrunning]; rfl)
  have hasked : s.StopTakesOver → s.stopRequests i = 1 := by
    rintro ⟨hforwarder, hall⟩
    obtain ⟨hrequested, -⟩ := hi.forwarder _ hforwarder
    exact hall (hstop hrequested) i
  cases hw : s.winner with
  | none =>
    rw [hw] at hcause
    have hrequested := hcause.resolve_right Bool.false_ne_true
    exact hasked (hi.stopTakesOver (hi.stopped hrequested hw hcomplete))
  | some w =>
    have hdone := hi.winner_done hw (hchild w)
    have hiw : i ≠ w := by
      rintro rfl
      rw [hdone] at hrunning
      cases hrunning
    have hothers := h.others w hw ⟨i, hiw, by rw [hrunning]; rfl⟩
    have hnotFound : s.foundAllComplete = false := by
      by_contra hne
      have hsome := hfound (Bool.of_not_eq_false hne) i
      rw [hnone] at hsome
      cases hsome
    rcases hi.losers_cancelled h.late hnotFound w hw hothers hdone hstart with ⟨-, hall⟩ | hover
    · exact hall i hiw
    · exact hasked hover

end Op

/-- The runs whose children complete as they have declared, for an environment in which stop is
possible. -/
abbrev Runs (types : DatumTypes T) (children : C.Child → SigSet T) : Op C T Unit → Prop :=
  (adapter C types).Reaches (fun _ _ => True) fun i _ sig => sig ∈ children i

theorem Runs.inv {s : Op C T Unit} (hs : Runs types children s) : s.Inv ∧
    ∀ i c, s.completion i = some c → ∃ sig ∈ children i, c.matches types sig = true := by
  refine hs.invariant (P := fun s : Op C T Unit => s.Inv ∧
    ∀ i c, s.completion i = some c → ∃ sig ∈ children i, c.matches types sig = true)
    ⟨Inv.initial, fun i c hc => by cases hc⟩ ?_
  rintro s a t ⟨hi, hcompletion⟩ hok ht
  refine ⟨hi.step a ht, fun i c hc => ?_⟩
  rcases Op.completion_of_step ht hc with hsame | rfl
  · exact hcompletion i c hsame
  · rcases hok with hown | ⟨j, -, sig, -, hsig, hcompletes⟩
    · cases hown
    · obtain ⟨hj, hmatches⟩ := Bool.and_eq_true_iff.mp hcompletes
      obtain rfl : i = j := of_decide_eq_true hj
      exact ⟨sig, hsig, hmatches⟩

/-- A delivered result is the value of a child, the last result, or an exception from storing it. -/
theorem Runs.delivers {s : Op C T Unit} (hs : Runs types children s) {r : Result T Unit}
    (hr : r ∈ s.delivered) : ∃ i, ∃ sig ∈ addErrorIfMoveCanThrow types (children i),
      r.signature types = some sig := by
  obtain ⟨hi, hcompletion⟩ := hs.inv
  have hcorrect := hi.correct r hr
  unfold IsCorrect Correct at hcorrect
  cases hw : s.winner with
  | some i =>
    rw [hw] at hcorrect
    obtain ⟨vs, move, hc, rfl⟩ := hcorrect
    obtain ⟨sig, hsig, hmatches⟩ := hcompletion i _ hc
    have hgives : (Completion.value vs move).Gives (.value vs : Result T Unit) := .inl rfl
    exact ⟨i, hgives.mem hmatches hsig⟩
  | none =>
    rw [hw] at hcorrect
    obtain ⟨i, c, -, hc, hgives, -⟩ := hcorrect
    obtain ⟨sig, hsig, hmatches⟩ := hcompletion i c hc
    exact ⟨i, hgives.mem hmatches hsig⟩

/-- What the operation delivers is declared. -/
theorem adapter_safe (types : DatumTypes T) (children : C.Child → SigSet T) :
    (adapter C types).Safe (fun _ _ => True) (fun i _ sig => sig ∈ children i)
      fun sig => sig ∈
        addErrorIfMoveCanThrow types (merge ((List.finRange C.children).map children)) where
  params := fun _ _ _ _ _ => trivial
  once := by
    intro s hs
    change (s.delivered.filterMap (Result.signature types)).length ≤ 1
    have hle := List.length_filterMap_le (Result.signature types) s.delivered
    obtain ⟨hi, -⟩ := Runs.inv hs
    by_cases hc : s.Complete
    · have := hi.delivered hc
      omega
    · rw [(hi.undelivered hc).2]
      exact Nat.zero_le 1
  declares := by
    intro s hs sig hsig
    obtain ⟨r, hr, hsig⟩ := List.mem_filterMap.mp hsig
    obtain ⟨i, sig', hmem, hsig'⟩ := Runs.delivers hs hr
    cases hsig.symm.trans hsig'
    rw [mem_addErrorIfMoveCanThrow] at hmem ⊢
    have hmerge : ∀ other ∈ children i, other ∈ merge ((List.finRange C.children).map children) :=
      fun other hother => mem_merge.mpr ⟨_, List.mem_map_of_mem (List.mem_finRange i), hother⟩
    rcases hmem with hmem | ⟨hexception, other, hother, hmove⟩
    · exact .inl (hmerge sig hmem)
    · exact .inr ⟨hexception, other, hmerge other hother, hmove⟩
  terminates := by
    refine ⟨Op.rank, fun s a t hs ht => ⟨Op.rank_step (Runs.inv hs).1 ht, ?_⟩⟩
    intro heq i hrunning
    have hpc : t.child i = .running := Option.isSome_ite.mp hrunning
    exact Option.isSome_ite.mpr (Op.running_of_step (Runs.inv hs).1 ht heq hpc)

theorem adapter_ends (types : DatumTypes T) (children : C.Child → SigSet T) :
    (adapter C types).Ends (fun _ _ => True) fun i _ sig => sig ∈ children i where
  accepts := by
    intro s _ i hrunning _ sig _ _
    have hpc : s.child i = .running := Option.isSome_ite.mp hrunning
    obtain ⟨c, hc⟩ := Signature.completion_matches types sig
    refine ⟨.complete i c, Bool.and_eq_true_iff.mpr ⟨decide_eq_true rfl, hc⟩, ?_⟩
    change (s.step (.complete i c)).isSome = true
    simp only [Op.step, hpc, Option.isSome_some]
  ends := by
    intro s hs hstuck hrunning
    have hquiescent : s.Quiescent := by
      intro a _ ha
      cases a with
      | start spurious => exact hstuck (.start spurious) rfl rfl
      | stop => exact absurd rfl ha
      | child i spurious => exact hstuck (.child i spurious) rfl rfl
      | complete i c =>
        have hpc : s.child i ≠ .running := fun h => by
          cases (if_pos h).symm.trans (hrunning i)
        simp only [Op.step]
    have hone := (Runs.inv hs).1.deliveredAtEnd hquiescent
    obtain ⟨r, hr⟩ := List.exists_mem_of_length_pos (by omega : 0 < s.delivered.length)
    obtain ⟨i, sig, -, hsig⟩ := Runs.delivers hs hr
    exact List.ne_nil_of_mem (List.mem_filterMap.mpr ⟨r, hr, hsig⟩)

theorem adapter_structured (types : DatumTypes T) (children : C.Child → SigSet T) :
    (adapter C types).Structured (fun _ _ => True) fun i _ sig => sig ∈ children i where
  keeps := fun _ _ _ ht hne => ((Op.delivered_grows ht).filterMap _).ne_nil hne
  runs_on := by
    intro s a t i _ ht hother hrunning
    apply Option.isSome_ite.mpr
    apply Op.runs_on ht (Option.isSome_ite.mp hrunning)
    rintro c rfl
    rcases hother with hown | ⟨j, sig, hj, hcompletes⟩
    · cases hown
    · exact hj (of_decide_eq_true (Bool.and_eq_true_iff.mp hcompletes).1).symm
  ended := by
    intro s hs hne i
    apply if_neg
    intro hrunning
    have hnot : ¬ s.Complete := not_complete (i := i) (by rw [hrunning]; rfl)
    have hnil := ((Runs.inv hs).1.undelivered hnot).2
    apply hne
    change s.delivered.filterMap _ = []
    rw [hnil, List.filterMap_nil]

/-- The values that the children have declared are moved without throwing. -/
def NothrowValues (types : DatumTypes T) (children : C.Child → SigSet T) : Prop :=
  ∀ i vs, .value vs ∈ children i → (Signature.value vs).nothrowMove types = true

theorem Runs.nothrow (hvalues : NothrowValues types children) {s : Op C T Unit}
    (hs : Runs types children s) (i : C.Child) (vs : List T) (move : Move Unit)
    (hc : s.completion i = some (.value vs move)) : move = .nothrow := by
  obtain ⟨sig, hsig, hmatches⟩ := (Runs.inv hs).2 i _ hc
  obtain ⟨hsignature, hmove⟩ := Bool.and_eq_true_iff.mp hmatches
  have hsignature : some (Signature.value vs) = some sig := of_decide_eq_true hsignature
  cases hsignature
  cases move with
  | nothrow => rfl
  | mayThrow throws =>
    have hmove : (!(Signature.value vs).nothrowMove types) = true := hmove
    rw [hvalues i vs hsig] at hmove
    cases hmove

theorem Runs.watched (hvalues : NothrowValues types children) {s : Op C T Unit}
    (hs : Runs types children s) : s.Watched := by
  have hboth := hs.invariant (P := fun s : Op C T Unit => Runs types children s ∧ s.Watched)
    ⟨.init, fun w hw => (by cases hw), rfl⟩
    fun s a t ⟨hreach, h⟩ hok ht => ⟨hreach.step hok ht,
      h.step (Runs.inv hreach).1 (Runs.nothrow hvalues hreach) ht⟩
  exact hboth.2

/-- A winner or a request to stop gets the other children stopped. -/
theorem adapter_cancels (hvalues : NothrowValues types children) :
    (adapter C types).Cancels (fun _ _ => True) fun i _ sig => sig ∈ children i where
  asks := by
    intro s i _ hidle hforwards _ hcalled
    have hstart : s.start = .done := Op.done_of_startStep (hidle (.start false) rfl rfl)
    have hstop : s.stop = .idle := by
      cases hpc : s.stop with
      | idle => rfl
      | stopLoop k | done =>
        have hcalled : s.stop.requested = false := hcalled
        rw [hpc] at hcalled
        cases hcalled
    refine ⟨.stop, rfl, decide_eq_true hstop, ?_⟩
    change s.stopStep ≠ none
    simp only [Op.stopStep, hstop]
    rw [if_pos ⟨hstart, hforwards⟩]
    exact Option.some_ne_none _
  cancels := by
    intro s i hs hidle hrunning hcause
    have hrunning : s.child i = .running := Option.isSome_ite.mp hrunning
    have hstart : s.start = .done := Op.done_of_startStep (hidle (.start false) rfl rfl)
    have hstop : s.stop.requested = true → s.stop = .done := by
      intro hrequested
      cases hpc : s.stop with
      | idle =>
        rw [hpc] at hrequested
        cases hrequested
      | done => rfl
      | stopLoop k =>
        have hnone : s.stopStep = none := hidle .stop rfl (decide_eq_false (by simp [hpc]))
        simp [Op.stopStep, hpc] at hnone
    have hone : s.stopRequests i = 1 :=
      (Runs.inv hs).1.asked_of_stuck (Runs.watched hvalues hs)
        (Op.found_of_reachable hs.reachable).2 hstart (fun j => hidle (.child j false) rfl rfl)
        hstop hrunning hcause
    exact decide_eq_true (by rw [hone]; exact one_ne_zero)

end Squiz.FirstSuccessful
