import Squiz.Lib.System
import Mathlib.Data.DFinsupp.WellFounded
import Mathlib.Data.Prod.Lex
import Mathlib.SetTheory.Ordinal.Rank

/-! Operations that complete with a result, and the composition of an operation with the operations
that it starts. What an operation promises of children that keep their promises, the composition
does without a condition. -/
namespace Squiz.Lib

/-- A system that completes with results and may be asked to stop. -/
structure Operation (R : Type) where
  State : Type
  Act : Type
  system : System State Act
  /-- the action begins a request to stop -/
  asksToStop : State → Act → Bool
  /-- the action is a failure without a cause, which may be repeated without end -/
  spurious : Act → Bool
  delivered : State → List R
  /-- the action is taken outside: what runs there completes -/
  outside : Act → Bool := fun _ => false
  /-- something was started outside and has not completed -/
  pending : State → Prop := fun _ => False
  /-- a request to stop has begun -/
  stopCalled : State → Bool := fun _ => false
  /-- something is pending that a request to stop is to reach, and has not reached -/
  unasked : State → Prop := fun _ => False
  /-- something is pending whose result is not wanted any more, and no request has reached it -/
  neglected : State → Prop := fun _ => False

/-- An operation with children of indices `ι`, each made from a parameter when it is started. -/
structure Adapter (ι P R : Type) extends Operation R where
  /-- the operation takes the action by itself -/
  own : Act → Bool
  /-- the action tells the operation that child `i` has completed with a result -/
  completes : ι → R → Act → Bool
  /-- the parameter of a child that was started and has not completed -/
  running : State → ι → Option P
  /-- the child has been asked to stop -/
  asked : State → ι → Bool
  /-- requests to stop are passed on to the children -/
  forwards : Bool := true
  /-- the results of the children that still run are not wanted any more, without a request -/
  decided : State → Prop := fun _ => False

namespace Operation
variable {R : Type} (O : Operation R)

/-- No step raises the rank, and every step but a spurious failure lowers it. -/
def Ranked {W : Type*} [Preorder W] (rank : O.State → W) : Prop :=
  ∀ s a t, O.system.Reachable s → O.system.step s a = some t →
    rank t ≤ rank s ∧ (O.spurious a = false → rank t < rank s)

/-- No step is left but, possibly, the beginning of a request to stop. -/
def Stuck (s : O.State) : Prop := ∀ a, O.asksToStop s a = false → O.system.step s a = none

/-- In every run there is at most one result, it is a declared one, and the run ends but for
spurious failures. -/
structure Safe (declared : R → Prop) : Prop where
  once : ∀ s, O.system.Reachable s → (O.delivered s).length ≤ 1
  declares : ∀ s, O.system.Reachable s → ∀ r ∈ O.delivered s, declared r
  terminates : ∃ rank : O.State → Ordinal.{0}, O.Ranked rank

/-- A run that cannot go on has a result. -/
def Ends : Prop := ∀ s, O.system.Reachable s → O.Stuck s → O.delivered s ≠ []

variable {O}

theorem Safe.mono {declared declared' : R → Prop} (h : O.Safe declared)
    (himp : ∀ r, declared r → declared' r) : O.Safe declared' where
  once := h.once
  declares := fun s hs r hr => himp r (h.declares s hs r hr)
  terminates := h.terminates

/-- A rank in any well-founded order will do. -/
theorem Ranked.exists_ordinal {W : Type*} [Preorder W] [WellFoundedLT W] {rank : O.State → W}
    (h : O.Ranked rank) : ∃ rank : O.State → Ordinal.{0}, O.Ranked rank := by
  have : IsWellFounded O.State (InvImage (· < ·) rank) := ⟨InvImage.wf rank wellFounded_lt⟩
  refine ⟨IsWellFounded.rank (InvImage (· < ·) rank), ?_⟩
  intro s a t hs ht
  obtain ⟨hle, hlt⟩ := h s a t hs ht
  refine ⟨?_, fun ha => IsWellFounded.rank_lt_of_rel (hlt ha)⟩
  rw [IsWellFounded.rank_eq]
  refine Ordinal.iSup_le ?_
  rintro ⟨u, hu⟩
  have hus : InvImage (· < ·) rank u s := lt_of_lt_of_le hu hle
  exact Order.succ_le_of_lt (IsWellFounded.rank_lt_of_rel hus)

/-- In a run without end, all but finitely many steps are spurious failures. -/
theorem Safe.finite {declared : R → Prop} (h : O.Safe declared) {run : ℕ → O.State}
    {acts : ℕ → O.Act} (h0 : O.system.Reachable (run 0))
    (hsteps : ∀ n, O.system.step (run n) (acts n) = some (run (n + 1))) :
    ∃ n, ∀ m ≥ n, O.spurious (acts m) = true := by
  obtain ⟨rank, hrank⟩ := h.terminates
  have hreach : ∀ n, O.system.Reachable (run n) := by
    intro n
    induction n with
    | zero => exact h0
    | succ n ih => exact ih.step trivial (hsteps n)
  have hanti : Antitone fun n => rank (run n) :=
    antitone_nat_of_succ_le fun n => (hrank _ _ _ (hreach n) (hsteps n)).1
  obtain ⟨-, ⟨n, rfl⟩, hmin⟩ := wellFounded_lt.has_min (Set.range fun n => rank (run n)) ⟨_, 0, rfl⟩
  refine ⟨n, fun m hm => ?_⟩
  by_contra hspurious
  have hlt := (hrank _ _ _ (hreach m) (hsteps m)).2 (Bool.of_not_eq_true hspurious)
  exact hmin _ ⟨m + 1, rfl⟩ (lt_of_lt_of_le hlt (hanti hm))

/-- The operation, which has `request_stop()` only if it is stoppable. -/
def restrict (O : Operation R) (stoppable : Bool) : Operation R :=
  { O with
    system := ⟨O.system.init, fun s a =>
      if O.asksToStop s a = true ∧ stoppable = false then none else O.system.step s a⟩
    unasked := fun s => stoppable = true ∧ O.unasked s }

variable {stoppable : Bool}

theorem step_of_restrict {s t : O.State} {a : O.Act}
    (ht : (O.restrict stoppable).system.step s a = some t) : O.system.step s a = some t := by
  change (if _ then none else O.system.step s a) = some t at ht
  split_ifs at ht
  exact ht

theorem reachable_of_restrict {s : O.State} (hs : (O.restrict stoppable).system.Reachable s) :
    O.system.Reachable s :=
  hs.invariant .init fun _ _ _ h _ ht => h.step trivial (step_of_restrict ht)

theorem Safe.restrict {declared : R → Prop} (h : O.Safe declared) :
    (O.restrict stoppable).Safe declared where
  once := fun s hs => h.once s (reachable_of_restrict hs)
  declares := fun s hs => h.declares s (reachable_of_restrict hs)
  terminates := by
    obtain ⟨rank, hrank⟩ := h.terminates
    exact ⟨rank, fun s a t hs ht =>
      hrank s a t (reachable_of_restrict hs) (step_of_restrict ht)⟩

theorem Ends.restrict (h : O.Ends) : (O.restrict stoppable).Ends := by
  intro s hs hstuck
  refine h s (reachable_of_restrict hs) ?_
  intro a ha
  have hnone := hstuck a ha
  change (if O.asksToStop s a = true ∧ stoppable = false then none else O.system.step s a) = none
    at hnone
  rwa [if_neg (fun hstop => by rw [ha] at hstop; cases hstop.1)] at hnone

end Operation

namespace Adapter
variable {ι P R : Type} (A : Adapter ι P R)

/-- The children complete with results that are declared for the parameters they may have. -/
def Ok (admits : ι → P → Prop) (declared : ι → P → R → Prop) (a : A.Act) : Prop :=
  A.own a = true ∨ ∃ i p r, admits i p ∧ declared i p r ∧ A.completes i r a = true

/-- The runs in which the children keep their promises. -/
abbrev Reaches (admits : ι → P → Prop) (declared : ι → P → R → Prop) : A.State → Prop :=
  A.system.Reaches fun _ a => A.Ok admits declared a

/-- No step raises the rank, every step but a spurious failure lowers it, and a step that does not
starts no child. -/
def Ranked (admits : ι → P → Prop) (declared : ι → P → R → Prop) (rank : A.State → ℕ) : Prop :=
  ∀ s a t, A.Reaches admits declared s → A.system.step s a = some t →
    rank t + (!A.spurious a).toNat ≤ rank s ∧
      (rank t = rank s → ∀ i, (A.running t i).isSome = true → (A.running s i).isSome = true)

/-- What the operation promises of children that keep theirs. -/
structure Safe (admits : ι → P → Prop) (declared : ι → P → R → Prop) (result : R → Prop) :
    Prop where
  params : ∀ s, A.Reaches admits declared s → ∀ i p, A.running s i = some p → admits i p
  once : ∀ s, A.Reaches admits declared s → (A.delivered s).length ≤ 1
  declares : ∀ s, A.Reaches admits declared s → ∀ r ∈ A.delivered s, result r
  terminates : ∃ rank : A.State → ℕ, A.Ranked admits declared rank

/-- A run that cannot go on and waits for no child has a result; and a child that is waited for may
complete. -/
structure Ends (admits : ι → P → Prop) (declared : ι → P → R → Prop) : Prop where
  accepts : ∀ s, A.Reaches admits declared s → ∀ i, (A.running s i).isSome = true → ∀ p r,
    admits i p → declared i p r → ∃ a, A.completes i r a = true ∧ (A.system.step s a).isSome = true
  ends : ∀ s, A.Reaches admits declared s →
    (∀ a, A.own a = true → A.asksToStop s a = false → A.system.step s a = none) →
    (∀ i, A.running s i = none) → A.delivered s ≠ []

variable {A} in
/-- Every step lowers the rank. -/
theorem Ranked.of_lt {admits : ι → P → Prop} {declared : ι → P → R → Prop} {rank : A.State → ℕ}
    (h : ∀ s a t, A.Reaches admits declared s → A.system.step s a = some t → rank t < rank s) :
    A.Ranked admits declared rank := by
  intro s a t hs ht
  have hlt := h s a t hs ht
  refine ⟨?_, fun heq => absurd heq hlt.ne⟩
  have hle := (!A.spurious a).toNat_le
  omega

section Composition
variable [DecidableEq ι] [DecidableEq P] (child : ι → P → Operation R)

/-- A child that was started, with the parameter it was made from. -/
abbrev Started (i : ι) := (p : P) × (child i p).State

/-- The operation with those of its children that it has started. -/
structure Composite where
  op : A.State
  child : (i : ι) → Option (Started child i)

inductive CompositeAct where
  /-- the operation's own step -/
  | op (a : A.Act)
  /-- a step of the child that was made from `p` -/
  | child (i : ι) (p : P) (a : (child i p).Act)
  /-- the child has completed, and tells the operation -/
  | complete (i : ι) (a : A.Act)

variable {A child}

/-- The state of the child, if it was made from `p`. -/
def Started.state {i : ι} (p : P) : Option (Started child i) → Option (child i p).State
  | some ⟨q, t⟩ => if h : q = p then some (h ▸ t) else none
  | none => none

omit [DecidableEq ι] in
@[simp] theorem Started.state_some {i : ι} {p : P} {t : (child i p).State} :
    Started.state p (some ⟨p, t⟩) = some t := dif_pos rfl

omit [DecidableEq ι] in
theorem Started.eq_of_state {i : ι} {p : P} {c : Option (Started child i)} {t : (child i p).State}
    (h : Started.state p c = some t) : c = some ⟨p, t⟩ := by
  unfold Started.state at h
  split at h
  · split_ifs at h with hq
    subst hq
    cases h
    rfl
  · cases h

namespace Composite

/-- The operation moves to `op`, and the children that it has started there begin to run. -/
def launch (s : A.Composite child) (op : A.State) : A.Composite child where
  op := op
  child := fun i =>
    match s.child i with
    | some c => some c
    | none => (A.running op i).map fun p => ⟨p, (child i p).system.init⟩

/-- What the child has completed with, as far as it has. -/
def results (c : Option (Started child i)) : List R :=
  match c with
  | some ⟨p, t⟩ => (child i p).delivered t
  | none => []

def step (s : A.Composite child) : A.CompositeAct child → Option (A.Composite child)
  | .op a => if A.own a = true then (A.system.step s.op a).map s.launch else none
  | .child i p a =>
    (Started.state p (s.child i)).bind fun t =>
      if (child i p).asksToStop t a = true → A.asked s.op i = true then
        ((child i p).system.step t a).map fun t' =>
          { s with child := Function.update s.child i (some ⟨p, t'⟩) }
      else none
  | .complete i a =>
    if (results (s.child i)).any (A.completes i · a) = true then
      (A.system.step s.op a).map s.launch
    else none

def init : A.Composite child :=
  launch ⟨A.system.init, fun _ => none⟩ A.system.init

end Composite

/-- The operation with its children, as an operation that has none. -/
def compose (A : Adapter ι P R) (child : ι → P → Operation R) : Operation R where
  State := A.Composite child
  Act := A.CompositeAct child
  system := ⟨Composite.init, Composite.step⟩
  asksToStop s
    | .op a => A.asksToStop s.op a
    | _ => false
  spurious
    | .op a | .complete _ a => A.spurious a
    | .child i p a => (child i p).spurious a
  delivered s := A.delivered s.op
  outside
    | .child i p a => (child i p).outside a
    | _ => false
  pending s := ∃ i p t, s.child i = some ⟨p, t⟩ ∧ (child i p).pending t
  stopCalled s := A.stopCalled s.op
  unasked s := A.forwards = true ∧ ∃ i p t, s.child i = some ⟨p, t⟩ ∧ (child i p).unasked t
  neglected s := ∃ i p t, s.child i = some ⟨p, t⟩ ∧
    ((A.stopCalled s.op = true ∨ A.decided s.op) ∧ (child i p).unasked t ∨
      (child i p).neglected t)

/-! The parent and each child of a composition take part in a run of their own. -/

/-- What holds in every state of a composition whose children keep their promises. -/
structure Composed (admits : ι → P → Prop) (declared : ι → P → R → Prop) (s : A.Composite child) :
    Prop where
  op : A.Reaches admits declared s.op
  child : ∀ i p t, s.child i = some ⟨p, t⟩ → admits i p ∧ (child i p).system.Reachable t
  running : ∀ i, (A.running s.op i).isSome = true → (s.child i).isSome = true

variable {admits : ι → P → Prop} {declared : ι → P → R → Prop} {result : R → Prop}
  {s t : A.Composite child}

omit [DecidableEq ι] [DecidableEq P] in
theorem Composed.launch (hA : A.Safe admits declared result)
    (h : ∀ i p t, s.child i = some ⟨p, t⟩ → admits i p ∧ (child i p).system.Reachable t)
    {op : A.State} (hop : A.Reaches admits declared op) :
    Composed admits declared (s.launch op) where
  op := hop
  child := by
    intro i p t ht
    simp only [Composite.launch] at ht
    split at ht
    · next c hc =>
      cases ht
      exact h i p t hc
    · obtain ⟨q, hq, heq⟩ := Option.map_eq_some_iff.mp ht
      cases heq
      exact ⟨hA.params op hop i p hq, .init⟩
  running := by
    intro i hi
    simp only [Composite.launch]
    split
    · rfl
    · rwa [Option.isSome_map]

omit [DecidableEq ι] [DecidableEq P] in
theorem Composed.initial (hA : A.Safe admits declared result) :
    Composed admits declared (Composite.init : A.Composite child) := by
  refine Composed.launch hA ?_ .init
  intro i p t h
  cases h

theorem Composed.step (hA : A.Safe admits declared result)
    (hc : ∀ i p, admits i p → (child i p).Safe (declared i p)) (h : Composed admits declared s)
    {a : A.CompositeAct child} (ht : s.step a = some t) : Composed admits declared t := by
  cases a with
  | op a =>
    simp only [Composite.step] at ht
    split_ifs at ht with hown
    obtain ⟨op, hop, rfl⟩ := Option.map_eq_some_iff.mp ht
    exact .launch hA h.child (h.op.step (.inl hown) hop)
  | child i p a =>
    simp only [Composite.step] at ht
    obtain ⟨u, hu, ht⟩ := Option.bind_eq_some_iff.mp ht
    split_ifs at ht
    obtain ⟨u', hu', rfl⟩ := Option.map_eq_some_iff.mp ht
    have hchild := Started.eq_of_state hu
    obtain ⟨hadmits, hreach⟩ := h.child i p u hchild
    refine ⟨h.op, ?_, ?_⟩
    · intro j q v hv
      by_cases hj : j = i
      · subst hj
        simp only [Function.update_self] at hv
        cases hv
        exact ⟨hadmits, hreach.step trivial hu'⟩
      · simp only [Function.update_of_ne hj] at hv
        exact h.child j q v hv
    · intro j hrunning
      by_cases hj : j = i
      · subst hj
        simp only [Function.update_self, Option.isSome_some]
      · simp only [Function.update_of_ne hj]
        exact h.running j hrunning
  | complete i a =>
    simp only [Composite.step] at ht
    split_ifs at ht with hany
    obtain ⟨r, hr, hcompletes⟩ := List.any_eq_true.mp hany
    obtain ⟨op, hop, rfl⟩ := Option.map_eq_some_iff.mp ht
    refine .launch hA h.child (h.op.step (.inr ?_) hop)
    cases hstarted : s.child i with
    | none =>
      rw [hstarted] at hr
      cases hr
    | some c =>
      obtain ⟨p, u⟩ := c
      obtain ⟨hadmits, hreach⟩ := h.child i p u hstarted
      rw [hstarted] at hr
      exact ⟨i, p, r, hadmits, (hc i p hadmits).declares u hreach r hr, hcompletes⟩

theorem Composed.of_reachable (hA : A.Safe admits declared result)
    (hc : ∀ i p, admits i p → (child i p).Safe (declared i p))
    (hs : (compose A child).system.Reachable s) : Composed admits declared s :=
  hs.invariant (.initial hA) fun _ _ _ h _ ht => h.step hA hc ht

/-! A run of the composition ends: a step of the parent lowers its rank, and a step of a child
leaves the rank as it is and lowers that child's. -/

/-- The rank of a child, as far as it was started. -/
def childRank (rank : ∀ i p, (child i p).State → Ordinal.{0}) (i : ι) :
    Option (Started child i) → Ordinal.{0}
  | some ⟨p, t⟩ => rank i p t
  | none => 0

/-- The rank of the parent, and then those of the children. -/
def compositeRank (rank : A.State → ℕ) (ranks : ∀ i p, (child i p).State → Ordinal.{0})
    (s : A.Composite child) : ℕ ×ₗ (ι → Ordinal.{0}) :=
  toLex (rank s.op, fun i => childRank ranks i (s.child i))

omit [DecidableEq ι] [DecidableEq P] in
/-- A step that starts no child leaves the children as they are. -/
theorem Composed.launch_child (h : Composed admits declared s) {op : A.State}
    (hsame : ∀ i, (A.running op i).isSome = true → (A.running s.op i).isSome = true) :
    (s.launch op).child = s.child := by
  funext i
  simp only [Composite.launch]
  split
  · next c hc => exact hc.symm
  · next hc =>
    cases hrunning : A.running op i with
    | none => exact hc.symm
    | some p =>
      have hsome := h.running i (hsame i (by rw [hrunning]; rfl))
      rw [hc] at hsome
      cases hsome

omit [DecidableEq ι] [DecidableEq P] in
theorem Composed.launch_rank (h : Composed admits declared s) {rank : A.State → ℕ}
    (ranks : ∀ i p, (child i p).State → Ordinal.{0}) (hrank : A.Ranked admits declared rank)
    {a : A.Act} {op : A.State} (hop : A.system.step s.op a = some op) :
    compositeRank rank ranks (s.launch op) ≤ compositeRank rank ranks s ∧
      (A.spurious a = false →
        compositeRank rank ranks (s.launch op) < compositeRank rank ranks s) := by
  obtain ⟨hle, hsame⟩ := hrank s.op a op h.op hop
  unfold compositeRank
  rw [Prod.Lex.toLex_le_toLex, Prod.Lex.toLex_lt_toLex]
  change (rank op < rank s.op ∨ rank op = rank s.op ∧ _) ∧
    (_ → rank op < rank s.op ∨ rank op = rank s.op ∧ _)
  cases ha : A.spurious a with
  | false =>
    rw [ha] at hle
    have hlt : rank op < rank s.op := hle
    exact ⟨.inl hlt, fun _ => .inl hlt⟩
  | true =>
    rw [ha] at hle
    refine ⟨?_, fun h => by cases h⟩
    rcases lt_or_eq_of_le hle with hlt | heq
    · exact .inl hlt
    · refine .inr ⟨heq, ?_⟩
      rw [h.launch_child (hsame heq)]

omit [DecidableEq P] in
theorem Composed.child_rank {rank : A.State → ℕ} {ranks : ∀ i p, (child i p).State → Ordinal.{0}}
    {i : ι} {p : P} {u v : (child i p).State} (hu : s.child i = some ⟨p, u⟩)
    (hle : ranks i p v ≤ ranks i p u) {spurious : Prop}
    (hlt : spurious → ranks i p v < ranks i p u) :
    compositeRank rank ranks { s with child := Function.update s.child i (some ⟨p, v⟩) } ≤
        compositeRank rank ranks s ∧
      (spurious → compositeRank rank ranks
        { s with child := Function.update s.child i (some ⟨p, v⟩) } <
          compositeRank rank ranks s) := by
  have hchild : (fun j => childRank ranks j (Function.update s.child i (some ⟨p, v⟩) j)) ≤
      fun j => childRank ranks j (s.child j) := by
    intro j
    by_cases hj : j = i
    · subst hj
      simp only [Function.update_self, hu]
      exact hle
    · simp only [Function.update_of_ne hj, le_refl]
  unfold compositeRank
  rw [Prod.Lex.toLex_le_toLex, Prod.Lex.toLex_lt_toLex]
  refine ⟨.inr ⟨rfl, hchild⟩, fun ha => .inr ⟨rfl, Pi.lt_def.mpr ⟨hchild, i, ?_⟩⟩⟩
  simp only [Function.update_self, hu]
  exact hlt ha

/-- The composition has a rank. -/
theorem Composed.exists_rank [Finite ι] (hA : A.Safe admits declared result)
    (hc : ∀ i p, admits i p → (child i p).Safe (declared i p)) :
    ∃ rank : A.Composite child → Ordinal.{0}, (compose A child).Ranked rank := by
  obtain ⟨rank, hrank⟩ := hA.terminates
  have hranks : ∀ i p, ∃ rank : (child i p).State → Ordinal.{0},
      admits i p → (child i p).Ranked rank := by
    intro i p
    by_cases hp : admits i p
    · exact (hc i p hp).terminates.imp fun _ h _ => h
    · exact ⟨0, fun h => absurd h hp⟩
  choose ranks hranks using hranks
  have hranked : (compose A child).Ranked (compositeRank rank ranks) := by
    intro s a t hs ht
    have h := Composed.of_reachable hA hc hs
    change s.step a = some t at ht
    cases a with
    | op a =>
      simp only [Composite.step] at ht
      split_ifs at ht
      obtain ⟨op, hop, rfl⟩ := Option.map_eq_some_iff.mp ht
      exact h.launch_rank ranks hrank hop
    | complete i a =>
      simp only [Composite.step] at ht
      split_ifs at ht
      obtain ⟨op, hop, rfl⟩ := Option.map_eq_some_iff.mp ht
      exact h.launch_rank ranks hrank hop
    | child i p a =>
      simp only [Composite.step] at ht
      obtain ⟨u, hu, ht⟩ := Option.bind_eq_some_iff.mp ht
      split_ifs at ht
      obtain ⟨v, hv, rfl⟩ := Option.map_eq_some_iff.mp ht
      have hchild := Started.eq_of_state hu
      obtain ⟨hadmits, hreach⟩ := h.child i p u hchild
      obtain ⟨hle, hlt⟩ := hranks i p hadmits u a v hreach hv
      exact Composed.child_rank hchild hle hlt
  exact hranked.exists_ordinal

/-- An operation that is safe for safe children makes a safe composition with them. -/
theorem Safe.compose [Finite ι] (hA : A.Safe admits declared result)
    (hc : ∀ i p, admits i p → (child i p).Safe (declared i p)) :
    (A.compose child).Safe result where
  once := fun _ hs => hA.once _ (Composed.of_reachable hA hc hs).op
  declares := fun _ hs => hA.declares _ (Composed.of_reachable hA hc hs).op
  terminates := Composed.exists_rank hA hc

/-- Where the composition is stuck, so are its children. -/
theorem Composed.child_stuck (hstuck : (compose A child).Stuck s) {i : ι} {p : P}
    {t : (child i p).State} (ht : s.child i = some ⟨p, t⟩) : (child i p).Stuck t := by
  intro a ha
  have hnone : s.step (.child i p a) = none := hstuck (.child i p a) rfl
  simp only [Composite.step, ht, Started.state_some, Option.bind_some] at hnone
  rw [if_pos (by rw [ha]; exact fun h => by cases h)] at hnone
  exact Option.map_eq_none_iff.mp hnone

/-- If also every child that has to complete does, the composition does. -/
theorem Ends.compose (hA : A.Safe admits declared result) (hends : A.Ends admits declared)
    (hc : ∀ i p, admits i p → (child i p).Safe (declared i p))
    (hchild : ∀ i p, admits i p → (child i p).Ends) : (A.compose child).Ends := by
  intro s hs hstuck
  have h := Composed.of_reachable hA hc hs
  refine hends.ends s.op h.op ?_ ?_
  · intro a hown ha
    have hnone : s.step (.op a) = none := hstuck (.op a) ha
    simp only [Composite.step] at hnone
    rw [if_pos hown] at hnone
    exact Option.map_eq_none_iff.mp hnone
  · intro i
    by_contra hrunning
    have hsome : (A.running s.op i).isSome = true := Option.isSome_iff_ne_none.mpr hrunning
    obtain ⟨⟨p, t⟩, ht⟩ := Option.isSome_iff_exists.mp (h.running i hsome)
    obtain ⟨hadmits, hreach⟩ := h.child i p t ht
    have hne := hchild i p hadmits t hreach (Composed.child_stuck hstuck ht)
    obtain ⟨r, hr⟩ := List.exists_mem_of_ne_nil _ hne
    obtain ⟨a, hcompletes, hstep⟩ := hends.accepts s.op h.op i hsome p r hadmits
      ((hc i p hadmits).declares t hreach r hr)
    -- the child has completed, so its parent could be told
    have hnone : s.step (.complete i a) = none := hstuck (.complete i a) rfl
    simp only [Composite.step, ht, Composite.results] at hnone
    rw [if_pos (List.any_eq_true.mpr ⟨r, hr, hcompletes⟩)] at hnone
    rw [Option.map_eq_none_iff.mp hnone] at hstep
    cases hstep

end Composition
end Adapter
end Squiz.Lib
