import Squiz.CountingScope.Spawn

/-! When the memory of `spawn()` is released before the join operation is executed, and that every
block is deallocated once. -/
namespace Squiz.CountingScope
open Squiz.Lib Squiz.Lib.Word

namespace RefPlace
variable {p q : RefPlace} {i j : CallId}

theorem index_lt (p : RefPlace) : p.index < 5 := by
  cases p <;> simp [index]

theorem index_inj (h : p.index = q.index) : p = q := by
  cases p <;> cases q <;> first | rfl | cases h

theorem ref_inj : p.ref i = q.ref j ↔ i = j ∧ p = q := by
  constructor
  · intro h
    have hp := p.index_lt
    have hq := q.index_lt
    have h : (5 * i + p.index : ℕ) = (5 * j + q.index : ℕ) := h
    have hij : @Eq ℕ i j := by omega
    exact ⟨hij, index_inj (by omega)⟩
  · rintro ⟨rfl, rfl⟩
    rfl

end RefPlace

namespace SpawnPc

/-- The object that holds the valid reference of the call. -/
def place : SpawnPc → Option RefPlace
  | callSpawn => some .token
  | allocate | callCtor => some .spawnOp
  | connect | initMembers => some .ctor
  | start | running | moveRef => some .member
  | destroyOp | deallocate => some .destroy
  | dropRef e => some e.place
  | notCalled | tryGet | executeJoin _ | freeMemory | refused | threw | completed => none

/-- A constructor has thrown and its parameter has dropped the reference, but `ptr` has not yet
deallocated the memory. -/
def unwinding : SpawnPc → Bool
  | executeJoin .connectThrew | freeMemory => true
  | _ => false

/-- Nothing is left to do. -/
def ended : SpawnPc → Bool
  | refused | threw | completed => true
  | _ => false

/-- Waits for the load of the state, for `compare_exchange_weak`, or for the launched operation. -/
def waiting : SpawnPc → Bool
  | notCalled | tryGet | running => true
  | _ => false

end SpawnPc

/-- What the program counter says about the memory. -/
def Spawn.Ok (spawn : Spawn) : Prop :=
  match spawn.pc with
  | .callCtor | .connect | .initMembers | .dropRef .connectThrew | .executeJoin .connectThrew
  | .freeMemory => spawn.allocations = 1 ∧ spawn.constructed = false ∧ spawn.deallocations = 0
  | .start | .running | .moveRef | .destroyOp =>
    spawn.allocations = 1 ∧ spawn.constructed = true ∧ spawn.deallocations = 0
  | .deallocate => spawn.allocations = 1 ∧ spawn.constructed = false ∧ spawn.deallocations = 0
  | .dropRef .destroyed | .executeJoin .destroyed | .completed =>
    spawn.allocations = 1 ∧ spawn.constructed = false ∧ spawn.deallocations = 1
  | .threw =>
    spawn.allocations ≤ 1 ∧ spawn.constructed = false ∧ spawn.deallocations = spawn.allocations
  | .notCalled | .tryGet | .callSpawn | .allocate | .dropRef .allocateThrew
  | .executeJoin .allocateThrew | .refused =>
    spawn.allocations = 0 ∧ spawn.constructed = false ∧ spawn.deallocations = 0

/-- Nothing is left of the memory. -/
def Spawn.Released (spawn : Spawn) : Prop :=
  spawn.constructed = false ∧ spawn.deallocations = spawn.allocations

theorem Spawn.Ok.released {spawn : Spawn} (h : spawn.Ok) (hplace : spawn.pc.place = none)
    (hunwinding : spawn.pc.unwinding = false) : spawn.Released := by
  unfold Spawn.Ok at h
  unfold Released
  cases hpc : spawn.pc with
  | executeJoin e =>
    rw [hpc] at h hunwinding
    cases e with
    | connectThrew => cases hunwinding
    | allocateThrew | destroyed =>
      obtain ⟨ha, hc, hd⟩ := h
      exact ⟨hc, hd.trans ha.symm⟩
  | freeMemory =>
    rw [hpc] at hunwinding
    cases hunwinding
  | threw =>
    rw [hpc] at h
    exact h.2
  | notCalled | tryGet | refused | completed =>
    rw [hpc] at h
    obtain ⟨ha, hc, hd⟩ := h
    exact ⟨hc, hd.trans ha.symm⟩
  | _ =>
    rw [hpc] at hplace
    cases hplace

theorem Spawn.Ok.dropRef {spawn : Spawn} {e : Exit} (h : spawn.Ok) (hpc : spawn.pc = .dropRef e) :
    ({ spawn with pc := .executeJoin e } : Spawn).Ok ∧
      ({ spawn with pc := e.next } : Spawn).Ok := by
  unfold Spawn.Ok at h
  rw [hpc] at h
  cases e with
  | allocateThrew =>
    obtain ⟨ha, hc, hd⟩ := h
    exact ⟨⟨ha, hc, hd⟩, ha.le.trans zero_le_one, hc, hd.trans ha.symm⟩
  | connectThrew | destroyed => exact ⟨h, h⟩

theorem Spawn.Ok.executeJoin {spawn : Spawn} {e : Exit} (h : spawn.Ok)
    (hpc : spawn.pc = .executeJoin e) : ({ spawn with pc := e.next } : Spawn).Ok := by
  unfold Spawn.Ok at h
  rw [hpc] at h
  cases e with
  | allocateThrew =>
    obtain ⟨ha, hc, hd⟩ := h
    exact ⟨ha.le.trans zero_le_one, hc, hd.trans ha.symm⟩
  | connectThrew | destroyed => exact h

theorem Exit.next_place (e : Exit) : e.next.place = none := by
  cases e <;> rfl

theorem Exit.next_ne (e e' : Exit) : e.next ≠ .executeJoin e' := by
  cases e <;> nofun

theorem Spawn.Ok.bounds {spawn : Spawn} (h : spawn.Ok) :
    spawn.allocations ≤ 1 ∧ spawn.deallocations ≤ spawn.allocations := by
  unfold Spawn.Ok at h
  split at h <;> omega

namespace Scope
variable {s t : Scope} {r src dst : Ref} {c : CallId} {spurious : Bool}

/-! What the steps of the scope that a spawn takes do. -/

theorem step_move (ht : s.step (.move src dst) = some t) :
    src ∈ s.refs ∧ dst ∉ s.refs ∧ t = { s with refs := insert dst (s.refs.erase src) } := by
  simp only [step] at ht
  split_ifs at ht with h
  cases ht
  exact ⟨h.1, h.2, rfl⟩

theorem step_reset (ht : s.step (.reset r) = some t) :
    r ∈ s.refs ∧ t = { s.decrementRefCount with refs := s.refs.erase r } := by
  simp only [step] at ht
  split_ifs at ht with h
  cases ht
  exact ⟨h, rfl⟩

theorem step_execute (ht : s.step .execute = some t) : 0 < s.pending ∧
    t = { s with
      pending := s.pending - 1
      executed := s.executed + 1
      fault := s.fault || !s.joinOp } := by
  simp only [step] at ht
  split_ifs at ht with h
  cases ht
  exact ⟨h, rfl⟩

/-- Only the call of the join operation counts as its execution, only the last decrement decides on
it, and the loads, the exchanges and `close` add one reference at most. -/
theorem step_exchange (ht : s.step (.exchange c r spurious) = some t) :
    (t.pending = s.pending ∧ t.executed = s.executed) ∧
      ((t.calls c = .returned (some r) ∧ r ∉ s.refs ∧ t.refs = insert r s.refs) ∨
        ((∀ ref, t.calls c ≠ .returned (some ref)) ∧ t.refs = s.refs)) := by
  simp only [step] at ht
  split at ht
  · split_ifs at ht with hcas hfree
    · cases ht
      exact ⟨⟨rfl, rfl⟩, .inl ⟨Function.update_self .., hfree.1, rfl⟩⟩
    · cases ht
      refine ⟨⟨rfl, rfl⟩, .inr ⟨fun ref => ?_, rfl⟩⟩
      simp only [Function.update_self]
      unfold enterLoop
      split_ifs <;> simp
  · cases ht

theorem step_tryGet (ht : s.step (.tryGet c) = some t) :
    (t.pending = s.pending ∧ t.executed = s.executed) ∧
      (∀ ref, t.calls c ≠ .returned (some ref)) ∧ t.refs = s.refs := by
  simp only [step] at ht
  split_ifs at ht
  cases ht
  refine ⟨⟨rfl, rfl⟩, fun ref => ?_, rfl⟩
  simp only [Function.update_self]
  unfold enterLoop
  split_ifs <;> simp

end Scope

namespace Spawning
variable {s t : Spawning} {i : CallId} {a : SpawnAct} {throws : Bool}

/-- `start_join` or the call of `spawn()` is about to execute the join operation. -/
def Executing (s : Spawning) : Option CallId → Prop
  | none => s.join = .executeJoin
  | some i => ∃ e, (s.spawns i).pc = .executeJoin e

structure Inv (s : Spawning) : Prop where
  scope : s.scope.Inv
  refs : ∀ i p, RefPlace.ref p i ∈ s.scope.refs ↔ (s.spawns i).pc.place = some p
  block : ∀ i, (s.spawns i).Ok
  pending : ∀ x, s.Executing x → s.scope.pending = 1
  oneExecutes : ∀ x y, s.Executing x → s.Executing y → x = y

theorem Inv.init : ({} : Spawning).Inv where
  scope := Scope.Inv.initial
  refs i p := iff_of_false (Finset.notMem_empty _) nofun
  block i := ⟨rfl, rfl, rfl⟩
  pending x hx := by
    cases x with
    | none => cases hx
    | some i =>
      obtain ⟨e, he⟩ := hx
      cases he
  oneExecutes x y hx := by
    cases x with
    | none => cases hx
    | some i =>
      obtain ⟨e, he⟩ := hx
      cases he

/-- The references after one of a call has moved, was added or was dropped. -/
theorem Inv.refs_update (hi : s.Inv) {spawn : Spawn} {refs : Finset Ref}
    (hself : ∀ p, RefPlace.ref p i ∈ refs ↔ spawn.pc.place = some p)
    (hother : ∀ j p, j ≠ i → (RefPlace.ref p j ∈ refs ↔ RefPlace.ref p j ∈ s.scope.refs))
    (j : CallId) (p : RefPlace) :
    RefPlace.ref p j ∈ refs ↔ (Function.update s.spawns i spawn j).pc.place = some p := by
  by_cases hj : j = i
  · subst hj
    rw [hself, Function.update_self]
  · rw [hother j p hj, hi.refs, Function.update_of_ne hj]

theorem Inv.block_update (hi : s.Inv) {spawn : Spawn} (hok : spawn.Ok) (j : CallId) :
    (Function.update s.spawns i spawn j).Ok := by
  by_cases hj : j = i
  · subst hj
    rwa [Function.update_self]
  · rw [Function.update_of_ne hj]
    exact hi.block j

/-- A step of a call that leaves the pending execution of the join operation alone. -/
theorem Inv.spawnStep (hi : s.Inv) {scope : Scope} {spawn : Spawn} (hscope : scope.Inv)
    (hpending : scope.pending = s.scope.pending)
    (hself : ∀ p, RefPlace.ref p i ∈ scope.refs ↔ spawn.pc.place = some p)
    (hother : ∀ j p, j ≠ i → (RefPlace.ref p j ∈ scope.refs ↔ RefPlace.ref p j ∈ s.scope.refs))
    (hok : spawn.Ok) (hnot : ∀ e, spawn.pc ≠ .executeJoin e) :
    Inv { s.setSpawn i spawn with scope := scope } := by
  have hbefore : ∀ x, Executing { s.setSpawn i spawn with scope := scope } x → s.Executing x := by
    intro x hx
    cases x with
    | none => exact hx
    | some j =>
      obtain ⟨e, he⟩ := hx
      by_cases hj : j = i
      · subst hj
        simp only [setSpawn, Function.update_self] at he
        exact absurd he (hnot e)
      · simp only [setSpawn, Function.update_of_ne hj] at he
        exact ⟨e, he⟩
  exact
    { scope := hscope
      refs := hi.refs_update hself hother
      block := hi.block_update hok
      pending := fun x hx => hpending.trans (hi.pending x (hbefore x hx))
      oneExecutes := fun x y hx hy => hi.oneExecutes x y (hbefore x hx) (hbefore y hy) }

/-- A step of a call that does not touch the scope. -/
theorem Inv.localStep (hi : s.Inv) {spawn : Spawn}
    (hplace : spawn.pc.place = (s.spawns i).pc.place) (hok : spawn.Ok)
    (hnot : ∀ e, spawn.pc ≠ .executeJoin e) : (s.setSpawn i spawn).Inv :=
  hi.spawnStep hi.scope rfl (fun p => by rw [hi.refs, hplace]) (fun _ _ _ => Iff.rfl) hok hnot

theorem Inv.moveRefStep (hi : s.Inv) {src dst : RefPlace} {spawn : Spawn}
    (ht : s.moveRef i src dst spawn = some t) (hdst : spawn.pc.place = some dst)
    (hok : spawn.Ok) (hnot : ∀ e, spawn.pc ≠ .executeJoin e) : t.Inv := by
  obtain ⟨scope, hscope, rfl⟩ := Option.map_eq_some_iff.mp ht
  obtain ⟨hsrc, -, heq⟩ := Scope.step_move hscope
  have hplace : (s.spawns i).pc.place = some src := (hi.refs i src).mp hsrc
  refine hi.spawnStep (hi.scope.step _ hscope) (by rw [heq]) (fun p => ?_) (fun j p hj => ?_) hok
    hnot
  · rw [heq, hdst, Finset.mem_insert, Finset.mem_erase, RefPlace.ref_inj, hi.refs, hplace,
      Ne, RefPlace.ref_inj]
    simp only [true_and, Option.some.injEq]
    constructor
    · rintro (rfl | ⟨hp, hp'⟩)
      · rfl
      · exact absurd hp'.symm hp
    · rintro rfl
      exact .inl rfl
  · rw [heq, Finset.mem_insert, Finset.mem_erase, RefPlace.ref_inj, Ne, RefPlace.ref_inj]
    simp [hj]

/-- Nobody executes the join operation while a reference is left. -/
theorem Inv.not_executing (hi : s.Inv) (hleft : ¬ Drained s.scope.join s.scope.refs)
    (x : Option CallId) : ¬ s.Executing x := by
  intro hx
  have hpending := hi.pending x hx
  have hdecided := hi.scope.decided
  rw [if_neg hleft] at hdecided
  omega

/-- The last decrement, by the only one that then executes the join operation. -/
theorem Inv.lastDecrement {x : Option CallId} (hscope : t.scope.Inv)
    (hrefs : ∀ i p, RefPlace.ref p i ∈ t.scope.refs ↔ (t.spawns i).pc.place = some p)
    (hblock : ∀ i, (t.spawns i).Ok) (hpending : t.scope.pending = 1)
    (hexecuting : ∀ y, t.Executing y → y = x) : t.Inv where
  scope := hscope
  refs := hrefs
  block := hblock
  pending _ _ := hpending
  oneExecutes y z hy hz := (hexecuting y hy).trans (hexecuting z hz).symm

/-- The references of call `i` after it has dropped its own. -/
theorem Inv.refs_erase (hi : s.Inv) {p : RefPlace} (hplace : (s.spawns i).pc.place = some p)
    (j : CallId) (q : RefPlace) : RefPlace.ref q j ∈ s.scope.refs.erase (p.ref i) ↔
      j ≠ i ∧ RefPlace.ref q j ∈ s.scope.refs := by
  rw [Finset.mem_erase, Ne, RefPlace.ref_inj]
  constructor
  · rintro ⟨hne, hmem⟩
    refine ⟨?_, hmem⟩
    rintro rfl
    rw [hi.refs, hplace] at hmem
    cases hmem
    exact hne ⟨rfl, rfl⟩
  · rintro ⟨hne, hmem⟩
    exact ⟨fun h => hne h.1, hmem⟩

theorem Inv.dropRefStep (hi : s.Inv) {e : Exit} (hpc : (s.spawns i).pc = .dropRef e)
    (ht : s.next i throws = some t) : t.Inv := by
  simp only [next, hpc] at ht
  obtain ⟨scope, hscope, rfl⟩ := Option.map_eq_some_iff.mp ht
  have hinv : scope.Inv := hi.scope.step _ hscope
  obtain ⟨hmem, rfl⟩ := Scope.step_reset hscope
  have hplace : (s.spawns i).pc.place = some e.place := by rw [hpc]; rfl
  obtain ⟨hexecute, hnext⟩ := (hi.block i).dropRef hpc
  have hself : ∀ p, RefPlace.ref p i ∈ s.scope.refs.erase (e.place.ref i) ↔ none = some p := by
    intro p
    rw [hi.refs_erase hplace]
    simp
  have hother : ∀ j p, j ≠ i → (RefPlace.ref p j ∈ s.scope.refs.erase (e.place.ref i) ↔
      RefPlace.ref p j ∈ s.scope.refs) := by
    intro j p hj
    rw [hi.refs_erase hplace]
    simp [hj]
  by_cases hlast : s.scope.word < 2 * refCountIncrement
  · have hlastRef : s.lastRef = true := decide_eq_true hlast
    rw [hlastRef, if_pos rfl]
    have hleft : ¬ Drained s.scope.join s.scope.refs :=
      fun h => Finset.ne_empty_of_mem hmem h.2
    have hdecided := hi.scope.decided
    rw [if_neg hleft] at hdecided
    refine Inv.lastDecrement (x := some i) hinv (hi.refs_update hself hother)
      (hi.block_update hexecute) ?_ ?_
    · show (if s.scope.word < 2 * refCountIncrement then _ else _) = 1
      rw [if_pos hlast]
      omega
    · intro y hy
      by_contra hne
      refine hi.not_executing hleft y ?_
      cases y with
      | none => exact hy
      | some j =>
        have hj : j ≠ i := fun h => hne (congrArg some h)
        obtain ⟨e', he'⟩ := hy
        simp only [setPc, setSpawn, Function.update_of_ne hj] at he'
        exact ⟨e', he'⟩
  · have hlastRef : s.lastRef = false := decide_eq_false hlast
    rw [hlastRef, if_neg (by simp)]
    refine hi.spawnStep hinv (if_neg hlast) (fun p => ?_) hother hnext e.next_ne
    rw [hself, e.next_place]

/-- The join operation has been executed: nobody is about to. -/
theorem Inv.executed (hi : s.Inv) (hscope : t.scope.Inv)
    (hrefs : ∀ i p, RefPlace.ref p i ∈ t.scope.refs ↔ (t.spawns i).pc.place = some p)
    (hblock : ∀ i, (t.spawns i).Ok) {x : Option CallId} (hx : s.Executing x)
    (hexecuting : ∀ y, t.Executing y → y ≠ x ∧ s.Executing y) : t.Inv where
  scope := hscope
  refs := hrefs
  block := hblock
  pending y hy := absurd (hi.oneExecutes y x (hexecuting y hy).2 hx) (hexecuting y hy).1
  oneExecutes y _ hy := absurd (hi.oneExecutes y x (hexecuting y hy).2 hx) (hexecuting y hy).1

theorem Inv.executeJoinStep (hi : s.Inv) {e : Exit} (hpc : (s.spawns i).pc = .executeJoin e)
    (ht : s.next i throws = some t) : t.Inv := by
  simp only [next, hpc] at ht
  obtain ⟨scope, hscope, rfl⟩ := Option.map_eq_some_iff.mp ht
  have hinv : scope.Inv := hi.scope.step _ hscope
  obtain ⟨-, rfl⟩ := Scope.step_execute hscope
  have hplace : (s.spawns i).pc.place = none := by rw [hpc]; rfl
  have hself : ∀ p, RefPlace.ref p i ∈ s.scope.refs ↔ e.next.place = some p := by
    intro p
    rw [hi.refs, hplace, e.next_place]
  refine hi.executed (x := some i) hinv (hi.refs_update hself fun _ _ _ => Iff.rfl)
    (hi.block_update ((hi.block i).executeJoin hpc)) ⟨e, hpc⟩ fun y hy => ?_
  cases y with
  | none => exact ⟨nofun, hy⟩
  | some j =>
    obtain ⟨e', he'⟩ := hy
    by_cases hj : j = i
    · subst hj
      simp only [setPc, setSpawn, Function.update_self] at he'
      exact absurd he' (e.next_ne e')
    · simp only [setPc, setSpawn, Function.update_of_ne hj] at he'
      exact ⟨fun h => hj (Option.some.inj h), e', he'⟩

theorem Inv.nextStep (hi : s.Inv) (ht : s.next i throws = some t) : t.Inv := by
  have hok := hi.block i
  unfold Spawn.Ok at hok
  cases hpc : (s.spawns i).pc with
  | dropRef e => exact hi.dropRefStep hpc ht
  | executeJoin e => exact hi.executeJoinStep hpc ht
  | callSpawn | callCtor | moveRef =>
    simp only [next, hpc] at ht
    rw [hpc] at hok
    exact hi.moveRefStep ht rfl hok nofun
  | initMembers =>
    simp only [next, hpc] at ht
    rw [hpc] at hok
    exact hi.moveRefStep ht rfl ⟨hok.1, rfl, hok.2.2⟩ nofun
  | allocate =>
    simp only [next, hpc] at ht
    rw [hpc] at hok
    obtain ⟨ha, hc, hd⟩ := hok
    split_ifs at ht
    · cases ht
      exact hi.localStep (by rw [hpc]; rfl) ⟨ha, hc, hd⟩ nofun
    · cases ht
      exact hi.localStep (by rw [hpc]; rfl) ⟨congrArg (· + 1) ha, hc, hd⟩ nofun
  | connect =>
    simp only [next, hpc] at ht
    rw [hpc] at hok
    split_ifs at ht
    · cases ht
      exact hi.localStep (by rw [hpc]; rfl) hok nofun
    · cases ht
      exact hi.localStep (by rw [hpc]; rfl) hok nofun
  | start =>
    simp only [next, hpc] at ht
    rw [hpc] at hok
    cases ht
    exact hi.localStep (by rw [hpc]; rfl) hok nofun
  | destroyOp =>
    simp only [next, hpc] at ht
    rw [hpc] at hok
    cases ht
    exact hi.localStep (by rw [hpc]; rfl) ⟨hok.1, rfl, hok.2.2⟩ nofun
  | deallocate =>
    simp only [next, hpc] at ht
    rw [hpc] at hok
    obtain ⟨ha, hc, hd⟩ := hok
    cases ht
    exact hi.localStep (by rw [hpc]; rfl) ⟨ha, hc, congrArg (· + 1) hd⟩ nofun
  | freeMemory =>
    simp only [next, hpc] at ht
    rw [hpc] at hok
    obtain ⟨ha, hc, hd⟩ := hok
    cases ht
    exact hi.localStep (by rw [hpc]; rfl) ⟨ha.le, hc, (congrArg (· + 1) hd).trans ha.symm⟩ nofun
  | notCalled | tryGet | running | refused | threw | completed =>
    simp only [next, hpc] at ht
    cases ht

theorem afterGet_of_not_returned {call : Call} (h : ∀ ref, call ≠ .returned (some ref)) :
    afterGet call = .tryGet ∨ afterGet call = .refused := by
  cases call with
  | idle | exchange v => exact .inl rfl
  | returned ref =>
    cases ref with
    | none => exact .inr rfl
    | some ref => exact absurd rfl (h ref)

/-- The state was loaded and no reference obtained. -/
theorem Inv.notGot (hi : s.Inv) {scope : Scope} (hscope : scope.Inv)
    (hpending : scope.pending = s.scope.pending) (hrefs : scope.refs = s.scope.refs)
    (hpc : (s.spawns i).pc = .notCalled ∨ (s.spawns i).pc = .tryGet)
    (hcall : ∀ ref, scope.calls i ≠ .returned (some ref)) :
    Inv { s.setPc i (afterGet (scope.calls i)) with scope := scope } := by
  have hplace : (s.spawns i).pc.place = none := by rcases hpc with h | h <;> rw [h] <;> rfl
  have hok := hi.block i
  unfold Spawn.Ok at hok
  have hok : (s.spawns i).allocations = 0 ∧ (s.spawns i).constructed = false ∧
      (s.spawns i).deallocations = 0 := by
    rcases hpc with h | h <;> rw [h] at hok <;> exact hok
  rcases afterGet_of_not_returned hcall with h | h <;> rw [h]
  · refine hi.spawnStep hscope hpending (fun p => ?_) (fun _ _ _ => by rw [hrefs]) hok nofun
    rw [hrefs, hi.refs, hplace]
    rfl
  · refine hi.spawnStep hscope hpending (fun p => ?_) (fun _ _ _ => by rw [hrefs]) hok nofun
    rw [hrefs, hi.refs, hplace]
    rfl

theorem Inv.exchangeStep (hi : s.Inv) {spurious : Bool}
    (ht : s.step (.exchange i spurious) = some t) : t.Inv := by
  simp only [step] at ht
  split_ifs at ht with hpc
  obtain ⟨scope, hscope, rfl⟩ := Option.map_eq_some_iff.mp ht
  have hinv : scope.Inv := hi.scope.step _ hscope
  obtain ⟨⟨hpending, -⟩, ⟨hcall, -, hrefs⟩ | ⟨hcall, hrefs⟩⟩ := Scope.step_exchange hscope
  · have hok := hi.block i
    unfold Spawn.Ok at hok
    rw [hpc] at hok
    have hplace : (s.spawns i).pc.place = none := by rw [hpc]; rfl
    rw [hcall]
    refine hi.spawnStep hinv hpending (fun p => ?_) (fun j p hj => ?_) hok nofun
    · rw [hrefs, Finset.mem_insert, RefPlace.ref_inj, hi.refs, hplace]
      simp only [reduceCtorEq, or_false, true_and, afterGet, SpawnPc.place, Option.some.injEq]
      exact eq_comm
    · rw [hrefs, Finset.mem_insert, RefPlace.ref_inj]
      simp [hj]
  · exact hi.notGot hinv hpending hrefs (.inr hpc) hcall

/-- A step of the scope that is no step of a call of `spawn()`. -/
theorem Inv.scopeStep (hi : s.Inv) {scope : Scope} {join : JoinPc} (hscope : scope.Inv)
    (hpending : scope.pending = s.scope.pending) (hrefs : scope.refs = s.scope.refs)
    (hjoin : join = .executeJoin → s.join = .executeJoin) :
    Inv { s with scope := scope, join := join } := by
  have hbefore : ∀ x, Executing { s with scope := scope, join := join } x → s.Executing x := by
    intro x hx
    cases x with
    | none => exact hjoin hx
    | some j => exact hx
  exact
    { scope := hscope
      refs := fun i p => by rw [hrefs, hi.refs]
      block := hi.block
      pending := fun x hx => hpending.trans (hi.pending x (hbefore x hx))
      oneExecutes := fun x y hx hy => hi.oneExecutes x y (hbefore x hx) (hbefore y hy) }

theorem Inv.joinStep (hi : s.Inv) (ht : s.joinStep = some t) : t.Inv := by
  cases hpc : s.join with
  | done =>
    simp only [Spawning.joinStep, hpc] at ht
    cases ht
  | notCalled =>
    simp only [Spawning.joinStep, hpc] at ht
    obtain ⟨scope, hscope, rfl⟩ := Option.map_eq_some_iff.mp ht
    have hinv : scope.Inv := hi.scope.step _ hscope
    simp only [Scope.step] at hscope
    split_ifs at hscope
    cases hscope
    exact hi.scopeStep hinv rfl rfl (by simp)
  | decrement =>
    simp only [Spawning.joinStep, hpc] at ht
    obtain ⟨scope, hscope, rfl⟩ := Option.map_eq_some_iff.mp ht
    have hinv : scope.Inv := hi.scope.step _ hscope
    simp only [Scope.step] at hscope
    split_ifs at hscope with hstored
    cases hscope
    have hleft : ¬ Drained s.scope.join s.scope.refs := by
      rintro ⟨hjoin, -⟩
      rw [hstored] at hjoin
      cases hjoin
    by_cases hlast : s.scope.word < 2 * refCountIncrement
    · have hlastRef : s.lastRef = true := decide_eq_true hlast
      rw [hlastRef, if_pos rfl]
      have hdecided := hi.scope.decided
      rw [if_neg hleft] at hdecided
      refine Inv.lastDecrement (x := none) hinv hi.refs hi.block ?_ fun y hy => ?_
      · show (if s.scope.word < 2 * refCountIncrement then _ else _) = 1
        rw [if_pos hlast]
        omega
      · cases y with
        | none => rfl
        | some j => exact absurd hy (hi.not_executing hleft (some j))
    · have hlastRef : s.lastRef = false := decide_eq_false hlast
      rw [hlastRef, if_neg (by simp)]
      exact hi.scopeStep hinv (if_neg hlast) rfl (by simp)
  | executeJoin =>
    simp only [Spawning.joinStep, hpc] at ht
    obtain ⟨scope, hscope, rfl⟩ := Option.map_eq_some_iff.mp ht
    have hinv : scope.Inv := hi.scope.step _ hscope
    obtain ⟨-, rfl⟩ := Scope.step_execute hscope
    refine hi.executed (x := none) hinv hi.refs hi.block hpc fun y hy => ?_
    cases y with
    | none => cases hy
    | some j => exact ⟨by simp, hy⟩

theorem Inv.step (hi : s.Inv) (ht : s.step a = some t) : t.Inv := by
  cases a with
  | next i throws => exact hi.nextStep ht
  | exchange i spurious => exact hi.exchangeStep ht
  | join => exact hi.joinStep ht
  | call i =>
    simp only [Spawning.step] at ht
    split_ifs at ht with hpc
    obtain ⟨scope, hscope, rfl⟩ := Option.map_eq_some_iff.mp ht
    obtain ⟨⟨hpending, -⟩, hcall, hrefs⟩ := Scope.step_tryGet hscope
    exact hi.notGot (hi.scope.step _ hscope) hpending hrefs (.inl hpc) hcall
  | complete i =>
    simp only [Spawning.step] at ht
    split_ifs at ht with hpc
    cases ht
    have hok := hi.block i
    unfold Spawn.Ok at hok
    rw [hpc] at hok
    exact hi.localStep (by rw [hpc]; rfl) hok nofun
  | close =>
    simp only [Spawning.step] at ht
    obtain ⟨scope, hscope, rfl⟩ := Option.map_eq_some_iff.mp ht
    have hinv : scope.Inv := hi.scope.step _ hscope
    cases hscope
    exact hi.scopeStep hinv rfl rfl id

/-! When the join operation is executed. -/

/-- The step that calls `join_op_->execute(join_op_)`. -/
def executesJoin (s : Spawning) : SpawnAct → Prop
  | .next i _ => s.Executing (some i)
  | .join => s.Executing none
  | _ => False

/-- The join operation is executed while no `spawn()` whose constructor threw is between dropping
its reference and deallocating its memory. -/
def JoinsInOrder (s : Spawning) (a : SpawnAct) : Prop :=
  s.executesJoin a → ∀ i, (s.spawns i).pc.unwinding = false

/-- What is left of the operation-states that were allocated. -/
structure Clean (s : Spawning) : Prop where
  /-- once the join operation is executed, nothing -/
  atJoin : 0 < s.scope.executed → ∀ i, (s.spawns i).Released
  /-- nothing, nor a reference, of a call that has thrown or whose operation has completed -/
  atEnd : ∀ i, (s.spawns i).pc.ended = true →
    (s.spawns i).Released ∧ ∀ p, RefPlace.ref p i ∉ s.scope.refs
  /-- blocks are deallocated once -/
  once : ∀ i, (s.spawns i).allocations ≤ 1 ∧
    (s.spawns i).deallocations ≤ (s.spawns i).allocations
  /-- a call that does not wait comes to its end -/
  goesOn : ∀ i, (s.spawns i).pc.ended = false → (s.spawns i).pc.waiting = false →
    ∀ throws, (s.next i throws).isSome = true

theorem Inv.place_eq_none (hi : s.Inv) (hdrained : Drained s.scope.join s.scope.refs) (i : CallId) :
    (s.spawns i).pc.place = none := by
  cases hplace : (s.spawns i).pc.place with
  | none => rfl
  | some p =>
    have hmem := (hi.refs i p).mpr hplace
    rw [hdrained.2] at hmem
    exact absurd hmem (Finset.notMem_empty _)

theorem Inv.drained (hi : s.Inv) (h : 0 < s.scope.pending + s.scope.executed) :
    Drained s.scope.join s.scope.refs := by
  by_contra hleft
  have hdecided := hi.scope.decided
  rw [if_neg hleft] at hdecided
  omega

/-- Only the unwinding of a constructor leads into the unwinding of `spawn()`, and only the call of
the join operation counts as its execution. -/
theorem next_frame (ht : s.next i throws = some t) :
    (∃ spawn, t.spawns = Function.update s.spawns i spawn ∧
      (spawn.pc.unwinding = true → (s.spawns i).pc.unwinding = true ∨
        (s.spawns i).pc = .dropRef .connectThrew)) ∧
      ((∃ e, (s.spawns i).pc = .executeJoin e) ∨ t.scope.executed = s.scope.executed) := by
  cases hpc : (s.spawns i).pc with
  | dropRef e =>
    simp only [next, hpc] at ht
    obtain ⟨scope, hscope, rfl⟩ := Option.map_eq_some_iff.mp ht
    obtain ⟨-, rfl⟩ := Scope.step_reset hscope
    refine ⟨⟨_, rfl, fun h => ?_⟩, .inr rfl⟩
    cases e with
    | connectThrew => exact .inr rfl
    | allocateThrew | destroyed => split_ifs at h <;> cases h
  | executeJoin e =>
    simp only [next, hpc] at ht
    obtain ⟨scope, -, rfl⟩ := Option.map_eq_some_iff.mp ht
    refine ⟨⟨_, rfl, fun h => ?_⟩, .inl ⟨e, rfl⟩⟩
    cases e with
    | connectThrew => exact .inl rfl
    | allocateThrew | destroyed => cases h
  | callSpawn | callCtor | initMembers | moveRef =>
    simp only [next, hpc] at ht
    obtain ⟨scope, hscope, rfl⟩ := Option.map_eq_some_iff.mp ht
    obtain ⟨-, -, rfl⟩ := Scope.step_move hscope
    exact ⟨⟨_, rfl, nofun⟩, .inr rfl⟩
  | allocate | connect =>
    simp only [next, hpc] at ht
    split_ifs at ht <;> cases ht <;> exact ⟨⟨_, rfl, nofun⟩, .inr rfl⟩
  | start | destroyOp | deallocate | freeMemory =>
    simp only [next, hpc] at ht
    cases ht
    exact ⟨⟨_, rfl, nofun⟩, .inr rfl⟩
  | notCalled | tryGet | running | refused | threw | completed =>
    simp only [next, hpc] at ht
    cases ht

theorem afterGet_unwinding (call : Call) : (afterGet call).unwinding = false := by
  cases call with
  | idle | exchange v => rfl
  | returned ref => cases ref <;> rfl

theorem setPc_unwinding {pc : SpawnPc} (hpc : pc.unwinding = false) {j : CallId}
    (h : (Function.update s.spawns i { s.spawns i with pc } j).pc.unwinding = true) :
    (s.spawns j).pc.unwinding = true := by
  by_cases hj : j = i
  · subst hj
    rw [Function.update_self, hpc] at h
    cases h
  · rwa [Function.update_of_ne hj] at h

theorem step_frame (ht : s.step a = some t) :
    (∀ j, (t.spawns j).pc.unwinding = true → (s.spawns j).pc.unwinding = true ∨
      (s.spawns j).pc = .dropRef .connectThrew) ∧
      (s.executesJoin a ∨ t.scope.executed = s.scope.executed) := by
  cases a with
  | next i throws =>
    obtain ⟨⟨spawn, hspawns, hunwinding⟩, hexecuted⟩ := next_frame ht
    refine ⟨fun j hj => ?_, hexecuted⟩
    rw [hspawns] at hj
    by_cases hji : j = i
    · subst hji
      rw [Function.update_self] at hj
      exact hunwinding hj
    · rw [Function.update_of_ne hji] at hj
      exact .inl hj
  | call i =>
    simp only [step] at ht
    split_ifs at ht
    obtain ⟨scope, hscope, rfl⟩ := Option.map_eq_some_iff.mp ht
    exact ⟨fun j hj => .inl (setPc_unwinding (afterGet_unwinding _) hj),
      .inr (Scope.step_tryGet hscope).1.2⟩
  | exchange i spurious =>
    simp only [step] at ht
    split_ifs at ht
    obtain ⟨scope, hscope, rfl⟩ := Option.map_eq_some_iff.mp ht
    exact ⟨fun j hj => .inl (setPc_unwinding (afterGet_unwinding _) hj),
      .inr (Scope.step_exchange hscope).1.2⟩
  | complete i =>
    simp only [step] at ht
    split_ifs at ht
    cases ht
    exact ⟨fun j hj => .inl (setPc_unwinding rfl hj), .inr rfl⟩
  | join =>
    simp only [step] at ht
    cases hpc : s.join with
    | done =>
      simp only [joinStep, hpc] at ht
      cases ht
    | executeJoin =>
      simp only [joinStep, hpc] at ht
      obtain ⟨scope, -, rfl⟩ := Option.map_eq_some_iff.mp ht
      exact ⟨fun j hj => .inl hj, .inl hpc⟩
    | notCalled | decrement =>
      simp only [joinStep, hpc] at ht
      obtain ⟨scope, hscope, rfl⟩ := Option.map_eq_some_iff.mp ht
      simp only [Scope.step] at hscope
      split_ifs at hscope
      cases hscope
      exact ⟨fun j hj => .inl hj, .inr rfl⟩
  | close =>
    simp only [step] at ht
    obtain ⟨scope, hscope, rfl⟩ := Option.map_eq_some_iff.mp ht
    cases hscope
    exact ⟨fun j hj => .inl hj, .inr rfl⟩

/-- After the join operation was executed no constructor's exception leads into `spawn()`. -/
theorem Inv.ordered_step (hi : s.Inv)
    (hordered : 0 < s.scope.executed → ∀ j, (s.spawns j).pc.unwinding = false)
    (hguard : s.JoinsInOrder a) (ht : s.step a = some t) (hexecuted : 0 < t.scope.executed)
    (j : CallId) : (t.spawns j).pc.unwinding = false := by
  by_contra hj
  obtain ⟨hunwinding, hsame⟩ := step_frame ht
  have hpositive : 0 < s.scope.pending + s.scope.executed := by
    rcases hsame with hexecutes | hsame
    · have hpending : s.scope.pending = 1 := by
        cases a with
        | next i throws => exact hi.pending (some i) hexecutes
        | join => exact hi.pending none hexecutes
        | _ => cases hexecutes
      omega
    · omega
  have hplace := hi.place_eq_none (hi.drained hpositive) j
  rcases hunwinding j (Bool.of_not_eq_false hj) with h | h
  · rcases hsame with hexecutes | hsame
    · rw [hguard hexecutes j] at h
      cases h
    · rw [hordered (by omega) j] at h
      cases h
  · rw [h] at hplace
    cases hplace

theorem Inv.moveRef_isSome (hi : s.Inv) {src dst : RefPlace} {spawn : Spawn}
    (hplace : (s.spawns i).pc.place = some src) (hne : src ≠ dst) :
    (s.moveRef i src dst spawn).isSome = true := by
  have hsrc : src.ref i ∈ s.scope.refs := (hi.refs i src).mpr hplace
  have hdst : dst.ref i ∉ s.scope.refs := by
    rw [hi.refs, hplace]
    exact fun h => hne (Option.some.inj h)
  rw [moveRef, Option.isSome_map]
  simp only [Scope.step]
  rw [if_pos ⟨hsrc, hdst⟩]
  rfl

theorem Inv.goesOn (hi : s.Inv) (hended : (s.spawns i).pc.ended = false)
    (hwaiting : (s.spawns i).pc.waiting = false) : (s.next i throws).isSome = true := by
  cases hpc : (s.spawns i).pc with
  | callSpawn | callCtor | initMembers | moveRef =>
    simp only [next, hpc]
    exact hi.moveRef_isSome (by rw [hpc]; rfl) nofun
  | dropRef e =>
    have hmem : e.place.ref i ∈ s.scope.refs := (hi.refs i e.place).mpr (by rw [hpc]; rfl)
    simp only [next, hpc, Option.isSome_map, Scope.step]
    rw [if_pos hmem]
    rfl
  | executeJoin e =>
    have hpending : s.scope.pending = 1 := hi.pending (some i) ⟨e, hpc⟩
    simp only [next, hpc, Option.isSome_map, Scope.step]
    rw [if_pos (by omega)]
    rfl
  | allocate | connect =>
    simp only [next, hpc]
    split_ifs <;> rfl
  | start | destroyOp | deallocate | freeMemory =>
    simp only [next, hpc]
    rfl
  | refused | threw | completed =>
    rw [hpc] at hended
    cases hended
  | notCalled | tryGet | running =>
    rw [hpc] at hwaiting
    cases hwaiting

theorem Inv.clean (hi : s.Inv)
    (hordered : 0 < s.scope.executed → ∀ j, (s.spawns j).pc.unwinding = false) : s.Clean where
  atJoin hexecuted i :=
    (hi.block i).released (hi.place_eq_none (hi.drained (by omega)) i) (hordered hexecuted i)
  atEnd i hended := by
    have hplace : (s.spawns i).pc.place = none ∧ (s.spawns i).pc.unwinding = false := by
      cases hpc : (s.spawns i).pc <;> rw [hpc] at hended <;> first | exact ⟨rfl, rfl⟩ | cases hended
    refine ⟨(hi.block i).released hplace.1 hplace.2, fun p hmem => ?_⟩
    rw [hi.refs, hplace.1] at hmem
    cases hmem
  once i := (hi.block i).bounds
  goesOn i hended hwaiting throws := hi.goesOn hended hwaiting

theorem Inv.not_released (hi : s.Inv) (hunwinding : (s.spawns i).pc.unwinding = true) :
    (s.spawns i).allocations = 1 ∧ (s.spawns i).deallocations = 0 := by
  have hok := hi.block i
  unfold Spawn.Ok at hok
  cases hpc : (s.spawns i).pc with
  | freeMemory =>
    rw [hpc] at hok
    exact ⟨hok.1, hok.2.2⟩
  | executeJoin e =>
    rw [hpc] at hok hunwinding
    cases e with
    | connectThrew => exact ⟨hok.1, hok.2.2⟩
    | allocateThrew | destroyed => cases hunwinding
  | _ =>
    rw [hpc] at hunwinding
    cases hunwinding

/-- Executing the join operation changes no count of the memory. -/
theorem executes_frame (hexecutes : s.executesJoin a) (ht : s.step a = some t) :
    t.scope.executed = s.scope.executed + 1 ∧ ∀ i,
      (t.spawns i).allocations = (s.spawns i).allocations ∧
        (t.spawns i).deallocations = (s.spawns i).deallocations := by
  cases a with
  | next i throws =>
    obtain ⟨e, hpc⟩ := hexecutes
    simp only [step, next, hpc] at ht
    obtain ⟨scope, hscope, rfl⟩ := Option.map_eq_some_iff.mp ht
    obtain ⟨-, rfl⟩ := Scope.step_execute hscope
    refine ⟨rfl, fun j => ?_⟩
    by_cases hj : j = i
    · subst hj
      simp only [setPc, setSpawn, Function.update_self, and_self]
    · simp only [setPc, setSpawn, Function.update_of_ne hj, and_self]
  | join =>
    have hpc : s.join = .executeJoin := hexecutes
    simp only [step, joinStep, hpc] at ht
    obtain ⟨scope, hscope, rfl⟩ := Option.map_eq_some_iff.mp ht
    obtain ⟨-, rfl⟩ := Scope.step_execute hscope
    exact ⟨rfl, fun _ => ⟨rfl, rfl⟩⟩
  | _ => cases hexecutes

/-- Nothing of the memory is left at the join where no `spawn()` is caught between the drop of its
constructor's reference and its deallocation; and everywhere else something is left. -/
theorem released_before_join_when (s : Spawning) :
    (spawnSystem.Reaches JoinsInOrder s → s.Clean) ∧
      ∀ a t, spawnSystem.Reachable s → ¬ s.JoinsInOrder a → s.step a = some t → ¬ t.Clean := by
  constructor
  · intro hs
    have hinv := hs.invariant
      (P := fun s => s.Inv ∧ (0 < s.scope.executed → ∀ j, (s.spawns j).pc.unwinding = false))
      ⟨Inv.init, nofun⟩ fun u a v hu hok hv =>
        ⟨hu.1.step hv, hu.1.ordered_step hu.2 hok hv⟩
    exact hinv.1.clean hinv.2
  · intro a t hs hbad ht hclean
    have hi : s.Inv :=
      hs.invariant (P := Inv) Inv.init fun _ _ _ hu _ hv => hu.step hv
    obtain ⟨hexecutes, hbad⟩ := Classical.not_imp.mp hbad
    obtain ⟨i, hunwinding⟩ := not_forall.mp hbad
    obtain ⟨hexecuted, hcounts⟩ := executes_frame hexecutes ht
    obtain ⟨hallocations, hdeallocations⟩ :=
      hi.not_released (Bool.of_not_eq_false hunwinding)
    have hreleased := (hclean.atJoin (by omega) i).2
    rw [(hcounts i).1, (hcounts i).2] at hreleased
    omega

/-- A step leaves the other calls alone. -/
theorem spawns_step (ht : s.step a = some t) {j : CallId} (hj : a.spawn ≠ some j) :
    t.spawns j = s.spawns j := by
  cases a with
  | next i throws =>
    obtain ⟨⟨spawn, hspawns, -⟩, -⟩ := next_frame ht
    have hne : j ≠ i := fun h => hj (congrArg some h.symm)
    rw [hspawns, Function.update_of_ne hne]
  | call i | exchange i spurious =>
    simp only [step] at ht
    split_ifs at ht
    obtain ⟨scope, -, rfl⟩ := Option.map_eq_some_iff.mp ht
    have hne : j ≠ i := fun h => hj (congrArg some h.symm)
    simp only [setPc, setSpawn, Function.update_of_ne hne]
  | complete i =>
    simp only [step] at ht
    split_ifs at ht
    cases ht
    have hne : j ≠ i := fun h => hj (congrArg some h.symm)
    simp only [setPc, setSpawn, Function.update_of_ne hne]
  | join =>
    simp only [step, joinStep] at ht
    split at ht
    · obtain ⟨scope, -, rfl⟩ := Option.map_eq_some_iff.mp ht
      rfl
    · obtain ⟨scope, -, rfl⟩ := Option.map_eq_some_iff.mp ht
      rfl
    · obtain ⟨scope, -, rfl⟩ := Option.map_eq_some_iff.mp ht
      rfl
    · cases ht
  | close =>
    simp only [step] at ht
    obtain ⟨scope, -, rfl⟩ := Option.map_eq_some_iff.mp ht
    rfl

/-- A step of the calls `0` and `1` and of the scope that does not execute the join operation. -/
def BeforeJoin (s : Spawning) (a : SpawnAct) : Prop :=
  a.spawn ∈ [none, some 0, some 1] ∧ s.join ≠ .executeJoin ∧
    ∀ i ∈ a.spawn, ∀ e ∈ [Exit.allocateThrew, .connectThrew, .destroyed],
      (s.spawns i).pc ≠ .executeJoin e

instance (s : Spawning) (a : SpawnAct) : Decidable (s.BeforeJoin a) :=
  inferInstanceAs (Decidable (_ ∧ _ ∧ _))

theorem BeforeJoin.not_executesJoin (h : s.BeforeJoin a) : ¬ s.executesJoin a := by
  obtain ⟨-, hjoin, hspawn⟩ := h
  intro hexecutes
  cases a with
  | next i throws =>
    obtain ⟨e, he⟩ := hexecutes
    refine hspawn i rfl e ?_ he
    cases e <;> simp
  | join => exact hjoin hexecutes
  | _ => cases hexecutes

theorem unwinding_of_beforeJoin (hs : spawnSystem.Reaches BeforeJoin s) {j : CallId}
    (hj : some j ∉ [none, some 0, some 1]) : (s.spawns j).pc.unwinding = false := by
  have hsame : s.spawns j = {} := by
    refine hs.invariant (P := fun s => s.spawns j = {}) rfl fun u b v hu hb hv => ?_
    have hne : b.spawn ≠ some j := by
      intro h
      rw [← h] at hj
      exact hj hb.1
    exact (spawns_step hv hne).trans hu
  rw [hsame]
  rfl

/-- One `spawn()` throws, and its memory is deallocated before the operation of the other one
executes the join operation. -/
theorem released_before_join_when_run : ∃ s, spawnSystem.Reaches JoinsInOrder s ∧
    (s.scope.executed = 1 ∧ (s.spawns 0).pc = .threw ∧ (s.spawns 1).pc = .completed) ∧
      s.Clean := by
  obtain ⟨s, hs, hp⟩ := spawnSystem.exists_reaches BeforeJoin
    [.call 0, .exchange 0 false, .call 1, .exchange 1 false, .next 0 false, .next 0 false,
      .next 0 false, .next 1 false, .next 1 false, .next 1 false, .next 1 false, .next 0 true,
      .next 1 false, .next 1 false, .next 0 false, .join, .join, .next 0 false, .complete 1,
      .next 1 false, .next 1 false, .next 1 false, .next 1 false]
    (fun s => (s.step (.next 1 false)).any fun t : Spawning =>
      decide (((s.spawns 0).pc.unwinding = false ∧ (s.spawns 1).pc.unwinding = false) ∧
        t.scope.executed = 1 ∧ (t.spawns 0).pc = .threw ∧ (t.spawns 1).pc = .completed))
    (by decide +kernel)
  obtain ⟨t, ht, hp⟩ := (Option.any_eq_true _ _).mp hp
  obtain ⟨⟨hfirst, hsecond⟩, hend⟩ := of_decide_eq_true hp
  have hordered : ∀ i, (s.spawns i).pc.unwinding = false := by
    intro i
    by_cases hi : some i ∈ [none, some 0, some 1]
    · simp only [List.mem_cons, List.not_mem_nil, or_false, reduceCtorEq, false_or,
        Option.some.injEq] at hi
      rcases hi with rfl | rfl
      · exact hfirst
      · exact hsecond
    · exact unwinding_of_beforeJoin hs hi
  have hreaches : spawnSystem.Reaches JoinsInOrder s :=
    hs.mono fun _ _ h hexecutes => absurd hexecutes h.not_executesJoin
  have ht : spawnSystem.Reaches JoinsInOrder t :=
    hreaches.step (a := .next 1 false) (fun _ => hordered) ht
  exact ⟨t, ht, hend, (released_before_join_when t).1 ht⟩

/-- `start_join()` has given up the scope's own reference while `spawn()` connects its operation,
which throws: the parameter of the constructor drops the last reference. -/
theorem released_before_join_fails : ¬ ∀ s, spawnSystem.Reachable s → s.Clean := by
  intro h
  obtain ⟨s, hs, hp⟩ := spawnSystem.exists_reachable
    [.call 0, .exchange 0 false, .next 0 false, .next 0 false, .next 0 false, .join, .join,
      .next 0 true, .next 0 false, .next 0 false]
    (fun s => s.scope.executed = 1 ∧ (s.spawns 0).allocations = 1 ∧ (s.spawns 0).deallocations = 0)
    (by decide +kernel)
  obtain ⟨hexecuted, hallocations, hdeallocations⟩ := of_decide_eq_true hp
  have hreleased := ((h s hs).atJoin (by omega) 0).2
  omega

end Spawning
end Squiz.CountingScope
