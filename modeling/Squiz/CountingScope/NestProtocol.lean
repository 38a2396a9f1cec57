import Squiz.CountingScope.Nest

/-! Calls of `nest()`, the senders that they return, copies of these and their operations, with the
scope that all of them refer to. -/
namespace Squiz.CountingScope.Nest
open Squiz.Lib

/-- What is constructed at a place. Each object has at most one reference, which is named by the
place; `call` is the call of `nest()` that the object comes from. -/
inductive Object (R : Type) where
  | unused
  /-- `nest()` is in the loop of `try_get_counting_scope_ref` -/
  | calling
  | sender (call : CallId) (valid : Bool)
  /-- `connect` has the reference for the operation -/
  | connecting (call : CallId) (valid : Bool)
  | op (call : CallId) (op : Op R)
  | destroyed

namespace Object
variable {R : Type}

def holdsRef : Object R → Bool
  | .sender _ valid | .connecting _ valid => valid
  | .op _ o => o.scopeRef.isSome
  | _ => false

/-- What `nest()` returns, if it returns. -/
def ofCall (i : CallId) : Call → Object R
  | .returned ref => .sender i ref.isSome
  | _ => .calling

end Object

structure Nesting (R : Type) where
  scope : Scope := {}
  objects : CallId → Object R := fun _ => .unused
  /-- the object that gave up the last reference, and executes the join operation -/
  last : Option CallId := none

inductive NestAct (R : Type) where
  /-- `nest()`, for a sender to be constructed at `i` -/
  | nest (i : CallId)
  | exchange (i : CallId) (spurious : Bool)
  | copySender (i j : CallId)
  | moveSender (i j : CallId)
  | destroySender (i : CallId)
  /-- `connect` of an lvalue, or of an rvalue, for an operation to be constructed at `j` -/
  | connect (i j : CallId) (moved : Bool)
  /-- the constructor of the operation; that of the source's may throw -/
  | construct (j : CallId) (throws : Bool)
  | op (j : CallId) (a : Act R)
  | close
  | startJoin
  | joinDecrement
  | execute

namespace Nesting
variable {R : Type}

/-- A step of the scope, after which `object` is at `i`. -/
def scopeStep (s : Nesting R) (a : CountingScope.Act) (i : CallId) (object : Object R) :
    Option (Nesting R) :=
  (s.scope.step a).map fun scope =>
    { s with scope := scope, objects := Function.update s.objects i object }

/-- The copy constructor of the reference at `i`, for `object` at `j`. -/
def copyRef (s : Nesting R) (i j : CallId) (valid : Bool) (object : Object R) :
    Option (Nesting R) :=
  if valid then s.scopeStep (.copy i j) j object
  else some { s with objects := Function.update s.objects j object }

/-- The move constructor of the reference of a sender at `i`, for `object` at `j`. -/
def moveRef (s : Nesting R) (call i j : CallId) (valid : Bool) (object : Object R) :
    Option (Nesting R) :=
  let moved := { s with objects := Function.update s.objects i (.sender call false) }
  if valid then moved.scopeStep (.move i j) j object
  else some { moved with objects := Function.update moved.objects j object }

/-- `reset()` of the reference `r` of the object at `i`, which becomes `object`. -/
def dropRef (s : Nesting R) (r : Ref) (i : CallId) (object : Object R) : Option (Nesting R) :=
  (s.scopeStep (.reset r) i object).map fun t =>
    { t with last := if s.scope.word < 2 * refCountIncrement then some i else s.last }

/-- `set_result` waits for the join operation that it executes. -/
def executes (s : Nesting R) (j : CallId) : Act R → Bool
  | .set => decide (s.last = some j ∧ 0 < s.scope.pending)
  | _ => false

def step (s : Nesting R) : NestAct R → Option (Nesting R)
  | .nest i =>
    match s.objects i with
    | .unused => (s.scope.step (.tryGet i)).map fun scope =>
      { s with scope := scope, objects := Function.update s.objects i (.ofCall i (scope.calls i)) }
    | _ => none
  | .exchange i spurious =>
    match s.objects i with
    | .calling => (s.scope.step (.exchange i i spurious)).map fun scope =>
      { s with scope := scope, objects := Function.update s.objects i (.ofCall i (scope.calls i)) }
    | _ => none
  | .copySender i j =>
    match s.objects i, s.objects j with
    | .sender call valid, .unused => s.copyRef i j valid (.sender call valid)
    | _, _ => none
  | .moveSender i j =>
    match s.objects i, s.objects j with
    | .sender call valid, .unused => s.moveRef call i j valid (.sender call valid)
    | _, _ => none
  | .destroySender i =>
    match s.objects i with
    | .sender _ valid =>
      if valid then s.dropRef i i .destroyed
      else some { s with objects := Function.update s.objects i .destroyed }
    | _ => none
  | .connect i j moved =>
    match s.objects i, s.objects j with
    | .sender call valid, .unused =>
      if moved then s.moveRef call i j valid (.connecting call valid)
      else s.copyRef i j valid (.connecting call valid)
    | _, _ => none
  | .construct j throws =>
    match s.objects j with
    | .connecting call valid =>
      if valid && throws then s.dropRef j j .destroyed
      else
        some { s with
          objects := Function.update s.objects j
            (.op call (.construct (if valid then some j else none))) }
    | _ => none
  | .op j a =>
    match s.objects j with
    | .op call op =>
      if s.executes j a then none
      else
        (op.step a).bind fun op' =>
          match op.released a with
          | some r => s.dropRef r j (.op call op')
          | none => some { s with objects := Function.update s.objects j (.op call op') }
    | _ => none
  | .close => (s.scope.step .close).map fun scope => { s with scope := scope }
  | .startJoin => (s.scope.step .startJoin).map fun scope => { s with scope := scope }
  | .joinDecrement => (s.scope.step .joinDecrement).map fun scope => { s with scope := scope }
  | .execute => (s.scope.step .execute).map fun scope => { s with scope := scope }

end Nesting

def nesting (R : Type) : System (Nesting R) (NestAct R) := ⟨{}, Nesting.step⟩

theorem step_calls {s t : Scope} {a : CountingScope.Act} (ht : s.step a = some t) {c : CallId}
    (hc : s.calls c ≠ .idle) : t.calls c ≠ .idle ∧ t.late c = s.late c := by
  have henter : ∀ w, Scope.enterLoop w ≠ .idle := by
    intro w
    unfold Scope.enterLoop
    split_ifs <;> simp
  cases a with
  | tryGet d =>
    simp only [Scope.step] at ht
    split_ifs at ht with hd
    cases ht
    have hcd : c ≠ d := fun h => hc (h ▸ hd)
    simp only [Function.update_of_ne hcd]
    exact ⟨hc, trivial⟩
  | exchange d r spurious =>
    simp only [Scope.step] at ht
    split at ht
    · split_ifs at ht
      all_goals
        cases ht
        refine ⟨?_, rfl⟩
        by_cases hcd : c = d
        · subst hcd
          simp only [Function.update_self]
          first
            | exact henter _
            | simp
        · simpa only [Function.update_of_ne hcd]
    · cases ht
  | close =>
    cases ht
    exact ⟨hc, rfl⟩
  | copy | move | reset | startJoin | joinDecrement | execute =>
    simp only [Scope.step] at ht
    split_ifs at ht
    cases ht
    exact ⟨hc, rfl⟩

/-- The object is in a state of its own, has no reference but the one of its place, and none if the
call that it comes from began after `close()` had returned. -/
def Object.Ok {R : Type} (scope : Scope) (i : CallId) : Object R → Prop
  | .sender call valid | .connecting call valid =>
    scope.calls call ≠ .idle ∧ (valid = true → scope.late call = false)
  | .op call o =>
    scope.calls call ≠ .idle ∧ (o.active = true → scope.late call = false) ∧ o.Inv ∧
      ∀ r, o.scopeRef = some r → r = i
  | _ => True

theorem Object.Ok.frame {R : Type} {s t : Scope} {i : CallId} {object : Object R}
    (h : object.Ok s i)
    (hcalls : ∀ c, s.calls c ≠ .idle → t.calls c ≠ .idle ∧ t.late c = s.late c) :
    object.Ok t i := by
  cases object with
  | sender call valid | connecting call valid =>
    obtain ⟨hcall, hlate⟩ := hcalls call h.1
    exact ⟨hcall, fun hv => hlate.trans (h.2 hv)⟩
  | op call o =>
    obtain ⟨hcall, hlate⟩ := hcalls call h.1
    exact ⟨hcall, fun hactive => hlate.trans (h.2.1 hactive), h.2.2⟩
  | unused | calling | destroyed => trivial

namespace Nesting
variable {R : Type} {s t : Nesting R} {i j call : CallId} {valid : Bool} {object : Object R}

structure Inv (s : Nesting R) : Prop where
  scope : s.scope.Inv
  /-- the valid references are those of the objects -/
  refs : ∀ i, i ∈ s.scope.refs ↔ (s.objects i).holdsRef = true
  ok : ∀ i, (s.objects i).Ok s.scope i

theorem Inv.init : ({} : Nesting R).Inv where
  scope := Scope.Inv.initial
  refs i := iff_of_false (Finset.notMem_empty _) (by simp [Object.holdsRef])
  ok _ := trivial

/-- After a step of the scope. -/
theorem Inv.scopeStep (hi : s.Inv) {a : CountingScope.Act} (hscope : s.scope.step a = some t.scope)
    (hrefs : ∀ i, i ∈ t.scope.refs ↔ (t.objects i).holdsRef = true)
    (hok : ∀ i, t.objects i = s.objects i ∨ (t.objects i).Ok t.scope i) : t.Inv where
  scope := hi.scope.step a hscope
  refs := hrefs
  ok := by
    intro i
    rcases hok i with hsame | hok
    · rw [hsame]
      exact (hi.ok i).frame fun _ => step_calls hscope
    · exact hok

/-- A step of one object, which keeps its reference if it has one. -/
theorem Inv.setObject (hi : s.Inv) (hholds : object.holdsRef = (s.objects i).holdsRef)
    (hok : object.Ok s.scope i) :
    Inv { s with objects := Function.update s.objects i object } where
  scope := hi.scope
  refs := by
    intro j
    by_cases hj : j = i
    · subst hj
      simp only [hi.refs, Function.update_self, hholds]
    · simp only [hi.refs, Function.update_of_ne hj]
  ok := by
    intro j
    by_cases hj : j = i
    · subst hj
      simpa only [Function.update_self] using hok
    · simpa only [Function.update_of_ne hj] using hi.ok j

theorem update_ok {scope : Scope} (hok : object.Ok scope i) (j : CallId) :
    Function.update s.objects i object j = s.objects j ∨
      (Function.update s.objects i object j).Ok scope j := by
  by_cases hj : j = i
  · subst hj
    rw [Function.update_self]
    exact .inr hok
  · exact .inl (Function.update_of_ne hj _ _)

theorem Inv.copyRef (hi : s.Inv) (hunused : (s.objects j).holdsRef = false)
    (hholds : object.holdsRef = valid)
    (hok : ∀ scope : Scope, (∀ c, s.scope.calls c ≠ .idle →
      scope.calls c ≠ .idle ∧ scope.late c = s.scope.late c) → object.Ok scope j)
    (ht : s.copyRef i j valid object = some t) : t.Inv := by
  unfold Nesting.copyRef at ht
  split_ifs at ht with hvalid
  · obtain ⟨scope, hscope, rfl⟩ := Option.map_eq_some_iff.mp ht
    refine hi.scopeStep hscope ?_ (update_ok (hok scope fun _ => step_calls hscope))
    intro k
    have hrefs : scope.refs = insert j s.scope.refs := by
      simp only [Scope.step] at hscope
      split_ifs at hscope
      cases hscope
      rfl
    rw [hrefs, Finset.mem_insert, hi.refs]
    by_cases hk : k = j
    · subst hk
      simp [hholds, hvalid]
    · simp [hk]
  · cases ht
    refine hi.setObject ?_ (hok s.scope fun c hc => ⟨hc, rfl⟩)
    rw [hholds, hunused, Bool.of_not_eq_true hvalid]

theorem Inv.moveRef (hi : s.Inv) (hsender : s.objects i = .sender call valid)
    (hunused : (s.objects j).holdsRef = false) (hij : i ≠ j) (hholds : object.holdsRef = valid)
    (hok : ∀ scope : Scope, (∀ c, s.scope.calls c ≠ .idle →
      scope.calls c ≠ .idle ∧ scope.late c = s.scope.late c) → object.Ok scope j)
    (ht : s.moveRef call i j valid object = some t) : t.Inv := by
  have hcall : s.scope.calls call ≠ .idle := by
    have h := hi.ok i
    rw [hsender] at h
    exact h.1
  unfold Nesting.moveRef at ht
  split_ifs at ht with hvalid
  · obtain ⟨scope, hscope, rfl⟩ := Option.map_eq_some_iff.mp ht
    refine hi.scopeStep hscope ?_ ?_
    · intro k
      have hrefs : scope.refs = insert j (s.scope.refs.erase i) := by
        simp only [Scope.step] at hscope
        split_ifs at hscope
        cases hscope
        rfl
      rw [hrefs, Finset.mem_insert, Finset.mem_erase, hi.refs]
      by_cases hk : k = j
      · subst hk
        simp [hholds, hvalid]
      · by_cases hki : k = i
        · subst hki
          simp [hk, Object.holdsRef]
        · simp [hk, hki]
    · intro k
      by_cases hk : k = j
      · subst hk
        simp only [Function.update_self]
        exact .inr (hok scope fun _ => step_calls hscope)
      · simp only [Function.update_of_ne hk]
        refine update_ok ?_ k
        exact ⟨(step_calls hscope hcall).1, fun h => by cases h⟩
  · cases ht
    have hfalse := Bool.of_not_eq_true hvalid
    have hmoved : Inv { s with objects := Function.update s.objects i (.sender call false) } :=
      hi.setObject (by rw [hsender, hfalse]) ⟨hcall, fun h => by cases h⟩
    refine hmoved.setObject ?_ (hok s.scope fun c hc => ⟨hc, rfl⟩)
    simp only [Function.update_of_ne hij.symm, hunused, hholds, hfalse]

theorem Inv.dropRef (hi : s.Inv) (hholds : object.holdsRef = false)
    (hok : ∀ scope : Scope, (∀ c, s.scope.calls c ≠ .idle →
      scope.calls c ≠ .idle ∧ scope.late c = s.scope.late c) → object.Ok scope i)
    (ht : s.dropRef i i object = some t) : t.Inv := by
  obtain ⟨u, hu, rfl⟩ := Option.map_eq_some_iff.mp ht
  obtain ⟨scope, hscope, rfl⟩ := Option.map_eq_some_iff.mp hu
  refine hi.scopeStep hscope ?_ (update_ok (hok scope fun _ => step_calls hscope))
  intro k
  have hrefs : scope.refs = s.scope.refs.erase i := by
    simp only [Scope.step] at hscope
    split_ifs at hscope
    cases hscope
    rfl
  rw [hrefs, Finset.mem_erase, hi.refs]
  by_cases hk : k = i
  · subst hk
    simp [hholds]
  · simp [hk]

/-- A step of the scope that leaves the references and the objects alone. -/
theorem Inv.scopeOnly (hi : s.Inv) {a : CountingScope.Act} {scope : Scope}
    (hscope : s.scope.step a = some scope) (hrefs : scope.refs = s.scope.refs) :
    Inv { s with scope := scope } :=
  hi.scopeStep hscope (fun i => by rw [hrefs]; exact hi.refs i) fun _ => .inl rfl

/-- A call of `nest()` has loaded the word, or exchanged it. -/
theorem Inv.nestStep (hi : s.Inv) {a : CountingScope.Act} {scope : Scope}
    (hscope : s.scope.step a = some scope) (hfresh : (s.objects i).holdsRef = false)
    (hcall : scope.calls i ≠ .idle)
    (hgain : (∃ r, scope.calls i = .returned (some r)) ∧ scope.refs = insert i s.scope.refs ∧
        scope.late i = false ∨
      (∀ r, scope.calls i ≠ .returned (some r)) ∧ scope.refs = s.scope.refs) :
    Inv { s with
      scope := scope, objects := Function.update s.objects i (.ofCall i (scope.calls i)) } := by
  refine hi.scopeStep hscope ?_ (update_ok ?_)
  · intro k
    rcases hgain with ⟨⟨r, hr⟩, hrefs, -⟩ | ⟨hnone, hrefs⟩
    · by_cases hk : k = i
      · subst hk
        simp [hrefs, hr, Object.ofCall, Object.holdsRef]
      · simp [hrefs, hk, hi.refs]
    · by_cases hk : k = i
      · subst hk
        simp only [hrefs, hi.refs, hfresh, Function.update_self]
        cases hc : scope.calls k with
        | returned ref =>
          cases ref with
          | none => simp [Object.ofCall, Object.holdsRef]
          | some r => exact absurd hc (hnone r)
        | _ => simp [Object.ofCall, Object.holdsRef]
      · simp [hrefs, hk, hi.refs]
  · cases hc : scope.calls i with
    | returned ref =>
      refine ⟨by rw [hc]; simp, fun hvalid => ?_⟩
      obtain ⟨r, rfl⟩ := Option.isSome_iff_exists.mp hvalid
      rcases hgain with ⟨-, -, hlate⟩ | ⟨hnone, -⟩
      · exact hlate
      · exact absurd hc (hnone r)
    | _ => trivial

theorem Inv.nest (hi : s.Inv) (ht : s.step (.nest i) = some t) : t.Inv := by
  simp only [Nesting.step] at ht
  split at ht
  · next hunused =>
    obtain ⟨scope, hscope, rfl⟩ := Option.map_eq_some_iff.mp ht
    refine hi.nestStep hscope (by rw [hunused]; rfl) ?_ (.inr ?_)
    all_goals
      simp only [Scope.step] at hscope
      split_ifs at hscope
      cases hscope
      simp only [Function.update_self]
      unfold Scope.enterLoop
      split_ifs <;> simp
  · cases ht

theorem Inv.exchange (hi : s.Inv) {spurious : Bool} (ht : s.step (.exchange i spurious) = some t) :
    t.Inv := by
  simp only [Nesting.step] at ht
  split at ht
  · next hcalling =>
    obtain ⟨scope, hscope, rfl⟩ := Option.map_eq_some_iff.mp ht
    have hfresh : (s.objects i).holdsRef = false := by rw [hcalling]; rfl
    have hcalls := hscope
    simp only [Scope.step] at hcalls
    split at hcalls
    · next v hv =>
      have hlate : s.scope.late i = false := by
        by_contra hl
        exact ((hi.scope.late i (Bool.of_not_eq_false hl)).2 v).1 hv
      have hidle : s.scope.calls i ≠ .idle := by rw [hv]; simp
      have hcall := step_calls hscope hidle
      refine hi.nestStep hscope hfresh hcall.1 ?_
      split_ifs at hcalls
      · cases hcalls
        exact .inl ⟨⟨i, by simp only [Function.update_self]⟩, rfl, hlate⟩
      · cases hcalls
        refine .inr ⟨fun r => ?_, rfl⟩
        simp only [Function.update_self]
        unfold Scope.enterLoop
        split_ifs <;> simp
    · cases hcalls
  · cases ht

/-- The reference that a step of an operation gives up is the one that it has. -/
theorem released_eq {o o' : Op R} {a : Act R} (ht : o.step a = some o') {r : Ref}
    (hr : o.released a = some r) : o.scopeRef = some r ∧ o'.scopeRef = none := by
  cases a with
  | set =>
    simp only [Op.released] at hr
    simp only [Op.step] at ht
    split at hr
    · next r' hpc =>
      rw [hpc] at ht
      cases ht
      exact ⟨hr, rfl⟩
    · cases hr
  | destroy =>
    simp only [Op.step] at ht
    split_ifs at ht <;> cases ht <;> exact ⟨hr, rfl⟩
  | start | stop | complete => cases hr

/-- Where a step gives up no reference, the operation has the one that it had. -/
theorem scopeRef_of_released {o o' : Op R} {a : Act R} (ht : o.step a = some o')
    (hr : o.released a = none) : o'.scopeRef = o.scopeRef ∧ o'.active = o.active := by
  cases a with
  | start =>
    simp only [Op.step] at ht
    split at ht <;> try split_ifs at ht
    all_goals
      cases ht
      try exact ⟨rfl, rfl⟩
  | stop =>
    simp only [Op.step] at ht
    split at ht <;> try split_ifs at ht
    all_goals
      cases ht
      try exact ⟨rfl, rfl⟩
  | complete r =>
    simp only [Op.step] at ht
    split_ifs at ht
    cases ht
    exact ⟨rfl, rfl⟩
  | set =>
    simp only [Op.step] at ht
    cases hpc : o.set <;> simp only [hpc] at ht <;> cases ht
    · simp only [Op.released, hpc] at hr
      exact ⟨hr.symm, rfl⟩
    · exact ⟨rfl, rfl⟩
  | destroy =>
    simp only [Op.step] at ht
    simp only [Op.released] at hr
    split_ifs at ht <;> cases ht <;> exact ⟨hr.symm, rfl⟩

theorem active_step {o o' : Op R} {a : Act R} (ht : o.step a = some o') : o'.active = o.active := by
  cases hr : o.released a with
  | none => exact (scopeRef_of_released ht hr).2
  | some r =>
    cases a with
    | set =>
      simp only [Op.step] at ht
      split at ht <;> cases ht <;> rfl
    | destroy =>
      simp only [Op.step] at ht
      split_ifs at ht <;> cases ht <;> rfl
    | start | stop | complete => cases hr

theorem Inv.opStep (hi : s.Inv) {a : Act R} (ht : s.step (.op j a) = some t) : t.Inv := by
  simp only [Nesting.step] at ht
  split at ht
  · next call o hop =>
    split_ifs at ht
    obtain ⟨o', ho', ht⟩ := Option.bind_eq_some_iff.mp ht
    have hok := hi.ok j
    rw [hop] at hok
    obtain ⟨hcall, hlate, hinv, hname⟩ := hok
    split at ht
    · next r hr =>
      obtain ⟨href, hnone⟩ := released_eq ho' hr
      obtain rfl := hname r href
      refine hi.dropRef (by simp [Object.holdsRef, hnone]) ?_ ht
      intro scope hframe
      obtain ⟨hcall', hlate'⟩ := hframe call hcall
      refine ⟨hcall', fun hactive => ?_, hinv.step ho', fun q hq => by rw [hnone] at hq; cases hq⟩
      rw [active_step ho'] at hactive
      exact hlate'.trans (hlate hactive)
    · next hr =>
      cases ht
      obtain ⟨href, hactive⟩ := scopeRef_of_released ho' hr
      refine hi.setObject (by simp only [Object.holdsRef, hop, href]) ⟨hcall, ?_, hinv.step ho', ?_⟩
      · rw [hactive]
        exact hlate
      · rw [href]
        exact hname
  · cases ht

theorem Inv.constructStep (hi : s.Inv) {throws : Bool}
    (ht : s.step (.construct j throws) = some t) : t.Inv := by
  simp only [Nesting.step] at ht
  split at ht
  · next call valid hconnecting =>
    have hok := hi.ok j
    rw [hconnecting] at hok
    by_cases hthrows : (valid && throws) = true
    · rw [if_pos hthrows] at ht
      have hdestroyed : ∀ scope : Scope, (Object.destroyed : Object R).Ok scope j :=
        fun _ => trivial
      exact hi.dropRef rfl (fun scope _ => hdestroyed scope) ht
    · rw [if_neg hthrows] at ht
      cases ht
      refine hi.setObject ?_ ⟨hok.1, ?_, Op.Inv.construct _, ?_⟩
      · rw [hconnecting]
        cases valid <;> rfl
      · cases valid with
        | true => exact fun _ => hok.2 rfl
        | false => exact fun h => by cases h
      · intro r hr
        cases valid with
        | true => exact (Option.some.inj hr).symm
        | false => cases hr
  · cases ht

theorem Inv.step (hi : s.Inv) {a : NestAct R} (ht : s.step a = some t) : t.Inv := by
  cases a with
  | nest i => exact hi.nest ht
  | exchange i spurious => exact hi.exchange ht
  | op j a => exact hi.opStep ht
  | construct j throws => exact hi.constructStep ht
  | copySender i j =>
    simp only [Nesting.step] at ht
    split at ht
    · next call valid hsender hunused =>
      have hok := hi.ok i
      rw [hsender] at hok
      have hholds : (Object.sender call valid : Object R).holdsRef = valid := rfl
      refine hi.copyRef (by rw [hunused]; rfl) hholds (fun scope hframe => ?_) ht
      exact (show (Object.sender call valid).Ok s.scope j from hok).frame hframe
    · cases ht
  | moveSender i j =>
    simp only [Nesting.step] at ht
    split at ht
    · next call valid hsender hunused =>
      have hok := hi.ok i
      rw [hsender] at hok
      have hij : i ≠ j := by
        rintro rfl
        rw [hsender] at hunused
        cases hunused
      refine hi.moveRef hsender (by rw [hunused]; rfl) hij rfl (fun scope hframe => ?_) ht
      exact (show (Object.sender call valid).Ok s.scope j from hok).frame hframe
    · cases ht
  | connect i j moved =>
    simp only [Nesting.step] at ht
    split at ht
    · next call valid hsender hunused =>
      have hok := hi.ok i
      rw [hsender] at hok
      have hij : i ≠ j := by
        rintro rfl
        rw [hsender] at hunused
        cases hunused
      have hfree : (s.objects j).holdsRef = false := by rw [hunused]; rfl
      split_ifs at ht
      · refine hi.moveRef hsender hfree hij rfl (fun scope hframe => ?_) ht
        exact (show (Object.connecting call valid).Ok s.scope j from hok).frame hframe
      · have hholds : (Object.connecting call valid : Object R).holdsRef = valid := rfl
        refine hi.copyRef hfree hholds (fun scope hframe => ?_) ht
        exact (show (Object.connecting call valid).Ok s.scope j from hok).frame hframe
    · cases ht
  | destroySender i =>
    simp only [Nesting.step] at ht
    split at ht
    · next call valid hsender =>
      split_ifs at ht with hvalid
      · have hdestroyed : ∀ scope : Scope, (Object.destroyed : Object R).Ok scope i :=
          fun _ => trivial
        exact hi.dropRef rfl (fun scope _ => hdestroyed scope) ht
      · cases ht
        refine hi.setObject ?_ trivial
        rw [hsender]
        exact (Bool.of_not_eq_true hvalid).symm
    · cases ht
  | close =>
    simp only [Nesting.step] at ht
    obtain ⟨scope, hscope, rfl⟩ := Option.map_eq_some_iff.mp ht
    refine hi.scopeOnly hscope ?_
    cases hscope
    rfl
  | startJoin | joinDecrement | execute =>
    simp only [Nesting.step] at ht
    obtain ⟨scope, hscope, rfl⟩ := Option.map_eq_some_iff.mp ht
    refine hi.scopeOnly hscope ?_
    simp only [Scope.step] at hscope
    split_ifs at hscope
    cases hscope
    rfl

theorem inv_of_reachable (hs : (nesting R).Reachable s) : s.Inv :=
  hs.invariant Inv.init fun _ _ _ hi _ ht => hi.step ht

/-- What the scope promises about the work that is nested in it. -/
structure IsSafe (s : Nesting R) : Prop where
  scopeNoFault : s.scope.fault = false
  /-- a source is used only while it exists -/
  noFault : ∀ i call o, s.objects i = .op call o → o.fault = false
  once : ∀ i call o, s.objects i = .op call o → o.delivered.length ≤ 1
  result : ∀ i call o, s.objects i = .op call o → ∀ r, .of r ∈ o.delivered →
    o.active = true ∧ o.completion = some r
  /-- work that is nested after `close()` has returned does not run, and is stopped -/
  late : ∀ i call o, s.objects i = .op call o → s.scope.late call = true →
    o.childRuns = false ∧ o.delivered = if o.start = .returned then [.stopped] else []
  executedOnce : s.scope.executed ≤ 1
  /-- the join operation waits for every source that runs or may still be started -/
  joinWaits : 0 < s.scope.pending + s.scope.executed → (∀ i, (s.objects i).holdsRef = false) ∧
    ∀ i call o, s.objects i = .op call o → o.childRuns = false ∧
      (o.start = .notCalled → o.destroyed = false → o.active = false)
  /-- and for nothing else -/
  joins : s.scope.join = .decremented → (∀ i, (s.objects i).holdsRef = false) →
    s.scope.pending + s.scope.executed = 1
  /-- an operation that was started completes, once its source has -/
  completes : ∀ i call o, s.objects i = .op call o → o.destroyed = false →
    s.step (.op i .start) = none → s.step (.op i .set) = none → s.step .execute = none →
    o.childRuns = false → o.delivered.length = 1

theorem Inv.op (hi : s.Inv) {i call : CallId} {o : Op R} (hop : s.objects i = .op call o) :
    (o.active = true → s.scope.late call = false) ∧ o.Inv := by
  have hok := hi.ok i
  rw [hop] at hok
  exact ⟨hok.2.1, hok.2.2.1⟩

theorem Inv.holdsRef_op (hi : s.Inv) {i call : CallId} {o : Op R} (hop : s.objects i = .op call o) :
    (s.objects i).holdsRef = o.holds := by
  rw [hop]
  exact (hi.op hop).2.scopeRef

theorem Inv.joinWaits (hi : s.Inv) (hpos : 0 < s.scope.pending + s.scope.executed) :
    (∀ i, (s.objects i).holdsRef = false) ∧ ∀ i call o, s.objects i = .op call o →
      o.childRuns = false ∧ (o.start = .notCalled → o.destroyed = false → o.active = false) := by
  have hdrained : Drained s.scope.join s.scope.refs := by
    by_contra h
    have hdecided := hi.scope.decided
    rw [if_neg h] at hdecided
    omega
  have hnone : ∀ i, (s.objects i).holdsRef = false := by
    intro i
    by_contra h
    have hmem := (hi.refs i).mpr (Bool.of_not_eq_false h)
    rw [hdrained.2] at hmem
    exact Finset.notMem_empty _ hmem
  refine ⟨hnone, fun i call o hop => ?_⟩
  obtain ⟨-, hinv⟩ := hi.op hop
  have hholds : o.holds = false := (hi.holdsRef_op hop).symm.trans (hnone i)
  constructor
  · by_contra h
    have hrun := Bool.of_not_eq_false h
    obtain ⟨hactive, -, hset⟩ := hinv.childRuns_iff.mp hrun
    simp [Op.holds, hactive, hset, hinv.alive_of_childRuns hrun] at hholds
  · intro hstart hdestroyed
    by_contra hactive
    simp [Op.holds, hactive, hdestroyed, hinv.unstarted hstart] at hholds

theorem Inv.completes (hi : s.Inv) {i call : CallId} {o : Op R} (hop : s.objects i = .op call o)
    (hdestroyed : o.destroyed = false) (hstart : s.step (.op i .start) = none)
    (hset : s.step (.op i .set) = none) (hexecute : s.step .execute = none)
    (hrun : o.childRuns = false) : o.delivered.length = 1 := by
  obtain ⟨-, hinv⟩ := hi.op hop
  have hpending : s.scope.pending = 0 := by
    by_contra h
    simp [Nesting.step, Scope.step, Nat.pos_of_ne_zero h] at hexecute
  have hostart : o.step .start = none := by
    cases ho : o.step .start with
    | none => rfl
    | some o' => simp [Nesting.step, hop, executes, ho, Op.released] at hstart
  have hoset : o.step .set = none := by
    cases ho : o.step .set with
    | none => rfl
    | some o' =>
      cases hr : o.released .set with
      | none => simp [Nesting.step, hop, executes, hpending, ho, hr] at hset
      | some r =>
        -- the reference is there to be given up
        obtain ⟨href, -⟩ := released_eq ho hr
        have hmem : r ∈ s.scope.refs := by
          have hok := hi.ok i
          rw [hop] at hok
          obtain rfl := hok.2.2.2 r href
          refine (hi.refs r).mpr ?_
          rw [hop]
          exact Option.isSome_iff_exists.mpr ⟨r, href⟩
        simp [Nesting.step, hop, executes, hpending, ho, hr, Nesting.dropRef, Nesting.scopeStep,
          Scope.step, hmem] at hset
  have hne := hinv.delivered_ne_nil hdestroyed hostart hoset (by simp [hrun])
  have hle := hinv.once
  have hpos := List.length_pos_of_ne_nil hne
  omega

/-- In every interleaving of calls of `nest()`, of copies and moves of the senders, of their
operations and of one `start_join`. -/
theorem nesting_is_safe (hs : (nesting R).Reachable s) : s.IsSafe := by
  have hi := inv_of_reachable hs
  have hdecided := hi.scope.decided
  refine ⟨hi.scope.noFault, fun i call o hop => (hi.op hop).2.noFault,
    fun i call o hop => (hi.op hop).2.once, fun i call o hop r hr => (hi.op hop).2.result hr, ?_,
    ?_, hi.joinWaits, ?_, fun i call o hop => hi.completes hop⟩
  · intro i call o hop hlate
    obtain ⟨hvalid, hinv⟩ := hi.op hop
    have hactive : o.active = false := by
      by_contra h
      rw [hvalid (Bool.of_not_eq_false h)] at hlate
      cases hlate
    refine ⟨?_, (hinv.inactive hactive).2.2.2.2⟩
    by_contra h
    have := (hinv.childRuns_iff.mp (Bool.of_not_eq_false h)).1
    rw [hactive] at this
    cases this
  · split_ifs at hdecided <;> omega
  · intro hjoin hnone
    have hdrained : Drained s.scope.join s.scope.refs := by
      refine ⟨hjoin, Finset.eq_empty_of_forall_notMem fun i hmem => ?_⟩
      have h := (hi.refs i).mp hmem
      rw [hnone i] at h
      cases h
    rw [hdecided, if_pos hdrained]

/-- Two operations of one sender and a late call: the join operation is executed by the operation
that completes last. -/
theorem nesting_run : ∃ s : Nesting Unit, (s.scope.executed = 1 ∧ s.last = some 3) ∧ s.IsSafe := by
  obtain ⟨s, hs, hp⟩ := (nesting Unit).exists_reachable
    [.nest 0, .exchange 0 true, .exchange 0 false, .connect 0 1 false, .construct 1 false,
      .copySender 0 2, .connect 2 3 true, .construct 3 false, .close, .nest 4, .connect 4 5 true,
      .construct 5 false, .op 5 .start, .op 5 .start, .destroySender 0, .op 1 .start, .startJoin,
      .joinDecrement, .op 1 (.complete ()), .op 1 .set, .op 1 .set, .op 3 .start,
      .op 3 (.complete ()), .op 3 .set, .execute, .op 3 .set]
    (fun s => s.scope.executed = 1 ∧ s.last = some 3) (by decide +kernel)
  exact ⟨s, by simpa using hp, nesting_is_safe hs⟩

end Nesting

end Squiz.CountingScope.Nest
