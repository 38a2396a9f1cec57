import Squiz.Detail.IntrusiveList

/-! Any number of lists of type `intrusive_list` over one heap of items, and the sequences that they
stand for. -/
namespace Squiz.Detail
open Squiz.Lib

/-- A list is `none` before it is constructed and after it is destroyed. -/
structure IntrusiveLists (ι α : Type) where
  links : Links α := {}
  lists : ι → Option (IntrusiveList α) := fun _ => none

inductive ListOp (ι α : Type) where
  | construct (i : ι)
  /-- the list `i` from `std::move` of the list `j` -/
  | moveConstruct (i j : ι)
  | destroy (i : ι)
  | pushFront (i : ι) (item : α)
  | pushBack (i : ι) (item : α)
  | popFront (i : ι)
  | popBack (i : ι)
  | remove (i : ι) (item : α)
  | release (i : ι)
  /-- to the list `i`, `std::move` of the list `j` -/
  | append (i j : ι)
  | prepend (i j : ι)

/-- The sequence of every list that exists. -/
abbrev Sequences (ι α : Type) := ι → Option (List α)

variable {ι α : Type} [DecidableEq ι] [DecidableEq α]

namespace IntrusiveLists

/-- What an operation leaves in the heap and in its list. -/
def put (s : IntrusiveLists ι α) (i : ι) (r : Links α × IntrusiveList α) : IntrusiveLists ι α :=
  { links := r.1, lists := Function.update s.lists i (some r.2) }

/-- The returned pointer and the state after an operation, `none` where an assertion fails, a list
does not exist or one is constructed again. -/
def step (s : IntrusiveLists ι α) : ListOp ι α → Option (Option α × IntrusiveLists ι α)
  | .construct i =>
    match s.lists i with
    | none => some (none, s.put i (s.links, {}))
    | some _ => none
  | .moveConstruct i j =>
    match s.lists i, s.lists j with
    | none, some other =>
      let (l, other) := other.move
      some (none, (s.put j (s.links, other)).put i (s.links, l))
    | _, _ => none
  | .destroy i =>
    (s.lists i).bind fun l =>
      if l.empty then some (none, { s with lists := Function.update s.lists i none }) else none
  | .pushFront i item => (s.lists i).map fun l => (none, s.put i (l.pushFront s.links item))
  | .pushBack i item => (s.lists i).map fun l => (none, s.put i (l.pushBack s.links item))
  | .popFront i =>
    (s.lists i).bind fun l => (l.popFront s.links).map fun (item, r) => (some item, s.put i r)
  | .popBack i =>
    (s.lists i).bind fun l => (l.popBack s.links).map fun (item, r) => (some item, s.put i r)
  | .remove i item =>
    (s.lists i).bind fun l =>
      if l.empty then none else some (none, s.put i (l.remove s.links item))
  | .release i =>
    (s.lists i).map fun l =>
      let (item, l) := l.release
      (item, s.put i (s.links, l))
  -- the parameter is constructed from the list `j` before the body runs
  | .append i j =>
    (s.lists j).bind fun other =>
      let (parameter, other) := other.move
      let s := s.put j (s.links, other)
      (s.lists i).map fun l => (none, s.put i (l.append s.links parameter))
  | .prepend i j =>
    (s.lists j).bind fun other =>
      let (parameter, other) := other.move
      let s := s.put j (s.links, other)
      (s.lists i).map fun l => (none, s.put i (l.prepend s.links parameter))

end IntrusiveLists

namespace ListOp

/-- The lists that the operation is about. -/
def lists : ListOp ι α → List ι
  | construct i | destroy i | pushFront i _ | pushBack i _ | popFront i | popBack i | remove i _
  | release i => [i]
  | moveConstruct i j | append i j | prepend i j => [i, j]

/-- Takes the sequence of the list `j` and joins it to the one of the list `i`. -/
def join (q : Sequences ι α) (i j : ι) (f : List α → List α → List α) : Sequences ι α :=
  let q' := Function.update q j (some [])
  Function.update q' i ((q' i).bind fun items => (q j).map (f items))

/-- The sequences that the operation specifies. -/
def after (q : Sequences ι α) : ListOp ι α → Sequences ι α
  | construct i => Function.update q i (some [])
  | moveConstruct i j => Function.update (Function.update q j (some [])) i (q j)
  | destroy i => Function.update q i none
  | pushFront i item => Function.update q i ((q i).map (item :: ·))
  | pushBack i item => Function.update q i ((q i).map (· ++ [item]))
  | popFront i => Function.update q i ((q i).map List.tail)
  | popBack i => Function.update q i ((q i).map List.dropLast)
  | remove i item => Function.update q i ((q i).map (·.erase item))
  | release i => Function.update q i (some [])
  | append i j => join q i j fun items other => items ++ other
  | prepend i j => join q i j fun items other => other ++ items

/-- The item that the operation returns. -/
def returned (q : Sequences ι α) : ListOp ι α → Option α
  | popFront i | release i => (q i).bind List.head?
  | popBack i => (q i).bind List.getLast?
  | _ => none

/-- The items that the operation hands out as a chain. -/
def chain (q : Sequences ι α) : ListOp ι α → Option (List α)
  | release i => q i
  | _ => none

/-- What the callers promise: the lists exist, an item that is pushed is in none of them, there is
an item to pop or remove, and a list that is destroyed is empty. -/
def Allowed (q : Sequences ι α) : ListOp ι α → Prop
  | construct i => q i = none
  | moveConstruct i j => q i = none ∧ ∃ items, q j = some items
  | destroy i => q i = some []
  | pushFront i item | pushBack i item =>
    (∃ items, q i = some items) ∧ ∀ j items, q j = some items → item ∉ items
  | popFront i | popBack i => ∃ items, q i = some items ∧ items ≠ []
  | remove i item => ∃ items, q i = some items ∧ item ∈ items
  | release i => ∃ items, q i = some items
  | append i j | prepend i j => (∃ items, q i = some items) ∧ ∃ items, q j = some items

/-- Only empty lists are released. -/
def ReleasesEmpty (q : Sequences ι α) (op : ListOp ι α) : Prop :=
  ∀ i, op = release i → q i = some []

/-- The property of every operation of a run and the sequences before it. -/
def Along (p : Sequences ι α → ListOp ι α → Prop) :
    Sequences ι α → List (ListOp ι α) → Prop
  | _, [] => True
  | q, op :: ops => p q op ∧ Along p (op.after q) ops

end ListOp

namespace IntrusiveLists

/-- Every list visits its sequence from both ends, and every item is in one list at most. -/
structure Represents (s : IntrusiveLists ι α) (q : Sequences ι α) : Prop where
  holds : ∀ i, Option.Rel (fun l items => l.Holds s.links items) (s.lists i) (q i)
  disjoint : ∀ i j items items', q i = some items → q j = some items' → i ≠ j →
    ∀ a ∈ items, a ∉ items'

/-- What is promised of an operation `op` that returns `r` and leads from `s` to `t`. -/
structure Correct (s : IntrusiveLists ι α) (q : Sequences ι α) (op : ListOp ι α) (r : Option α)
    (t : IntrusiveLists ι α) : Prop where
  ends : ∀ i l, t.lists i = some l → (l.head = none ↔ l.tail = none)
  represents : t.Represents (op.after q)
  returned : r = op.returned q
  chain : ∀ items, op.chain q = some items → Linked t.links.next r items
  others : ∀ i items, i ∉ op.lists → q i = some items →
    t.lists i = s.lists i ∧ ∀ a ∈ items, t.links.next a = s.links.next a ∧
      t.links.prev a = s.links.prev a

/-- Every operation of the run is executed and keeps its promises. -/
def AlwaysCorrect : IntrusiveLists ι α → Sequences ι α → List (ListOp ι α) → Prop
  | _, _, [] => True
  | s, q, op :: ops =>
    ∃ r t, s.step op = some (r, t) ∧ s.Correct q op r t ∧ AlwaysCorrect t (op.after q) ops

variable {s t : IntrusiveLists ι α} {q : Sequences ι α} {i j : ι} {items : List α}

omit [DecidableEq ι] [DecidableEq α] in
theorem Represents.of_some (h : s.Represents q) (hi : q i = some items) :
    ∃ l, s.lists i = some l ∧ l.Holds s.links items := by
  have hrel := h.holds i
  rw [hi] at hrel
  cases hl : s.lists i with
  | none =>
    rw [hl] at hrel
    cases hrel
  | some l =>
    rw [hl] at hrel
    cases hrel with
    | some hholds => exact ⟨l, rfl, hholds⟩

omit [DecidableEq ι] [DecidableEq α] in
theorem Represents.of_none (h : s.Represents q) (hi : q i = none) : s.lists i = none := by
  have hrel := h.holds i
  rw [hi] at hrel
  cases hl : s.lists i with
  | none => rfl
  | some l =>
    rw [hl] at hrel
    cases hrel

omit [DecidableEq ι] [DecidableEq α] in
theorem Represents.ends (h : s.Represents q) {l : IntrusiveList α} (hl : s.lists i = some l) :
    l.head = none ↔ l.tail = none := by
  cases hi : q i with
  | none =>
    rw [h.of_none hi] at hl
    cases hl
  | some items =>
    obtain ⟨l', hl', hholds⟩ := h.of_some hi
    rw [hl] at hl'
    cases hl'
    exact hholds.ends_iff

/-- The items are in no list but perhaps the list `i`. -/
def Fresh (q : Sequences ι α) (i : ι) (items : List α) : Prop :=
  ∀ j items', j ≠ i → q j = some items' → ∀ a ∈ items', a ∉ items

omit [DecidableEq ι] [DecidableEq α] in
theorem Represents.fresh (h : s.Represents q) (hi : q i = some items) : Fresh q i items := by
  intro j items' hj hq
  exact h.disjoint j i items' items hq hi hj

omit [DecidableEq ι] [DecidableEq α] in
theorem fresh_singleton {item : α} (h : ∀ j items, q j = some items → item ∉ items) :
    Fresh q i [item] := by
  intro j items _ hq a ha hmem
  obtain rfl := List.mem_singleton.mp hmem
  exact h j items hq ha

omit [DecidableEq ι] [DecidableEq α] in
theorem Fresh.mono {items' : List α} (h : Fresh q i items) (hsub : ∀ a ∈ items', a ∈ items) :
    Fresh q i items' :=
  fun j xs hj hq a ha hmem => h j xs hj hq a ha (hsub a hmem)

omit [DecidableEq ι] [DecidableEq α] in
theorem Fresh.append {items' : List α} (h : Fresh q i items) (h' : Fresh q i items') :
    Fresh q i (items ++ items') := by
  intro j xs hj hq a ha hmem
  rcases List.mem_append.mp hmem with hmem | hmem
  · exact h j xs hj hq a ha hmem
  · exact h' j xs hj hq a ha hmem

omit [DecidableEq α] in
/-- A list that stands for other items than the other lists may be written to. -/
theorem Represents.put (h : s.Represents q) {r : Links α × IntrusiveList α}
    (hr : r.2.Holds r.1 items) (hchanged : s.links.ChangedOnly items r.1)
    (hfresh : Fresh q i items) :
    (s.put i r).Represents (Function.update q i (some items)) where
  holds k := by
    by_cases hk : k = i
    · subst hk
      simp only [IntrusiveLists.put, Function.update_self]
      exact Option.Rel.some hr
    · simp only [IntrusiveLists.put, Function.update_of_ne hk]
      cases hq : q k with
      | none =>
        rw [h.of_none hq]
        exact Option.Rel.none
      | some items' =>
        obtain ⟨l, hl, hholds⟩ := h.of_some hq
        rw [hl]
        exact Option.Rel.some (hholds.of_changedOnly hchanged (hfresh k items' hk hq))
  disjoint k k' xs ys hxs hys hkk' := by
    rw [Function.update_apply] at hxs hys
    split_ifs at hxs hys with hk hk'
    · exact absurd (hk.trans hk'.symm) hkk'
    · obtain rfl := Option.some.inj hxs
      exact fun a ha hmem => hfresh k' ys hk' hys a hmem ha
    · obtain rfl := Option.some.inj hys
      exact hfresh k xs hk hxs
    · exact h.disjoint k k' xs ys hxs hys hkk'

omit [DecidableEq α] in
theorem put_others {r : Links α × IntrusiveList α} (hchanged : s.links.ChangedOnly items r.1)
    (hfresh : Fresh q i items) {k : ι} {xs : List α} (hk : k ≠ i) (hq : q k = some xs) :
    (s.put i r).lists k = s.lists k ∧ ∀ a ∈ xs, (s.put i r).links.next a = s.links.next a ∧
      (s.put i r).links.prev a = s.links.prev a :=
  ⟨Function.update_of_ne hk _ _, fun a ha => hchanged a (hfresh k xs hk hq a ha)⟩

theorem Represents.correct {op : ListOp ι α} {p : Option α}
    (ht : t.Represents (op.after q)) (hreturned : p = op.returned q)
    (hchain : ∀ items, op.chain q = some items → Linked t.links.next p items)
    (hothers : ∀ i items, i ∉ op.lists → q i = some items →
      t.lists i = s.lists i ∧ ∀ a ∈ items, t.links.next a = s.links.next a ∧
        t.links.prev a = s.links.prev a) : s.Correct q op p t where
  ends _ _ hl := ht.ends hl
  represents := ht
  returned := hreturned
  chain := hchain
  others := hothers

/-- An operation on one list. -/
theorem Represents.correct_put (h : s.Represents q) {op : ListOp ι α} {p : Option α}
    {r : Links α × IntrusiveList α} (hafter : op.after q = Function.update q i (some items))
    (hlists : op.lists = [i]) (hreturned : p = op.returned q)
    (hchain : op.chain q = none) (hr : r.2.Holds r.1 items)
    (hchanged : s.links.ChangedOnly items r.1) (hfresh : Fresh q i items) :
    s.Correct q op p (s.put i r) := by
  have hput : (s.put i r).Represents (op.after q) := hafter ▸ h.put hr hchanged hfresh
  apply hput.correct hreturned
  · intro xs hxs
    rw [hchain] at hxs
    cases hxs
  · intro k xs hk hq
    rw [hlists, List.mem_singleton] at hk
    exact put_others hchanged hfresh hk hq

omit [DecidableEq α] in
/-- The list `j` after its items were moved out of it. -/
theorem Represents.clear (h : s.Represents q) (j : ι) :
    (s.put j (s.links, {})).Represents (Function.update q j (some [])) := by
  apply h.put IntrusiveList.holds_nil
  · exact fun _ _ => ⟨rfl, rfl⟩
  · exact fun _ _ _ _ _ _ => List.not_mem_nil

omit [DecidableEq α] in
theorem Represents.disjoint_clear (h : s.Represents q) (hj : q j = some items) {xs : List α}
    (hi : Function.update q j (some []) i = some xs) : ∀ a ∈ xs, a ∉ items := by
  rw [Function.update_apply] at hi
  split_ifs at hi with hij
  · obtain rfl := Option.some.inj hi
    nofun
  · exact h.disjoint i j xs items hi hj hij

/-- An operation on the list `i` that moves the items out of the list `j`. -/
theorem Represents.correct_move (h : s.Represents q) {op : ListOp ι α} {p : Option α}
    {r : Links α × IntrusiveList α}
    (hafter : op.after q = Function.update (Function.update q j (some [])) i (some items))
    (hlists : op.lists = [i, j]) (hreturned : p = op.returned q)
    (hchain : op.chain q = none) (hr : r.2.Holds r.1 items)
    (hchanged : s.links.ChangedOnly items r.1)
    (hfresh : Fresh (Function.update q j (some [])) i items) :
    s.Correct q op p ((s.put j (s.links, {})).put i r) := by
  have hput : ((s.put j (s.links, {})).put i r).Represents (op.after q) :=
    hafter ▸ (h.clear j).put hr hchanged hfresh
  apply hput.correct hreturned
  · intro xs hxs
    rw [hchain] at hxs
    cases hxs
  · intro k xs hk hq
    rw [hlists, List.mem_pair, not_or] at hk
    have hclear : Function.update q j (some []) k = some xs := by
      rw [Function.update_of_ne hk.2, hq]
    obtain ⟨hlist, hlinks⟩ := put_others (s := s.put j (s.links, {})) hchanged hfresh hk.1 hclear
    exact ⟨hlist.trans (Function.update_of_ne hk.2 _ _), hlinks⟩

/-- The operation is executed and keeps its promises. -/
def Executes (s : IntrusiveLists ι α) (q : Sequences ι α) (op : ListOp ι α) : Prop :=
  ∃ r t, s.step op = some (r, t) ∧ s.Correct q op r t

namespace Represents
variable {item : α}

theorem construct (h : s.Represents q) (hop : (ListOp.construct i).Allowed q) :
    s.Executes q (.construct i) := by
  have hi : s.lists i = none := h.of_none hop
  refine ⟨none, s.put i (s.links, {}), by rw [step, hi], ?_⟩
  apply h.correct_put rfl rfl rfl rfl IntrusiveList.holds_nil
  · exact fun _ _ => ⟨rfl, rfl⟩
  · exact fun _ _ _ _ _ _ => List.not_mem_nil

theorem pushFront (h : s.Represents q) (hop : (ListOp.pushFront i item).Allowed q) :
    s.Executes q (.pushFront i item) := by
  obtain ⟨⟨items, hi⟩, hfree⟩ := hop
  obtain ⟨l, hl, hholds⟩ := h.of_some hi
  refine ⟨none, s.put i (l.pushFront s.links item), by rw [step, hl]; rfl, ?_⟩
  apply h.correct_put ?_ rfl rfl rfl (hholds.pushFront (hfree i items hi))
    (IntrusiveList.changedOnly_pushFront hholds item)
  · exact (fresh_singleton hfree).append (h.fresh hi)
  · rw [ListOp.after, hi]
    rfl

theorem pushBack (h : s.Represents q) (hop : (ListOp.pushBack i item).Allowed q) :
    s.Executes q (.pushBack i item) := by
  obtain ⟨⟨items, hi⟩, hfree⟩ := hop
  obtain ⟨l, hl, hholds⟩ := h.of_some hi
  have hchanged : s.links.ChangedOnly (items ++ [item]) (l.pushBack s.links item).1 := by
    intro a ha
    apply IntrusiveList.changedOnly_pushBack hholds item a
    simpa [or_comm] using ha
  refine ⟨none, s.put i (l.pushBack s.links item), by rw [step, hl]; rfl, ?_⟩
  apply h.correct_put ?_ rfl rfl rfl (hholds.pushBack (hfree i items hi)) hchanged
  · exact (h.fresh hi).append (fresh_singleton hfree)
  · rw [ListOp.after, hi]
    rfl

theorem popFront (h : s.Represents q) (hop : (ListOp.popFront i).Allowed q) :
    s.Executes q (.popFront i) := by
  obtain ⟨items, hi, hne⟩ := hop
  obtain ⟨l, hl, hholds⟩ := h.of_some hi
  obtain ⟨a, items, rfl⟩ := List.exists_cons_of_ne_nil hne
  obtain ⟨m, l', hpop, hholds', hchanged⟩ := hholds.popFront
  refine ⟨some a, s.put i (m, l'), by rw [step, hl, Option.bind_some, hpop]; rfl, ?_⟩
  apply h.correct_put ?_ rfl ?_ rfl hholds' hchanged
  · exact (h.fresh hi).mono fun b hb => List.mem_cons_of_mem a hb
  · rw [ListOp.after, hi]
    rfl
  · rw [ListOp.returned, hi]
    rfl

theorem popBack (h : s.Represents q) (hop : (ListOp.popBack i).Allowed q) :
    s.Executes q (.popBack i) := by
  obtain ⟨items, hi, hne⟩ := hop
  obtain ⟨l, hl, hholds⟩ := h.of_some hi
  rcases List.eq_nil_or_concat items with rfl | ⟨items, a, rfl⟩
  · exact absurd rfl hne
  rw [List.concat_eq_append] at hi hholds
  obtain ⟨m, l', hpop, hholds', hchanged⟩ := hholds.popBack
  refine ⟨some a, s.put i (m, l'), by rw [step, hl, Option.bind_some, hpop]; rfl, ?_⟩
  apply h.correct_put ?_ rfl ?_ rfl hholds' hchanged
  · exact (h.fresh hi).mono fun b hb => List.mem_append_left _ hb
  · rw [ListOp.after, hi, Option.map_some, List.dropLast_concat]
  · rw [ListOp.returned, hi, Option.bind_some, List.getLast?_concat]

theorem remove (h : s.Represents q) (hop : (ListOp.remove i item).Allowed q) :
    s.Executes q (.remove i item) := by
  obtain ⟨items, hi, hmem⟩ := hop
  obtain ⟨l, hl, hholds⟩ := h.of_some hi
  obtain ⟨front, back, rfl⟩ := List.append_of_mem hmem
  have hempty : ¬ l.empty = true := by
    rw [hholds.empty_eq]
    simp
  have herase : (front ++ item :: back).erase item = front ++ back := by
    have hfront : item ∉ front := fun hmem' =>
      (List.nodup_append.mp hholds.forward.nodup).2.2 item hmem' item List.mem_cons_self rfl
    rw [List.erase_append_right _ hfront, List.erase_cons_head]
  refine ⟨none, s.put i (l.remove s.links item), ?_, ?_⟩
  · rw [step, hl, Option.bind_some, if_neg hempty]
  apply h.correct_put ?_ rfl rfl rfl hholds.remove
    (IntrusiveList.changedOnly_remove hholds)
  · exact (h.fresh hi).mono fun b hb => by
      rcases List.mem_append.mp hb with hb | hb
      · exact List.mem_append_left _ hb
      · exact List.mem_append_right _ (List.mem_cons_of_mem item hb)
  · rw [ListOp.after, hi, Option.map_some, herase]

theorem destroy (h : s.Represents q) (hop : (ListOp.destroy i).Allowed q) :
    s.Executes q (.destroy i) := by
  obtain ⟨l, hl, hholds⟩ := h.of_some hop
  have hempty : l.empty = true := by rw [hholds.empty_eq]; rfl
  have hnone : IntrusiveLists.Represents { s with lists := Function.update s.lists i none }
      (Function.update q i none) := by
    constructor
    case holds =>
      intro k
      by_cases hk : k = i
      · subst hk
        simp only [Function.update_self]
        exact Option.Rel.none
      · simp only [Function.update_of_ne hk]
        exact h.holds k
    case disjoint =>
      intro k k' xs ys hxs hys
      rw [Function.update_apply] at hxs hys
      split_ifs at hxs hys
      exact h.disjoint k k' xs ys hxs hys
  refine ⟨none, _, by rw [step, hl, Option.bind_some, if_pos hempty], ?_⟩
  apply hnone.correct rfl
  · nofun
  · intro k xs hk _
    rw [ListOp.lists, List.mem_singleton] at hk
    exact ⟨Function.update_of_ne hk _ _, fun _ _ => ⟨rfl, rfl⟩⟩

theorem release (h : s.Represents q) (hi : q i = some []) : s.Executes q (.release i) := by
  obtain ⟨l, hl, hholds⟩ := h.of_some hi
  have hhead : l.head = none := hholds.head_eq_none.mpr rfl
  obtain rfl := hholds.eq_empty hhead
  have hput := h.clear i
  refine ⟨none, s.put i (s.links, {}), by rw [step, hl]; rfl, ?_⟩
  apply hput.correct
  · rw [ListOp.returned, hi]
    rfl
  · intro xs hxs
    rw [ListOp.chain, hi] at hxs
    cases hxs
    rfl
  · intro k xs hk _
    rw [ListOp.lists, List.mem_singleton] at hk
    exact ⟨Function.update_of_ne hk _ _, fun _ _ => ⟨rfl, rfl⟩⟩

theorem moveConstruct (h : s.Represents q) (hop : (ListOp.moveConstruct i j).Allowed q) :
    s.Executes q (.moveConstruct i j) := by
  obtain ⟨hi, items, hj⟩ := hop
  obtain ⟨l, hl, hholds⟩ := h.of_some hj
  refine ⟨none, (s.put j (s.links, {})).put i (s.links, l), ?_, ?_⟩
  · rw [step, h.of_none hi, hl]
    rfl
  apply h.correct_move ?_ rfl rfl rfl hholds
  · exact fun _ _ => ⟨rfl, rfl⟩
  · exact fun _ _ _ hq => h.disjoint_clear hj hq
  · rw [ListOp.after, hj]

/-- An operation on the list `i` whose parameter is constructed from the list `j`. -/
theorem join (h : s.Represents q) {op : ListOp ι α} {f : List α → List α → List α}
    {run : Links α → IntrusiveList α → IntrusiveList α → Links α × IntrusiveList α}
    (hstep : s.step op = (s.lists j).bind fun other =>
      ((s.put j (s.links, {})).lists i).map fun l =>
        (none, (s.put j (s.links, {})).put i (run s.links l other)))
    (hafter : op.after q = ListOp.join q i j f) (hlists : op.lists = [i, j])
    (hreturned : op.returned q = none) (hchain : op.chain q = none)
    (hrun : ∀ l other xs ys, l.Holds s.links xs → other.Holds s.links ys → (∀ a ∈ xs, a ∉ ys) →
      (run s.links l other).2.Holds (run s.links l other).1 (f xs ys) ∧
        s.links.ChangedOnly (f xs ys) (run s.links l other).1)
    (hmem : ∀ xs ys, ∀ a ∈ f xs ys, a ∈ xs ++ ys)
    (hi : ∃ xs, q i = some xs) (hj : ∃ ys, q j = some ys) : s.Executes q op := by
  obtain ⟨ys, hj⟩ := hj
  have hclear := h.clear j
  obtain ⟨xs, hxs⟩ : ∃ xs, Function.update q j (some []) i = some xs := by
    obtain ⟨xs, hi⟩ := hi
    rw [Function.update_apply]
    split_ifs
    · exact ⟨[], rfl⟩
    · exact ⟨xs, hi⟩
  obtain ⟨other, hother, hys⟩ := h.of_some hj
  obtain ⟨l, hl, hholds⟩ := hclear.of_some hxs
  have hfresh : Fresh (Function.update q j (some [])) i ys := fun _ _ _ hq => h.disjoint_clear hj hq
  obtain ⟨hjoined, hchanged⟩ := hrun l other xs ys hholds hys (h.disjoint_clear hj hxs)
  refine ⟨none, (s.put j (s.links, {})).put i (run s.links l other), ?_, ?_⟩
  · rw [hstep, hother, Option.bind_some, hl, Option.map_some]
  apply h.correct_move ?_ hlists hreturned.symm hchain hjoined hchanged
  · exact ((hclear.fresh hxs).append hfresh).mono (hmem xs ys)
  · rw [hafter, ListOp.join, hxs, hj]
    rfl

theorem append (h : s.Represents q) (hop : (ListOp.append i j).Allowed q) :
    s.Executes q (.append i j) := by
  have hrun : ∀ (l other : IntrusiveList α) (xs ys : List α), l.Holds s.links xs →
      other.Holds s.links ys → (∀ a ∈ xs, a ∉ ys) →
      (l.append s.links other).2.Holds (l.append s.links other).1 (xs ++ ys) ∧
        s.links.ChangedOnly (xs ++ ys) (l.append s.links other).1 :=
    fun l other xs ys hl hother hd => hl.append hother hd
  exact h.join rfl rfl rfl rfl rfl hrun (fun _ _ _ ha => ha) hop.1 hop.2

theorem prepend (h : s.Represents q) (hop : (ListOp.prepend i j).Allowed q) :
    s.Executes q (.prepend i j) := by
  have hrun : ∀ (l other : IntrusiveList α) (xs ys : List α), l.Holds s.links xs →
      other.Holds s.links ys → (∀ a ∈ xs, a ∉ ys) →
      (l.prepend s.links other).2.Holds (l.prepend s.links other).1 (ys ++ xs) ∧
        s.links.ChangedOnly (ys ++ xs) (l.prepend s.links other).1 :=
    fun l other xs ys hl hother hd => hl.prepend hother fun a ha hmem => hd a hmem ha
  exact h.join rfl rfl rfl rfl rfl hrun
    (fun _ _ _ ha => List.mem_append.mpr (List.mem_append.mp ha).symm) hop.1 hop.2

/-- Every permitted operation keeps its promises, but the release of a list that is not empty. -/
theorem executes (h : s.Represents q) {op : ListOp ι α} (hop : op.Allowed q)
    (hrelease : op.ReleasesEmpty q) : s.Executes q op := by
  cases op with
  | construct i => exact h.construct hop
  | moveConstruct i j => exact h.moveConstruct hop
  | destroy i => exact h.destroy hop
  | pushFront i item => exact h.pushFront hop
  | pushBack i item => exact h.pushBack hop
  | popFront i => exact h.popFront hop
  | popBack i => exact h.popBack hop
  | remove i item => exact h.remove hop
  | release i => exact h.release (hrelease i rfl)
  | append i j => exact h.append hop
  | prepend i j => exact h.prepend hop

/-- The release of a list that is not empty hands out the whole chain and leaves `head_` null, but
`tail_` still points to the last item. -/
theorem step_release (h : s.Represents q) (hi : q i = some items) :
    s.step (.release i) = some (items.head?, s.put i (s.links, ⟨none, items.getLast?⟩)) ∧
      Linked s.links.next items.head? items := by
  obtain ⟨l, hl, hholds⟩ := h.of_some hi
  rw [← hholds.forward.head_eq, ← hholds.tail_eq]
  exact ⟨by rw [step, hl]; rfl, hholds.forward⟩

/-- After it the next item that is pushed at the back joins the chain that was handed out, and the
list stays empty. -/
theorem pushBack_release (h : s.Represents q) (hi : q i = some items) (hne : items ≠ [])
    (hitem : item ∉ items) :
    ∃ t u, s.step (.release i) = some (items.head?, t) ∧
      t.step (.pushBack i item) = some (none, u) ∧
      Linked u.links.next items.head? (items ++ [item]) ∧
      u.lists i = some ⟨none, some item⟩ := by
  obtain ⟨l, hl, hholds⟩ := h.of_some hi
  obtain ⟨last, hlast⟩ := Option.ne_none_iff_exists'.mp (mt List.getLast?_eq_none_iff.mp hne)
  have htail : l.tail = some last := hholds.tail_eq.trans hlast
  have hpush := (hholds.pushBack hitem).forward
  rw [IntrusiveList.pushBack, htail, hholds.forward.head_eq] at hpush
  let m := ((s.links.setNext item none).setPrev item (some last)).setNext last (some item)
  let t := s.put i (s.links, ⟨none, items.getLast?⟩)
  have ht : t.lists i = some ⟨none, some last⟩ := by
    rw [← hlast]
    exact Function.update_self i _ s.lists
  refine ⟨t, t.put i (m, ⟨none, some item⟩), (h.step_release hi).1, ?_, hpush,
    Function.update_self i _ t.lists⟩
  rw [step, ht]
  rfl

theorem not_correct_release (h : s.Represents q) (hi : q i = some items) (hne : items ≠ [])
    {r : Option α} {t : IntrusiveLists ι α} (ht : s.step (.release i) = some (r, t)) :
    ¬ s.Correct q (.release i) r t := by
  intro hcorrect
  rw [(h.step_release hi).1] at ht
  cases ht
  have hends := hcorrect.ends i _ (Function.update_self i _ s.lists)
  exact hne (List.getLast?_eq_none_iff.mp (hends.mp rfl))

end Represents

omit [DecidableEq ι] [DecidableEq α] in
theorem represents_init (m : Links α) :
    ({ links := m } : IntrusiveLists ι α).Represents fun _ => none where
  holds _ := Option.Rel.none
  disjoint := nofun

/-- In the runs that the callers may make, all operations keep their promises if and only if no list
is released that is not empty. -/
theorem alwaysCorrect_iff (h : s.Represents q) {ops : List (ListOp ι α)}
    (hops : ListOp.Along ListOp.Allowed q ops) :
    s.AlwaysCorrect q ops ↔ ListOp.Along ListOp.ReleasesEmpty q ops := by
  induction ops generalizing s q with
  | nil => exact iff_of_true trivial trivial
  | cons op ops ih =>
    obtain ⟨hop, hrest⟩ := hops
    constructor
    · rintro ⟨r, t, hstep, hcorrect, halways⟩
      refine ⟨?_, (ih hcorrect.represents hrest).mp halways⟩
      rintro i rfl
      obtain ⟨items, hi⟩ := hop
      by_contra hne
      exact h.not_correct_release hi (fun hnil => hne (hnil ▸ hi)) hstep hcorrect
    · rintro ⟨hrelease, hreleases⟩
      obtain ⟨r, t, hstep, hcorrect⟩ := h.executes hop hrelease
      exact ⟨r, t, hstep, hcorrect, (ih hcorrect.represents hrest).mpr hreleases⟩

/-- An item, the release of the list, and another item. -/
theorem alwaysCorrect_fails : ¬ ∀ (s : IntrusiveLists Unit ℕ) (q : Sequences Unit ℕ)
    (ops : List (ListOp Unit ℕ)), s.Represents q → ListOp.Along ListOp.Allowed q ops →
      s.AlwaysCorrect q ops := by
  intro h
  have hallowed : ListOp.Along ListOp.Allowed (fun _ : Unit => (none : Option (List ℕ)))
      [.construct (), .pushBack () 7, .release (), .pushBack () 8] := by
    simp [ListOp.Along, ListOp.Allowed, ListOp.after]
  obtain ⟨_, _, -, -, _, _, -, hpush, _, _, hstep, hrelease, -⟩ :=
    h {} _ _ (represents_init {}) hallowed
  exact hpush.represents.not_correct_release rfl (by simp) hstep hrelease

/-- Two lists of three items. -/
theorem alwaysCorrect_iff_twoLists : ({} : IntrusiveLists Bool ℕ).AlwaysCorrect (fun _ => none)
    [.construct false, .construct true, .pushBack false 1, .pushFront false 0, .pushBack true 2,
      .append false true, .remove false 1, .popFront false, .popBack false, .release true,
      .destroy true] := by
  apply (alwaysCorrect_iff (represents_init {}) ?_).mpr
  · simp [ListOp.Along, ListOp.ReleasesEmpty, ListOp.after, ListOp.join]
  · simp [ListOp.Along, ListOp.Allowed, ListOp.after, ListOp.join]

end IntrusiveLists
end Squiz.Detail
