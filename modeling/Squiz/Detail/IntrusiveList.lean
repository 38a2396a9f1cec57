import Squiz.Lib.LinkedList

/-! `intrusive_stack`, `intrusive_queue` and `intrusive_list`: lists through the pointers of their
items. -/
namespace Squiz.Detail
open Squiz.Lib

/-- The members `next` and `prev` of every item. -/
structure Links (α : Type) where
  next : α → Option α := fun _ => none
  prev : α → Option α := fun _ => none

structure IntrusiveStack (α : Type) where
  head : Option α := none
  deriving DecidableEq

structure IntrusiveQueue (α : Type) where
  head : Option α := none
  tail : Option α := none
  deriving DecidableEq

structure IntrusiveList (α : Type) where
  head : Option α := none
  tail : Option α := none
  deriving DecidableEq

variable {α : Type}

/-- `intrusive_stack::pop_front()`, which must not be called on an empty stack. -/
def IntrusiveStack.popFront (m : Links α) (s : IntrusiveStack α) :
    Option (α × IntrusiveStack α) :=
  s.head.map fun item => (item, ⟨m.next item⟩)

variable [DecidableEq α]

namespace Links

/-- `item->*Next = p` -/
def setNext (m : Links α) (item : α) (p : Option α) : Links α :=
  { m with next := Function.update m.next item p }

/-- `item->*Prev = p` -/
def setPrev (m : Links α) (item : α) (p : Option α) : Links α :=
  { m with prev := Function.update m.prev item p }

@[simp] theorem setNext_next (m : Links α) (a : α) (p : Option α) :
    (m.setNext a p).next = Function.update m.next a p := rfl

@[simp] theorem setNext_prev (m : Links α) (a : α) (p : Option α) : (m.setNext a p).prev = m.prev :=
  rfl

@[simp] theorem setPrev_next (m : Links α) (a : α) (p : Option α) : (m.setPrev a p).next = m.next :=
  rfl

@[simp] theorem setPrev_prev (m : Links α) (a : α) (p : Option α) :
    (m.setPrev a p).prev = Function.update m.prev a p := rfl

/-- Every item whose pointers the heap `m'` changes is one of these. -/
def ChangedOnly (m : Links α) (items : List α) (m' : Links α) : Prop :=
  ∀ a, a ∉ items → m'.next a = m.next a ∧ m'.prev a = m.prev a

omit [DecidableEq α] in
theorem ChangedOnly.trans {m m' m'' : Links α} {items : List α} (h : m.ChangedOnly items m')
    (h' : m'.ChangedOnly items m'') : m.ChangedOnly items m'' := fun a ha =>
  ⟨(h' a ha).1.trans (h a ha).1, (h' a ha).2.trans (h a ha).2⟩

theorem changedOnly_setNext {m : Links α} {items : List α} {a : α} (ha : a ∈ items)
    (p : Option α) : m.ChangedOnly items (m.setNext a p) := by
  intro b hb
  have hne : b ≠ a := fun hba => hb (hba ▸ ha)
  exact ⟨Function.update_of_ne hne _ _, rfl⟩

theorem changedOnly_setPrev {m : Links α} {items : List α} {a : α} (ha : a ∈ items)
    (p : Option α) : m.ChangedOnly items (m.setPrev a p) := by
  intro b hb
  have hne : b ≠ a := fun hba => hb (hba ▸ ha)
  exact ⟨rfl, Function.update_of_ne hne _ _⟩

end Links

/-- `intrusive_queue::push_front()` -/
def IntrusiveQueue.pushFront (m : Links α) (q : IntrusiveQueue α) (item : α) :
    Links α × IntrusiveQueue α :=
  (m.setNext item q.head, ⟨some item, if q.tail = none then some item else q.tail⟩)

namespace IntrusiveList

def pushFront (m : Links α) (l : IntrusiveList α) (item : α) : Links α × IntrusiveList α :=
  let m := (m.setNext item l.head).setPrev item none
  match l.head with
  | none => (m, ⟨some item, some item⟩)
  | some head => (m.setPrev head (some item), ⟨some item, l.tail⟩)

def pushBack (m : Links α) (l : IntrusiveList α) (item : α) : Links α × IntrusiveList α :=
  let m := (m.setNext item none).setPrev item l.tail
  match l.tail with
  | none => (m, ⟨some item, some item⟩)
  | some tail => (m.setNext tail (some item), ⟨l.head, some item⟩)

/-- `pop_front()`, which must not be called on an empty list. -/
def popFront (m : Links α) (l : IntrusiveList α) : Option (α × Links α × IntrusiveList α) :=
  l.head.map fun item =>
    match m.next item with
    | none => (item, m, ⟨none, none⟩)
    | some head => (item, m.setPrev head none, ⟨some head, l.tail⟩)

/-- `remove()`, for an item of the list. -/
def remove (m : Links α) (l : IntrusiveList α) (item : α) : Links α × IntrusiveList α :=
  let prev := m.prev item
  let next := m.next item
  let (m, head) := match prev with
    | some p => (m.setNext p next, l.head)
    | none => (m, next)
  match next with
  | some n => (m.setPrev n prev, ⟨head, l.tail⟩)
  | none => (m, ⟨head, prev⟩)

/-- `append()`, where a list that is not empty has a tail. -/
def append (m : Links α) (l other : IntrusiveList α) : Links α × IntrusiveList α :=
  if l.head = none then (m, other)
  else
    match other.head, l.tail with
    | some head, some tail =>
      ((m.setNext tail (some head)).setPrev head (some tail), ⟨l.head, other.tail⟩)
    | _, _ => (m, l)

def empty (l : IntrusiveList α) : Bool := l.head.isNone

/-- `intrusive_list(intrusive_list&&)`: the new list, and what is left of the other one. -/
def move (other : IntrusiveList α) : IntrusiveList α × IntrusiveList α :=
  (⟨other.head, other.tail⟩, ⟨none, none⟩)

/-- `pop_back()`, which must not be called on an empty list. -/
def popBack (m : Links α) (l : IntrusiveList α) : Option (α × Links α × IntrusiveList α) :=
  if l.empty then none
  else l.tail.map fun item =>
    match m.prev item with
    | none => (item, m, ⟨none, none⟩)
    | some tail => (item, m.setNext tail none, ⟨l.head, some tail⟩)

/-- `release()`: the chain that it hands out. Nothing is written to `tail_`. -/
def release (l : IntrusiveList α) : Option α × IntrusiveList α := (l.head, { l with head := none })

/-- `prepend()`, where a list that is not empty has a tail. -/
def prepend (m : Links α) (l other : IntrusiveList α) : Links α × IntrusiveList α :=
  match l.head with
  | none => (m, other)
  | some head =>
    match other.head, other.tail with
    | some first, some last =>
      ((m.setNext last (some head)).setPrev head (some last), ⟨some first, l.tail⟩)
    | _, _ => (m, l)

end IntrusiveList

/-- The stack holds the items, the first one on top. -/
def IntrusiveStack.Holds (m : Links α) (s : IntrusiveStack α) (items : List α) : Prop :=
  Linked m.next s.head items

structure IntrusiveQueue.Holds (m : Links α) (q : IntrusiveQueue α) (items : List α) : Prop where
  forward : Linked m.next q.head items
  tail_eq : q.tail = items.getLast?

structure IntrusiveList.Holds (m : Links α) (l : IntrusiveList α) (items : List α) : Prop where
  forward : Linked m.next l.head items
  backward : Linked m.prev l.tail items.reverse

variable {m m' : Links α} {a : α} {items items' : List α}

omit [DecidableEq α] in
theorem IntrusiveStack.Holds.popFront {s : IntrusiveStack α} (h : s.Holds m (a :: items)) :
    s.popFront m = some (a, ⟨m.next a⟩) ∧ IntrusiveStack.Holds m ⟨m.next a⟩ items := by
  obtain ⟨hhead, hrest⟩ := h
  exact ⟨by rw [IntrusiveStack.popFront, hhead]; rfl, hrest⟩

theorem IntrusiveQueue.Holds.pushFront {q : IntrusiveQueue α} (h : q.Holds m items)
    (ha : a ∉ items) : (q.pushFront m a).2.Holds (q.pushFront m a).1 (a :: items) where
  forward := h.forward.push ha
  tail_eq := by
    have htail := h.tail_eq
    simp only [IntrusiveQueue.pushFront]
    cases items with
    | nil => rw [htail, List.getLast?_nil, if_pos rfl, List.getLast?_singleton]
    | cons b items =>
      rw [htail, List.getLast?_cons_cons, if_neg]
      simp

namespace IntrusiveList
variable {l other : IntrusiveList α}

omit [DecidableEq α] in
theorem holds_nil : Holds m ({} : IntrusiveList α) [] := ⟨rfl, rfl⟩

omit [DecidableEq α] in
/-- Writes to other items leave the list. -/
theorem Holds.congr (h : l.Holds m items) (hnext : ∀ a ∈ items, m'.next a = m.next a)
    (hprev : ∀ a ∈ items, m'.prev a = m.prev a) : l.Holds m' items where
  forward := h.forward.congr hnext
  backward := h.backward.congr fun a ha => hprev a (List.mem_reverse.mp ha)

omit [DecidableEq α] in
theorem Holds.of_changedOnly (h : l.Holds m items) (hm : m.ChangedOnly items' m')
    (hd : ∀ a ∈ items, a ∉ items') : l.Holds m' items :=
  h.congr (fun a ha => (hm a (hd a ha)).1) fun a ha => (hm a (hd a ha)).2

omit [DecidableEq α] in
theorem Holds.head_eq_none (h : l.Holds m items) : l.head = none ↔ items = [] := by
  rw [h.forward.head_eq, List.head?_eq_none_iff]

omit [DecidableEq α] in
theorem Holds.ends_iff (h : l.Holds m items) : l.head = none ↔ l.tail = none := by
  rw [h.head_eq_none, h.backward.head_eq, List.head?_eq_none_iff, List.reverse_eq_nil_iff]

omit [DecidableEq α] in
theorem Holds.eq_empty (h : l.Holds m items) (hhead : l.head = none) : l = {} := by
  have htail : l.tail = none := h.ends_iff.mp hhead
  cases l
  cases hhead
  cases htail
  rfl

omit [DecidableEq α] in
theorem Holds.empty_eq (h : l.Holds m items) : l.empty = items.isEmpty := by
  rw [Bool.eq_iff_iff, IntrusiveList.empty, Option.isNone_iff_eq_none, h.head_eq_none,
    List.isEmpty_iff]

omit [DecidableEq α] in
theorem Holds.tail_eq (h : l.Holds m items) : l.tail = items.getLast? := by
  rw [h.backward.head_eq, List.head?_reverse]

theorem Holds.pushFront (h : l.Holds m items) (ha : a ∉ items) :
    (l.pushFront m a).2.Holds (l.pushFront m a).1 (a :: items) := by
  have hback : a ∉ items.reverse := fun hmem => ha (List.mem_reverse.mp hmem)
  cases items with
  | nil =>
    have hhead : l.head = none := h.forward
    simp only [IntrusiveList.pushFront, hhead]
    exact ⟨by simp, by simp⟩
  | cons b items =>
    have hhead : l.head = some b := h.forward.1
    have hab : a ≠ b := fun hab => ha (hab ▸ List.mem_cons_self)
    simp only [IntrusiveList.pushFront, hhead]
    refine ⟨?_, ?_⟩
    · have hforward : Linked m.next (some b) (b :: items) := hhead ▸ h.forward
      exact hforward.push ha
    · have hold : Linked (Function.update m.prev a none) l.tail (items.reverse ++ b :: []) := by
        have hupdate := h.backward.update hback none
        rwa [List.reverse_cons] at hupdate
      have hsingle : Linked (Function.update m.prev a none) (some a) [a] := by simp
      have hnew := hold.relink hsingle (by simpa using hab.symm)
      simpa using hnew

theorem Holds.pushBack (h : l.Holds m items) (ha : a ∉ items) :
    (l.pushBack m a).2.Holds (l.pushBack m a).1 (items ++ [a]) := by
  have hback : a ∉ items.reverse := fun hmem => ha (List.mem_reverse.mp hmem)
  rcases List.eq_nil_or_concat items with rfl | ⟨front, b, rfl⟩
  · have htail : l.tail = none := h.backward
    simp only [IntrusiveList.pushBack, htail]
    exact ⟨by simp, by simp⟩
  · rw [List.concat_eq_append] at h ha hback ⊢
    have htail : l.tail = some b := by rw [h.tail_eq]; simp
    have hab : a ≠ b := by
      rintro rfl
      simp at ha
    simp only [IntrusiveList.pushBack, htail]
    refine ⟨?_, ?_⟩
    · have hold : Linked (Function.update m.next a none) l.head (front ++ b :: []) :=
        h.forward.update ha none
      have hsingle : Linked (Function.update m.next a none) (some a) [a] := by simp
      have hnew := hold.relink hsingle (by simpa using hab.symm)
      simpa using hnew
    · have hbackward : Linked m.prev (some b) (front ++ [b]).reverse := htail ▸ h.backward
      have hnew := hbackward.push hback
      rw [List.reverse_append, List.reverse_singleton]
      exact hnew

theorem Holds.popFront (h : l.Holds m (a :: items)) :
    ∃ m' l', l.popFront m = some (a, m', l') ∧ l'.Holds m' items ∧ m.ChangedOnly items m' := by
  obtain ⟨hhead, hrest⟩ := h.forward
  cases items with
  | nil =>
    rw [Linked.nil_iff] at hrest
    refine ⟨m, ⟨none, none⟩, ?_, ⟨rfl, rfl⟩, fun _ _ => ⟨rfl, rfl⟩⟩
    simp only [IntrusiveList.popFront, hhead, Option.map_some, hrest]
  | cons b items =>
    obtain ⟨hnext, htail⟩ := hrest
    refine ⟨m.setPrev b none, ⟨some b, l.tail⟩, ?_, ⟨⟨rfl, htail⟩, ?_⟩, ?_⟩
    · simp only [IntrusiveList.popFront, hhead, Option.map_some, hnext]
    · have hbackward : Linked m.prev l.tail (items.reverse ++ b :: [a]) := by
        simpa using h.backward
      have hnew := hbackward.relink (Linked.nil_iff.mpr rfl) (by simp)
      simpa using hnew
    · exact Links.changedOnly_setPrev List.mem_cons_self none

theorem Holds.popBack (h : l.Holds m (items ++ [a])) :
    ∃ m' l', l.popBack m = some (a, m', l') ∧ l'.Holds m' items ∧ m.ChangedOnly items m' := by
  have hempty : ¬ l.empty = true := by
    rw [h.empty_eq]
    simp
  have hbackward : Linked m.prev l.tail (a :: items.reverse) := by
    simpa using h.backward
  obtain ⟨htail, hrest⟩ := hbackward
  rcases List.eq_nil_or_concat items with rfl | ⟨front, b, rfl⟩
  · have hprev : m.prev a = none := hrest
    refine ⟨m, ⟨none, none⟩, ?_, ⟨rfl, rfl⟩, fun _ _ => ⟨rfl, rfl⟩⟩
    rw [IntrusiveList.popBack, if_neg hempty, htail, Option.map_some, hprev]
  · rw [List.concat_eq_append] at h hrest ⊢
    have hlast : Linked m.prev (m.prev a) (b :: front.reverse) := by simpa using hrest
    refine ⟨m.setNext b none, ⟨l.head, some b⟩, ?_, ⟨?_, ?_⟩, ?_⟩
    · rw [IntrusiveList.popBack, if_neg hempty, htail, Option.map_some, hlast.1]
    · have hforward : Linked m.next l.head (front ++ b :: [a]) := by
        simpa using h.forward
      exact hforward.relink (Linked.nil_iff.mpr rfl) List.not_mem_nil
    · rw [hlast.1] at hrest
      exact hrest
    · exact Links.changedOnly_setNext (by simp) none

theorem Holds.remove {front back : List α} (h : l.Holds m (front ++ a :: back)) :
    (l.remove m a).2.Holds (l.remove m a).1 (front ++ back) := by
  have hnext : m.next a = back.head? := h.forward.rest.head_eq
  have hbackward : Linked m.prev l.tail (back.reverse ++ a :: front.reverse) := by
    simpa using h.backward
  have hprev : m.prev a = front.getLast? := by
    rw [hbackward.rest.head_eq, List.head?_reverse]
  have hforward : Linked (match m.prev a with
      | some p => Function.update m.next p (m.next a)
      | none => m.next) (match m.prev a with
      | some _ => l.head
      | none => m.next a) (front ++ back) := by
    rcases List.eq_nil_or_concat front with rfl | ⟨front, b, rfl⟩
    · rw [hprev]
      exact h.forward.2
    · rw [hprev, List.concat_eq_append, List.getLast?_append, List.getLast?_singleton]
      have hold : Linked m.next l.head (front ++ b :: a :: back) := by
        simpa using h.forward
      simpa using hold.unlink
  have hbackward' : Linked (match m.next a with
      | some n => Function.update m.prev n (m.prev a)
      | none => m.prev) (match m.next a with
      | some _ => l.tail
      | none => m.prev a) (front ++ back).reverse := by
    rw [hnext]
    cases back with
    | nil => simpa using hbackward.2
    | cons b back =>
      have hold : Linked m.prev l.tail (back.reverse ++ b :: a :: front.reverse) := by
        simpa using hbackward
      simpa using hold.unlink
  simp only [IntrusiveList.remove]
  cases hp : m.prev a <;> cases hn : m.next a <;> rw [hp, hn] at hforward hbackward' <;>
    exact ⟨hforward, hbackward'⟩

theorem changedOnly_remove {front back : List α} (h : l.Holds m (front ++ a :: back)) :
    m.ChangedOnly (front ++ back) (l.remove m a).1 := by
  have hnext : m.next a = back.head? := h.forward.rest.head_eq
  have hprev : m.prev a = front.getLast? := by
    have hbackward : Linked m.prev l.tail (back.reverse ++ a :: front.reverse) := by
      simpa using h.backward
    rw [hbackward.rest.head_eq, List.head?_reverse]
  have hp : ∀ p, m.prev a = some p → p ∈ front ++ back := fun p hp =>
    List.mem_append_left _ (List.mem_of_getLast? (hprev ▸ hp))
  have hn : ∀ n, m.next a = some n → n ∈ front ++ back := fun n hn =>
    List.mem_append_right _ (List.mem_of_mem_head? (hnext ▸ hn))
  simp only [IntrusiveList.remove]
  cases hpa : m.prev a with
  | none =>
    cases hna : m.next a with
    | none => exact fun _ _ => ⟨rfl, rfl⟩
    | some n => exact Links.changedOnly_setPrev (hn n hna) none
  | some p =>
    cases hna : m.next a with
    | none => exact Links.changedOnly_setNext (hp p hpa) none
    | some n =>
      exact (Links.changedOnly_setNext (hp p hpa) (some n)).trans
        (Links.changedOnly_setPrev (hn n hna) (some p))

theorem Holds.append (h : l.Holds m items) (h' : other.Holds m items')
    (hd : ∀ a ∈ items, a ∉ items') :
    (l.append m other).2.Holds (l.append m other).1 (items ++ items') ∧
      m.ChangedOnly (items ++ items') (l.append m other).1 := by
  rcases List.eq_nil_or_concat items with rfl | ⟨front, b, rfl⟩
  · have hhead : l.head = none := h.forward
    rw [IntrusiveList.append, if_pos hhead]
    exact ⟨h', fun _ _ => ⟨rfl, rfl⟩⟩
  rw [List.concat_eq_append] at h hd ⊢
  have htail : l.tail = some b := by rw [h.tail_eq]; simp
  have hhead : l.head ≠ none := fun hnone => by simpa using h.head_eq_none.mp hnone
  have hb : b ∉ items' := hd b (by simp)
  rw [IntrusiveList.append, if_neg hhead, htail]
  cases items' with
  | nil =>
    have hother : other.head = none := h'.forward
    rw [hother, List.append_nil]
    exact ⟨h, fun _ _ => ⟨rfl, rfl⟩⟩
  | cons c items' =>
    have hother : other.head = some c := h'.forward.1
    simp only [hother]
    refine ⟨⟨?_, ?_⟩, ?_⟩
    · have hforward : Linked m.next l.head (front ++ b :: []) := h.forward
      have hnew := hforward.relink h'.forward hb
      rw [hother] at hnew
      simpa using hnew
    · have hbackward : Linked m.prev other.tail (items'.reverse ++ c :: []) := by
        simpa using h'.backward
      have hc : c ∉ (front ++ [b]).reverse := fun hmem =>
        hd c (List.mem_reverse.mp hmem) List.mem_cons_self
      have hnew := hbackward.relink h.backward hc
      rw [htail] at hnew
      simpa using hnew
    · exact (Links.changedOnly_setNext (by simp) (some c)).trans
        (Links.changedOnly_setPrev (by simp) (some b))

/-- What stands before a list is what it is appended to. -/
theorem Holds.prepend_eq (h : l.Holds m items) (h' : other.Holds m items') :
    l.prepend m other = other.append m l := by
  rw [IntrusiveList.prepend, IntrusiveList.append]
  cases hhead : l.head with
  | none =>
    split_ifs with hother
    · rw [h.eq_empty hhead, h'.eq_empty hother]
    · rfl
  | some head =>
    cases hother : other.head with
    | none => rw [if_pos rfl]
    | some first =>
      obtain ⟨last, hlast⟩ := Option.ne_none_iff_exists'.mp fun hnone => by
        rw [h'.ends_iff.mpr hnone] at hother
        cases hother
      rw [if_neg (by simp), hlast]

theorem Holds.prepend (h : l.Holds m items) (h' : other.Holds m items')
    (hd : ∀ a ∈ items', a ∉ items) :
    (l.prepend m other).2.Holds (l.prepend m other).1 (items' ++ items) ∧
      m.ChangedOnly (items' ++ items) (l.prepend m other).1 := by
  rw [h.prepend_eq h']
  exact h'.append h hd

theorem changedOnly_pushFront (h : l.Holds m items) (a : α) :
    m.ChangedOnly (a :: items) (l.pushFront m a).1 := by
  have hitem : m.ChangedOnly (a :: items) ((m.setNext a l.head).setPrev a none) :=
    (Links.changedOnly_setNext List.mem_cons_self _).trans
      (Links.changedOnly_setPrev List.mem_cons_self _)
  simp only [IntrusiveList.pushFront]
  cases hhead : l.head with
  | none => simpa only [hhead] using hitem
  | some b =>
    have hb : b ∈ a :: items :=
      List.mem_cons_of_mem a (List.mem_of_mem_head? (h.forward.head_eq ▸ hhead))
    rw [hhead] at hitem
    exact hitem.trans (Links.changedOnly_setPrev hb (some a))

theorem changedOnly_pushBack (h : l.Holds m items) (a : α) :
    m.ChangedOnly (a :: items) (l.pushBack m a).1 := by
  have hitem : m.ChangedOnly (a :: items) ((m.setNext a none).setPrev a l.tail) :=
    (Links.changedOnly_setNext List.mem_cons_self _).trans
      (Links.changedOnly_setPrev List.mem_cons_self _)
  simp only [IntrusiveList.pushBack]
  cases htail : l.tail with
  | none => simpa only [htail] using hitem
  | some b =>
    have hb : b ∈ a :: items :=
      List.mem_cons_of_mem a (List.mem_of_getLast? (h.tail_eq ▸ htail))
    rw [htail] at hitem
    exact hitem.trans (Links.changedOnly_setNext hb (some a))

end IntrusiveList
end Squiz.Detail
