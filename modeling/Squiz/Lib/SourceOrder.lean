import Mathlib.Data.List.Perm.Basic
import Mathlib.Tactic.Common

/-! Queues that keep the order in which each of their sources has queued its items. -/
namespace Squiz.Lib

inductive SourceEvent (S α : Type*) where
  | queued (src : S) (a : α)
  /-- the first item is taken -/
  | taken (a : α)
  /-- an item is removed from wherever it is -/
  | removed (a : α)
  deriving DecidableEq

namespace SourceEvent
variable {S α : Type*}

def queued? : SourceEvent S α → Option α
  | .queued _ a => some a
  | _ => none

def taken? : SourceEvent S α → Option α
  | .taken a => some a
  | _ => none

def removed? : SourceEvent S α → Option α
  | .removed a => some a
  | _ => none

def queuedBy? [DecidableEq S] (src : S) : SourceEvent S α → Option α
  | .queued src' a => if src' = src then some a else none
  | _ => none

end SourceEvent

section
variable {S α : Type*} (history : List (SourceEvent S α))

def queuedItems : List α := history.filterMap SourceEvent.queued?
def takenItems : List α := history.filterMap SourceEvent.taken?
def removedItems : List α := history.filterMap SourceEvent.removed?
def itemsQueuedBy [DecidableEq S] (src : S) : List α :=
  history.filterMap (SourceEvent.queuedBy? src)

end

variable {S α : Type*} {history : List (SourceEvent S α)} {a : α} {src : S}

@[simp] theorem queuedItems_queued :
    queuedItems (history ++ [.queued src a]) = queuedItems history ++ [a] :=
  List.filterMap_append

@[simp] theorem queuedItems_taken :
    queuedItems (history ++ [.taken a]) = queuedItems history := by
  simp [queuedItems, SourceEvent.queued?]

@[simp] theorem queuedItems_removed :
    queuedItems (history ++ [.removed a]) = queuedItems history := by
  simp [queuedItems, SourceEvent.queued?]

@[simp] theorem takenItems_queued :
    takenItems (history ++ [.queued src a]) = takenItems history := by
  simp [takenItems, SourceEvent.taken?]

@[simp] theorem takenItems_taken :
    takenItems (history ++ [.taken a]) = takenItems history ++ [a] :=
  List.filterMap_append

@[simp] theorem takenItems_removed :
    takenItems (history ++ [.removed a]) = takenItems history := by
  simp [takenItems, SourceEvent.taken?]

@[simp] theorem removedItems_queued :
    removedItems (history ++ [.queued src a]) = removedItems history := by
  simp [removedItems, SourceEvent.removed?]

@[simp] theorem removedItems_taken :
    removedItems (history ++ [.taken a]) = removedItems history := by
  simp [removedItems, SourceEvent.removed?]

@[simp] theorem removedItems_removed :
    removedItems (history ++ [.removed a]) = removedItems history ++ [a] :=
  List.filterMap_append

variable [DecidableEq S]

@[simp] theorem itemsQueuedBy_queued (src' : S) :
    itemsQueuedBy (history ++ [.queued src a]) src' =
      itemsQueuedBy history src' ++ if src = src' then [a] else [] := by
  split_ifs with h <;> simp [itemsQueuedBy, SourceEvent.queuedBy?, h]

@[simp] theorem itemsQueuedBy_taken (src' : S) :
    itemsQueuedBy (history ++ [.taken a]) src' = itemsQueuedBy history src' := by
  simp [itemsQueuedBy, SourceEvent.queuedBy?]

@[simp] theorem itemsQueuedBy_removed (src' : S) :
    itemsQueuedBy (history ++ [.removed a]) src' = itemsQueuedBy history src' := by
  simp [itemsQueuedBy, SourceEvent.queuedBy?]

theorem mem_queuedItems_of_queuedBy (h : a ∈ itemsQueuedBy history src) :
    a ∈ queuedItems history := by
  obtain ⟨e, he, hitem⟩ := List.mem_filterMap.mp h
  cases e with
  | queued src' b =>
    simp only [SourceEvent.queuedBy?] at hitem
    split_ifs at hitem
    exact List.mem_filterMap.mpr ⟨_, he, hitem⟩
  | taken | removed => cases hitem

variable [DecidableEq α]

/-- The items of a queue, after a history. -/
structure KeepsOrder (history : List (SourceEvent S α)) (pending : List α) : Prop where
  /-- no item is queued twice -/
  nodup : (queuedItems history).Nodup
  /-- each item that was queued is taken once, or removed, or still there -/
  perm : (takenItems history ++ removedItems history ++ pending).Perm (queuedItems history)
  /-- the items of each source are taken in the order in which it has queued them -/
  order : ∀ src, (itemsQueuedBy history src).filter (· ∉ removedItems history) =
    (takenItems history ++ pending).filter (· ∈ itemsQueuedBy history src)

namespace KeepsOrder
variable {pending l r : List α}

theorem nil : KeepsOrder ([] : List (SourceEvent S α)) [] := ⟨.nil, .nil, fun _ => rfl⟩

theorem mem_queued (h : KeepsOrder history pending)
    (ha : a ∈ takenItems history ∨ a ∈ removedItems history ∨ a ∈ pending) :
    a ∈ queuedItems history := by
  apply h.perm.subset
  simp only [List.mem_append]
  tauto

/-- Only items of other sources are behind the new one. -/
theorem queue (h : KeepsOrder history (l ++ r)) (ha : a ∉ queuedItems history)
    (hr : ∀ b ∈ r, b ∉ itemsQueuedBy history src) :
    KeepsOrder (history ++ [.queued src a]) (l ++ a :: r) := by
  have htaken : a ∉ takenItems history := fun hmem => ha (h.mem_queued (.inl hmem))
  have hremoved : a ∉ removedItems history := fun hmem => ha (h.mem_queued (.inr (.inl hmem)))
  have hpending : a ∉ l ++ r := fun hmem => ha (h.mem_queued (.inr (.inr hmem)))
  constructor
  · rw [queuedItems_queued, (List.perm_append_singleton _ _).nodup_iff]
    exact List.nodup_cons.mpr ⟨ha, h.nodup⟩
  · rw [queuedItems_queued, takenItems_queued, removedItems_queued, ← List.append_assoc]
    refine List.perm_middle.trans ?_
    rw [List.append_assoc]
    exact (h.perm.cons a).trans (List.perm_append_singleton _ _).symm
  · intro src'
    have hold := h.order src'
    rw [itemsQueuedBy_queued, takenItems_queued, removedItems_queued]
    simp only [List.filter_append] at hold ⊢
    by_cases hsrc : src = src'
    · subst hsrc
      have hfilter : ∀ m : List α, a ∉ m →
          m.filter (· ∈ itemsQueuedBy history src ++ [a]) =
            m.filter (· ∈ itemsQueuedBy history src) := by
        intro m hm
        apply List.filter_congr
        intro b hb
        have hne : b ≠ a := by
          rintro rfl
          exact hm hb
        simp [hne]
      have hrnil : r.filter (· ∈ itemsQueuedBy history src) = [] := by
        rw [List.filter_eq_nil_iff]
        intro b hb
        simpa using hr b hb
      have ha' : [a].filter (· ∉ removedItems history) = [a] := by simp [hremoved]
      rw [if_pos rfl, hold, ha', hfilter _ htaken,
        hfilter l fun hmem => hpending (List.mem_append_left r hmem), hrnil,
        List.filter_cons_of_pos (by simp),
        hfilter r fun hmem => hpending (List.mem_append_right l hmem), hrnil]
      simp only [List.append_nil, List.append_assoc]
    · have hnot : a ∉ itemsQueuedBy history src' := fun hmem =>
        ha (mem_queuedItems_of_queuedBy hmem)
      simp only [if_neg hsrc, List.filter_nil, List.append_nil, hold]
      rw [List.filter_cons_of_neg (by simpa using hnot)]

theorem take (h : KeepsOrder history (a :: pending)) :
    KeepsOrder (history ++ [.taken a]) pending := by
  constructor
  · rw [queuedItems_taken]
    exact h.nodup
  · rw [queuedItems_taken, takenItems_taken, removedItems_taken]
    refine List.Perm.trans ?_ h.perm
    simp only [List.append_assoc, List.singleton_append]
    exact List.perm_middle.symm.append_left _
  · intro src'
    rw [itemsQueuedBy_taken, takenItems_taken, removedItems_taken, h.order src', List.append_assoc,
      List.singleton_append]

theorem remove (h : KeepsOrder history pending) (ha : a ∈ pending) :
    KeepsOrder (history ++ [.removed a]) (pending.erase a) := by
  have hnodup : (takenItems history ++ removedItems history ++ pending).Nodup :=
    h.perm.nodup_iff.mpr h.nodup
  have hpending : pending.Nodup := (List.nodup_append.mp hnodup).2.1
  have htaken : a ∉ takenItems history := by
    intro hmem
    exact (List.nodup_append.mp hnodup).2.2 a (List.mem_append_left _ hmem) a ha rfl
  constructor
  · rw [queuedItems_removed]
    exact h.nodup
  · rw [queuedItems_removed, takenItems_removed, removedItems_removed]
    refine List.Perm.trans ?_ h.perm
    simp only [List.append_assoc, List.singleton_append]
    exact ((List.perm_cons_erase ha).symm.append_left _).append_left _
  · intro src'
    have hold := congrArg (List.filter (· ≠ a)) (h.order src')
    rw [itemsQueuedBy_removed, takenItems_removed, removedItems_removed]
    rw [List.filter_filter, List.filter_filter] at hold
    calc (itemsQueuedBy history src').filter (· ∉ removedItems history ++ [a])
        = (itemsQueuedBy history src').filter
            (fun b => decide (b ≠ a) && decide (b ∉ removedItems history)) := by
          apply List.filter_congr
          intro b _
          simp [Bool.and_comm]
      _ = _ := hold
      _ = (takenItems history ++ pending.erase a).filter (· ∈ itemsQueuedBy history src') := by
          rw [hpending.erase_eq_filter, List.filter_append, List.filter_append, List.filter_filter]
          congr 1
          · apply List.filter_congr
            intro b hb
            have hne : b ≠ a := by
              rintro rfl
              exact htaken hb
            simp [hne]
          · apply List.filter_congr
            intro b _
            by_cases hb : b = a <;> simp [hb]

end KeepsOrder
end Squiz.Lib
