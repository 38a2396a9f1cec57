import Squiz.FirstSuccessful.Delivery

/-! Every run of `first_successful_op` comes to its end, but for compare-exchanges that fail
though the word is as it was read. -/
namespace Squiz.FirstSuccessful
open Squiz.Lib Squiz.Lib.Word Squiz.Lib.Processes Squiz.Detail

variable {C : Config} {D X : Type}

/-! How many steps each thread has left, if its compare-exchanges succeed. -/

def StartPc.rank : StartPc C → ℕ
  | .launch k => 2 * C.children + 5 - k
  | .load => C.children + 4
  | .cas _ => C.children + 3
  | .stopLoop k => C.children + 2 - k
  | .storeStarted _ | .addStarted => 2
  | .deliver => 1
  | .done => 0

def StopPc.rank : StopPc C → ℕ
  | .idle => C.children + 1
  | .stopLoop k => C.children - k
  | .done => 0

def ChildPc.rank : ChildPc C D X → ℕ
  | .notStarted => C.children + 9
  | .running => C.children + 8
  | .valueLoad _ _ => C.children + 7
  | .storeThrowing _ _ => 6
  | .valueOr _ => C.children + 4
  | .storeValue _ _ => C.children + 3
  | .stopLoop k => C.children + 2 - k
  | .resultLoad _ _ => 5
  | .throwingOr | .resultCas _ _ _ => 4
  | .setReference | .dropThrowing | .storeResult _ _ => 3
  | .valueSub _ | .discardSub | .lastSub | .resultSub | .inlineSub _ | .storeState _ _ => 2
  | .deliver _ | .deliverTuple _ | .deliverStored => 1
  | .done => 0

/-- A compare-exchange that is bound to fail: the word has changed since it was read. -/
def StartPc.stale (word : ℕ) : StartPc C → ℕ
  | .cas oldState => if word = oldState then 0 else 1
  | _ => 0

def ChildPc.stale (word : ℕ) : ChildPc C D X → ℕ
  | .resultCas _ _ oldState => if word = oldState then 0 else 1
  | _ => 0

def Act.spurious : Act C D X → Bool
  | .start spurious | .child _ spurious => spurious
  | _ => false

namespace Op
variable {s t : Op C D X} {i : C.Child}

def remaining (s : Op C D X) : ℕ := s.start.rank + s.stop.rank + ∑ i, (s.child i).rank

def stale (s : Op C D X) : ℕ := s.start.stale s.word + ∑ i, (s.child i).stale s.word

/-- A step that is no failed compare-exchange may make that of every other thread stale. -/
def rank (s : Op C D X) : ℕ := (C.children + 2) * s.remaining + s.stale

theorem stale_le (s : Op C D X) : s.stale ≤ C.children + 1 := by
  have hstart : s.start.stale s.word ≤ 1 := by
    unfold StartPc.stale
    split
    · split_ifs <;> omega
    · omega
  have hchild : ∑ i, (s.child i).stale s.word ≤ ∑ _i : C.Child, 1 := by
    refine Finset.sum_le_sum fun i _ => ?_
    unfold ChildPc.stale
    split
    · split_ifs <;> omega
    · omega
  rw [Finset.sum_const, Finset.card_univ, Fintype.card_fin, smul_eq_mul, mul_one] at hchild
  unfold stale
  omega

theorem rank_lt_of_remaining (h : t.remaining < s.remaining) : t.rank < s.rank := by
  have hmul : (C.children + 2) * (t.remaining + 1) ≤ (C.children + 2) * s.remaining :=
    Nat.mul_le_mul_left _ h
  have hstale := t.stale_le
  rw [Nat.mul_add, Nat.mul_one] at hmul
  unfold rank
  omega

/-- What a step does to the program counter of its thread: it gets closer to the end, or a
compare-exchange fails and leaves the word. -/
def Progress (s t : Op C D X) (spurious : Bool) : Prop :=
  t.remaining < s.remaining ∨
    t.word = s.word ∧ t.remaining = s.remaining ∧ t.stale + (!spurious).toNat ≤ s.stale

theorem Progress.rank {spurious : Bool} (h : Progress s t spurious) :
    t.rank + (!spurious).toNat ≤ s.rank := by
  rcases h with hlt | ⟨-, heq, hstale⟩
  · have := rank_lt_of_remaining hlt
    have hle := Bool.toNat_le (!spurious)
    omega
  · unfold Op.rank
    rw [heq]
    omega

theorem deliverFrom_pcs (s : Op C D X) (r : Option (Result D X)) :
    (s.deliverFrom r).start = s.start ∧ (s.deliverFrom r).stop = s.stop ∧
      (s.deliverFrom r).child = s.child := by
  cases r <;> exact ⟨rfl, rfl, rfl⟩

theorem launch_rank_lt (k : C.Child) :
    (((Broadcast.next k).map StartPc.launch).getD .load).rank < (StartPc.launch k).rank := by
  have hk := k.isLt
  apply Broadcast.next_lt
  · intro j hj
    simp only [StartPc.rank]
    omega
  · simp only [StartPc.rank]
    omega

theorem stopLoop_rank_lt (k : C.Child) :
    (((Broadcast.next k).map StartPc.stopLoop).getD .addStarted).rank <
      (StartPc.stopLoop k).rank := by
  have hk := k.isLt
  apply Broadcast.next_lt
  · intro j hj
    simp only [StartPc.rank]
    omega
  · simp only [StartPc.rank]
    omega

/-- The body of `start()`'s loop gets on, or makes the compare-exchange due with what it read. -/
theorem startLoop_pcs (s : Op C D X) (old : ℕ) :
    (s.startLoop old).word = s.word ∧ (s.startLoop old).stop = s.stop ∧
      (s.startLoop old).child = s.child ∧
      ((s.startLoop old).start.rank < C.children + 3 ∨ (s.startLoop old).start = .cas old) := by
  have hC := C.two_le
  unfold startLoop
  split_ifs
  · exact ⟨rfl, rfl, rfl, .inl (by simp only [StartPc.rank]; omega)⟩
  · exact ⟨rfl, rfl, rfl, .inl (by simp only [StartPc.rank, Arity.first]; omega)⟩
  · exact ⟨rfl, rfl, rfl, .inr rfl⟩

theorem startStep_progress {spurious : Bool} (hi : s.Inv) (ht : s.startStep spurious = some t) :
    Progress s t spurious := by
  unfold startStep at ht
  split at ht
  · next k hpc =>
    cases ht
    refine .inl ?_
    have hlt := launch_rank_lt k
    have hchild : s.child k = .notStarted := by
      have := hi.launched k
      rw [hpc] at this
      exact this.mpr le_rfl
    have hsum : ∑ j, (Function.update s.child k .running j).rank < ∑ j, (s.child j).rank := by
      refine sum_update_lt ?_
      rw [hchild]
      simp [ChildPc.rank]
    simp only [remaining, setChild, hpc]
    omega
  · next hpc =>
    cases ht
    refine .inl ?_
    obtain ⟨-, hstop, hchild, hstart⟩ := s.startLoop_pcs s.word
    have hlt : (s.startLoop s.word).start.rank < C.children + 4 := by
      rcases hstart with hlt | heq
      · omega
      · rw [heq]
        simp [StartPc.rank]
    have hload : s.start.rank = C.children + 4 := by
      rw [hpc]
      rfl
    simp only [remaining, hstop, hchild]
    omega
  · next old hpc =>
    cases ht
    refine .inl ?_
    simp only [remaining, hpc, StartPc.rank]
    omega
  · next k hpc =>
    cases ht
    refine .inl ?_
    have hlt := stopLoop_rank_lt k
    simp only [remaining, requestStopOn, hpc]
    omega
  · next hpc =>
    cases ht
    refine .inl ?_
    simp only [remaining, hpc]
    split_ifs <;> simp only [StartPc.rank] <;> omega
  · next old hpc =>
    by_cases hcas : s.word = old ∧ spurious = false
    · rw [if_pos hcas] at ht
      cases ht
      refine .inl ?_
      simp only [remaining, hpc, StartPc.rank]
      omega
    · rw [if_neg hcas] at ht
      cases ht
      obtain ⟨hword, hstop, hchild, hstart⟩ := s.startLoop_pcs s.word
      have hcas' : s.start.rank = C.children + 3 := by
        rw [hpc]
        rfl
      rcases hstart with hlt | heq
      · refine .inl ?_
        simp only [remaining, hstop, hchild]
        omega
      · refine .inr ⟨hword, ?_, ?_⟩
        · simp only [remaining, hstop, hchild, heq, hpc, StartPc.rank]
        · simp only [stale, hchild, hword, heq, hpc, StartPc.stale]
          cases spurious with
          | true => simp
          | false =>
            have hne : ¬ s.word = old := fun h => hcas ⟨h, rfl⟩
            simp [hne, Nat.add_comm]
  · next hpc =>
    cases ht
    refine .inl ?_
    obtain ⟨-, hstop, hchild⟩ := s.deliverFrom_pcs s.storedResult
    simp only [remaining, hstop, hchild, hpc, StartPc.rank]
    omega
  · cases ht

theorem stopStep_progress (ht : s.stopStep = some t) : t.remaining < s.remaining := by
  unfold stopStep at ht
  split at ht
  · next hpc =>
    by_cases hstart : s.start = .done ∧ C.isRequestStopSupported = true
    · rw [if_pos hstart] at ht
      cases ht
      simp only [remaining, hpc]
      split_ifs <;> simp only [StopPc.rank, Arity.first] <;> omega
    · rw [if_neg hstart] at ht
      cases ht
  · next k hpc =>
    cases ht
    have hk := k.isLt
    have hlt : (((Broadcast.next k).map StopPc.stopLoop).getD .done).rank < s.stop.rank := by
      rw [hpc]
      apply Broadcast.next_lt
      · intro j hj
        simp only [StopPc.rank]
        omega
      · simp only [StopPc.rank]
        omega
    simp only [remaining, requestStopOn]
    omega
  · cases ht

/-- A child that gets closer to the end of its `set_result`, while the other threads wait. -/
theorem remaining_lt {p : ChildPc C D X} (hstart : t.start = s.start) (hstop : t.stop = s.stop)
    (hchild : t.child = Function.update s.child i p) (hlt : p.rank < (s.child i).rank) :
    t.remaining < s.remaining := by
  have hsum := sum_update_lt (f := s.child) (i := i) (v := p) hlt
  simp only [remaining, hstart, hstop, hchild]
  omega

theorem setChild_remaining {pc : ChildPc C D X} (h : t = s.setChild i pc)
    (hlt : pc.rank < (s.child i).rank) : t.remaining < s.remaining := by
  subst h
  exact remaining_lt rfl rfl rfl hlt

theorem childStopLoop_rank_lt (k : C.Child) :
    (((Broadcast.next k).map ChildPc.stopLoop).getD (.valueSub .variant) : ChildPc C D X).rank <
      (ChildPc.stopLoop k : ChildPc C D X).rank := by
  have hk := k.isLt
  apply Broadcast.next_lt
  · intro j hj
    simp only [ChildPc.rank]
    omega
  · simp only [ChildPc.rank]
    omega

/-- The loop body of `handle_non_value_result` gets on, or makes the compare-exchange due with
what it read. -/
theorem resultLoop_pcs (s : Op C D X) (i : C.Child) (r : Result D X) (move : Move X) (old : ℕ) :
    (s.resultLoop i r move old).start = s.start ∧ (s.resultLoop i r move old).stop = s.stop ∧
      (s.resultLoop i r move old).word = s.word ∧ ∃ pc : ChildPc C D X,
        (s.resultLoop i r move old).child = Function.update s.child i pc ∧
          (pc.rank < 4 ∨ pc = .resultCas r move old) := by
  unfold resultLoop
  split_ifs
  · exact ⟨rfl, rfl, rfl, _, rfl, .inr rfl⟩
  · exact ⟨rfl, rfl, rfl, _, rfl, .inl (by simp [ChildPc.rank])⟩
  · exact ⟨rfl, rfl, rfl, _, rfl, .inl (by simp [ChildPc.rank])⟩
  · exact ⟨rfl, rfl, rfl, _, rfl, .inl (by simp [ChildPc.rank])⟩
  · exact ⟨rfl, rfl, rfl, _, rfl, .inl (by simp [ChildPc.rank])⟩
  · exact ⟨rfl, rfl, rfl, _, rfl, .inl (by simp [ChildPc.rank])⟩

theorem valueLoad_remaining {vs : List D} {move : Move X} (hpc : s.child i = .valueLoad vs move) :
    (s.valueLoad i vs move).remaining < s.remaining := by
  have hrank : (s.child i).rank = C.children + 7 := by
    rw [hpc]
    rfl
  unfold valueLoad
  split_ifs
  · exact setChild_remaining rfl (by rw [hrank]; simp [ChildPc.rank])
  · exact remaining_lt rfl rfl rfl (by rw [hrank]; simp [ChildPc.rank])
  · exact remaining_lt rfl rfl rfl (by rw [hrank]; simp [ChildPc.rank])
  · cases move with
    | nothrow => exact setChild_remaining rfl (by rw [hrank]; simp [ChildPc.rank])
    | mayThrow throws => exact setChild_remaining rfl (by rw [hrank]; simp [ChildPc.rank])

theorem valueOr_remaining {vs : List D} (hpc : s.child i = .valueOr vs) :
    (s.valueOr i vs).remaining < s.remaining := by
  have hrank : (s.child i).rank = C.children + 4 := by
    rw [hpc]
    rfl
  unfold valueOr
  split_ifs <;> exact remaining_lt rfl rfl rfl (by rw [hrank]; simp [ChildPc.rank])

theorem storeValue_remaining {vs : List D} {old : ℕ} (hpc : s.child i = .storeValue vs old) :
    (s.storeValue i vs old).remaining < s.remaining := by
  have hrank : (s.child i).rank = C.children + 3 := by
    rw [hpc]
    rfl
  unfold storeValue
  split_ifs <;>
    exact remaining_lt rfl rfl rfl (by rw [hrank]; simp [ChildPc.rank, Arity.first])

theorem throwingOr_remaining (hpc : s.child i = .throwingOr) :
    (s.throwingOr i).remaining < s.remaining := by
  have hrank : (s.child i).rank = 4 := by
    rw [hpc]
    rfl
  unfold throwingOr
  split_ifs <;> exact remaining_lt rfl rfl rfl (by rw [hrank]; simp [ChildPc.rank])

/-- The child that takes `count_increment` off the word delivers or is done. -/
theorem decrement_remaining {pc pc' : ChildPc C D X} {old : ℕ} {b : Bool}
    (hrank : (s.child i).rank = 2) (hpc : pc.rank ≤ 1) (hpc' : pc'.rank ≤ 1) :
    (s.decrement i (if b = true then pc else pc') old).remaining < s.remaining := by
  refine remaining_lt (i := i) (p := if b = true then pc else pc') rfl rfl rfl ?_
  split_ifs <;> omega

theorem deliver_remaining {r : Option (Result D X)} (hrank : (s.child i).rank = 1) :
    ((s.deliverFrom r).setChild i .done).remaining < s.remaining := by
  obtain ⟨hstart, hstop, hchild⟩ := s.deliverFrom_pcs r
  refine remaining_lt (i := i) (p := .done) hstart hstop ?_ ?_
  · simp only [setChild, hchild]
  · rw [hrank]
    simp [ChildPc.rank]

theorem failedCas_progress {r : Result D X} {move : Move X} {old : ℕ} {spurious : Bool}
    (hpc : s.child i = .resultCas r move old) (hcas : ¬ (s.word = old ∧ spurious = false))
    (hstart : t.start = s.start) (hstop : t.stop = s.stop) (hword : t.word = s.word)
    (hchild : t.child = Function.update s.child i (.resultCas r move s.word)) :
    t.word = s.word ∧ t.remaining = s.remaining ∧ t.stale + (!spurious).toNat ≤ s.stale := by
  have hfresh : (ChildPc.resultCas r move s.word : ChildPc C D X).stale s.word = 0 := if_pos rfl
  refine ⟨hword, ?_, ?_⟩
  · have hrank : ∀ j, (Function.update s.child i (.resultCas r move s.word) j).rank =
        (s.child j).rank := by
      intro j
      by_cases hj : j = i
      · subst j
        rw [Function.update_self, hpc]
        rfl
      · rw [Function.update_of_ne hj]
    simp only [remaining, hstart, hstop, hchild, hrank]
  · simp only [stale, hstart, hword, hchild]
    cases spurious with
    | true =>
      have hle := sum_update_le (f := s.child) (i := i) (r := ChildPc.stale s.word)
        (v := .resultCas r move s.word) (by rw [hfresh]; exact Nat.zero_le _)
      simp only [Bool.not_true, Bool.toNat_false]
      omega
    | false =>
      have hne : ¬ s.word = old := fun h => hcas ⟨h, rfl⟩
      have hlt := sum_update_lt (f := s.child) (i := i) (r := ChildPc.stale s.word)
        (v := .resultCas r move s.word) (by rw [hfresh, hpc]; simp [ChildPc.stale, hne])
      simp only [Bool.not_false, Bool.toNat_true]
      omega

theorem childStep_progress {spurious : Bool} (ht : s.childStep i spurious = some t) :
    Progress s t spurious := by
  unfold childStep at ht
  split at ht
  · next vs move hpc =>
    cases ht
    exact .inl (valueLoad_remaining hpc)
  · next vs hpc =>
    cases ht
    exact .inl (remaining_lt rfl rfl rfl (by rw [hpc]; simp [ChildPc.rank]))
  · next vs hpc =>
    cases ht
    exact .inl (valueOr_remaining hpc)
  · next vs old hpc =>
    cases ht
    exact .inl (storeValue_remaining hpc)
  · next k hpc =>
    cases ht
    exact .inl (remaining_lt rfl rfl rfl (by rw [hpc]; exact childStopLoop_rank_lt k))
  · next vs hpc =>
    cases ht
    exact .inl (remaining_lt rfl rfl rfl (by rw [hpc]; simp [ChildPc.rank]))
  · next vs x hpc =>
    cases ht
    exact .inl (remaining_lt rfl rfl rfl (by rw [hpc]; simp [ChildPc.rank]))
  · next hpc =>
    cases ht
    exact .inl (throwingOr_remaining hpc)
  · next hpc =>
    cases ht
    exact .inl (remaining_lt rfl rfl rfl (by rw [hpc]; simp [ChildPc.rank]))
  · next hpc =>
    cases ht
    exact .inl (remaining_lt rfl rfl rfl (by rw [hpc]; simp [ChildPc.rank]))
  · next slot hpc =>
    cases ht
    exact .inl (decrement_remaining (by rw [hpc]; rfl) le_rfl (Nat.zero_le _))
  · next hpc =>
    cases ht
    have hlt : (s.decrement i (if canCompleteInline s.word = true then .deliverStored else .done)
        s.word).remaining < s.remaining :=
      decrement_remaining (by rw [hpc]; rfl) le_rfl (Nat.zero_le _)
    exact .inl hlt
  · next r move hpc =>
    cases ht
    obtain ⟨hstart, hstop, -, pc, hchild, hrank⟩ := s.resultLoop_pcs i r move s.word
    refine .inl (remaining_lt hstart hstop hchild ?_)
    rw [hpc]
    rcases hrank with hlt | heq
    · simp only [ChildPc.rank] at hlt ⊢
      omega
    · rw [heq]
      simp [ChildPc.rank]
  · next r move old hpc =>
    by_cases hcas : s.word = old ∧ spurious = false
    · rw [if_pos hcas] at ht
      cases ht
      exact .inl (remaining_lt rfl rfl rfl (by rw [hpc]; simp [ChildPc.rank]))
    · rw [if_neg hcas] at ht
      cases ht
      obtain ⟨hstart, hstop, hword, pc, hchild, hrank⟩ := s.resultLoop_pcs i r move s.word
      rcases hrank with hlt | heq
      · exact .inl (remaining_lt hstart hstop hchild (by rw [hpc]; exact hlt))
      · subst heq
        exact .inr (failedCas_progress hpc hcas hstart hstop hword hchild)
  · next hpc =>
    cases ht
    exact .inl (decrement_remaining (by rw [hpc]; rfl) le_rfl (Nat.zero_le _))
  · next r move hpc =>
    cases ht
    exact .inl (remaining_lt rfl rfl rfl (by rw [hpc]; simp [ChildPc.rank]))
  · next hpc =>
    cases ht
    exact .inl (decrement_remaining (by rw [hpc]; rfl) le_rfl (Nat.zero_le _))
  · next r old hpc =>
    cases ht
    exact .inl (remaining_lt rfl rfl rfl (by rw [hpc]; simp [ChildPc.rank]))
  · next r hpc =>
    cases ht
    exact .inl (deliver_remaining (by rw [hpc]; rfl))
  · next slot hpc =>
    cases ht
    exact .inl (deliver_remaining (by rw [hpc]; rfl))
  · next hpc =>
    cases ht
    exact .inl (deliver_remaining (by rw [hpc]; rfl))
  all_goals cases ht

/-- Every step brings the operation closer to its end, unless a compare-exchange fails though
the word is as it was read. -/
theorem rank_step (hi : s.Inv) {a : Act C D X} (ht : s.step a = some t) :
    t.rank + (!a.spurious).toNat ≤ s.rank := by
  cases a with
  | start spurious => exact (startStep_progress hi ht).rank
  | stop => exact rank_lt_of_remaining (stopStep_progress ht)
  | complete i c =>
    simp only [step] at ht
    split at ht
    · next hpc =>
      cases ht
      have hlt : (setResult c : ChildPc C D X).rank < (s.child i).rank := by
        rw [hpc]
        cases c <;> simp [setResult, ChildPc.rank]
      exact rank_lt_of_remaining (remaining_lt rfl rfl rfl hlt)
    · cases ht
  | child i spurious => exact (childStep_progress ht).rank

end Op
end Squiz.FirstSuccessful
