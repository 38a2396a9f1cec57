import Squiz.Detail.IntegerOps

/-! `monotonic_clock::time_point`: whole seconds and the nanoseconds after them. -/
namespace Squiz.LinuxOS
open Squiz.Detail

/-- A normalised time point, as every operation returns it. -/
structure TimePoint where
  seconds : ℤ
  nanoseconds : ℤ
  seconds_mem : InInt64 seconds
  nanoseconds_nonneg : 0 ≤ nanoseconds
  nanoseconds_lt : nanoseconds < 1000000000
  deriving DecidableEq

namespace TimePoint

/-- `time_point::max()` -/
def max : TimePoint := ⟨int64Max, 999999999, by decide, by decide, by decide⟩

/-- `time_point::min()` -/
def min : TimePoint := ⟨int64Min, 0, by decide, by decide, by decide⟩

/-- The extra seconds and the nanoseconds left after them. -/
def normalise (nanoseconds : ℤ) : ℤ × ℤ :=
  let extraSeconds := nanoseconds.tdiv 1000000000
  let nanoseconds := nanoseconds - extraSeconds * 1000000000
  if nanoseconds < 0 then (extraSeconds - 1, nanoseconds + 1000000000)
  else (extraSeconds, nanoseconds)

theorem normalise_eq (n : ℤ) : normalise n = (n / 1000000000, n % 1000000000) := by
  have hdiv := Int.mul_tdiv_add_tmod n 1000000000
  have hlt := Int.tmod_lt_of_pos n (by decide : (0 : ℤ) < 1000000000)
  have hgt : -1000000000 < n.tmod 1000000000 :=
    Int.lt_tmod_of_pos n (by decide : (0 : ℤ) < 1000000000)
  simp only [normalise]
  split_ifs with hneg
  · refine Prod.ext ?_ ?_ <;> simp only <;> omega
  · refine Prod.ext ?_ ?_ <;> simp only <;> omega

def fromSecondsAndNanoseconds (seconds nanoseconds : ℤ) : TimePoint :=
  match h : addWithOverflow seconds (normalise nanoseconds).1 with
  | none => if seconds < 0 then min else max
  | some resultSeconds =>
    { seconds := resultSeconds
      nanoseconds := (normalise nanoseconds).2
      seconds_mem := by
        unfold addWithOverflow at h
        split_ifs at h with hmem
        cases h
        exact hmem
      nanoseconds_nonneg := by
        rw [normalise_eq]
        exact Int.emod_nonneg _ (by decide)
      nanoseconds_lt := by
        rw [normalise_eq]
        exact Int.emod_lt_of_pos _ (by decide) }

theorem fromSecondsAndNanoseconds_zero {seconds : ℤ} (h : InInt64 seconds) :
    (fromSecondsAndNanoseconds seconds 0).seconds = seconds ∧
      (fromSecondsAndNanoseconds seconds 0).nanoseconds = 0 := by
  unfold fromSecondsAndNanoseconds
  split
  · rename_i hover
    unfold addWithOverflow at hover
    rw [if_pos (by simpa [normalise] using h)] at hover
    cases hover
  · rename_i resultSeconds hsum
    unfold addWithOverflow at hsum
    rw [if_pos (by simpa [normalise] using h)] at hsum
    cases hsum
    simp [normalise]

theorem seconds_fromSecondsAndNanoseconds {seconds : ℤ} (h : InInt64 seconds) :
    (fromSecondsAndNanoseconds seconds 0).seconds = seconds := (fromSecondsAndNanoseconds_zero h).1

/-- The order of `operator<=>`. -/
def le (a b : TimePoint) : Prop :=
  if a.seconds = b.seconds then a.nanoseconds ≤ b.nanoseconds else a.seconds ≤ b.seconds

instance : Preorder TimePoint where
  le := le
  le_refl a := by
    show le a a
    unfold le
    simp
  le_trans a b c := by
    show le a b → le b c → le a c
    unfold le
    split_ifs <;> omega

instance : DecidableLE TimePoint := fun a b =>
  inferInstanceAs (Decidable (if a.seconds = b.seconds then _ else _))

theorem le_iff {a b : TimePoint} :
    a ≤ b ↔ a.seconds < b.seconds ∨ a.seconds = b.seconds ∧ a.nanoseconds ≤ b.nanoseconds := by
  show le a b ↔ _
  unfold le
  split_ifs <;> omega

theorem seconds_le {a b : TimePoint} (h : a ≤ b) : a.seconds ≤ b.seconds := by
  have hle := le_iff.mp h
  omega

end TimePoint
end Squiz.LinuxOS
