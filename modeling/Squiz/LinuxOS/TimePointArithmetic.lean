import Squiz.LinuxOS.Duration
import Squiz.LinuxOS.MonotonicClock

/-! `operator+=` and `operator-=` of `monotonic_clock::time_point` for durations of a period that
is not a whole number of seconds. -/
namespace Squiz.LinuxOS
open Squiz.Detail

namespace TimePoint

/-! The exact value of a time point, and the time point closest to a value. -/

def value (tp : TimePoint) : ℤ := tp.seconds * 1000000000 + tp.nanoseconds

def parts (tp : TimePoint) : ℤ × ℤ := (tp.seconds, tp.nanoseconds)

theorem min_value_le (tp : TimePoint) : min.value ≤ tp.value := by
  have hlo := tp.seconds_mem.1
  have hnonneg := tp.nanoseconds_nonneg
  unfold value min
  simp only
  omega

theorem value_le_max (tp : TimePoint) : tp.value ≤ max.value := by
  have hhi := tp.seconds_mem.2
  have hlt := tp.nanoseconds_lt
  unfold value max
  simp only
  omega

/-- A normalised time point is its value. -/
theorem parts_eq_of_value_eq {a b : TimePoint} (h : a.value = b.value) : a.parts = b.parts := by
  have ha := a.nanoseconds_nonneg
  have ha' := a.nanoseconds_lt
  have hb := b.nanoseconds_nonneg
  have hb' := b.nanoseconds_lt
  unfold value at h
  unfold parts
  apply Prod.ext
  · show a.seconds = b.seconds
    omega
  · show a.nanoseconds = b.nanoseconds
    omega

/-- The time point of a value, or the end of the range on the side where the value lies. -/
def ofValue (v : ℤ) : TimePoint :=
  if h : InInt64 (v / 1000000000) then
    { seconds := v / 1000000000
      nanoseconds := v % 1000000000
      seconds_mem := h
      nanoseconds_nonneg := Int.emod_nonneg _ (by decide)
      nanoseconds_lt := Int.emod_lt_of_pos _ (by decide) }
  else if v < 0 then min else max

theorem value_ofValue {v : ℤ} (h : InInt64 (v / 1000000000)) : (ofValue v).value = v := by
  unfold ofValue
  rw [dif_pos h]
  exact Int.ediv_mul_add_emod v 1000000000

theorem ofValue_value (tp : TimePoint) : (ofValue tp.value).parts = tp.parts := by
  have hnonneg := tp.nanoseconds_nonneg
  have hlt := tp.nanoseconds_lt
  have hdiv : tp.value / 1000000000 = tp.seconds := by
    unfold value
    omega
  exact parts_eq_of_value_eq (value_ofValue (hdiv ▸ tp.seconds_mem))

/-- The parts of the time point of a value that is given by normalised parts. -/
theorem parts_ofValue {seconds nanoseconds : ℤ} (hnonneg : 0 ≤ nanoseconds)
    (hlt : nanoseconds < 1000000000) :
    (ofValue (seconds * 1000000000 + nanoseconds)).parts =
      if int64Max < seconds then max.parts
      else if seconds < int64Min then min.parts
      else (seconds, nanoseconds) := by
  have hdiv : (seconds * 1000000000 + nanoseconds) / 1000000000 = seconds := by omega
  have hmod : (seconds * 1000000000 + nanoseconds) % 1000000000 = nanoseconds := by omega
  unfold ofValue
  simp only [hdiv, hmod]
  unfold InInt64 int64Min int64Max
  split_ifs
  all_goals first | omega | rfl

theorem parts_ofValue_eq (v : ℤ) :
    (ofValue v).parts =
      if int64Max < v / 1000000000 then max.parts
      else if v / 1000000000 < int64Min then min.parts
      else (v / 1000000000, v % 1000000000) := by
  conv_lhs => rw [← Int.ediv_mul_add_emod v 1000000000]
  exact parts_ofValue (Int.emod_nonneg _ (by decide)) (Int.emod_lt_of_pos _ (by decide))

/-! The two operators. -/

/-- `&&`, which evaluates its second operand only if the first one holds. -/
def andThen (p : Prop) [Decidable p] (q : Option Bool) : Option Bool := if p then q else some false

/-- The accumulation of the nanoseconds, which both operators start with. -/
def accumulate (nanoseconds nanosecondsToAdd : ℤ) : Option (ℤ × ℤ) :=
  (int32 (nanoseconds + nanosecondsToAdd)).map fun nanoseconds =>
    if 1000000000 ≤ nanoseconds then (1, nanoseconds - 1000000000) else (0, nanoseconds)

/-- A comparison with `limit - extra_seconds`, where `limit` is the result of an operation. -/
def compareLimit (limit extraSeconds : ℤ) (compare : ℤ → Bool) : Option Bool :=
  (int64 limit).bind fun limit => (int64 (limit - extraSeconds)).map compare

/-- The two additions to `seconds_`, where `seconds` is the result of the first one. -/
def addExtra (seconds extraSeconds nanoseconds : ℤ) : Option (ℤ × ℤ) :=
  (int64 seconds).bind fun seconds =>
  (int64 (seconds + extraSeconds)).map fun seconds => (seconds, nanoseconds)

/-- `operator+=` after the conversions -/
def addParts (tp : TimePoint) (secondsToAdd nanosecondsToAdd : ℤ) : Option (ℤ × ℤ) :=
  (accumulate tp.nanoseconds nanosecondsToAdd).bind fun (extraSeconds, nanoseconds) =>
  (andThen (0 < secondsToAdd)
    (compareLimit (int64Max - secondsToAdd) extraSeconds (· < tp.seconds))).bind fun isAfterMax =>
  if isAfterMax then some max.parts else
  (andThen (secondsToAdd < 0)
    (compareLimit (int64Min - secondsToAdd) extraSeconds (tp.seconds < ·))).bind fun isBeforeMin =>
  if isBeforeMin then some min.parts else
  addExtra (tp.seconds + secondsToAdd) extraSeconds nanoseconds

/-- `operator+=` -/
def addAssign (tp : TimePoint) (d : Duration) : Option (ℤ × ℤ) :=
  d.split.bind fun (secondsToAdd, nanosecondsToAdd) => tp.addParts secondsToAdd nanosecondsToAdd

/-- `operator-=` after the conversions; it adds the remainder as `operator+=` does. -/
def subParts (tp : TimePoint) (secondsToSubtract nanosecondsToAdd : ℤ) : Option (ℤ × ℤ) :=
  (accumulate tp.nanoseconds nanosecondsToAdd).bind fun (extraSeconds, nanoseconds) =>
  (andThen (0 < secondsToSubtract)
    (compareLimit (int64Min + secondsToSubtract) extraSeconds (tp.seconds < ·))).bind
      fun isBeforeMin =>
  if isBeforeMin then some min.parts else
  (andThen (secondsToSubtract < 0 ∨ 0 < extraSeconds)
    (compareLimit (int64Max + secondsToSubtract) extraSeconds (· < tp.seconds))).bind
      fun isAfterMax =>
  if isAfterMax then some max.parts else
  addExtra (tp.seconds - secondsToSubtract) extraSeconds nanoseconds

/-- `operator-=` -/
def subAssign (tp : TimePoint) (d : Duration) : Option (ℤ × ℤ) :=
  d.split.bind fun (secondsToSubtract, nanosecondsToAdd) =>
    tp.subParts secondsToSubtract nanosecondsToAdd

/-! What the operators compute, by the carry out of the nanoseconds. -/

/-- The nanoseconds carry into the seconds. -/
def Carries (tp : TimePoint) (nanosecondsToAdd : ℤ) : Prop :=
  1000000000 ≤ tp.nanoseconds + nanosecondsToAdd

instance (tp : TimePoint) (nanosecondsToAdd : ℤ) : Decidable (tp.Carries nanosecondsToAdd) :=
  inferInstanceAs (Decidable (_ ≤ _))

/-- The extra second and the nanoseconds left after it. -/
def extra (tp : TimePoint) (nanosecondsToAdd : ℤ) : ℤ :=
  if tp.Carries nanosecondsToAdd then 1 else 0

def rest (tp : TimePoint) (nanosecondsToAdd : ℤ) : ℤ :=
  tp.nanoseconds + nanosecondsToAdd - tp.extra nanosecondsToAdd * 1000000000

section
variable (tp : TimePoint) {k n : ℤ}

theorem extra_eq (n : ℤ) : tp.Carries n ∧ tp.extra n = 1 ∨ ¬ tp.Carries n ∧ tp.extra n = 0 := by
  unfold extra
  split_ifs with hcarries
  · exact Or.inl ⟨hcarries, rfl⟩
  · exact Or.inr ⟨hcarries, rfl⟩

theorem extra_mem (n : ℤ) : tp.extra n = 0 ∨ tp.extra n = 1 := by
  rcases tp.extra_eq n with ⟨-, hextra⟩ | ⟨-, hextra⟩
  · exact Or.inr hextra
  · exact Or.inl hextra

theorem rest_mem (hn : 0 ≤ n ∧ n < 1000000000) : 0 ≤ tp.rest n ∧ tp.rest n < 1000000000 := by
  have hnonneg := tp.nanoseconds_nonneg
  have hlt := tp.nanoseconds_lt
  unfold rest
  rcases tp.extra_eq n with ⟨hcarries, hextra⟩ | ⟨hcarries, hextra⟩
  · unfold Carries at hcarries
    omega
  · unfold Carries at hcarries
    omega

/-- The accumulated nanoseconds fit in 32 bits. -/
theorem accumulate_eq (hn : 0 ≤ n ∧ n < 1000000000) :
    accumulate tp.nanoseconds n = some (tp.extra n, tp.rest n) := by
  have hnonneg := tp.nanoseconds_nonneg
  have hlt := tp.nanoseconds_lt
  unfold accumulate int32
  rw [if_pos (by omega), Option.map_some]
  unfold rest
  rcases tp.extra_eq n with ⟨hcarries, hextra⟩ | ⟨hcarries, hextra⟩
  · unfold Carries at hcarries
    rw [if_pos hcarries, hextra, one_mul]
  · unfold Carries at hcarries
    rw [if_neg hcarries, hextra, zero_mul, sub_zero]

end

theorem inInt64_iff {x : ℤ} :
    InInt64 x ↔ -9223372036854775808 ≤ x ∧ x ≤ 9223372036854775807 := Iff.rfl

theorem andThen_of_not {p : Prop} [Decidable p] {q : Option Bool} (h : ¬ p) :
    andThen p q = some false := if_neg h

theorem andThen_compareLimit {p : Prop} [Decidable p] {limit extraSeconds : ℤ} {compare : ℤ → Bool}
    (hp : p) (h : InInt64 limit) (hextra : InInt64 (limit - extraSeconds)) :
    andThen p (compareLimit limit extraSeconds compare) =
      some (compare (limit - extraSeconds)) := by
  unfold andThen compareLimit int64
  rw [if_pos hp, if_pos h, Option.bind_some, if_pos hextra, Option.map_some]

theorem andThen_compareLimit_eq_none {p : Prop} [Decidable p] {limit extraSeconds : ℤ}
    {compare : ℤ → Bool} (hp : p) (h : ¬ InInt64 limit) :
    andThen p (compareLimit limit extraSeconds compare) = none := by
  unfold andThen compareLimit int64
  rw [if_pos hp, if_neg h, Option.bind_none]

theorem addExtra_eq {seconds extraSeconds nanoseconds : ℤ} (h : InInt64 seconds)
    (hextra : InInt64 (seconds + extraSeconds)) :
    addExtra seconds extraSeconds nanoseconds = some (seconds + extraSeconds, nanoseconds) := by
  unfold addExtra int64
  rw [if_pos h, Option.bind_some, if_pos hextra, Option.map_some]

theorem addExtra_eq_none {seconds extraSeconds nanoseconds : ℤ}
    (h : ¬ InInt64 seconds ∨ ¬ InInt64 (seconds + extraSeconds)) :
    addExtra seconds extraSeconds nanoseconds = none := by
  unfold addExtra int64
  by_cases hseconds : InInt64 seconds
  · rw [if_pos hseconds, Option.bind_some, if_neg (by tauto), Option.map_none]
  · rw [if_neg hseconds, Option.bind_none]

/-- `operator+=` saturates at the end of the range that lies on the side of the whole seconds. It
overflows where the carry alone leaves the range, and where it alone comes back into it. -/
theorem addParts_eq (tp : TimePoint) {k n : ℤ} (hk : InInt64 k) (hn : 0 ≤ n ∧ n < 1000000000) :
    tp.addParts k n =
      if 0 < k ∧ int64Max < tp.seconds + k + tp.extra n then some max.parts
      else if tp.seconds + k + tp.extra n < int64Min then some min.parts
      else if k = 0 ∧ int64Max < tp.seconds + tp.extra n ∨ tp.seconds + k < int64Min then none
      else some (tp.seconds + k + tp.extra n, tp.rest n) := by
  obtain ⟨hlo, hhi⟩ := tp.seconds_mem
  obtain ⟨hlo', hhi'⟩ := hk
  have hextra := tp.extra_mem n
  unfold addParts
  rw [tp.accumulate_eq hn, Option.bind_some]
  dsimp only
  unfold int64Min int64Max at *
  rcases lt_trichotomy 0 k with hpos | hzero | hneg
  · rw [andThen_compareLimit hpos (inInt64_iff.mpr (by omega)) (inInt64_iff.mpr (by omega)),
      Option.bind_some]
    by_cases hafter : 9223372036854775807 - k - tp.extra n < tp.seconds
    · rw [if_pos (by simpa using hafter), if_pos (by omega)]
    · rw [if_neg (by simpa using hafter), andThen_of_not (by omega), Option.bind_some,
        if_neg (by decide), if_neg (by omega), if_neg (by omega), if_neg (by omega)]
      exact addExtra_eq (inInt64_iff.mpr (by omega)) (inInt64_iff.mpr (by omega))
  · rw [andThen_of_not (by omega), Option.bind_some, if_neg (by decide),
      andThen_of_not (by omega), Option.bind_some, if_neg (by decide), if_neg (by omega),
      if_neg (by omega)]
    split_ifs with hover
    · apply addExtra_eq_none
      rw [inInt64_iff, inInt64_iff]
      omega
    · exact addExtra_eq (inInt64_iff.mpr (by omega)) (inInt64_iff.mpr (by omega))
  · rw [andThen_of_not (by omega), Option.bind_some, if_neg (by decide),
      andThen_compareLimit hneg (inInt64_iff.mpr (by omega)) (inInt64_iff.mpr (by omega)),
      Option.bind_some]
    by_cases hbefore : tp.seconds < -9223372036854775808 - k - tp.extra n
    · rw [if_pos (by simpa using hbefore), if_neg (by omega), if_pos (by omega)]
    · rw [if_neg (by simpa using hbefore), if_neg (by omega), if_neg (by omega)]
      split_ifs with hover
      · apply addExtra_eq_none
        rw [inInt64_iff, inInt64_iff]
        omega
      · exact addExtra_eq (inInt64_iff.mpr (by omega)) (inInt64_iff.mpr (by omega))

/-- `operator-=` adds the remainder and its carry where it should subtract them. With positive whole
seconds and a carry it also computes a limit above the range. -/
theorem subParts_eq (tp : TimePoint) {k n : ℤ} (hk : InInt64 k) (hn : 0 ≤ n ∧ n < 1000000000) :
    tp.subParts k n =
      if 0 < k ∧ tp.seconds - k + tp.extra n < int64Min then some min.parts
      else if 0 < k ∧ 0 < tp.extra n then none
      else if int64Max < tp.seconds - k + tp.extra n then some max.parts
      else some (tp.seconds - k + tp.extra n, tp.rest n) := by
  obtain ⟨hlo, hhi⟩ := tp.seconds_mem
  obtain ⟨hlo', hhi'⟩ := hk
  have hextra := tp.extra_mem n
  unfold subParts
  rw [tp.accumulate_eq hn, Option.bind_some]
  dsimp only
  unfold int64Min int64Max at *
  rcases lt_or_ge 0 k with hpos | hnonpos
  · rw [andThen_compareLimit hpos (inInt64_iff.mpr (by omega)) (inInt64_iff.mpr (by omega)),
      Option.bind_some]
    by_cases hbefore : tp.seconds < -9223372036854775808 + k - tp.extra n
    · rw [if_pos (by simpa using hbefore), if_pos (by omega)]
    · rw [if_neg (by simpa using hbefore), if_neg (by omega)]
      rcases hextra with hzero | hone
      · rw [andThen_of_not (by omega), Option.bind_some, if_neg (by decide), if_neg (by omega),
          if_neg (by omega)]
        exact addExtra_eq (inInt64_iff.mpr (by omega)) (inInt64_iff.mpr (by omega))
      · rw [if_pos (by omega), andThen_compareLimit_eq_none (by omega), Option.bind_none]
        rw [inInt64_iff]
        omega
  · rw [andThen_of_not (by omega), Option.bind_some, if_neg (by decide), if_neg (by omega),
      if_neg (by omega)]
    by_cases hcompare : k < 0 ∨ 0 < tp.extra n
    · rw [andThen_compareLimit hcompare (inInt64_iff.mpr (by omega)) (inInt64_iff.mpr (by omega)),
        Option.bind_some]
      by_cases hafter : 9223372036854775807 + k - tp.extra n < tp.seconds
      · rw [if_pos (by simpa using hafter), if_pos (by omega)]
      · rw [if_neg (by simpa using hafter), if_neg (by omega)]
        exact addExtra_eq (inInt64_iff.mpr (by omega)) (inInt64_iff.mpr (by omega))
    · rw [andThen_of_not hcompare, Option.bind_some, if_neg (by decide), if_neg (by omega)]
      exact addExtra_eq (inInt64_iff.mpr (by omega)) (inInt64_iff.mpr (by omega))

/-! The exact sum and difference, and where the operators return them. -/

theorem value_add (tp : TimePoint) (k n : ℤ) :
    tp.value + (k * 1000000000 + n) = (tp.seconds + k + tp.extra n) * 1000000000 + tp.rest n := by
  rw [value, rest]
  ring

/-- What `operator-=` adds up: the whole seconds with their sign reversed, the remainder not. -/
theorem value_sub (tp : TimePoint) (k n : ℤ) :
    tp.value - k * 1000000000 + n = (tp.seconds - k + tp.extra n) * 1000000000 + tp.rest n := by
  rw [value, rest]
  ring

/-- The additions to the seconds stay in the range unless the sum leaves it: no carry overflows a
time point whose seconds are left alone, and none brings back the first of the two additions. -/
def AddsInRange (tp : TimePoint) (k n : ℤ) : Prop :=
  tp.Carries n → ¬ (k = 0 ∧ tp.seconds = int64Max) ∧ tp.seconds + k ≠ int64Min - 1

instance (tp : TimePoint) (k n : ℤ) : Decidable (tp.AddsInRange k n) :=
  inferInstanceAs (Decidable (_ → _))

section
variable (tp : TimePoint) {k n v : ℤ}

theorem addParts_exact_iff (hk : InInt64 k) (hn : 0 ≤ n ∧ n < 1000000000) :
    tp.addParts k n = some (ofValue (tp.value + (k * 1000000000 + n))).parts ↔
      tp.AddsInRange k n := by
  obtain ⟨hlo, hhi⟩ := tp.seconds_mem
  obtain ⟨hrest, hrest'⟩ := tp.rest_mem hn
  rw [addParts_eq tp hk hn, value_add, parts_ofValue hrest hrest']
  unfold AddsInRange
  unfold int64Min int64Max at *
  rcases tp.extra_eq n with ⟨hcarries, hextra⟩ | ⟨hcarries, hextra⟩
  · simp only [hextra, hcarries, true_imp_iff]
    split_ifs <;> simp <;> omega
  · simp only [hextra, hcarries, false_imp_iff, iff_true]
    split_ifs <;> first | rfl | omega

/-- With a duration that is too short the sum is exact only where it saturates all the same. -/
theorem addParts_shorter_iff (hk : InInt64 k) (hn : 0 ≤ n ∧ n < 1000000000) (hnonneg : 0 ≤ k)
    (hv : k * 1000000000 + n < v) :
    tp.addParts k n = some (ofValue (tp.value + v)).parts ↔
      tp.AddsInRange k n ∧ max.value ≤ tp.value + (k * 1000000000 + n) := by
  obtain ⟨hlo, hhi⟩ := tp.seconds_mem
  obtain ⟨hrest, hrest'⟩ := tp.rest_mem hn
  have hsum := tp.value_add k n
  have hmax : max.value = int64Max * 1000000000 + 999999999 := rfl
  have hmaxParts : max.parts = (int64Max, 999999999) := rfl
  have hminParts : min.parts = (int64Min, 0) := rfl
  rw [addParts_eq tp hk hn, parts_ofValue_eq, hmax, hmaxParts, hminParts]
  unfold AddsInRange
  unfold int64Min int64Max at *
  rcases tp.extra_eq n with ⟨hcarries, hextra⟩ | ⟨hcarries, hextra⟩
  · simp only [hextra, hcarries, true_imp_iff]
    split_ifs <;> simp <;> omega
  · simp only [hextra, hcarries, false_imp_iff, true_and]
    split_ifs <;> simp <;> omega

end

/-- The sum that `operator+=` returns is exact if its conversions and its additions stay in their
ranges. Where the conversions wrap around, it is exact if the shorter duration leads to `max()`,
too. -/
def AddsExactly (tp : TimePoint) (d : Duration) : Prop :=
  d.Fits ∧ tp.AddsInRange d.wholeSeconds d.remainderNanoseconds ∨
    ¬ d.Fits ∧ d.rep = .uint64 ∧ tp.AddsInRange d.wrappedSeconds d.wrappedNanoseconds ∧
      max.value ≤ tp.value + (d.wrappedSeconds * 1000000000 + d.wrappedNanoseconds)

instance (tp : TimePoint) (d : Duration) : Decidable (tp.AddsExactly d) :=
  inferInstanceAs (Decidable (_ ∨ _))

/-- `operator+=` returns the exact sum, saturated, exactly when it adds exactly. -/
theorem add_assign_exact_iff (tp : TimePoint) (d : Duration) :
    tp.addAssign d = some (ofValue (tp.value + d.nanoseconds)).parts ↔ tp.AddsExactly d := by
  unfold addAssign AddsExactly
  by_cases hfits : d.Fits
  · rw [Duration.split_of_fits hfits, Option.bind_some, d.nanoseconds_eq]
    simp only [hfits, true_and, not_true, false_and, or_false]
    exact tp.addParts_exact_iff (Duration.wholeSeconds_mem hfits) d.remainderNanoseconds_mem
  · simp only [hfits, false_and, not_false_eq_true, true_and, false_or]
    cases hrep : d.rep with
    | int64 =>
      rw [Duration.split_eq_none hrep hfits, Option.bind_none]
      simp
    | uint64 =>
      rw [Duration.split_eq (.inl hrep), Option.bind_some]
      simp only [true_and]
      exact tp.addParts_shorter_iff (Duration.wrappedSeconds_mem (.inl hrep))
        d.wrappedNanoseconds_mem (Duration.wrappedSeconds_nonneg hrep)
        (Duration.wrapped_lt hrep hfits)

/-- `std::chrono::milliseconds` -/
def milliseconds (count : ℤ) (h : InInt64 count) : Duration where
  rep := .int64
  count := count
  num := 1
  den := 1000
  count_mem := h
  num_pos := Int.zero_lt_one
  num_le := Duration.one_le_int64Max
  one_lt_den := by decide
  den_le := by decide
  coprime := Int.one_gcd

/-- A millisecond more than `max()` overflows. -/
theorem add_assign_overflows :
    ¬ ∀ (tp : TimePoint) (d : Duration), d.Representable →
      tp.addAssign d = some (ofValue (tp.value + d.nanoseconds)).parts := by
  intro hexact
  have hoverflow : max.addAssign (milliseconds 1 (by decide)) = none := by decide
  rw [hexact max (milliseconds 1 (by decide)) (by decide)] at hoverflow
  cases hoverflow

/-- The floor of the least number of milliseconds is not in the range of milliseconds. -/
example : addAssign ⟨0, 0, by decide, by decide, by decide⟩
    (milliseconds int64Min (by decide)) = none := by
  decide

/-- The difference that `operator-=` returns is exact if its conversions stay in their ranges and
there is no remainder, or the exact difference is at or after `max()`, or what the operator adds up
instead is before `min()`. Where the conversions wrap around, it is exact if the sum that the
operator adds up for the shorter duration is at or before `min()`. -/
def SubtractsExactly (tp : TimePoint) (d : Duration) : Prop :=
  d.Fits ∧ (d.remainderNanoseconds = 0 ∨ max.value ≤ tp.value - d.nanoseconds ∨
      tp.value - d.wholeSeconds * 1000000000 + d.remainderNanoseconds < min.value) ∨
    ¬ d.Fits ∧ d.rep = .uint64 ∧
      tp.value - d.wrappedSeconds * 1000000000 + d.wrappedNanoseconds ≤ min.value ∧
      (tp.value - d.wrappedSeconds * 1000000000 + d.wrappedNanoseconds = min.value →
        ¬ tp.Carries d.wrappedNanoseconds)

instance (tp : TimePoint) (d : Duration) : Decidable (tp.SubtractsExactly d) :=
  inferInstanceAs (Decidable (_ ∨ _))

section
variable (tp : TimePoint) {k n v : ℤ}

theorem subParts_exact_iff (hk : InInt64 k) (hn : 0 ≤ n ∧ n < 1000000000) :
    tp.subParts k n = some (ofValue (tp.value - (k * 1000000000 + n))).parts ↔
      n = 0 ∨ max.value ≤ tp.value - (k * 1000000000 + n) ∨
        tp.value - k * 1000000000 + n < min.value := by
  obtain ⟨hlo, hhi⟩ := tp.seconds_mem
  obtain ⟨hrest, hrest'⟩ := tp.rest_mem hn
  have hnonneg := tp.nanoseconds_nonneg
  have hlt := tp.nanoseconds_lt
  have hsum := tp.value_sub k n
  have hmax : max.value = int64Max * 1000000000 + 999999999 := rfl
  have hmin : min.value = int64Min * 1000000000 := rfl
  have hmaxParts : max.parts = (int64Max, 999999999) := rfl
  have hminParts : min.parts = (int64Min, 0) := rfl
  have hvalue : tp.value = tp.seconds * 1000000000 + tp.nanoseconds := rfl
  have hextra := tp.extra_eq n
  unfold Carries at hextra
  rw [subParts_eq tp hk hn, parts_ofValue_eq, hmax, hmin, hmaxParts, hminParts]
  unfold int64Min int64Max at *
  split_ifs <;> simp <;> omega

/-- With a duration that is too short the difference is exact only where it saturates all the
same. -/
theorem subParts_shorter_iff (hk : InInt64 k) (hn : 0 ≤ n ∧ n < 1000000000) (hnonneg : 0 ≤ k)
    (hv : k * 1000000000 + n < v) :
    tp.subParts k n = some (ofValue (tp.value - v)).parts ↔
      tp.value - k * 1000000000 + n ≤ min.value ∧
        (tp.value - k * 1000000000 + n = min.value → ¬ tp.Carries n) := by
  obtain ⟨hlo, hhi⟩ := tp.seconds_mem
  obtain ⟨hrest, hrest'⟩ := tp.rest_mem hn
  have hnonneg := tp.nanoseconds_nonneg
  have hlt := tp.nanoseconds_lt
  have hsum := tp.value_sub k n
  have hmin : min.value = int64Min * 1000000000 := rfl
  have hmaxParts : max.parts = (int64Max, 999999999) := rfl
  have hminParts : min.parts = (int64Min, 0) := rfl
  have hvalue : tp.value = tp.seconds * 1000000000 + tp.nanoseconds := rfl
  have hextra := tp.extra_eq n
  unfold Carries at hextra ⊢
  rw [subParts_eq tp hk hn, parts_ofValue_eq, hmin, hmaxParts, hminParts]
  unfold int64Min int64Max at *
  split_ifs <;> simp <;> omega

end

theorem subAssign_exact_iff (tp : TimePoint) (d : Duration) :
    tp.subAssign d = some (ofValue (tp.value - d.nanoseconds)).parts ↔ tp.SubtractsExactly d := by
  unfold subAssign SubtractsExactly
  by_cases hfits : d.Fits
  · rw [Duration.split_of_fits hfits, Option.bind_some, d.nanoseconds_eq]
    simp only [hfits, true_and, not_true, false_and, or_false]
    exact tp.subParts_exact_iff (Duration.wholeSeconds_mem hfits) d.remainderNanoseconds_mem
  · simp only [hfits, false_and, not_false_eq_true, true_and, false_or]
    cases hrep : d.rep with
    | int64 =>
      rw [Duration.split_eq_none hrep hfits, Option.bind_none]
      simp
    | uint64 =>
      rw [Duration.split_eq (.inl hrep), Option.bind_some]
      simp only [true_and]
      exact tp.subParts_shorter_iff (Duration.wrappedSeconds_mem (.inl hrep))
        d.wrappedNanoseconds_mem (Duration.wrappedSeconds_nonneg hrep)
        (Duration.wrapped_lt hrep hfits)

/-- `operator-=` returns the exact difference, saturated, exactly when it subtracts exactly. So it
takes back a sum that did not saturate exactly when its conversions stay in their ranges and there
is no remainder, or the sum was made from `max()`. -/
theorem sub_assign_exact_iff (tp : TimePoint) (d : Duration) :
    (tp.subAssign d = some (ofValue (tp.value - d.nanoseconds)).parts ↔ tp.SubtractsExactly d) ∧
      ∀ sum : TimePoint, sum.value = tp.value + d.nanoseconds →
        (sum.subAssign d = some tp.parts ↔
          d.Fits ∧ (d.remainderNanoseconds = 0 ∨ tp.value = max.value)) := by
  constructor
  · exact subAssign_exact_iff tp d
  · intro sum hsum
    have hback : sum.value - d.nanoseconds = tp.value := by omega
    have hexact := subAssign_exact_iff sum d
    rw [hback, ofValue_value] at hexact
    rw [hexact]
    unfold SubtractsExactly
    rw [hback]
    have hmin := tp.min_value_le
    have hmax := tp.value_le_max
    have hremainder := d.remainderNanoseconds_mem
    have hvalue := d.nanoseconds_eq
    by_cases hfits : d.Fits
    · simp only [hfits, true_and, not_true, false_and, or_false]
      omega
    · simp only [hfits, false_and, not_false_eq_true, true_and, false_or, iff_false]
      rintro ⟨hrep, hle, -⟩
      have hshorter := Duration.wrapped_lt hrep hfits
      have hmem := d.wrappedNanoseconds_mem
      omega

/-- A millisecond subtracted from the zero of the clock is added instead. -/
theorem sub_assign_adds :
    ¬ ∀ (tp : TimePoint) (d : Duration), d.Representable →
      tp.subAssign d = some (ofValue (tp.value - d.nanoseconds)).parts := by
  intro hexact
  have hadds : subAssign ⟨0, 0, by decide, by decide, by decide⟩ (milliseconds 1 (by decide)) =
      some (0, 1000000) := by decide
  rw [hexact _ _ (by decide)] at hadds
  revert hadds
  decide

end TimePoint
end Squiz.LinuxOS
