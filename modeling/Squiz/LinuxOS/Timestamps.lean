import Squiz.LinuxOS.TimePointArithmetic
import Squiz.LinuxOS.TimerBase

/-! `time_point_to_timestamp` as a quantisation whose operations do not overflow. -/
namespace Squiz.LinuxOS
open Squiz.Detail TimePoint

/-! Rounding to `timer_granularity`. An operation on `std::int64_t` that overflows has no result. -/

/-- `std::chrono::floor`, which compares in nanoseconds. -/
def chronoFloor (nanoseconds : ℤ) : Option ℤ :=
  (int64 (nanoseconds.tdiv 1000)).bind fun truncated =>
  (int64 (truncated * 1000)).bind fun toNanoseconds =>
  if nanoseconds < toNanoseconds then int64 (truncated - 1) else some truncated

/-- `std::chrono::ceil`, which compares in nanoseconds. -/
def chronoCeil (nanoseconds : ℤ) : Option ℤ :=
  (int64 (nanoseconds.tdiv 1000)).bind fun truncated =>
  (int64 (truncated * 1000)).bind fun toNanoseconds =>
  if toNanoseconds < nanoseconds then int64 (truncated + 1) else some truncated

section
variable {n : ℤ}

/-- The comparison of the rounded count does not overflow for a duration that is not negative. -/
theorem tdiv_mem (hn : 0 ≤ n) (h : InInt64 n) :
    InInt64 (n.tdiv 1000) ∧ InInt64 (n.tdiv 1000 * 1000) := by
  have hdiv : n.tdiv 1000 = n / 1000 := Int.tdiv_eq_ediv_of_nonneg hn
  rw [hdiv]
  unfold InInt64 int64Min int64Max at *
  omega

theorem chronoFloor_eq (hn : 0 ≤ n) (h : InInt64 n) :
    chronoFloor n = some (floorMicroseconds n) := by
  obtain ⟨hto, hcommon⟩ := tdiv_mem hn h
  have hdiv : n.tdiv 1000 = n / 1000 := Int.tdiv_eq_ediv_of_nonneg hn
  unfold chronoFloor floorMicroseconds
  rw [int64_of_mem hto, Option.bind_some, int64_of_mem hcommon, Option.bind_some,
    if_neg (by omega), if_neg (by omega)]

theorem chronoCeil_eq (hn : 0 ≤ n) (h : InInt64 n) :
    chronoCeil n = some (ceilMicroseconds n) := by
  obtain ⟨hto, hcommon⟩ := tdiv_mem hn h
  have hdiv : n.tdiv 1000 = n / 1000 := Int.tdiv_eq_ediv_of_nonneg hn
  have hsucc : InInt64 (n.tdiv 1000 + 1) := by
    unfold InInt64 int64Min int64Max at *
    omega
  unfold chronoCeil ceilMicroseconds
  rw [int64_of_mem hto, Option.bind_some, int64_of_mem hcommon, Option.bind_some]
  split_ifs
  · exact int64_of_mem hsucc
  · rfl

end

namespace TimerBase
variable {b : TimerBase} {p q : TimePoint}

/-- `time_point_to_timestamp`, which converts the count to `std::uint64_t`. -/
def timePointToTimestampChecked (b : TimerBase) (tp : TimePoint) (roundUp : Bool) : Option ℕ :=
  if tp.seconds < b.baseSeconds then some 0
  else if b.maxSeconds ≤ tp.seconds then some maxTimestamp
  else
    (int64 (tp.seconds - b.baseSeconds)).bind fun diffSeconds =>
    (int64 (diffSeconds * 1000000000)).bind fun castNanoseconds =>
    (int64 (castNanoseconds + tp.nanoseconds)).bind fun diffNanoseconds =>
    (if roundUp then chronoCeil diffNanoseconds else chronoFloor diffNanoseconds).map
      fun count => (count % 18446744073709551616).toNat

/-- A time that is not clamped is less than `max_timestamp` after the base. -/
theorem sinceBase_mem (hbase : b.baseSeconds ≤ p.seconds) (hmax : p.seconds < b.maxSeconds) :
    0 ≤ b.sinceBase p ∧ b.sinceBase p < 281474976000000000 := by
  have hmaxSeconds := b.maxSeconds_eq
  have hsec : maxTimestampSeconds = 281474976 := rfl
  have hnonneg := p.nanoseconds_nonneg
  have hlt := p.nanoseconds_lt
  unfold sinceBase
  omega

theorem base_le_max (b : TimerBase) : b.baseSeconds ≤ b.maxSeconds := by
  have hmaxSeconds := b.maxSeconds_eq
  have hsec : maxTimestampSeconds = 281474976 := rfl
  have hhi := b.base_mem.2
  omega

/-- No operation overflows. -/
theorem timePointToTimestampChecked_eq (b : TimerBase) (tp : TimePoint) (roundUp : Bool) :
    b.timePointToTimestampChecked tp roundUp = some (b.timePointToTimestamp tp roundUp) := by
  unfold timePointToTimestampChecked timePointToTimestamp
  by_cases hbase : tp.seconds < b.baseSeconds
  · rw [if_pos hbase, if_pos hbase]
  · rw [if_neg hbase, if_neg hbase]
    by_cases hmax : b.maxSeconds ≤ tp.seconds
    · rw [if_pos hmax, if_pos hmax]
    · rw [if_neg hmax, if_neg hmax]
      obtain ⟨hnonneg, hlt⟩ := sinceBase_mem (not_lt.mp hbase) (not_le.mp hmax)
      have hns := tp.nanoseconds_nonneg
      have hns' := tp.nanoseconds_lt
      unfold sinceBase at hnonneg hlt
      have hmem : InInt64 ((tp.seconds - b.baseSeconds) * 1000000000 + tp.nanoseconds) := by
        unfold InInt64 int64Min int64Max
        omega
      have hcast : InInt64 ((tp.seconds - b.baseSeconds) * 1000000000) := by
        unfold InInt64 int64Min int64Max
        omega
      have hdiff : InInt64 (tp.seconds - b.baseSeconds) := by
        unfold InInt64 int64Min int64Max
        omega
      rw [int64_of_mem hdiff, Option.bind_some, int64_of_mem hcast, Option.bind_some,
        int64_of_mem hmem, Option.bind_some, chronoCeil_eq hnonneg hmem,
        chronoFloor_eq hnonneg hmem]
      have hfloor := le_floorMicroseconds (k := 0)
        (n := (tp.seconds - b.baseSeconds) * 1000000000 + tp.nanoseconds)
      have hceil := ceilMicroseconds_le (k := -1)
        (n := (tp.seconds - b.baseSeconds) * 1000000000 + tp.nanoseconds)
      have hfloor' := le_floorMicroseconds (k := 281474976000000)
        (n := (tp.seconds - b.baseSeconds) * 1000000000 + tp.nanoseconds)
      have hceil' := ceilMicroseconds_le (k := 281474976000000)
        (n := (tp.seconds - b.baseSeconds) * 1000000000 + tp.nanoseconds)
      cases roundUp with
      | true =>
        simp only [if_true, Option.map_some, Option.some.injEq]
        rw [Int.emod_eq_of_lt (by omega) (by omega)]
      | false =>
        simp only [Bool.false_eq_true, if_false, Option.map_some, Option.some.injEq]
        rw [Int.emod_eq_of_lt (by omega) (by omega)]

theorem timestamp_le_max (b : TimerBase) (tp : TimePoint) (roundUp : Bool) :
    b.timePointToTimestamp tp roundUp ≤ maxTimestamp := by
  by_cases hmax : tp.seconds < b.maxSeconds
  · cases roundUp with
    | true => exact Nat.le_of_lt (timestamp_up_lt_max hmax)
    | false => exact Nat.le_of_lt (timestamp_down_lt_max hmax)
  · have hbase := b.base_le_max
    rw [timestamp_eq_max (by omega) (not_lt.mp hmax)]

/-- A clamped or rounded count of a later time is not smaller. -/
theorem timestamp_mono (b : TimerBase) (h : p ≤ q) (roundUp : Bool) :
    b.timePointToTimestamp p roundUp ≤ b.timePointToTimestamp q roundUp := by
  have hle := TimePoint.le_iff.mp h
  by_cases hbase : p.seconds < b.baseSeconds
  · rw [timestamp_eq_zero hbase]
    exact Nat.zero_le _
  · have hp : b.baseSeconds ≤ p.seconds := not_lt.mp hbase
    have hq : b.baseSeconds ≤ q.seconds := by omega
    by_cases hmax : b.maxSeconds ≤ q.seconds
    · rw [timestamp_eq_max hq hmax]
      exact b.timestamp_le_max p roundUp
    · have hqmax : q.seconds < b.maxSeconds := not_le.mp hmax
      have hpmax : p.seconds < b.maxSeconds := by omega
      have hsince : b.sinceBase p ≤ b.sinceBase q := by
        have hlt := p.nanoseconds_lt
        have hnonneg := q.nanoseconds_nonneg
        unfold sinceBase
        omega
      cases roundUp with
      | true =>
        have hup := (timestamp_up_le_iff hq hqmax _).mp le_rfl
        apply (timestamp_up_le_iff hp hpmax _).mpr
        omega
      | false =>
        have hdown := (le_timestamp_down_iff hp hpmax _).mp le_rfl
        apply (le_timestamp_down_iff hq hqmax _).mpr
        omega

/-- The two roundings enclose the time and are at most one apart. -/
theorem timestamp_down_up (b : TimerBase) (tp : TimePoint) :
    b.timePointToTimestamp tp false ≤ b.timePointToTimestamp tp true ∧
      b.timePointToTimestamp tp true ≤ b.timePointToTimestamp tp false + 1 := by
  by_cases hbase : tp.seconds < b.baseSeconds
  · rw [timestamp_eq_zero hbase, timestamp_eq_zero hbase]
    omega
  · have hbase' : b.baseSeconds ≤ tp.seconds := not_lt.mp hbase
    by_cases hmax : b.maxSeconds ≤ tp.seconds
    · rw [timestamp_eq_max hbase' hmax, timestamp_eq_max hbase' hmax]
      omega
    · have hmax' : tp.seconds < b.maxSeconds := not_le.mp hmax
      have hdown := (le_timestamp_down_iff hbase' hmax' _).mp le_rfl
      have hup := (timestamp_up_le_iff hbase' hmax' _).mp le_rfl
      have hbelow : ¬ b.timePointToTimestamp tp false + 1 ≤ b.timePointToTimestamp tp false := by
        omega
      rw [le_timestamp_down_iff hbase' hmax'] at hbelow
      constructor
      · omega
      · apply (timestamp_up_le_iff hbase' hmax' _).mpr
        omega

/-- What the timers rely on. -/
structure Quantises (b : TimerBase) : Prop where
  no_overflow : ∀ tp roundUp,
    b.timePointToTimestampChecked tp roundUp = some (b.timePointToTimestamp tp roundUp)
  le_max : ∀ tp roundUp, b.timePointToTimestamp tp roundUp ≤ maxTimestamp
  mono : ∀ p q : TimePoint, p ≤ q → ∀ roundUp,
    b.timePointToTimestamp p roundUp ≤ b.timePointToTimestamp q roundUp
  down_le_up : ∀ tp, b.timePointToTimestamp tp false ≤ b.timePointToTimestamp tp true
  up_le_down_succ : ∀ tp, b.timePointToTimestamp tp true ≤ b.timePointToTimestamp tp false + 1
  reached : ∀ d n : TimePoint, b.baseSeconds ≤ n.seconds →
    b.timePointToTimestamp d true < maxTimestamp →
    b.timePointToTimestamp d true ≤ b.timePointToTimestamp n false → d ≤ n

/-- Under every base, saturated ones included. -/
theorem quantises (b : TimerBase) : b.Quantises where
  no_overflow := b.timePointToTimestampChecked_eq
  le_max := b.timestamp_le_max
  mono _ _ h roundUp := b.timestamp_mono h roundUp
  down_le_up tp := (b.timestamp_down_up tp).1
  up_le_down_succ tp := (b.timestamp_down_up tp).2
  reached d n hbase hlt h := by
    have hunclamped : d.seconds < b.maxSeconds := by
      by_contra hmax
      have hle := b.base_le_max
      rw [timestamp_eq_max (by omega) (not_lt.mp hmax)] at hlt
      omega
    exact le_of_timestamp_le hbase (Or.inl hunclamped) h

end TimerBase
end Squiz.LinuxOS
