import Squiz.LinuxOS.MonotonicClock

/-! Timestamps of the timer queue: microseconds after a base that `reset_timer_base` moves. -/
namespace Squiz.LinuxOS
open Squiz.Detail

def maxTimestamp : ℕ := 281474976710655

/-- The whole seconds of `max_timestamp`. -/
def maxTimestampSeconds : ℤ := (maxTimestamp / 1000000 : ℕ)

/-- The whole seconds of `max_timestamp / 2`. -/
def halfMaxTimestampSeconds : ℤ := (maxTimestamp / 2 / 1000000 : ℕ)

def baseSecondsInPast : ℤ := 300

/-- `std::chrono::floor` from nanoseconds to `timer_granularity`. -/
def floorMicroseconds (nanoseconds : ℤ) : ℤ :=
  if nanoseconds < nanoseconds.tdiv 1000 * 1000 then nanoseconds.tdiv 1000 - 1
  else nanoseconds.tdiv 1000

/-- `std::chrono::ceil` -/
def ceilMicroseconds (nanoseconds : ℤ) : ℤ :=
  if nanoseconds.tdiv 1000 * 1000 < nanoseconds then nanoseconds.tdiv 1000 + 1
  else nanoseconds.tdiv 1000

section Granularity
variable {n k : ℤ}

theorem tdiv_bounds (n : ℤ) : n.tdiv 1000 * 1000 - 1000 < n ∧ n < n.tdiv 1000 * 1000 + 1000 := by
  have hdiv := Int.mul_tdiv_add_tmod n 1000
  have hlt := Int.tmod_lt_of_pos n (by decide : (0 : ℤ) < 1000)
  have hgt : -1000 < n.tmod 1000 := Int.lt_tmod_of_pos n (by decide : (0 : ℤ) < 1000)
  omega

theorem le_floorMicroseconds : k ≤ floorMicroseconds n ↔ k * 1000 ≤ n := by
  have hb := tdiv_bounds n
  unfold floorMicroseconds
  split_ifs <;> omega

theorem ceilMicroseconds_le : ceilMicroseconds n ≤ k ↔ n ≤ k * 1000 := by
  have hb := tdiv_bounds n
  unfold ceilMicroseconds
  split_ifs <;> omega

end Granularity

/-- The base that timestamps count from, and the second from which they are clamped. -/
structure TimerBase where
  /-- `timer_base_time_seconds_` -/
  baseSeconds : ℤ
  /-- `timer_max_time_seconds_` -/
  maxSeconds : ℤ
  base_mem : InInt64 baseSeconds
  max_eq : maxSeconds = addSat baseSeconds maxTimestampSeconds

namespace TimerBase

theorem baseSeconds_inj {b c : TimerBase} : b.baseSeconds = c.baseSeconds ↔ b = c := by
  refine ⟨fun h => ?_, fun h => by rw [h]⟩
  cases b
  cases c
  simp_all

instance : DecidableEq TimerBase := fun _ _ => decidable_of_iff _ baseSeconds_inj

/-- The base that `reset_timer_base` chooses at the given time. -/
def reset (currentTime : TimePoint) : TimerBase where
  baseSeconds := subSat currentTime.seconds baseSecondsInPast
  maxSeconds := addSat (subSat currentTime.seconds baseSecondsInPast) maxTimestampSeconds
  base_mem := saturate_mem _
  max_eq := rfl

/-- The due time that it gives `reindex_timer_op_`. -/
def reindexDueTime (b : TimerBase) : TimePoint :=
  .fromSecondsAndNanoseconds (addSat b.baseSeconds halfMaxTimestampSeconds) 0

def timePointToTimestamp (b : TimerBase) (tp : TimePoint) (roundUp : Bool) : ℕ :=
  if tp.seconds < b.baseSeconds then 0
  else if b.maxSeconds ≤ tp.seconds then maxTimestamp
  else
    let diffNanoseconds := (tp.seconds - b.baseSeconds) * 1000000000 + tp.nanoseconds
    (if roundUp then ceilMicroseconds diffNanoseconds
      else floorMicroseconds diffNanoseconds).toNat

variable {b : TimerBase} {tp x now : TimePoint}

theorem maxSeconds_eq (b : TimerBase) :
    b.maxSeconds = min (b.baseSeconds + maxTimestampSeconds) int64Max := by
  rw [b.max_eq, addSat_eq_min b.base_mem (by decide)]

theorem reset_le (currentTime : TimePoint) :
    (reset currentTime).baseSeconds ≤ currentTime.seconds :=
  subSat_le currentTime.seconds_mem (by decide)

theorem seconds_reindexDueTime (b : TimerBase) :
    b.reindexDueTime.seconds = min (b.baseSeconds + halfMaxTimestampSeconds) int64Max := by
  rw [← addSat_eq_min b.base_mem (by decide)]
  exact TimePoint.seconds_fromSecondsAndNanoseconds (saturate_mem _)

/-- What the timestamp counts, for a time that is not clamped. -/
def sinceBase (b : TimerBase) (tp : TimePoint) : ℤ :=
  (tp.seconds - b.baseSeconds) * 1000000000 + tp.nanoseconds

theorem timestamp_eq_zero (h : tp.seconds < b.baseSeconds) (roundUp : Bool) :
    b.timePointToTimestamp tp roundUp = 0 := if_pos h

theorem timestamp_eq_max (hbase : b.baseSeconds ≤ tp.seconds) (h : b.maxSeconds ≤ tp.seconds)
    (roundUp : Bool) : b.timePointToTimestamp tp roundUp = maxTimestamp := by
  unfold timePointToTimestamp
  rw [if_neg (not_lt.mpr hbase), if_pos h]

theorem timestamp_up_le_iff (hbase : b.baseSeconds ≤ tp.seconds) (h : tp.seconds < b.maxSeconds)
    (k : ℕ) : b.timePointToTimestamp tp true ≤ k ↔ b.sinceBase tp ≤ k * 1000 := by
  have hceil := ceilMicroseconds_le (n := b.sinceBase tp) (k := k)
  simp only [timePointToTimestamp, if_neg (not_lt.mpr hbase), if_neg (not_le.mpr h), if_true]
  rw [Int.toNat_le]
  exact hceil

theorem le_timestamp_down_iff (hbase : b.baseSeconds ≤ tp.seconds) (h : tp.seconds < b.maxSeconds)
    (k : ℕ) : k ≤ b.timePointToTimestamp tp false ↔ k * 1000 ≤ b.sinceBase tp := by
  have hnn : 0 ≤ b.sinceBase tp := by
    have hns := tp.nanoseconds_nonneg
    unfold sinceBase
    omega
  have hfloor := le_floorMicroseconds (n := b.sinceBase tp) (k := k)
  have hzero := le_floorMicroseconds (n := b.sinceBase tp) (k := 0)
  simp only [timePointToTimestamp, if_neg (not_lt.mpr hbase), if_neg (not_le.mpr h),
    Bool.false_eq_true, if_false]
  change k ≤ (floorMicroseconds (b.sinceBase tp)).toNat ↔ _
  rw [← hfloor]
  omega

/-- An unclamped time stays below the timestamp of the clamped ones. -/
theorem timestamp_up_lt_max (h : tp.seconds < b.maxSeconds) :
    b.timePointToTimestamp tp true < maxTimestamp := by
  have hmax := b.maxSeconds_eq
  have hns := tp.nanoseconds_lt
  have hsec : maxTimestampSeconds = 281474976 := rfl
  by_cases hbase : b.baseSeconds ≤ tp.seconds
  · have hle : b.timePointToTimestamp tp true ≤ 281474976000000 := by
      apply (timestamp_up_le_iff hbase h _).mpr
      unfold sinceBase
      omega
    unfold maxTimestamp
    omega
  · rw [timestamp_eq_zero (not_le.mp hbase)]
    decide

theorem timestamp_down_lt_max (h : tp.seconds < b.maxSeconds) :
    b.timePointToTimestamp tp false < maxTimestamp := by
  have hmax := b.maxSeconds_eq
  have hns := tp.nanoseconds_lt
  have hsec : maxTimestampSeconds = 281474976 := rfl
  by_cases hbase : b.baseSeconds ≤ tp.seconds
  · have hlt : ¬ 281474976000000 ≤ b.timePointToTimestamp tp false := by
      intro hge
      have hle := (le_timestamp_down_iff hbase h _).mp hge
      unfold sinceBase at hle
      omega
    unfold maxTimestamp
    omega
  · rw [timestamp_eq_zero (not_le.mp hbase)]
    decide

/-- A timestamp rounded up that has been reached, by the time rounded down, belongs to a time that
has passed, unless both were clamped. -/
theorem le_of_timestamp_le (hbase : b.baseSeconds ≤ now.seconds)
    (hclamp : x.seconds < b.maxSeconds ∨ now.seconds < b.maxSeconds)
    (h : b.timePointToTimestamp x true ≤ b.timePointToTimestamp now false) : x ≤ now := by
  rw [TimePoint.le_iff]
  by_cases hx : x.seconds < b.maxSeconds
  · by_cases hnow : now.seconds < b.maxSeconds
    · by_cases hxb : b.baseSeconds ≤ x.seconds
      · have h1 := (timestamp_up_le_iff hxb hx _).mp h
        have h2 := (le_timestamp_down_iff hbase hnow _).mp le_rfl
        have hns := x.nanoseconds_nonneg
        have hns' := now.nanoseconds_lt
        have hns'' := x.nanoseconds_lt
        have hns''' := now.nanoseconds_nonneg
        unfold sinceBase at h1 h2
        omega
      · omega
    · omega
  · have hnow : now.seconds < b.maxSeconds := by omega
    have hlt := timestamp_down_lt_max hnow
    have hmaxle : b.maxSeconds ≤ x.seconds := by omega
    rw [timestamp_eq_max (by omega) hmaxle] at h
    omega

/-- A time that is clamped although it is queued no later than the reindexing lies in the last
second that `std::int64_t` can represent. -/
theorem seconds_eq_max_of_le_reindex
    (h : b.timePointToTimestamp x true ≤ b.timePointToTimestamp b.reindexDueTime true)
    (hclamp : b.maxSeconds ≤ x.seconds) : b.maxSeconds = int64Max := by
  have hmax := b.maxSeconds_eq
  have hre := b.seconds_reindexDueTime
  have hsec : maxTimestampSeconds = 281474976 := rfl
  have hhalf : halfMaxTimestampSeconds = 140737488 := rfl
  have hmem := b.base_mem
  by_cases hlt : b.reindexDueTime.seconds < b.maxSeconds
  · have hup := timestamp_up_lt_max hlt
    rw [timestamp_eq_max (by unfold InInt64 int64Max at *; omega) hclamp] at h
    omega
  · unfold InInt64 int64Max at *
    omega

end TimerBase
end Squiz.LinuxOS
