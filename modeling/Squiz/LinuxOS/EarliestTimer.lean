import Squiz.Detail.BinnedTimePriorityQueue.Runs
import Squiz.LinuxOS.TimerLoop
import Squiz.LinuxOS.Timestamps

/-! The time at which `submit_and_wait_until` wakes the I/O thread up for the earliest timer. -/
namespace Squiz.LinuxOS
open Squiz.Detail Squiz.Detail.BinnedTimePriorityQueue TimePoint
open Run (timerQueueParams)

/-- `timer_queue`, with the items that are in fact queued. -/
abbrev TimerQueue : Type := Queue timerQueueParams TimeOperation

/-- `timer_granularity(count)`, in whose `std::int64_t` the count wraps around. -/
def timerGranularity (count : BitVec 64) : Duration where
  rep := .int64
  count := count.toInt
  num := 1
  den := 1000000
  count_mem := by
    have hle := count.le_toInt
    have hlt := count.toInt_lt
    unfold CommonRep.Holds InInt64 int64Min int64Max
    omega
  num_pos := Int.zero_lt_one
  num_le := Duration.one_le_int64Max
  one_lt_den := by decide
  den_le := by decide
  coprime := Int.one_gcd

instance : DecidableLT TimePoint := decidableLTOfDecidableLE

/-- The seconds and nanoseconds that `submit_and_wait_until` puts into the `__kernel_timespec`. -/
def relativeTimeout (timeout now : TimePoint) : Option (ℤ × ℤ) :=
  if now < timeout then
    (int32 (timeout.nanoseconds - now.nanoseconds)).bind fun nsec =>
    (int64 (timeout.seconds - now.seconds)).bind fun sec =>
    if nsec < 0 then (int64 (sec - 1)).map fun sec => (sec, nsec + 1000000000)
    else some (sec, nsec)
  else some (0, 0)

namespace TimerBase

/-- `get_due_time` -/
def getDueTime (b : TimerBase) (op : TimeOperation) : timerQueueParams.Timestamp :=
  BitVec.ofNat _ (b.timePointToTimestamp op.dueTime true)

/-- `get_earliest_timer` -/
def getEarliestTimer (b : TimerBase) (q : TimerQueue) : Option (ℤ × ℤ) :=
  (fromSecondsAndNanoseconds b.baseSeconds 0).addAssign
    (timerGranularity q.earliestDueTimeLowerBound)

end TimerBase

theorem lt_iff {a b : TimePoint} : a < b ↔ a.value < b.value := by
  have ha := a.nanoseconds_nonneg
  have ha' := a.nanoseconds_lt
  have hb := b.nanoseconds_nonneg
  have hb' := b.nanoseconds_lt
  rw [lt_iff_le_not_ge, TimePoint.le_iff, TimePoint.le_iff]
  unfold value
  omega

section
variable {count : BitVec 64}

/-- The conversions of a number of microseconds that is not negative stay in their ranges. -/
theorem fits_timerGranularity (hcount : 0 ≤ count.toInt) : (timerGranularity count).Fits := by
  have hlt := count.toInt_lt
  have hgcd : (timerGranularity count).nanoGcd = 1000000 := by
    show ((Int.gcd 1000000000 1000000 : ℕ) : ℤ) = 1000000
    decide
  have hmul : count.toInt * 1 = count.toInt := mul_one _
  unfold Duration.Fits
  rw [hgcd]
  unfold Duration.wholeSeconds Duration.remainder timerGranularity
  simp only [hmul, CommonRep.Holds, InInt64, int64Min, int64Max]
  omega

theorem nanoseconds_timerGranularity :
    (timerGranularity count).nanoseconds = count.toInt * 1000 := by
  show count.toInt * 1 * 1000000000 / 1000000 = _
  omega

/-- A sum with a duration that is not negative is exact unless it is after `max()`. -/
theorem addAssign_timerGranularity (tp : TimePoint) {n : ℕ} (hcount : count.toInt = n)
    (h : InInt64 ((tp.value + n * 1000) / 1000000000)) :
    tp.addAssign (timerGranularity count) = some (ofValue (tp.value + n * 1000)).parts := by
  have hnonneg : 0 ≤ count.toInt := hcount ▸ Int.natCast_nonneg n
  have hfits := fits_timerGranularity hnonneg
  have hvalue := (timerGranularity count).nanoseconds_eq
  rw [nanoseconds_timerGranularity, hcount] at hvalue
  unfold addAssign
  rw [Duration.split_of_fits hfits, Option.bind_some, hvalue]
  refine (tp.addParts_exact_iff (Duration.wholeSeconds_mem hfits)
    (timerGranularity count).remainderNanoseconds_mem).mpr fun hcarries => ?_
  have hns := tp.nanoseconds_nonneg
  have hsec := tp.seconds_mem
  have hseconds : 0 ≤ (timerGranularity count).wholeSeconds :=
    Int.ediv_nonneg (mul_nonneg hnonneg Int.one_nonneg) (timerGranularity count).den_pos.le
  unfold Carries at hcarries
  unfold value at h
  unfold InInt64 int64Min int64Max at *
  omega

end

/-- The borrow makes the nanoseconds of a difference of normalised time points normal again. -/
theorem relativeTimeout_eq {timeout now : TimePoint}
    (h : timeout.seconds - now.seconds ≤ int64Max) :
    ∃ sec nsec, relativeTimeout timeout now = some (sec, nsec) ∧
      sec * 1000000000 + nsec = max 0 (timeout.value - now.value) ∧
      0 ≤ nsec ∧ nsec < 1000000000 ∧ 0 ≤ sec := by
  have ht := timeout.nanoseconds_nonneg
  have ht' := timeout.nanoseconds_lt
  have hn := now.nanoseconds_nonneg
  have hn' := now.nanoseconds_lt
  have hvalue : timeout.value - now.value =
      (timeout.seconds - now.seconds) * 1000000000 + (timeout.nanoseconds - now.nanoseconds) := by
    unfold value
    ring
  unfold relativeTimeout
  by_cases hlt : now < timeout
  · have hpos := lt_iff.mp hlt
    have hsec : InInt64 (timeout.seconds - now.seconds) := by
      unfold InInt64 int64Min int64Max at *
      omega
    have hnsec : int32 (timeout.nanoseconds - now.nanoseconds) =
        some (timeout.nanoseconds - now.nanoseconds) := if_pos (by omega)
    rw [if_pos hlt, hnsec, Option.bind_some, int64_of_mem hsec, Option.bind_some]
    rw [max_eq_right (by omega), hvalue]
    by_cases hneg : timeout.nanoseconds - now.nanoseconds < 0
    · have hborrow : InInt64 (timeout.seconds - now.seconds - 1) := by
        unfold InInt64 int64Min int64Max at *
        omega
      rw [if_pos hneg, int64_of_mem hborrow, Option.map_some]
      exact ⟨_, _, rfl, by ring, by omega, by omega, by omega⟩
    · rw [if_neg hneg]
      exact ⟨_, _, rfl, rfl, by omega, by omega, by omega⟩
  · have hle : timeout.value ≤ now.value := not_lt.mp (fun h => hlt (lt_iff.mpr h))
    rw [if_neg hlt, max_eq_left (by omega)]
    exact ⟨0, 0, rfl, by decide, by decide, by decide, by decide⟩

namespace TimerBase
variable {b : TimerBase} {q : TimerQueue} {op : TimeOperation} {i : ℕ}

theorem toNat_getDueTime (b : TimerBase) (op : TimeOperation) :
    (b.getDueTime op).toNat = b.timePointToTimestamp op.dueTime true := by
  have hle := b.timestamp_le_max op.dueTime true
  unfold maxTimestamp at hle
  unfold getDueTime
  rw [BitVec.toNat_ofNat]
  apply Nat.mod_eq_of_lt
  have hwidth : timerQueueParams.width = 64 := rfl
  rw [hwidth]
  omega

theorem lowerBound_le_timestamp (h : Queue.Binned b.getDueTime q) (hop : op ∈ q.bins i) :
    q.earliestDueTimeLowerBound.toNat ≤ b.timePointToTimestamp op.dueTime true := by
  rw [← b.toNat_getDueTime op]
  exact BitVec.le_def.mp (h.lowerBound_le hop)

/-- The reindexing is not clamped where the last timestamp is in the range of the clock. -/
theorem timestamp_reindex_le (hfit : InInt64 (b.baseSeconds + maxTimestampSeconds)) :
    b.timePointToTimestamp b.reindexDueTime true ≤ 140737489000000 := by
  have hmax := b.maxSeconds_eq
  have hre := b.seconds_reindexDueTime
  have hns := b.reindexDueTime.nanoseconds_lt
  have hsec : maxTimestampSeconds = 281474976 := rfl
  have hhalf : halfMaxTimestampSeconds = 140737488 := rfl
  unfold InInt64 int64Max at *
  apply (timestamp_up_le_iff (by omega) (by omega) _).mpr
  unfold sinceBase
  omega

/-- The microsecond at or after a due time that is not clamped is not before its timestamp. -/
theorem timestamp_up_le_ceil {tp : TimePoint} (hbase : b.baseSeconds ≤ tp.seconds)
    (hmax : tp.seconds < b.maxSeconds) :
    b.baseSeconds * 1000000 + b.timePointToTimestamp tp true ≤ ceilMicroseconds tp.value := by
  have hceil := ceilMicroseconds_le.mp (le_refl (ceilMicroseconds tp.value))
  have hnonneg := tp.nanoseconds_nonneg
  unfold value at hceil
  have hle : b.timePointToTimestamp tp true ≤
      (ceilMicroseconds (tp.seconds * 1000000000 + tp.nanoseconds) -
        b.baseSeconds * 1000000).toNat := by
    apply (timestamp_up_le_iff hbase hmax _).mpr
    unfold sinceBase
    omega
  unfold value
  omega

/-- The wake-up time of a queue, and the timeout at a reading of the clock. -/
structure WakesUpInTime (b : TimerBase) (q : TimerQueue) (wakeUp : TimePoint) : Prop where
  /-- nothing overflowed, and the conversion did not saturate -/
  exact : b.getEarliestTimer q = some wakeUp.parts ∧ wakeUp.value =
    b.baseSeconds * 1000000000 + q.earliestDueTimeLowerBound.toNat * 1000
  not_late : ∀ i, ∀ op ∈ q.bins i, b.baseSeconds ≤ op.dueTime.seconds →
    wakeUp.value ≤ ceilMicroseconds op.dueTime.value * 1000
  at_base : ∀ i, ∀ op ∈ q.bins i, op.dueTime.seconds < b.baseSeconds →
    wakeUp.value ≤ b.baseSeconds * 1000000000
  timeout : ∀ now : TimePoint, b.baseSeconds ≤ now.seconds →
    ∃ sec nsec, relativeTimeout wakeUp now = some (sec, nsec) ∧
      sec * 1000000000 + nsec = max 0 (wakeUp.value - now.value) ∧
      0 ≤ nsec ∧ nsec < 1000000000 ∧ 0 ≤ sec

/-- The I/O thread does not oversleep, as the queue also holds `reindex_timer_op_`. -/
theorem wakes_up_in_time (b : TimerBase) (q : TimerQueue)
    (hfit : InInt64 (b.baseSeconds + maxTimestampSeconds)) (hq : Queue.Binned b.getDueTime q)
    (hreindex : TimerLoop.reindexOp b ∈ q.items) :
    ∃ wakeUp, b.WakesUpInTime q wakeUp := by
  obtain ⟨j, hj⟩ := (Queue.mem_items hq.marked).mp hreindex
  have hbound : q.earliestDueTimeLowerBound.toNat ≤ 140737489000000 :=
    (lowerBound_le_timestamp hq hj).trans (timestamp_reindex_le hfit)
  have hmaxSeconds := b.maxSeconds_eq
  have hsec : maxTimestampSeconds = 281474976 := rfl
  obtain ⟨hlo, hhi⟩ := b.base_mem
  have htoInt : q.earliestDueTimeLowerBound.toInt = q.earliestDueTimeLowerBound.toNat :=
    BitVec.toInt_eq_toNat_of_lt (by
      show _ < 2 ^ 64
      omega)
  have hbaseValue : (fromSecondsAndNanoseconds b.baseSeconds 0).value =
      b.baseSeconds * 1000000000 := by
    obtain ⟨hseconds, hnanoseconds⟩ := fromSecondsAndNanoseconds_zero b.base_mem
    rw [value, hseconds, hnanoseconds, add_zero]
  have hmem : InInt64 ((b.baseSeconds * 1000000000 +
      (q.earliestDueTimeLowerBound.toNat : ℤ) * 1000) / 1000000000) := by
    unfold InInt64 int64Min int64Max at *
    omega
  have hvalue := value_ofValue hmem
  have hearliest : b.getEarliestTimer q = some (ofValue (b.baseSeconds * 1000000000 +
      (q.earliestDueTimeLowerBound.toNat : ℤ) * 1000)).parts := by
    unfold getEarliestTimer
    rw [← hbaseValue]
    apply addAssign_timerGranularity _ htoInt
    rw [hbaseValue]
    exact hmem
  generalize hwakeUp : ofValue (b.baseSeconds * 1000000000 +
    (q.earliestDueTimeLowerBound.toNat : ℤ) * 1000) = wakeUp at hearliest hvalue
  refine ⟨wakeUp, ⟨hearliest, hvalue⟩, ?_, ?_, ?_⟩
  · intro i op hop hbase
    have hle := lowerBound_le_timestamp hq hop
    by_cases hmax : op.dueTime.seconds < b.maxSeconds
    · have hceil := timestamp_up_le_ceil hbase hmax
      omega
    · -- a clamped due time is after the reindexing
      have hceil := ceilMicroseconds_le.mp (le_refl (ceilMicroseconds op.dueTime.value))
      have hns := op.dueTime.nanoseconds_nonneg
      have hdue : op.dueTime.value = op.dueTime.seconds * 1000000000 + op.dueTime.nanoseconds := rfl
      unfold InInt64 int64Min int64Max at *
      omega
  · intro i op hop hbase
    have hle := lowerBound_le_timestamp hq hop
    rw [timestamp_eq_zero hbase] at hle
    omega
  · intro now hnow
    apply relativeTimeout_eq
    have hns := wakeUp.nanoseconds_nonneg
    have hns' := wakeUp.nanoseconds_lt
    have hnowMem := now.seconds_mem
    unfold value at hvalue
    unfold InInt64 int64Min int64Max at *
    omega

/-- A timer in the range of the timestamps, one after it, which is clamped, and one before the base
of a context that was constructed at the zero of the clock. -/
def startTimers : List TimeOperation :=
  [⟨.user 0, ⟨5, 250, by decide, by decide, by decide⟩⟩, ⟨.user 1, TimePoint.max⟩,
    ⟨.user 2, ⟨-400, 250, by decide, by decide, by decide⟩⟩]

theorem wakes_up_in_time_start : ∃ q : TimerQueue,
    (∀ op ∈ TimerLoop.reindexOp (reset ⟨0, 0, by decide, by decide, by decide⟩) :: startTimers,
      op ∈ q.items) ∧
      ∃ wakeUp, (reset ⟨0, 0, by decide, by decide, by decide⟩).WakesUpInTime q wakeUp := by
  let b := reset ⟨0, 0, by decide, by decide, by decide⟩
  have hempty := Queue.holds_nil b.getDueTime
    (show timerQueueParams.minorBinsPerMajorBin ∣ (0 : BitVec 64).toNat by decide)
  have hmax : ∀ op ∈ TimerLoop.reindexOp b :: startTimers,
      b.getDueTime op ≤ timerQueueParams.maxTimestamp := by decide
  have hslot : ∀ op ∈ TimerLoop.reindexOp b :: startTimers,
      Lib.Radix.slot timerQueueParams.bits 0 (b.getDueTime op).toNat <
        timerQueueParams.totalBinCount := by decide
  obtain ⟨q, -, hq⟩ := hempty.addAll rfl hmax hslot
  have hmem : ∀ op ∈ TimerLoop.reindexOp b :: startTimers, op ∈ q.items := fun op hop =>
    hq.sameOrder_items.mem_iff.mpr hop
  exact ⟨q, hmem,
    wakes_up_in_time b q (by decide) hq.placed.binned (hmem _ List.mem_cons_self)⟩

end TimerBase
end Squiz.LinuxOS
