import Mathlib.Algebra.Order.Ring.Int
import Mathlib.Tactic.SplitIfs
import NpuOj.Lang.Launch

/-!
# The limits that the kernel enforces

The parent of `launch` judges a run by the smaller of two limits of time and by a limit of
memory. The child, before it runs the program, has the kernel enforce limits of its own:
`set_resource_limit` hands `RLIMIT_CPU` and `RLIMIT_AS` to `setrlimit`, and `launch` sets an
alarm. They are there for a program that the parent cannot stop, and so they should never
be tighter than what the parent judges by.

`set_resource_limit` looks whether any limit of time is set, and takes the one of a single
run all the same; and its sum of the memory limit and four megabytes is one of `size_t`.
`NpuOj.kernelLimits_loose_iff` says what is left.
-/

namespace NpuOj

open Posix Platform

/-! ### The limits of the child -/

/-- `get_rl_cpu_second` -/
def getRlCpuSecond (rl : ResourceLimit) : ℤ :=
  let atLeastOne (limTime : ℤ) : ℤ := if limTime < 1 then 1 else limTime
  if rl.singleTimeLimit.isSet && rl.totalTimeLimit.isSet then
    atLeastOne (if rl.singleTimeLimit.getMillisecond < rl.totalTimeLimit.getMillisecond
      then rl.singleTimeLimit.getSecond else rl.totalTimeLimit.getSecond)
  else if rl.singleTimeLimit.isSet then atLeastOne rl.singleTimeLimit.getSecond
  else if rl.totalTimeLimit.isSet then atLeastOne rl.totalTimeLimit.getSecond
  else 0

/-- `struct rlimit` -/
structure Rlimit where
  rlimCur : ℕ
  rlimMax : ℕ
  deriving DecidableEq, Repr

/-- What is handed to `setrlimit`, if anything is. -/
structure KernelLimits where
  rlimitCpu : Option Rlimit
  rlimitAs : Option Rlimit
  rlimitFsize : Option Rlimit
  deriving DecidableEq, Repr

/-- `set_resource_limit`. A time is converted to `rlim_t`, which has no sign. -/
def setResourceLimit (pf : Platform) (rl : ResourceLimit) : KernelLimits where
  rlimitCpu :=
    if rl.singleTimeLimit.isSet || rl.totalTimeLimit.isSet then
      -- the limit of a single run, also where only the other one is set
      some
        { rlimMax := pf.toSizeT ((rl.singleTimeLimit.getSecond * 3).tdiv 2 + 1)
          rlimCur := pf.toSizeT (rl.singleTimeLimit.getSecond + 1) }
    else none
  rlimitAs :=
    if rl.memoryLimit.isSet then
      some
        { rlimMax := pf.wrap (rl.memoryLimit.getByte + 4 * 1024 * 1024)
          rlimCur := pf.wrap (rl.memoryLimit.getByte + 4 * 1024 * 1024) }
    else none
  rlimitFsize :=
    if rl.fileLimit.isSet then
      some { rlimMax := rl.fileLimit.getByte, rlimCur := rl.fileLimit.getByte }
    else none

/-- `alarm(get_rl_cpu_second(rl) * 5)`: the seconds, as an `unsigned int`. -/
def launchAlarm (rl : ResourceLimit) : ℕ := (getRlCpuSecond rl * 5 % 2 ^ 32).toNat

/-! ### Seconds and milliseconds -/

section Limits

variable {pf : Platform} {rl : ResourceLimit}

theorem TimeUsage.getMillisecond_le (t : TimeUsage) :
    t.getMillisecond ≤ 1000 * t.getSecond := by
  have hdiv := Int.mul_tdiv_add_tmod t.timeSize 1000
  have hmod := Int.tmod_lt_of_pos t.timeSize (show (0 : ℤ) < 1000 by decide)
  rw [TimeUsage.getMillisecond, TimeUsage.getSecond]
  split <;> omega

/-- The seconds of the limit in force are its milliseconds, rounded up. -/
theorem getRlCpuMillisecond_le (rl : ResourceLimit) :
    getRlCpuMillisecond rl ≤ 1000 * getRlCpuSecond rl := by
  have hsingle := rl.singleTimeLimit.getMillisecond_le
  have htotal := rl.totalTimeLimit.getMillisecond_le
  simp only [getRlCpuMillisecond, getRlCpuSecond]
  split_ifs <;> omega

theorem getRlCpuSecond_nonneg (rl : ResourceLimit) : 0 ≤ getRlCpuSecond rl := by
  simp only [getRlCpuSecond]
  split_ifs <;> omega

/-! ### When they are loose -/

/-- Some limit of time is set. -/
def TimeSet (rl : ResourceLimit) : Prop :=
  rl.singleTimeLimit.isSet = true ∨ rl.totalTimeLimit.isSet = true

instance : DecidablePred TimeSet := fun _ => inferInstanceAs (Decidable (_ ∨ _))

/-- **The kernel is not tighter than the parent**: neither in the time that the program uses,
nor in the time that passes, nor in its memory. -/
structure KernelLimitsLoose (pf : Platform) (rl : ResourceLimit) : Prop where
  cpu : TimeSet rl → ∃ lim, (setResourceLimit pf rl).rlimitCpu = some lim ∧
    getRlCpuMillisecond rl ≤ 1000 * lim.rlimCur ∧ lim.rlimCur ≤ lim.rlimMax
  alarm : TimeSet rl → getRlCpuMillisecond rl ≤ 1000 * launchAlarm rl
  memory : rl.memoryLimit.isSet = true → ∃ lim, (setResourceLimit pf rl).rlimitAs = some lim ∧
    rl.memoryLimit.getByte ≤ lim.rlimCur

/-- The times are ones that a `time_t` can hold three times, and an `unsigned int` five times. -/
structure NoOverflow (pf : Platform) (rl : ResourceLimit) : Prop where
  seconds : pf.FitsLong (rl.singleTimeLimit.getSecond * 3)
  alarm : getRlCpuSecond rl * 5 < 2 ^ 32

/-- **The limit of a single run covers the limit in force**: it is not negative, and it is set
or the other one is within a second of it. -/
def SingleCovers (rl : ResourceLimit) : Prop :=
  0 ≤ rl.singleTimeLimit.getSecond ∧ (rl.singleTimeLimit.isSet = true ∨
    rl.totalTimeLimit.getMillisecond ≤ 1000 * (rl.singleTimeLimit.getSecond + 1))

instance : DecidablePred SingleCovers := fun _ => inferInstanceAs (Decidable (_ ∧ _))

theorem launchAlarm_le (hno : NoOverflow pf rl) :
    getRlCpuMillisecond rl ≤ 1000 * launchAlarm rl := by
  have hnonneg := getRlCpuSecond_nonneg rl
  have hle := getRlCpuMillisecond_le rl
  have halarm := hno.alarm
  rw [launchAlarm, Int.emod_eq_of_lt (by omega) halarm, Int.toNat_of_nonneg (by omega)]
  omega

theorem rlimitCpu_of_timeSet (h : TimeSet rl) : (setResourceLimit pf rl).rlimitCpu = some
    { rlimMax := pf.toSizeT ((rl.singleTimeLimit.getSecond * 3).tdiv 2 + 1)
      rlimCur := pf.toSizeT (rl.singleTimeLimit.getSecond + 1) } :=
  if_pos (by simpa [TimeSet] using h)

theorem one_le_getRlCpuMillisecond (h : TimeSet rl) : 1 ≤ getRlCpuMillisecond rl := by
  simp only [getRlCpuMillisecond]
  rcases h with h | h <;> rw [h] <;> split_ifs <;> first | omega | simp_all

section Seconds

variable {s : ℤ}

/-- A number of seconds that is not negative is kept, and its soft limit is within the hard
one. -/
theorem toSizeT_second (hword : 32 ≤ pf.wordBits) (hfits : pf.FitsLong (s * 3)) (hs : 0 ≤ s) :
    (pf.toSizeT (s + 1) : ℤ) = s + 1 ∧
      pf.toSizeT (s + 1) ≤ pf.toSizeT ((s * 3).tdiv 2 + 1) := by
  have hroom : (2 : ℤ) ^ 32 ≤ 2 ^ pf.wordBits := by
    exact_mod_cast Nat.pow_le_pow_right (show 0 < 2 by decide) hword
  obtain ⟨-, hhigh⟩ := hfits
  have hdiv := Int.mul_tdiv_add_tmod (s * 3) 2
  have hlow := Int.lt_tmod_of_pos (s * 3) (show (0 : ℤ) < 2 by decide)
  have hup := Int.tmod_lt_of_pos (s * 3) (show (0 : ℤ) < 2 by decide)
  have hsoft : (pf.toSizeT (s + 1) : ℤ) = s + 1 := toSizeT_of_nonneg (by omega) (by omega)
  have hhard : (pf.toSizeT ((s * 3).tdiv 2 + 1) : ℤ) = (s * 3).tdiv 2 + 1 :=
    toSizeT_of_nonneg (by omega) (by omega)
  exact ⟨hsoft, by omega⟩

/-- A negative number of seconds gives a soft limit of zero, or two limits close to the
greatest, of which the soft one is the greater. -/
theorem toSizeT_second_neg (hfits : pf.FitsLong (s * 3)) (hs : s < 0) :
    (pf.toSizeT (s + 1) : ℤ) = 0 ∨
      pf.toSizeT ((s * 3).tdiv 2 + 1) < pf.toSizeT (s + 1) := by
  obtain ⟨hbelow, -⟩ := hfits
  have hdiv := Int.mul_tdiv_add_tmod (s * 3) 2
  have hlow := Int.lt_tmod_of_pos (s * 3) (show (0 : ℤ) < 2 by decide)
  have hup := Int.tmod_lt_of_pos (s * 3) (show (0 : ℤ) < 2 by decide)
  by_cases hminus : s = -1
  · left
    simp [hminus, toSizeT]
  · right
    have hsoft : (pf.toSizeT (s + 1) : ℤ) = s + 1 + 2 ^ pf.wordBits :=
      toSizeT_of_neg (by omega) (by omega)
    have hhard : (pf.toSizeT ((s * 3).tdiv 2 + 1) : ℤ)
        = (s * 3).tdiv 2 + 1 + 2 ^ pf.wordBits := toSizeT_of_neg (by omega) (by omega)
    omega

end Seconds

/-- **The limit of the time that the program uses** is loose exactly if the limit of a single
run covers the one in force. -/
theorem rlimitCpu_loose_iff (hword : 32 ≤ pf.wordBits) (hset : TimeSet rl)
    (hno : NoOverflow pf rl) :
    (∃ lim, (setResourceLimit pf rl).rlimitCpu = some lim ∧
      getRlCpuMillisecond rl ≤ 1000 * lim.rlimCur ∧ lim.rlimCur ≤ lim.rlimMax) ↔
    SingleCovers rl := by
  have hone := one_le_getRlCpuMillisecond hset
  simp only [rlimitCpu_of_timeSet hset, Option.some.injEq, exists_eq_left']
  by_cases hneg : rl.singleTimeLimit.getSecond < 0
  · refine iff_of_false ?_ fun h => absurd h.1 (by omega)
    rintro ⟨hsoft, hhard⟩
    rcases toSizeT_second_neg hno.seconds hneg with hzero | hlt
    · omega
    · omega
  · obtain ⟨hsoft, hhard⟩ := toSizeT_second hword hno.seconds (not_lt.mp hneg)
    rw [hsoft, and_iff_left hhard, SingleCovers, and_iff_right (not_lt.mp hneg)]
    have hsingle := rl.singleTimeLimit.getMillisecond_le
    cases hs : rl.singleTimeLimit.isSet with
    | true =>
      refine iff_of_true ?_ (Or.inl rfl)
      simp only [getRlCpuMillisecond, hs, Bool.true_and]
      split_ifs <;> omega
    | false =>
      have htotal : rl.totalTimeLimit.isSet = true := by simpa [TimeSet, hs] using hset
      simp only [getRlCpuMillisecond, hs, htotal, Bool.false_and, Bool.false_eq_true, if_false,
        if_true, false_or]
      split <;> omega

/-- **When the kernel is not tighter than the parent**: if a limit of time is set, then the
one of a single run covers the one in force, and the limit of memory is four megabytes below
the greatest `size_t`. -/
theorem kernelLimits_loose_iff (pf : Platform) (rl : ResourceLimit) (hword : 32 ≤ pf.wordBits)
    (hmem : rl.memoryLimit.getByte < 2 ^ pf.wordBits) (hno : NoOverflow pf rl) :
    KernelLimitsLoose pf rl ↔ (TimeSet rl → SingleCovers rl) ∧
      (rl.memoryLimit.isSet = true →
        rl.memoryLimit.getByte + 4 * 1024 * 1024 < 2 ^ pf.wordBits) := by
  have hroom : 4 * 1024 * 1024 < 2 ^ pf.wordBits :=
    lt_of_lt_of_le (by decide) (Nat.pow_le_pow_right (by decide) hword)
  have has (hset : rl.memoryLimit.isSet = true) : (setResourceLimit pf rl).rlimitAs = some _ :=
    if_pos hset
  constructor
  · intro h
    refine ⟨fun hset => (rlimitCpu_loose_iff hword hset hno).mp (h.cpu hset), fun hset => ?_⟩
    obtain ⟨lim, hlim, hle⟩ := h.memory hset
    rw [has hset] at hlim
    obtain rfl := Option.some.inj hlim
    exact (le_wrap_add_iff hmem hroom).mp hle
  · rintro ⟨hcpu, hmemory⟩
    refine ⟨fun hset => (rlimitCpu_loose_iff hword hset hno).mpr (hcpu hset),
      fun _ => launchAlarm_le hno, fun hset => ⟨_, has hset, ?_⟩⟩
    exact (le_wrap_add_iff hmem hroom).mpr (hmemory hset)

/-- The limits of a problem: one second and 64 megabytes. -/
def oneSecond : ResourceLimit where
  singleTimeLimit := ⟨1000, true⟩
  memoryLimit := ⟨67108864, true⟩

theorem kernelLimits_loose_iff_oneSecond : KernelLimitsLoose lp64 oneSecond :=
  (kernelLimits_loose_iff lp64 oneSecond (by decide) (by decide)
    ⟨by decide, by decide⟩).mpr ⟨fun _ => by decide, fun _ => by decide⟩

/-- Five seconds for all runs together, and all the memory there is. -/
def totalOnly : ResourceLimit where
  totalTimeLimit := ⟨5000, true⟩
  memoryLimit := ⟨2 ^ 64 - 1, true⟩

/-- **A limit for all runs together**: the parent gives the program five seconds, and the
kernel ends it after one. The limit of memory wraps to less than four megabytes. -/
theorem kernelLimits_totalOnly :
    NoOverflow lp64 totalOnly ∧ getRlCpuMillisecond totalOnly = 5000 ∧
      setResourceLimit lp64 totalOnly
        = ⟨some ⟨1, 1⟩, some ⟨4194303, 4194303⟩, none⟩ ∧
      ¬KernelLimitsLoose lp64 totalOnly := by
  refine ⟨⟨by decide, by decide⟩, by decide, by decide, fun h => ?_⟩
  obtain ⟨lim, hlim, hsoft, -⟩ := h.cpu (by decide)
  obtain rfl : ⟨1, 1⟩ = lim := Option.some.inj hlim
  exact absurd hsoft (by decide)

end Limits

end NpuOj
