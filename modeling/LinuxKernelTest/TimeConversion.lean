import Mathlib.Algebra.Order.Floor.Div
import Mathlib.Tactic

/-!
# Dates, times and ticks

Conversions of `kernel/time/time.c` and `include/linux/jiffies.h` : of a date to seconds, of a time
to ticks and back, and of microseconds to ticks. `HZ` is 100, the `CONFIG_HZ` of `test/config.h`.

`mktime64` lets the year begin in March, so that the leap day comes last, and gets the lengths of
the months from one division. `timespec64_to_jiffies` divides by multiplying with reciprocals that
are rounded up; below a second the error does not reach the next tick.
-/

namespace LinuxKernelTest

open Finset

/-! ## The calendar -/

/-- `mktime64`. What has the type `time64_t` does not overflow. -/
def mktime64 (year0 mon0 day hour min sec : BitVec 32) : ℤ :=
  let (mon, year) := if (mon0 - 2).toInt ≤ 0 then (mon0 - 2 + 12, year0 - 1) else (mon0 - 2, year0)
  (((((year / 4 - year / 100 + year / 400 + 367 * mon / 12 + day).toNat : ℤ) +
    (year * 365).toNat - 719499) * 24 + hour.toNat) * 60 + min.toNat) * 60 + sec.toNat

/-- The leap days of the year `y`. -/
def leapDay (y : ℕ) : ℕ := if y % 4 = 0 ∧ (y % 100 ≠ 0 ∨ y % 400 = 0) then 1 else 0

/-- The days of the month `m` of the year `y`. -/
def monthLength (y m : ℕ) : ℕ :=
  if m = 2 then 28 + leapDay y else if m ∈ [4, 6, 9, 11] then 30 else 31

/-- The days from the first day of the year 1 to a date. -/
def dayNumber (y m d : ℕ) : ℕ :=
  ∑ k ∈ Ico 1 y, (365 + leapDay k) + ∑ k ∈ Ico 1 m, monthLength y k + (d - 1)

/-- The day after a date. -/
def nextDay (y m d : ℕ) : ℕ × ℕ × ℕ :=
  if d < monthLength y m then (y, m, d + 1) else if m < 12 then (y, m + 1, 1) else (y + 1, 1, 1)

/-- A date and a time of day, where the hour 24 and the second 60 are allowed. -/
structure CalendarTime where
  (year month day hour min sec : BitVec 32)
  year_mem : year.toNat ∈ Set.Icc 1 10000000
  month_mem : month.toNat ∈ Set.Icc 1 12
  day_mem : day.toNat ∈ Set.Icc 1 (monthLength year.toNat month.toNat)
  hour_le : hour.toNat ≤ 24
  min_lt : min.toNat < 60
  sec_le : sec.toNat ≤ 60

section

variable {y m d : ℕ}

/-- The days of the first `y` years. -/
theorem sum_years (y : ℕ) : ∑ k ∈ Ico 1 (y + 1), (365 + leapDay k) + y / 100 =
    365 * y + y / 4 + y / 400 := by
  induction y with
  | zero => rfl
  | succ y ih =>
    rw [sum_Ico_succ_top (by omega), leapDay]
    split_ifs <;> omega

/-- The lengths of the months by one division, from March on. -/
theorem sum_months (y : ℕ) (hm : m ∈ Set.Icc 1 12) :
    ∑ k ∈ Ico 1 m, monthLength y k + 336 =
      if m ≤ 2 then 367 * (m + 10) / 12 else 367 * (m - 2) / 12 + 365 + leapDay y := by
  obtain ⟨hle, hm⟩ := hm
  interval_cases m <;> simp [sum_Ico_succ_top, monthLength] <;> omega

/-- The next day has the next number. -/
theorem dayNumber_nextDay (hy : 1 ≤ y) (hm : m ∈ Set.Icc 1 12)
    (hd : d ∈ Set.Icc 1 (monthLength y m)) :
    dayNumber (nextDay y m d).1 (nextDay y m d).2.1 (nextDay y m d).2.2 = dayNumber y m d + 1 := by
  rw [Set.mem_Icc] at hm hd
  rw [nextDay]
  split_ifs with hday hmon <;> dsimp only [dayNumber]
  · omega
  · rw [sum_Ico_succ_top hm.1]
    omega
  · obtain rfl : m = 12 := by omega
    have hmonths := sum_months y (m := 12) (by decide)
    have hlength : monthLength y 12 = 31 := rfl
    rw [sum_Ico_succ_top hy, Ico_self, sum_empty]
    simp at hmonths
    omega

theorem dayNumber_epoch : dayNumber 1970 1 1 = 719162 := by
  have hyears := sum_years 1969
  simp only [Nat.reduceAdd] at hyears
  rw [dayNumber, Ico_self, sum_empty]
  omega

end

/-- The days of `mktime64` without wrapping, for a year that starts in March. -/
theorem toNat_marchDays {y m d : BitVec 32} (hy : y.toNat ≤ 10000000) (hm : m.toNat ≤ 12)
    (hd : d.toNat ≤ 31) :
    (y / 4 - y / 100 + y / 400 + 367 * m / 12 + d).toNat + y.toNat / 100 =
        y.toNat / 4 + y.toNat / 400 + 367 * m.toNat / 12 + d.toNat ∧
      (y * 365).toNat = 365 * y.toNat := by
  have h4 : (y / 4).toNat = y.toNat / 4 := BitVec.toNat_udiv
  have h100 : (y / 100).toNat = y.toNat / 100 := BitVec.toNat_udiv
  have h400 : (y / 400).toNat = y.toNat / 400 := BitVec.toNat_udiv
  have h367 : (367 * m).toNat = 367 * m.toNat := by bv_omega
  have h12 : (367 * m / 12).toNat = 367 * m.toNat / 12 := h367 ▸ BitVec.toNat_udiv
  generalize y / 4 = a at *
  generalize y / 100 = b at *
  generalize y / 400 = c at *
  generalize 367 * m / 12 = e at *
  constructor
  · clear h367
    bv_omega
  · bv_omega

namespace CalendarTime

variable (t : CalendarTime)

/-- `mktime64` at `t`. -/
def seconds : ℤ := mktime64 t.year t.month t.day t.hour t.min t.sec

/-- The seconds of `t` since midnight. -/
def secondOfDay : ℕ := 3600 * t.hour.toNat + 60 * t.min.toNat + t.sec.toNat

/-- The days of `mktime64` are those of the calendar, up to the start of the count. -/
theorem seconds_eq : t.seconds = 86400 *
    ((dayNumber t.year.toNat t.month.toNat t.day.toNat : ℤ) - dayNumber 1970 1 1) +
      t.secondOfDay := by
  obtain ⟨y, m, d, hour, min, sec, hy, hm, hd, -, -, -⟩ := t
  have hmonths := sum_months y.toNat hm
  have hlength : monthLength y.toNat m.toNat ≤ 31 := by
    rw [monthLength, leapDay]
    split_ifs <;> omega
  rw [Set.mem_Icc] at hy hm hd
  have hd' := hd.2.trans hlength
  have hfeb : (m - 2).toInt ≤ 0 ↔ m.toNat ≤ 2 := by
    clear hmonths hlength hy hd hd'
    rw [BitVec.toInt_eq_toNat_cond]
    bv_omega
  clear hlength
  suffices hdays : ∃ n : ℕ, mktime64 y m d hour min sec =
      (((n - 719499 : ℤ) * 24 + hour.toNat) * 60 + min.toNat) * 60 + sec.toNat ∧
        n = dayNumber y.toNat m.toNat d.toNat + 337 by
    obtain ⟨n, hn, rfl⟩ := hdays
    rw [seconds, hn, dayNumber_epoch, secondOfDay]
    push_cast
    ring
  rw [mktime64, dayNumber]
  simp only [hfeb, ← Nat.cast_add]
  refine ⟨_, rfl, ?_⟩
  split_ifs at hmonths ⊢ with hle
  · have hyear : (y - 1).toNat = y.toNat - 1 := by clear hmonths; bv_omega
    have hmon : (m - 2 + 12).toNat = m.toNat + 10 := by clear hmonths; bv_omega
    obtain ⟨hdays, hyear'⟩ := toNat_marchDays (y := y - 1) (m := m - 2 + 12)
      (by rw [hyear]; omega) (by rw [hmon]; omega) hd'
    have hyears := sum_years (y.toNat - 1)
    rw [hyear, hmon] at hdays
    rw [Nat.sub_add_cancel hy.1] at hyears
    dsimp only
    omega
  · have hmon : (m - 2).toNat = m.toNat - 2 := by clear hmonths; bv_omega
    obtain ⟨hdays, hyear'⟩ := toNat_marchDays (m := m - 2) hy.2 (by rw [hmon]; omega) hd'
    have hyears := sum_years y.toNat
    rw [sum_Ico_succ_top hy.1] at hyears
    rw [hmon] at hdays
    dsimp only
    omega

end CalendarTime

/-- `mktime64` counts the days from 1970-01-01 on, and so increases by a day from each day to the
next. -/
theorem mktime64_counts_days (t : CalendarTime) :
    t.seconds = 86400 * ((dayNumber t.year.toNat t.month.toNat t.day.toNat : ℤ) -
        dayNumber 1970 1 1) + t.secondOfDay ∧
      ∀ t' : CalendarTime, (t'.year.toNat, t'.month.toNat, t'.day.toNat) =
          nextDay t.year.toNat t.month.toNat t.day.toNat →
        t'.secondOfDay = t.secondOfDay → t'.seconds = t.seconds + 86400 := by
  refine ⟨t.seconds_eq, fun t' hnext hsame => ?_⟩
  have hday := dayNumber_nextDay t.year_mem.1 t.month_mem t.day_mem
  rw [← hnext] at hday
  rw [t'.seconds_eq, t.seconds_eq, hsame, hday]
  push_cast
  ring

/-- The leap day of the year 2000, at one second past noon. -/
def leapNoon : CalendarTime :=
  ⟨2000, 2, 29, 12, 0, 1, by decide, by decide, by decide, by decide, by decide, by decide⟩

/-- The day after it. -/
def marchNoon : CalendarTime :=
  ⟨2000, 3, 1, 12, 0, 1, by decide, by decide, by decide, by decide, by decide, by decide⟩

theorem mktime64_counts_leapDay : leapNoon.seconds = 951825601 ∧
    marchNoon.seconds = leapNoon.seconds + 86400 :=
  ⟨by decide, (mktime64_counts_days leapNoon).2 marchNoon (by decide) (by decide)⟩

/-! ## Ticks -/

/-- `HZ`. -/
def hz : ℕ := 100

/-- `NSEC_PER_SEC`. -/
def nsecPerSec : ℕ := 1000000000

/-- `TICK_NSEC` : the nanoseconds of a tick. -/
def tickNsec : ℕ := (nsecPerSec + hz / 2) / hz

/-- `SHIFT_HZ`, for `96 ≤ HZ < 192`. -/
def shiftHz : ℕ := 7

/-- `SEC_JIFFIE_SC` : the scaling of the seconds. -/
def secJiffieSc : ℕ :=
  if (((nsecPerSec <<< 2) / tickNsec) <<< (31 - shiftHz - 2)) &&& 0x80000000 = 0 then 32 - shiftHz
  else 31 - shiftHz

/-- `NSEC_JIFFIE_SC` : the scaling of the nanoseconds. -/
def nsecJiffieSc : ℕ := secJiffieSc + 29

/-- `SEC_CONVERSION` : the scaled ticks of a second, rounded up. -/
def secConversion : BitVec 64 :=
  .ofNat 64 (((nsecPerSec <<< secJiffieSc) + tickNsec - 1) / tickNsec)

/-- `NSEC_CONVERSION` : the scaled ticks of a nanosecond, rounded up. -/
def nsecConversion : BitVec 64 := .ofNat 64 (((1 <<< nsecJiffieSc) + tickNsec - 1) / tickNsec)

/-- `MAX_JIFFY_OFFSET` : the timeout that means infinity. -/
def maxJiffyOffset : BitVec 64 := (0x7fffffffffffffff >>> 1) - 1

/-- `SH_DIV`. -/
def shDiv (nom den lsh : ℕ) : ℕ := ((nom / den) <<< lsh) + (((nom % den) <<< lsh) + den / 2) / den

/-- `MAX_SEC_IN_JIFFIES` : from here on the seconds are cut off. -/
def maxSecInJiffies : BitVec 64 :=
  .ofNat 64 (shDiv ((maxJiffyOffset.toNat >>> secJiffieSc) * tickNsec) nsecPerSec 1 - 1)

/-- `timespec64_to_jiffies`. -/
def timespec64ToJiffies (sec nsec : BitVec 64) : BitVec 64 :=
  let nsec := nsec + .ofNat 64 tickNsec - 1
  let (sec, nsec) := if sec ≥ maxSecInJiffies then (maxSecInJiffies, 0) else (sec, nsec)
  (sec * secConversion + ((nsec * nsecConversion) >>> (nsecJiffieSc - secJiffieSc))) >>> secJiffieSc

/-- `jiffies_to_timespec64`. -/
def jiffiesToTimespec64 (jiffies : BitVec 64) : BitVec 64 × BitVec 64 :=
  let nsec := jiffies * .ofNat 64 tickNsec
  (nsec / .ofNat 64 nsecPerSec, nsec % .ofNat 64 nsecPerSec)

/-- `jiffies_to_usecs`. -/
def jiffiesToUsecs (j : BitVec 64) : BitVec 32 := (.ofNat 64 (1000000 / hz) * j).setWidth 32

/-- `__usecs_to_jiffies`. -/
def usecsToJiffies (u : BitVec 32) : BitVec 64 :=
  if u > jiffiesToUsecs maxJiffyOffset then maxJiffyOffset
  else (u.setWidth 64 + .ofNat 64 (1000000 / hz) - 1) / .ofNat 64 (1000000 / hz)

/-- The two products do not wrap, and below a second and a tick the reciprocal is exact. -/
theorem ticks_eq {s n : ℕ} (hs : s < 2748779068) (hn : n < 1000000000) :
    (s * 3355443200 % 2 ^ 64 + (n + 9999999) * 1801439851 % 2 ^ 64 / 2 ^ 29) % 2 ^ 64 / 2 ^ 25 =
      (s * 1000000000 + n + 10000000 - 1) / 10000000 := by
  have hquot : (n + 9999999) * 1801439851 / 2 ^ 29 / 2 ^ 25 = (n + 9999999) / 10000000 := by omega
  have hnsec : (n + 9999999) * 1801439851 % 2 ^ 64 = (n + 9999999) * 1801439851 :=
    Nat.mod_eq_of_lt (by omega)
  have hsec : s * 3355443200 % 2 ^ 64 = s * 3355443200 := Nat.mod_eq_of_lt (by omega)
  rw [hnsec, hsec, Nat.mod_eq_of_lt (by omega)]
  omega

theorem toNat_timespec64ToJiffies {sec nsec : BitVec 64} (hsec : sec < maxSecInJiffies)
    (hnsec : nsec.toNat < nsecPerSec) : (timespec64ToJiffies sec nsec).toNat =
      (sec.toNat * nsecPerSec + nsec.toNat) ⌈/⌉ tickNsec := by
  have heq : timespec64ToJiffies sec nsec =
      (sec * 3355443200#64 + (((nsec + 10000000#64 - 1) * 1801439851#64) >>> 29)) >>> 25 := by
    rw [timespec64ToJiffies, if_neg (BitVec.not_le.mpr hsec)]
    rfl
  have hmax : maxSecInJiffies.toNat = 2748779068 := by decide
  have htick : tickNsec = 10000000 := by decide
  rw [BitVec.lt_def, hmax] at hsec
  rw [nsecPerSec] at hnsec ⊢
  have hn : (nsec + 10000000#64 - 1).toNat = nsec.toNat + 9999999 := by
    clear hsec
    bv_omega
  rw [heq, htick, Nat.ceilDiv_eq_add_pred_div, ← ticks_eq hsec hnsec, BitVec.toNat_ushiftRight,
    BitVec.toNat_add, BitVec.toNat_mul, BitVec.toNat_ushiftRight, BitVec.toNat_mul, hn,
    Nat.shiftRight_eq_div_pow, Nat.shiftRight_eq_div_pow, BitVec.toNat_ofNat, BitVec.toNat_ofNat]

/-- The ticks of a time are rounded up exactly, and no tick is lost on the way to a time and
back. -/
theorem timespec64ToJiffies_exact :
    (∀ sec nsec : BitVec 64, sec < maxSecInJiffies → nsec.toNat < nsecPerSec →
      (timespec64ToJiffies sec nsec).toNat = (sec.toNat * nsecPerSec + nsec.toNat) ⌈/⌉ tickNsec) ∧
    ∀ j : BitVec 64, j.toNat * tickNsec / nsecPerSec < maxSecInJiffies.toNat →
      timespec64ToJiffies (jiffiesToTimespec64 j).1 (jiffiesToTimespec64 j).2 = j := by
  refine ⟨fun sec nsec => toNat_timespec64ToJiffies, fun j hj => BitVec.eq_of_toNat_eq ?_⟩
  have hproduct : (j * .ofNat 64 tickNsec).toNat = j.toNat * tickNsec := by
    have hle : j.toNat * tickNsec < maxSecInJiffies.toNat * nsecPerSec :=
      (Nat.div_lt_iff_lt_mul (by decide)).mp hj
    rw [BitVec.toNat_mul]
    exact Nat.mod_eq_of_lt (hle.trans (by decide))
  rw [jiffiesToTimespec64, toNat_timespec64ToJiffies]
  · rw [BitVec.toNat_udiv, BitVec.toNat_umod, hproduct]
    refine (congrArg (· ⌈/⌉ tickNsec) ((Nat.div_add_mod' _ _).trans (Nat.mul_comm ..))).trans ?_
    exact smul_ceilDiv (α := ℕ) (by decide) _
  · rw [BitVec.lt_def, BitVec.toNat_udiv, hproduct]
    exact hj
  · rw [BitVec.toNat_umod]
    exact Nat.mod_lt _ (by decide)

/-- A nanosecond more than a tick is two ticks, and a tick is one. -/
theorem timespec64ToJiffies_exact_tick :
    (timespec64ToJiffies 0 10000001).toNat = (0 * nsecPerSec + 10000001) ⌈/⌉ tickNsec ∧
      timespec64ToJiffies (jiffiesToTimespec64 101).1 (jiffiesToTimespec64 101).2 = 101 :=
  ⟨timespec64ToJiffies_exact.1 0 10000001 (by decide) (by decide),
    timespec64ToJiffies_exact.2 101 (by decide)⟩

/-! ## Microseconds -/

theorem usecsToJiffies_of_le {u : BitVec 32} (hu : u.toNat ≤ 4294947296) :
    (usecsToJiffies u).toNat = (u.toNat + 9999) / 10000 := by
  have hsum : (u.setWidth 64 + 10000#64 - 1).toNat = u.toNat + 9999 := by bv_omega
  have hlimit : ¬u > jiffiesToUsecs maxJiffyOffset := BitVec.not_lt.mpr hu
  rw [usecsToJiffies, if_neg hlimit, BitVec.toNat_udiv]
  exact congrArg (· / 10000) hsum

theorem usecsToJiffies_of_lt {u : BitVec 32} (hu : 4294947296 < u.toNat) :
    usecsToJiffies u = maxJiffyOffset :=
  if_pos (show u > jiffiesToUsecs maxJiffyOffset from hu)

/-- The limit that `__usecs_to_jiffies` tests has lost its upper bits : the largest numbers get the
timeout that means infinity. -/
theorem usecsToJiffies_exact_iff (u : BitVec 32) :
    ((usecsToJiffies u).toNat = (u.toNat * hz) ⌈/⌉ 1000000 ∧ usecsToJiffies u ≠ maxJiffyOffset ↔
      u.toNat ≤ 4294947296) ∧
    ∀ v, u ≤ v → usecsToJiffies u ≤ usecsToJiffies v := by
  have hmax : maxJiffyOffset.toNat = 2 ^ 62 - 2 := by decide
  refine ⟨⟨fun h => ?_, fun hu => ⟨?_, fun h => ?_⟩⟩, fun v huv => ?_⟩
  · by_contra hu
    exact h.2 (usecsToJiffies_of_lt (Nat.lt_of_not_le hu))
  · rw [usecsToJiffies_of_le hu, hz, Nat.ceilDiv_eq_add_pred_div]
    omega
  · have hvalue := usecsToJiffies_of_le hu
    rw [h, hmax] at hvalue
    omega
  · rw [BitVec.le_def] at huv ⊢
    rcases le_or_gt v.toNat 4294947296 with hv | hv
    · rw [usecsToJiffies_of_le hv, usecsToJiffies_of_le (huv.trans hv)]
      exact Nat.div_le_div_right (Nat.add_le_add_right huv _)
    rw [usecsToJiffies_of_lt hv, hmax]
    rcases le_or_gt u.toNat 4294947296 with hu | hu
    · rw [usecsToJiffies_of_le hu]
      omega
    · exact (congrArg BitVec.toNat (usecsToJiffies_of_lt hu)).trans hmax |>.le

/-- A microsecond more than a tick is two ticks. -/
theorem usecsToJiffies_exact_tick :
    (usecsToJiffies 10001).toNat = (10001 * hz) ⌈/⌉ 1000000 :=
  ((usecsToJiffies_exact_iff 10001).1.mpr (by decide)).1

/-- 4295 seconds are for ever. -/
theorem usecsToJiffies_forever : usecsToJiffies 4294967295 = maxJiffyOffset ∧
    maxJiffyOffset.toNat ≠ (4294967295 * hz) ⌈/⌉ 1000000 := by
  decide

/-- Ticks survive the way to microseconds and back exactly as long as these fit into 32 bits and
below the limit. -/
theorem usecsToJiffies_jiffiesToUsecs_iff (j : BitVec 64) :
    usecsToJiffies (jiffiesToUsecs j) = j ↔ j.toNat ≤ 429494 := by
  have husecs : (jiffiesToUsecs j).toNat = 10000 * j.toNat % 2 ^ 32 := by
    rw [jiffiesToUsecs, BitVec.toNat_setWidth, BitVec.toNat_mul]
    exact Nat.mod_mod_of_dvd _ (by decide)
  have hle := Nat.mod_le (10000 * j.toNat) (2 ^ 32)
  rw [← BitVec.toNat_inj]
  rcases le_or_gt (jiffiesToUsecs j).toNat 4294947296 with hu | hu
  · rw [usecsToJiffies_of_le hu]
    omega
  · rw [usecsToJiffies_of_lt hu, show maxJiffyOffset.toNat = 2 ^ 62 - 2 by decide]
    omega

end LinuxKernelTest
