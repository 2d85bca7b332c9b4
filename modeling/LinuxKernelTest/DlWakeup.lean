import LinuxKernelTest.Cpudl
import LinuxKernelTest.DlAdmission

/-!
# The wakeup rule of a deadline task

When a deadline task wakes up, `update_dl_entity` of `kernel/sched/deadline.c` decides whether it
may go on with the runtime and the absolute deadline that it had. If the rest of the runtime over
the time to the deadline exceeds the reserved bandwidth, a task with `dl_deadline = dl_period`
starts a new instance, and any other one has its runtime cut down to what the density allows.

The comparison is made on products of times in units of `2^10` ns, modulo `2^64`. A deadline of an
hour is enough for the products to wrap, and then a runtime that exceeds the bandwidth is kept. The
result stays within the bandwidth exactly if the wakeup is `SchedDlEntity.WakeupSafe`, which holds
for all ordinary deadlines below `2^41` ns (`SchedDlEntity.wakeupSafe_of_lt`).
-/

namespace LinuxKernelTest

open BitVec Nat

/-! ## The model -/

/-- `DL_SCALE`. -/
def dlScale : ℕ := 10

/-- `struct sched_dl_entity` with the parameters of the current instance ; `runtime` is signed. -/
structure SchedDlEntity extends DlEntity where
  runtime : BitVec 64
  deadline : BitVec 64
  dlBoosted : Bool
deriving DecidableEq, Repr

/-- `dl_is_implicit`. -/
def dlIsImplicit (dlSe : SchedDlEntity) : Bool := dlSe.dlDeadline = dlSe.dlPeriod

/-- `dl_entity_overflow`. -/
def dlEntityOverflow (dlSe piSe : SchedDlEntity) (t : BitVec 64) : Bool :=
  let left := (piSe.dlDeadline >>> dlScale) * dlSe.runtime.sshiftRight dlScale
  let right := ((dlSe.deadline - t) >>> dlScale) * (piSe.dlRuntime >>> dlScale)
  dlTimeBefore right left

/-- `update_dl_revised_wakeup` at the time `clock` of the run queue. -/
def updateDlRevisedWakeup (dlSe : SchedDlEntity) (clock : BitVec 64) : SchedDlEntity :=
  let laxity := dlSe.deadline - clock
  { dlSe with runtime := (dlSe.dlDensity * laxity) >>> bwShift }

/-- `update_dl_entity` at the time `clock` of the run queue. -/
def updateDlEntity (dlSe piSe : SchedDlEntity) (clock : BitVec 64) : SchedDlEntity :=
  if dlTimeBefore dlSe.deadline clock || dlEntityOverflow dlSe piSe clock then
    if !dlIsImplicit dlSe && !dlTimeBefore dlSe.deadline clock && !dlSe.dlBoosted then
      updateDlRevisedWakeup dlSe clock
    else { dlSe with deadline := clock + piSe.dlDeadline, runtime := piSe.dlRuntime }
  else dlSe

namespace SchedDlEntity

variable {e : SchedDlEntity} {now : BitVec 64} {a b : BitVec 64}

/-- The time to the deadline. -/
def laxity (e : SchedDlEntity) (now : BitVec 64) : ℕ := (e.deadline - now).toNat

/-- The exact value of `left` of `dl_entity_overflow`. -/
def remaining (e : SchedDlEntity) : ℕ :=
  e.dlDeadline.toNat / 2 ^ dlScale * (e.runtime.toNat / 2 ^ dlScale)

/-- The exact value of `right` of `dl_entity_overflow`. -/
def reserved (e : SchedDlEntity) (now : BitVec 64) : ℕ :=
  e.laxity now / 2 ^ dlScale * (e.dlRuntime.toNat / 2 ^ dlScale)

/-- The entity may run until its deadline without exceeding its reserved bandwidth, exactly or
with each factor rounded down to the granularity of `dl_entity_overflow`. -/
structure WithinBandwidth (e : SchedDlEntity) (now : BitVec 64) : Prop where
  ahead : 0 ≤ (e.deadline - now).toInt
  nonneg : 0 ≤ e.runtime.toInt
  le : e.runtime.toInt ≤ e.dlRuntime.toNat
  rate : e.runtime.toNat * e.dlDeadline.toNat ≤ e.dlRuntime.toNat * e.laxity now ∨
    e.remaining ≤ e.reserved now

/-- The entity exceeds its bandwidth, and by so much that the difference of the two products has
the wrong sign modulo `2^64`. -/
def Wraps (e : SchedDlEntity) (now : BitVec 64) : Prop :=
  e.dlRuntime.toNat * e.laxity now < e.runtime.toNat * e.dlDeadline.toNat ∧
  e.reserved now < e.remaining ∧
  ¬(0 < (e.remaining - e.reserved now) % 2 ^ 64 ∧
    (e.remaining - e.reserved now) % 2 ^ 64 ≤ 2 ^ 63)

/-- The comparison does not wrap, and where a new instance begins its length is a positive `s64`
(`__checkparam_dl` makes sure of the latter for all but the special tasks). -/
structure WakeupSafe (e : SchedDlEntity) (now : BitVec 64) : Prop where
  exact_of_ahead : dlTimeBefore e.deadline now = false → ¬e.Wraps now
  small : dlTimeBefore e.deadline now = true ∨ dlEntityOverflow e e now = true ∧
    dlIsImplicit e = true → e.dlDeadline.toNat < 2 ^ 63 ∧ e.dlRuntime.toNat < 2 ^ 63

/-! ## The comparisons -/

theorem dlTimeBefore_iff_le :
    dlTimeBefore a b = true ↔ 2 ^ 63 ≤ (a - b).toNat := by
  rw [dlTimeBefore, decide_eq_true_iff, toInt_eq_toNat_cond]
  have hlt := (a - b).isLt
  split_ifs <;> omega

theorem dlTimeBefore_eq_false_iff_lt :
    dlTimeBefore a b = false ↔ (a - b).toNat < 2 ^ 63 := by
  rw [← Bool.not_eq_true, dlTimeBefore_iff_le, not_le]

/-- The runtime of an entity that has some left, as a natural number. -/
theorem toInt_runtime (hpos : 0 < e.runtime.toInt) :
    e.runtime.toInt = e.runtime.toNat ∧ e.runtime.toNat < 2 ^ 63 := by
  have hlt := e.runtime.isLt
  rw [toInt_eq_toNat_cond] at hpos ⊢
  split_ifs at hpos ⊢ <;> omega

/-- Which differences of exact products the code takes for an overflow. -/
theorem dlEntityOverflow_iff (hpos : 0 < e.runtime.toInt) :
    dlEntityOverflow e e now = true ↔
      2 ^ 63 ≤ (e.reserved now + (2 ^ 64 - e.remaining % 2 ^ 64)) % 2 ^ 64 := by
  have hmsb : e.runtime.msb = false := by
    rw [msb_eq_false_iff_two_mul_lt]
    have := (toInt_runtime hpos).2
    omega
  rw [dlEntityOverflow, dlTimeBefore_iff_le]
  simp only [sshiftRight_eq_of_msb_false hmsb, toNat_sub, toNat_mul,
    toNat_ushiftRight, shiftRight_eq_div_pow]
  rw [← toNat_sub, remaining, reserved, laxity]
  omega

/-- The code keeps an entity whose exact products are in the other order only if they wrap. -/
theorem lt_iff_wraps (hpos : 0 < e.runtime.toInt) (hkeep : dlEntityOverflow e e now = false) :
    e.Wraps now ↔ e.dlRuntime.toNat * e.laxity now < e.runtime.toNat * e.dlDeadline.toNat ∧
      e.reserved now < e.remaining := by
  rw [← Bool.not_eq_true, dlEntityOverflow_iff hpos] at hkeep
  rw [Wraps]
  omega

/-! ## The three branches -/

/-- A new instance runs at exactly the reserved bandwidth. -/
theorem withinBandwidth_reset_iff :
    ({ e with deadline := now + e.dlDeadline, runtime := e.dlRuntime } :
      SchedDlEntity).WithinBandwidth now ↔
      e.dlDeadline.toNat < 2 ^ 63 ∧ e.dlRuntime.toNat < 2 ^ 63 := by
  have hlax : now + e.dlDeadline - now = e.dlDeadline := add_sub_cancel_left _ _
  have hdeadline := e.dlDeadline.isLt
  have hruntime := e.dlRuntime.isLt
  constructor
  · rintro ⟨hahead, hnonneg, -, -⟩
    rw [hlax, toInt_eq_toNat_cond] at hahead
    change 0 ≤ e.dlRuntime.toInt at hnonneg
    rw [toInt_eq_toNat_cond] at hnonneg
    constructor
    · split_ifs at hahead <;> omega
    · split_ifs at hnonneg <;> omega
  · rintro ⟨hd, hr⟩
    have hdInt : e.dlDeadline.toInt = e.dlDeadline.toNat := toInt_eq_toNat_of_lt (by omega)
    have hrInt : e.dlRuntime.toInt = e.dlRuntime.toNat := toInt_eq_toNat_of_lt (by omega)
    refine ⟨?_, ?_, ?_, .inl ?_⟩
    · simp only [hlax, hdInt, cast_nonneg]
    · simp only [hrInt, cast_nonneg]
    · simp [hrInt]
    · simp [laxity, hlax]

/-- The density is at most the reserved bandwidth, also where the shift of `to_ratio` wraps. -/
theorem toNat_toRatio_mul_le (period runtime : BitVec 64) :
    (toRatio period runtime).toNat * period.toNat ≤ runtime.toNat * 2 ^ bwShift := by
  rw [toRatio]
  split_ifs with hinf hzero
  · subst hinf
    have hlt := period.isLt
    have hunit : bwUnit.toNat = 2 ^ bwShift := by decide
    rw [hunit, mul_comm, runtimeInf, toNat_allOnes]
    exact mul_le_mul_right _ (by omega)
  · simp
  · rw [toNat_udiv, toNat_shiftLeft, Nat.shiftLeft_eq]
    exact (Nat.div_mul_le_self _ _).trans (Nat.mod_le _ _)

/-- The revised runtime, as an exact quotient rounded down. -/
theorem toNat_revised_le (density lax : BitVec 64) :
    ((density * lax) >>> bwShift).toNat * 2 ^ bwShift ≤ density.toNat * lax.toNat := by
  rw [toNat_ushiftRight, shiftRight_eq_div_pow, toNat_mul]
  exact (div_mul_le_self _ _).trans (mod_le _ _)

/-- The revised rule never exceeds the bandwidth : what wraps only makes the runtime smaller. -/
theorem withinBandwidth_revised
    (hdensity : e.dlDensity = toRatio e.dlDeadline e.dlRuntime)
    (hahead : dlTimeBefore e.deadline now = false) (hle : e.laxity now ≤ e.dlDeadline.toNat) :
    (updateDlRevisedWakeup e now).WithinBandwidth now := by
  rw [dlTimeBefore_eq_false_iff_lt] at hahead
  have hrevised := toNat_revised_le e.dlDensity (e.deadline - now)
  have hratio := toNat_toRatio_mul_le e.dlDeadline e.dlRuntime
  rw [← hdensity] at hratio
  rw [laxity] at hle
  set lax := e.deadline - now with hlax
  set revised := (e.dlDensity * lax) >>> bwShift with hrev
  have hsmall : revised.toNat < 2 ^ 44 := by
    rw [hrev, toNat_ushiftRight, Nat.shiftRight_eq_div_pow, bwShift]
    have := (e.dlDensity * lax).isLt
    omega
  have hint : revised.toInt = revised.toNat := toInt_eq_toNat_of_lt (by omega)
  have hrate : revised.toNat * e.dlDeadline.toNat ≤ e.dlRuntime.toNat * lax.toNat := by
    refine Nat.le_of_mul_le_mul_right ?_ (Nat.two_pow_pos bwShift)
    calc revised.toNat * e.dlDeadline.toNat * 2 ^ bwShift
        = revised.toNat * 2 ^ bwShift * e.dlDeadline.toNat := Nat.mul_right_comm _ _ _
      _ ≤ e.dlDensity.toNat * lax.toNat * e.dlDeadline.toNat := Nat.mul_le_mul_right _ hrevised
      _ = e.dlDensity.toNat * e.dlDeadline.toNat * lax.toNat := Nat.mul_right_comm _ _ _
      _ ≤ e.dlRuntime.toNat * 2 ^ bwShift * lax.toNat := Nat.mul_le_mul_right _ hratio
      _ = e.dlRuntime.toNat * lax.toNat * 2 ^ bwShift := Nat.mul_right_comm _ _ _
  refine ⟨?_, ?_, ?_, .inl hrate⟩
  · rw [updateDlRevisedWakeup, ← hlax, toInt_eq_toNat_of_lt (by omega)]
    exact Int.natCast_nonneg _
  · rw [updateDlRevisedWakeup, ← hlax, ← hrev, hint]
    exact Int.natCast_nonneg _
  · rw [updateDlRevisedWakeup, ← hlax, ← hrev, hint]
    refine Int.ofNat_le.mpr ?_
    rcases Nat.eq_zero_or_pos e.dlDeadline.toNat with hzero | hpos
    · -- A deadline of 0 leaves no laxity, and the product is 0.
      have hlaxZero : lax.toNat = 0 := by omega
      rw [hlaxZero, Nat.mul_zero] at hrevised
      have : revised.toNat = 0 := by
        simpa [bwShift] using hrevised
      omega
    · exact Nat.le_of_mul_le_mul_right (hrate.trans (Nat.mul_le_mul_left _ hle)) hpos

/-- An entity that is kept is within its bandwidth unless the products wrapped. -/
theorem withinBandwidth_keep_iff (hpos : 0 < e.runtime.toInt)
    (hle : e.runtime.toInt ≤ e.dlRuntime.toNat) (hahead : dlTimeBefore e.deadline now = false)
    (hkeep : dlEntityOverflow e e now = false) :
    e.WithinBandwidth now ↔ ¬e.Wraps now := by
  rw [lt_iff_wraps hpos hkeep]
  rw [dlTimeBefore_eq_false_iff_lt] at hahead
  constructor
  · rintro ⟨-, -, -, hrate⟩
    omega
  · intro hnot
    refine ⟨?_, hpos.le, hle, by omega⟩
    rw [toInt_eq_toNat_of_lt (by omega)]
    exact Int.natCast_nonneg _

/-! ## The wakeup rule -/

/-- A deadline that the code does not take for a past one is no further ahead than the relative
deadline. -/
theorem laxity_le (hahead : dlTimeBefore e.deadline now = false)
    (h : e.laxity now ≤ e.dlDeadline.toNat ∨ (now - e.deadline).toNat < 2 ^ 63) :
    e.laxity now ≤ e.dlDeadline.toNat := by
  rw [dlTimeBefore_eq_false_iff_lt] at hahead
  rcases h with hle | hpast
  · exact hle
  rw [laxity]
  rw [toNat_sub] at hahead hpast ⊢
  have := now.isLt
  have := e.deadline.isLt
  omega

/-- The branch that begins a new instance. -/
theorem updateDlEntity_reset (hreset : dlTimeBefore e.deadline now = true ∨
    dlEntityOverflow e e now = true ∧ dlIsImplicit e = true) :
    updateDlEntity e e now = { e with deadline := now + e.dlDeadline, runtime := e.dlRuntime } := by
  rcases hreset with hpast | ⟨hover, himp⟩
  · simp [updateDlEntity, hpast]
  · simp [updateDlEntity, hover, himp]

theorem updateDlEntity_revised (hboosted : e.dlBoosted = false)
    (hahead : dlTimeBefore e.deadline now = false) (hover : dlEntityOverflow e e now = true)
    (himp : dlIsImplicit e = false) :
    updateDlEntity e e now = updateDlRevisedWakeup e now := by
  simp [updateDlEntity, hahead, hover, himp, hboosted]

theorem updateDlEntity_keep (hahead : dlTimeBefore e.deadline now = false)
    (hkeep : dlEntityOverflow e e now = false) : updateDlEntity e e now = e := by
  simp [updateDlEntity, hahead, hkeep]

/-- An overflow that the code sees is not a wrapped one. -/
theorem not_wraps_of_overflow (hpos : 0 < e.runtime.toInt)
    (hover : dlEntityOverflow e e now = true) : ¬e.Wraps now := by
  rw [dlEntityOverflow_iff hpos] at hover
  rintro ⟨-, hlt, hwrong⟩
  omega

/-- The reserved runtime is at most the deadline of an ordinary task. -/
theorem runtime_le_of_checkparamDl {attr : DlAttr} (hattr : checkparamDl attr = true)
    (hflags : attr.schedFlags &&& schedFlagSugov = 0) :
    attr.schedRuntime.toNat ≤ attr.schedDeadline.toNat := by
  rw [checkparamDl, if_neg (not_not.mpr hflags)] at hattr
  split_ifs at hattr with hzero hsmall hmsb horder
  push Not at horder
  exact BitVec.le_def.mp (BitVec.not_lt.mp horder.2)

/-- Every wakeup of an ordinary task with a deadline below `2^41` ns, about 36 minutes, is safe. -/
theorem wakeupSafe_of_lt (attr : DlAttr) (hattr : checkparamDl attr = true)
    (hflags : attr.schedFlags &&& schedFlagSugov = 0) (hparam : e.toDlEntity = setparamDl attr)
    (hlt : e.dlDeadline.toNat < 2 ^ 41) (hpos : 0 < e.runtime.toInt)
    (hle : e.runtime.toInt ≤ e.dlRuntime.toNat) : e.WakeupSafe now := by
  have hruntime : e.dlRuntime.toNat ≤ e.dlDeadline.toNat := by
    rw [hparam]
    exact runtime_le_of_checkparamDl hattr hflags
  have hint := (toInt_runtime hpos).1
  have hproduct : e.remaining ≤ 2 ^ 31 * 2 ^ 31 := by
    rw [remaining, dlScale]
    exact Nat.mul_le_mul (by omega) (by omega)
  refine ⟨fun _ => ?_, fun _ => ⟨by omega, by omega⟩⟩
  rintro ⟨-, hexceeds, hwrong⟩
  omega

/-- **The wakeup rule.** After a wakeup an entity that is not boosted is within its bandwidth
exactly if the wakeup was safe. -/
theorem updateDlEntity_withinBandwidth_iff (attr : DlAttr)
    (hparam : e.toDlEntity = setparamDl attr) (hboosted : e.dlBoosted = false)
    (hpos : 0 < e.runtime.toInt) (hle : e.runtime.toInt ≤ e.dlRuntime.toNat)
    (hnear : e.laxity now ≤ e.dlDeadline.toNat ∨ (now - e.deadline).toNat < 2 ^ 63) :
    (updateDlEntity e e now).WithinBandwidth now ↔ e.WakeupSafe now := by
  by_cases hreset : dlTimeBefore e.deadline now = true ∨
    dlEntityOverflow e e now = true ∧ dlIsImplicit e = true
  · rw [updateDlEntity_reset hreset, withinBandwidth_reset_iff]
    refine ⟨fun hsmall => ⟨fun hahead => ?_, fun _ => hsmall⟩, fun hsafe => hsafe.small hreset⟩
    rcases hreset with hpast | ⟨hover, -⟩
    · rw [hpast] at hahead
      cases hahead
    · exact not_wraps_of_overflow hpos hover
  push Not at hreset
  have hahead := Bool.eq_false_iff.mpr hreset.1
  cases hover : dlEntityOverflow e e now with
  | true =>
    have himp := Bool.eq_false_iff.mpr (hreset.2 hover)
    have hdensity : e.dlDensity = toRatio e.dlDeadline e.dlRuntime := by
      rw [hparam]
      rfl
    rw [updateDlEntity_revised hboosted hahead hover himp]
    refine iff_of_true (withinBandwidth_revised hdensity hahead (laxity_le hahead hnear)) ?_
    exact ⟨fun _ => not_wraps_of_overflow hpos hover, by simp [hahead, himp]⟩
  | false =>
    rw [updateDlEntity_keep hahead hover, withinBandwidth_keep_iff hpos hle hahead hover]
    exact ⟨fun hwraps => ⟨fun _ => hwraps, by simp [hahead, hover]⟩,
      fun hsafe => hsafe.exact_of_ahead hahead⟩

/-- A task that may run for 1 ms in every 4 ms, before 2 ms have passed, and wakes up with all of
its runtime halfway to the deadline. -/
def constrained : SchedDlEntity where
  toDlEntity := setparamDl ⟨0, 2 ^ 20, 2 ^ 21, 2 ^ 22⟩
  runtime := 2 ^ 20
  deadline := 2 ^ 20
  dlBoosted := false

/-- Half of the runtime is left to it. -/
theorem withinBandwidth_constrained :
    (updateDlEntity constrained constrained 0).runtime = 2 ^ 19 ∧
    (updateDlEntity constrained constrained 0).WithinBandwidth 0 :=
  ⟨by decide, (updateDlEntity_withinBandwidth_iff ⟨0, 2 ^ 20, 2 ^ 21, 2 ^ 22⟩ rfl rfl
    (by decide) (by decide) (.inl (by decide))).mpr
      (wakeupSafe_of_lt ⟨0, 2 ^ 20, 2 ^ 21, 2 ^ 22⟩ (by decide) (by decide) rfl
        (by decide) (by decide) (by decide))⟩

/-- The parameters of a task that may always run, with a deadline of `2^43` ns, about 2.4 hours. -/
def longAttr : DlAttr := ⟨0, 2 ^ 43, 2 ^ 43, 0⟩

/-- The task wakes up with all of its runtime and a quarter of the time to its deadline. -/
def long : SchedDlEntity where
  toDlEntity := setparamDl longAttr
  runtime := 2 ^ 43
  deadline := 2 ^ 41
  dlBoosted := false

/-- Both products are 0 modulo `2^64`, and the task keeps four times its bandwidth. -/
theorem long_exceeds : checkparamDl longAttr = true ∧ 0 < long.runtime.toInt ∧
    long.runtime.toInt ≤ long.dlRuntime.toNat ∧ long.laxity 0 ≤ long.dlDeadline.toNat ∧
    updateDlEntity long long 0 = long ∧ ¬(updateDlEntity long long 0).WithinBandwidth 0 := by
  refine ⟨by decide, by decide, by decide, by decide, by decide, ?_⟩
  rintro ⟨-, -, -, hrate⟩
  revert hrate
  decide

end SchedDlEntity

end LinuxKernelTest
