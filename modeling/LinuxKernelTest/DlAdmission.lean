import Mathlib.Tactic
import Mathlib.Data.BitVec

/-!
# Admission of deadline tasks

A task of the deadline class asks for `runtime` in every `period`. `sched_dl_overflow` of
`kernel/sched/deadline.c` admits it if the bandwidths of the admitted tasks of the root domain stay
within the limit on each CPU times the number of CPUs. A bandwidth is the ratio in 20 binary places
that `to_ratio` computes with a 64-bit shift and a division. `__checkparam_dl` lets every runtime
below `2^63` through, and the shift keeps the lower 44 bits of it.

`DlDomain.Sound` says that `total_bw` is the sum of the admitted bandwidths and within the limit,
and that each of them is its exact ratio rounded down; a request keeps it if its runtime is below
`2^44` (`DlDomain.request_sound`).
-/

set_option linter.unusedSectionVars false

namespace LinuxKernelTest

open Finset Function BitVec

/-! ## The model -/

/-- `BW_SHIFT`. -/
def bwShift : ℕ := 20

/-- `BW_UNIT`. -/
def bwUnit : BitVec 64 := 1 <<< bwShift

/-- `RUNTIME_INF`. -/
def runtimeInf : BitVec 64 := BitVec.allOnes 64

/-- `SCHED_FLAG_SUGOV`. -/
def schedFlagSugov : BitVec 64 := 0x10000000

/-- `to_ratio`. -/
def toRatio (period runtime : BitVec 64) : BitVec 64 :=
  if runtime = runtimeInf then bwUnit
  else if period = 0 then 0
  else (runtime <<< bwShift) / period

/-- `struct sched_attr`, as far as the deadline class reads it. -/
structure DlAttr where
  schedFlags : BitVec 64
  schedRuntime : BitVec 64
  schedDeadline : BitVec 64
  schedPeriod : BitVec 64
deriving DecidableEq, Repr

/-- `attr->sched_period ?: attr->sched_deadline`. -/
def DlAttr.period (attr : DlAttr) : BitVec 64 :=
  if attr.schedPeriod ≠ 0 then attr.schedPeriod else attr.schedDeadline

/-- `__checkparam_dl`. -/
def checkparamDl (attr : DlAttr) : Bool :=
  if attr.schedFlags &&& schedFlagSugov ≠ 0 then true
  else if attr.schedDeadline = 0 then false
  else if attr.schedRuntime < 1 <<< 10 then false
  else if attr.schedDeadline &&& (1 <<< 63) ≠ 0 ∨ attr.schedPeriod &&& (1 <<< 63) ≠ 0 then false
  else if (attr.schedPeriod ≠ 0 ∧ attr.schedPeriod < attr.schedDeadline) ∨
      attr.schedDeadline < attr.schedRuntime then false
  else true

/-- The static part of `struct sched_dl_entity`. -/
structure DlEntity where
  dlRuntime : BitVec 64
  dlDeadline : BitVec 64
  dlPeriod : BitVec 64
  dlBw : BitVec 64
  dlDensity : BitVec 64
  flags : BitVec 64
deriving DecidableEq, Repr

/-- A task : its deadline entity, whether its policy is the deadline one, and whether its inactive
timer is armed. -/
structure DlSchedTask where
  dl : DlEntity
  hasDlPolicy : Bool
  inactiveTimer : Bool
deriving DecidableEq, Repr

/-- `struct dl_bw` of a root domain, with `extra_bw` of each of its active CPUs. -/
structure DlBw (cpus : ℕ) where
  bw : BitVec 64
  totalBw : BitVec 64
  extraBw : Fin cpus → BitVec 64

section

variable {cpus : ℕ}
variable (b : DlBw cpus)

/-- `__dl_update`. -/
def dlUpdate (bw : BitVec 64) : DlBw cpus :=
  { b with extraBw := fun i => b.extraBw i + bw }

/-- `(s32)tsk_bw / cpus`, as `s64`. -/
def bwShare (cpus : ℕ) (tskBw : BitVec 64) : BitVec 64 :=
  ((tskBw.setWidth 32).sdiv (BitVec.ofNat 32 cpus)).signExtend 64

/-- `__dl_sub`. -/
def dlSub (tskBw : BitVec 64) : DlBw cpus :=
  dlUpdate { b with totalBw := b.totalBw - tskBw } (bwShare cpus tskBw)

/-- `__dl_add`. -/
def dlAdd (tskBw : BitVec 64) : DlBw cpus :=
  dlUpdate { b with totalBw := b.totalBw + tskBw } (-bwShare cpus tskBw)

/-- `__dl_overflow`. -/
def dlOverflow (oldBw newBw : BitVec 64) : Bool :=
  b.bw ≠ -1 ∧ b.bw * BitVec.ofNat 64 cpus < b.totalBw - oldBw + newBw

/-- `sched_dl_overflow`, where `policy` says whether the new policy is the deadline one : the domain
after it and the return value. -/
def schedDlOverflow (p : DlSchedTask) (policy : Bool) (attr : DlAttr) : DlBw cpus × ℤ :=
  let newBw := if policy then toRatio attr.period attr.schedRuntime else 0
  if attr.schedFlags &&& schedFlagSugov ≠ 0 then (b, 0)
  else if newBw = p.dl.dlBw ∧ p.hasDlPolicy then (b, 0)
  else if policy ∧ !p.hasDlPolicy ∧ !dlOverflow b 0 newBw then
    let b := if p.inactiveTimer then dlSub b p.dl.dlBw else b
    (dlAdd b newBw, 0)
  else if policy ∧ p.hasDlPolicy ∧ !dlOverflow b p.dl.dlBw newBw then
    (dlAdd (dlSub b p.dl.dlBw) newBw, 0)
  else if !policy ∧ p.hasDlPolicy then (b, 0)
  else (b, -1)

/-- `__setparam_dl`. -/
def setparamDl (attr : DlAttr) : DlEntity where
  dlRuntime := attr.schedRuntime
  dlDeadline := attr.schedDeadline
  dlPeriod := attr.period
  dlBw := toRatio attr.period attr.schedRuntime
  dlDensity := toRatio attr.schedDeadline attr.schedRuntime
  flags := attr.schedFlags

/-- A root domain with its tasks. -/
structure DlDomain (ι : Type) (cpus : ℕ) where
  dlB : DlBw cpus
  task : ι → DlSchedTask

variable {ι : Type} [DecidableEq ι]
variable (d : DlDomain ι cpus) {period runtime : BitVec 64}

/-- A request to run the task `i` with deadline parameters, as `__sched_setscheduler` treats it :
check the parameters, ask for the bandwidth, and set the parameters if both succeed. -/
def DlDomain.request (i : ι) (attr : DlAttr) : DlDomain ι cpus :=
  if checkparamDl attr then
    let r := schedDlOverflow d.dlB (d.task i) true attr
    if r.2 = 0 then
      ⟨r.1, update d.task i { d.task i with dl := setparamDl attr, hasDlPolicy := true }⟩
    else { d with dlB := r.1 }
  else d

/-- A sequence of requests. -/
def DlDomain.run (reqs : List (ι × DlAttr)) : DlDomain ι cpus :=
  reqs.foldl (fun d r => d.request r.1 r.2) d

/-- A domain with the given limit where no task has ever been a deadline task. -/
structure DlDomain.Fresh (d : DlDomain ι cpus) (limit : BitVec 64) : Prop where
  bw : d.dlB.bw = limit
  total : d.dlB.totalBw = 0
  task : ∀ i, (d.task i).hasDlPolicy = false ∧ (d.task i).inactiveTimer = false

/-! ## One conversion and one admission -/

/-- Below `2^44` the shift loses nothing. -/
theorem toNat_toRatio (hruntime : runtime.toNat < 2 ^ 44)
    (hperiod : period ≠ 0) :
    (toRatio period runtime).toNat = runtime.toNat * 2 ^ bwShift / period.toNat := by
  have hinf : runtime ≠ runtimeInf := by
    rintro rfl
    exact absurd hruntime (by decide)
  have hlt : runtime.toNat * 2 ^ bwShift < 2 ^ 64 := by
    unfold bwShift
    omega
  rw [toRatio, if_neg hinf, if_neg hperiod, toNat_udiv, toNat_shiftLeft,
    Nat.shiftLeft_eq, Nat.mod_eq_of_lt hlt]

/-- A share of at most the whole CPU. -/
theorem toNat_toRatio_le (hle : runtime.toNat ≤ period.toNat) :
    (toRatio period runtime).toNat ≤ 2 ^ bwShift := by
  rw [toRatio]
  split_ifs
  · exact le_rfl
  · exact Nat.zero_le _
  · rw [toNat_udiv, toNat_shiftLeft, Nat.shiftLeft_eq]
    exact Nat.div_le_of_le_mul ((Nat.mod_le _ _).trans (Nat.mul_le_mul_right _ hle))

variable {attr : DlAttr} {p : DlSchedTask} {limit : BitVec 64}

/-- What `__checkparam_dl` promises of an ordinary task. -/
theorem period_of_checkparamDl (h : checkparamDl attr = true)
    (hflags : attr.schedFlags &&& schedFlagSugov = 0) :
    attr.period ≠ 0 ∧ attr.schedRuntime.toNat ≤ attr.period.toNat := by
  rw [checkparamDl, if_neg (not_not.mpr hflags)] at h
  split_ifs at h with hzero hsmall hmsb horder
  push Not at horder
  have hdeadline := BitVec.le_def.mp (BitVec.not_lt.mp horder.2)
  rw [DlAttr.period]
  split_ifs with hperiod
  · have hle := BitVec.le_def.mp (BitVec.not_lt.mp (horder.1 hperiod))
    exact ⟨hperiod, hdeadline.trans hle⟩
  · exact ⟨hzero, hdeadline⟩

/-- The bandwidth that a task has been given. -/
def DlSchedTask.admitted (p : DlSchedTask) : BitVec 64 := if p.hasDlPolicy then p.dl.dlBw else 0

/-- An admission moves the bandwidth of the task to its new value, and if the total changes it was
compared with the limit. -/
theorem schedDlOverflow_admits {b : DlBw cpus}
    (hflags : attr.schedFlags &&& schedFlagSugov = 0) (htimer : p.inactiveTimer = false)
    (hlimit : b.bw ≠ -1) (h : (schedDlOverflow b p true attr).2 = 0) :
    (schedDlOverflow b p true attr).1.bw = b.bw ∧ (schedDlOverflow b p true attr).1.totalBw =
      b.totalBw - p.admitted + toRatio attr.period attr.schedRuntime ∧
    ((schedDlOverflow b p true attr).1.totalBw = b.totalBw ∨
      (schedDlOverflow b p true attr).1.totalBw ≤ b.bw * BitVec.ofNat 64 cpus) := by
  have hcheck : ∀ {old new : BitVec 64}, (!dlOverflow b old new) = true →
      b.totalBw - old + new ≤ b.bw * BitVec.ofNat 64 cpus := by
    intro old new hno
    rw [Bool.not_eq_true', dlOverflow, decide_eq_false_iff_not] at hno
    exact BitVec.not_lt.mp fun hlt => hno ⟨hlimit, hlt⟩
  revert h
  rw [schedDlOverflow]
  simp only [if_true, if_neg (not_not.mpr hflags), htimer, Bool.false_eq_true, if_false, true_and,
    Bool.not_true, false_and]
  split_ifs with hsame hnew hchange
  · intro _
    rw [DlSchedTask.admitted, if_pos hsame.2, hsame.1]
    exact ⟨rfl, (sub_add_cancel _ _).symm, .inl rfl⟩
  · intro _
    have hpol : p.hasDlPolicy = false := by simpa using hnew.1
    have hle := hcheck hnew.2
    rw [sub_zero] at hle
    rw [DlSchedTask.admitted, hpol]
    simp only [Bool.false_eq_true, if_false, sub_zero]
    exact ⟨rfl, rfl, .inr hle⟩
  · intro _
    rw [DlSchedTask.admitted, if_pos hchange.1]
    exact ⟨rfl, rfl, .inr (hcheck hchange.2)⟩
  · intro h
    exact absurd h (by simp)

/-- A refusal changes nothing. -/
theorem schedDlOverflow_refuses {b : DlBw cpus}
    (h : (schedDlOverflow b p true attr).2 ≠ 0) : (schedDlOverflow b p true attr).1 = b := by
  revert h
  rw [schedDlOverflow]
  split_ifs <;> simp

/-! ## Runs -/

/-- `total_bw` is the sum of what the tasks have been given, within the limit, and each task has
its exact ratio, rounded down. -/
structure DlDomain.Sound [Fintype ι] (d : DlDomain ι cpus) (limit : BitVec 64) : Prop where
  bw : d.dlB.bw = limit
  timer : ∀ i, (d.task i).inactiveTimer = false
  total : d.dlB.totalBw.toNat = ∑ i, (d.task i).admitted.toNat
  le : d.dlB.totalBw.toNat ≤ limit.toNat * cpus
  ratio : ∀ i, (d.task i).hasDlPolicy = true → (d.task i).dl.dlPeriod ≠ 0 ∧
    (d.task i).dl.dlBw.toNat =
      (d.task i).dl.dlRuntime.toNat * 2 ^ bwShift / (d.task i).dl.dlPeriod.toNat

variable {d : DlDomain ι cpus}

theorem DlDomain.Fresh.sound [Fintype ι]
    (h : d.Fresh limit) : d.Sound limit where
  bw := h.bw
  timer i := (h.task i).2
  total := by
    rw [h.total, sum_eq_zero]
    · rfl
    · intro i _
      rw [DlSchedTask.admitted, (h.task i).1]
      rfl
  le := by
    rw [h.total]
    exact Nat.zero_le _
  ratio i hi := by
    rw [(h.task i).1] at hi
    exact absurd hi (by decide)

theorem sum_admitted_update [Fintype ι] (task : ι → DlSchedTask) (i : ι) (p : DlSchedTask) :
    ∑ j, (update task i p j).admitted.toNat + (task i).admitted.toNat =
      ∑ j, (task j).admitted.toNat + p.admitted.toNat := by
  have hcomp : (fun j => (update task i p j).admitted.toNat) =
      update (fun j => (task j).admitted.toNat) i p.admitted.toNat := by
    funext j
    rcases eq_or_ne j i with rfl | hne
    · simp
    · simp [hne]
  have hsum := add_sum_erase univ (fun j => (task j).admitted.toNat)
    (mem_univ i)
  rw [hcomp, sum_update_of_mem (mem_univ i), ← erase_eq, ← hsum]
  omega

/-- A request within the range of the conversion keeps the domain sound. -/
theorem DlDomain.request_sound [Fintype ι]
    (h : d.Sound limit) (hinf : limit ≠ -1) (hlimit : limit.toNat * cpus + 2 ^ bwShift < 2 ^ 64)
    (i : ι) (hflags : attr.schedFlags &&& schedFlagSugov = 0)
    (hruntime : checkparamDl attr = true → attr.schedRuntime.toNat < 2 ^ 44) :
    (d.request i attr).Sound limit := by
  rw [DlDomain.request]
  dsimp only
  split_ifs with hparam hok
  · replace hruntime := hruntime hparam
    obtain ⟨hperiod, hle⟩ := period_of_checkparamDl hparam hflags
    obtain ⟨hbw, htotal, hcheck⟩ := schedDlOverflow_admits hflags (h.timer i)
      (by rw [h.bw]; exact hinf) hok
    set r := (schedDlOverflow d.dlB (d.task i) true attr).1
    set p : DlSchedTask := { d.task i with dl := setparamDl attr, hasDlPolicy := true } with hp
    have hratio := toNat_toRatio hruntime hperiod
    have hunit := toNat_toRatio_le hle
    -- What the task had is part of the total, so nothing wraps.
    have hold : (d.task i).admitted.toNat ≤ d.dlB.totalBw.toNat := by
      rw [h.total]
      exact single_le_sum (f := fun j => (d.task j).admitted.toNat)
        (fun _ _ => Nat.zero_le _) (mem_univ i)
    have hsum := sum_admitted_update d.task i p
    have hadm : p.admitted = toRatio attr.period attr.schedRuntime := rfl
    rw [hadm, ← h.total] at hsum
    have hnat : r.totalBw.toNat = d.dlB.totalBw.toNat - (d.task i).admitted.toNat +
        (toRatio attr.period attr.schedRuntime).toNat := by
      have hle := h.le
      rw [htotal, toNat_add, toNat_sub_of_le (le_def.mpr hold), Nat.mod_eq_of_lt (by omega)]
    refine ⟨hbw.trans h.bw, fun j => ?_, by dsimp only; omega, ?_, fun j hj => ?_⟩
    · rcases eq_or_ne j i with rfl | hne
      · simpa [hp] using h.timer j
      · simpa [hne] using h.timer j
    · rcases hcheck with hsame | hle'
      · dsimp only
        rw [hsame]
        exact h.le
      · refine (le_def.mp hle').trans ?_
        rw [h.bw, toNat_mul, toNat_ofNat]
        refine (Nat.mod_le _ _).trans (Nat.mul_le_mul_left _ (Nat.mod_le _ _))
    · rcases eq_or_ne j i with rfl | hne
      · simpa [hp, setparamDl] using ⟨hperiod, hratio⟩
      · simp only [update_of_ne hne] at hj ⊢
        exact h.ratio j hj
  · rw [schedDlOverflow_refuses hok]
    exact h
  · exact h

theorem DlDomain.run_sound [Fintype ι] {limit : BitVec 64} (hinf : limit ≠ -1)
    (hlimit : limit.toNat * cpus + 2 ^ bwShift < 2 ^ 64) :
    ∀ {reqs : List (ι × DlAttr)} {d : DlDomain ι cpus}, d.Sound limit →
      (∀ r ∈ reqs, r.2.schedFlags &&& schedFlagSugov = 0 ∧
        (checkparamDl r.2 = true → r.2.schedRuntime.toNat < 2 ^ 44)) →
      (d.run reqs).Sound limit
  | [], _, h, _ => h
  | r :: reqs, d, h, hreqs => by
    obtain ⟨hflags, hruntime⟩ := hreqs r List.mem_cons_self
    have hrest : ((d.request r.1 r.2).run reqs).Sound limit :=
      run_sound hinf hlimit (request_sound h hinf hlimit r.1 hflags hruntime)
        fun r' hr' => hreqs r' (List.mem_cons_of_mem r hr')
    exact hrest

/-- The tasks that have been admitted. -/
def DlDomain.tasks [Fintype ι] : Finset ι :=
  univ.filter fun i => (d.task i).hasDlPolicy = true

/-- The exact share of a CPU that a task asks for. -/
def DlEntity.share (dl : DlEntity) : ℚ := dl.dlRuntime.toNat / dl.dlPeriod.toNat

/-- The exact shares are within the limit but for the rounding. -/
def DlDomain.Within [Fintype ι] (limit : BitVec 64) : Prop :=
  ∑ i ∈ d.tasks, (d.task i).dl.share ≤
    cpus * (limit.toNat / 2 ^ bwShift) + d.tasks.card * (1 / 2 ^ bwShift)

/-- Rounding down loses less than one unit. -/
theorem DlDomain.Sound.share_le [Fintype ι]
    (h : d.Sound limit) {i : ι} (hi : (d.task i).hasDlPolicy = true) :
    (d.task i).dl.share ≤ (d.task i).admitted.toNat / 2 ^ bwShift + 1 / 2 ^ bwShift := by
  obtain ⟨hperiod, hbw⟩ := h.ratio i hi
  have hpos : 0 < (d.task i).dl.dlPeriod.toNat :=
    Nat.pos_of_ne_zero fun h0 => hperiod (eq_of_toNat_eq h0)
  have hlt := Nat.lt_div_mul_add (a := (d.task i).dl.dlRuntime.toNat * 2 ^ bwShift) hpos
  rw [← hbw] at hlt
  have hle : ((d.task i).dl.dlRuntime.toNat : ℚ) * 2 ^ bwShift ≤
      ((d.task i).dl.dlBw.toNat + 1) * (d.task i).dl.dlPeriod.toNat := by
    rw [add_one_mul]
    exact_mod_cast hlt.le
  rw [DlSchedTask.admitted, if_pos hi, DlEntity.share, ← add_div,
    div_le_div_iff₀ (by exact_mod_cast hpos) (by positivity)]
  exact hle

theorem DlDomain.Sound.within [Fintype ι]
    (h : d.Sound limit) : d.Within limit := by
  have htasks : ∑ i ∈ d.tasks, (d.task i).admitted.toNat = d.dlB.totalBw.toNat := by
    rw [h.total]
    refine sum_subset (subset_univ _) fun i _ hi => ?_
    have hpol : ¬ (d.task i).hasDlPolicy = true := by simpa [DlDomain.tasks] using hi
    rw [DlSchedTask.admitted, if_neg hpol]
    rfl
  have hle : (∑ i ∈ d.tasks, ((d.task i).admitted.toNat : ℚ)) ≤ limit.toNat * cpus := by
    rw [← Nat.cast_sum, htasks]
    exact_mod_cast h.le
  calc ∑ i ∈ d.tasks, (d.task i).dl.share
      ≤ ∑ i ∈ d.tasks, (((d.task i).admitted.toNat : ℚ) / 2 ^ bwShift + 1 / 2 ^ bwShift) :=
        sum_le_sum fun i hi => h.share_le (mem_filter.mp hi).2
    _ = (∑ i ∈ d.tasks, ((d.task i).admitted.toNat : ℚ)) / 2 ^ bwShift +
          d.tasks.card * (1 / 2 ^ bwShift) := by
        rw [sum_add_distrib, sum_div, sum_const, nsmul_eq_mul]
    _ ≤ limit.toNat * cpus / 2 ^ bwShift + d.tasks.card * (1 / 2 ^ bwShift) := by gcongr
    _ = cpus * (limit.toNat / 2 ^ bwShift) + d.tasks.card * (1 / 2 ^ bwShift) := by ring

/-- If every runtime that passes the check is below `2^44`, the exact shares of the admitted tasks
stay within the limit throughout. The bound on the limit holds for every limit up to `BW_UNIT`
(`toNat_toRatio_le`) and every `int` number of CPUs. -/
theorem dlRun_within [Fintype ι] {limit : BitVec 64} (h : d.Fresh limit)
    (hinf : limit ≠ -1) (hlimit : limit.toNat * cpus + 2 ^ bwShift < 2 ^ 64)
    (reqs : List (ι × DlAttr))
    (hreqs : ∀ r ∈ reqs, r.2.schedFlags &&& schedFlagSugov = 0 ∧
      (checkparamDl r.2 = true → r.2.schedRuntime.toNat < 2 ^ 44)) :
    (d.run reqs).Within limit :=
  (DlDomain.run_sound hinf hlimit h.sound hreqs).within

end

/-- A domain of one CPU at 95% with three ordinary tasks. -/
def dlThree : DlDomain (Fin 3) 1 where
  dlB := ⟨996147, 0, fun _ => 996147⟩
  task _ := ⟨⟨0, 0, 0, 0, 0, 0⟩, false, false⟩

/-- Two tasks of 10% and 30% fit, a third one of 60% is refused. -/
theorem dlRun_within_three :
    (dlThree.run [(0, ⟨0, 1000000, 10000000, 0⟩), (1, ⟨0, 3000000, 5000000, 10000000⟩),
      (2, ⟨0, 6000000, 10000000, 10000000⟩)]).Within 996147 ∧
    (dlThree.run [(0, ⟨0, 1000000, 10000000, 0⟩), (1, ⟨0, 3000000, 5000000, 10000000⟩),
      (2, ⟨0, 6000000, 10000000, 10000000⟩)]).tasks = {0, 1} := by
  refine ⟨dlRun_within ⟨rfl, rfl, fun _ => ⟨rfl, rfl⟩⟩ (by decide) (by decide) _ (by decide), ?_⟩
  decide +kernel

/-- A task that asks for the whole CPU with a runtime of `2^44` (about five hours) passes the check,
gets the ratio 0 and is admitted, any number of times. -/
theorem dlRun_wraps :
    checkparamDl ⟨0, 2 ^ 44, 2 ^ 44, 2 ^ 44⟩ = true ∧
    (dlThree.run [(0, ⟨0, 2 ^ 44, 2 ^ 44, 2 ^ 44⟩), (1, ⟨0, 2 ^ 44, 2 ^ 44, 2 ^ 44⟩)]).tasks =
      {0, 1} ∧
    ¬ (dlThree.run [(0, ⟨0, 2 ^ 44, 2 ^ 44, 2 ^ 44⟩),
      (1, ⟨0, 2 ^ 44, 2 ^ 44, 2 ^ 44⟩)]).Within 996147 := by
  refine ⟨by decide +kernel, by decide +kernel, ?_⟩
  rw [DlDomain.Within]
  decide +kernel

end LinuxKernelTest
