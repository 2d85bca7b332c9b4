import Mathlib.Tactic
import LinuxKernelTest.DlWakeup

/-!
# The runtime of a deadline task

`replenish_dl_entity` of `kernel/sched/deadline.c` gives an entity that has used up its runtime a
new one, and postpones its deadline by a period for each. Runtime and deadline are words, and the
loop goes on until the runtime is positive, however large the overrun is.

`grub_reclaim` is the amount by which a running task is charged : the time that it has run, times
the part of the CPU that is not inactive bandwidth or set aside, but at least its own bandwidth. The
maximum of the two is found by a comparison of sums, so that a difference below zero is not formed.
The other difference of the comparison may be below zero too : for a task whose scaled bandwidth is
more than the whole CPU, that is one with a bandwidth between the limit for deadline tasks and one,
the wrong side is taken, and the task is charged for a fraction of what it uses
(`grubReclaim_undercharged`).
-/

namespace LinuxKernelTest

open BitVec Nat

/-! ## Replenishment -/

/-- `struct sched_dl_entity` with the flags that `replenish_dl_entity` clears. -/
structure DlBudget extends SchedDlEntity where
  dlThrottled : Bool
  dlYielded : Bool
deriving DecidableEq, Repr

/-- A round of the loop of `replenish_dl_entity`. -/
def replenishRound (piSe : SchedDlEntity) (e : DlBudget) : Round DlBudget DlBudget :=
  if e.runtime.toInt ≤ 0 then
    .again { e with deadline := e.deadline + piSe.dlPeriod, runtime := e.runtime + piSe.dlRuntime }
  else .done e

/-- `replenish_dl_entity` at the time `clock` of the run queue. -/
def replenishDlEntity (fuel : ℕ) (dlSe : DlBudget) (piSe : SchedDlEntity) (clock : BitVec 64) :
    Option DlBudget :=
  -- `BUG_ON(pi_se->dl_runtime <= 0)`
  if piSe.dlRuntime = 0 then none
  else
    let e := if dlSe.dlDeadline = 0 then
        { dlSe with deadline := clock + piSe.dlDeadline, runtime := piSe.dlRuntime }
      else dlSe
    let e := if e.dlYielded ∧ 0 < e.runtime.toInt then { e with runtime := 0 } else e
    (runLoop (replenishRound piSe) fuel e).map fun e =>
      let e := if dlTimeBefore e.deadline clock then
          { e with deadline := clock + piSe.dlDeadline, runtime := piSe.dlRuntime }
        else e
      { e with dlYielded := false, dlThrottled := false }

/-- An addition to a negative runtime does not overflow. -/
theorem toInt_add_of_nonpos {x y : BitVec 64} (hx : x.toInt ≤ 0) (hy : y.toNat < 2 ^ 63) :
    (x + y).toInt = x.toInt + y.toNat := by
  have hlt := x.isLt
  rw [toInt_eq_toNat_cond] at hx ⊢
  rw [toInt_eq_toNat_cond, toNat_add]
  split_ifs at hx ⊢ <;> omega

/-- The loop takes the least number of rounds after which the runtime is positive. -/
theorem replenish_loop {piSe : SchedDlEntity} (hsmall : piSe.dlRuntime.toNat < 2 ^ 63) :
    ∀ {k fuel : ℕ} {e : DlBudget}, k < fuel →
      (∀ i < k, e.runtime.toInt + i * piSe.dlRuntime.toNat ≤ 0) →
      0 < e.runtime.toInt + k * piSe.dlRuntime.toNat →
      ∃ r : BitVec 64, r.toInt = e.runtime.toInt + k * piSe.dlRuntime.toNat ∧
        runLoop (replenishRound piSe) fuel e =
          some { e with deadline := e.deadline + k * piSe.dlPeriod, runtime := r } := by
  intro k
  induction k with
  | zero =>
    intro fuel e hfuel _ hpos
    have hdone : replenishRound piSe e = .done e := if_neg (by omega)
    refine ⟨e.runtime, by simp, ?_⟩
    rw [runLoop_of_done hdone hfuel]
    simp
  | succ k ih =>
    intro fuel e hfuel hle hpos
    obtain ⟨fuel, rfl⟩ : ∃ n, fuel = n + 1 := ⟨fuel - 1, by omega⟩
    have hnonpos : e.runtime.toInt ≤ 0 := by simpa using hle 0 (by omega)
    have hsum := toInt_add_of_nonpos hnonpos hsmall
    obtain ⟨e', he'⟩ : ∃ e' : DlBudget, e' = { e with
      deadline := e.deadline + piSe.dlPeriod, runtime := e.runtime + piSe.dlRuntime } := ⟨_, rfl⟩
    have hagain : replenishRound piSe e = .again e' := by rw [he']; exact if_pos hnonpos
    have hruntime : e'.runtime.toInt = e.runtime.toInt + piSe.dlRuntime.toNat := by
      rw [he']
      exact hsum
    have hle' : ∀ i < k, e'.runtime.toInt + i * piSe.dlRuntime.toNat ≤ 0 := fun i hi => by
      have := hle (i + 1) (by omega)
      push_cast at this
      linarith
    have hpos' : 0 < e'.runtime.toInt + k * piSe.dlRuntime.toNat := by
      push_cast at hpos
      linarith
    obtain ⟨r, hr, hrun⟩ := ih (show k < fuel by omega) hle' hpos'
    refine ⟨r, ?_, ?_⟩
    · rw [hr, hruntime]
      push_cast
      ring
    · have hdeadline : e.deadline + piSe.dlPeriod + (k : BitVec 64) * piSe.dlPeriod =
          e.deadline + ((k + 1 : ℕ) : BitVec 64) * piSe.dlPeriod := by
        rw [cast_succ, add_mul, one_mul, add_assoc, add_comm piSe.dlPeriod]
      rw [runLoop_again hagain, hrun, he', ← hdeadline]

/-- The runtime that is left when the entity has given up the rest of it. -/
def DlBudget.restRuntime (e : DlBudget) : ℤ :=
  if e.dlYielded ∧ 0 < e.runtime.toInt then 0 else e.runtime.toInt

/-- Replenishment of an entity that is not boosted. `__checkparam_dl` lets only runtimes below
`2^63` and deadlines other than zero through. -/
theorem replenishDlEntity_spec (e : DlBudget) (clock : BitVec 64) (hpos : 0 < e.dlRuntime)
    (hsmall : e.dlRuntime.toNat < 2 ^ 63) (hdeadline : e.dlDeadline ≠ 0)
    (hle : e.runtime.toInt ≤ e.dlRuntime.toNat) :
    ∃ k : ℕ, IsLeast {k : ℕ | 0 < e.restRuntime + k * e.dlRuntime.toNat} k ∧
      0 < e.restRuntime + k * e.dlRuntime.toNat ∧
      e.restRuntime + k * e.dlRuntime.toNat ≤ e.dlRuntime.toNat ∧
      ∀ fuel, k < fuel → ∃ e', replenishDlEntity fuel e e.toSchedDlEntity clock = some e' ∧
        e'.dlYielded = false ∧ e'.dlThrottled = false ∧
        (dlTimeBefore (e.deadline + k * e.dlPeriod) clock = false →
          e'.runtime.toInt = e.restRuntime + k * e.dlRuntime.toNat ∧
          e'.deadline = e.deadline + k * e.dlPeriod) ∧
        (dlTimeBefore (e.deadline + k * e.dlPeriod) clock = true →
          e'.runtime = e.dlRuntime ∧ e'.deadline = clock + e.dlDeadline) := by
  have hR : 0 < e.dlRuntime.toNat := by simpa [lt_def] using hpos
  obtain ⟨r, hr⟩ : ∃ r, r = e.restRuntime := ⟨_, rfl⟩
  have hrle : r ≤ e.dlRuntime.toNat := by
    rw [hr, DlBudget.restRuntime]
    split_ifs
    · omega
    · exact hle
  have hex : ∃ k : ℕ, 0 < r + k * e.dlRuntime.toNat := by
    refine ⟨r.natAbs + 1, ?_⟩
    have : (1 : ℤ) ≤ e.dlRuntime.toNat := by omega
    push_cast
    nlinarith [abs_nonneg r, neg_abs_le r]
  obtain ⟨k, hk, hmin⟩ : ∃ k : ℕ, 0 < r + k * e.dlRuntime.toNat ∧
      ∀ i < k, r + i * e.dlRuntime.toNat ≤ 0 :=
    ⟨Nat.find hex, Nat.find_spec hex, fun i hi => not_lt.mp (Nat.find_min hex hi)⟩
  rw [← hr]
  refine ⟨k, ⟨hk, fun i hi => not_lt.mp fun hik => ?_⟩, hk, ?_, fun fuel hfuel => ?_⟩
  · exact absurd hi (not_lt.mpr (hmin i hik))
  · cases k with
    | zero => simpa using hrle
    | succ k =>
      have := hmin k (by omega)
      push_cast
      linarith
  · obtain ⟨e1, he1⟩ : ∃ e1 : DlBudget, e1 =
        if e.dlYielded ∧ 0 < e.runtime.toInt then { e with runtime := 0 } else e := ⟨_, rfl⟩
    have hparts : e1.runtime.toInt = r ∧ e1.deadline = e.deadline := by
      rw [hr, DlBudget.restRuntime, he1]
      split_ifs <;> exact ⟨rfl, rfl⟩
    obtain ⟨v, hv, hrun⟩ := replenish_loop (e := e1) hsmall hfuel (by rwa [hparts.1])
      (by rwa [hparts.1])
    have hzero : e.dlRuntime ≠ 0 := by
      rintro h0
      rw [h0] at hR
      exact absurd hR (by decide)
    simp only [replenishDlEntity, if_neg hzero, if_neg hdeadline, ← he1, hrun, Option.map_some,
      hparts.2]
    cases hbefore : dlTimeBefore (e.deadline + k * e.dlPeriod) clock with
    | true => exact ⟨_, rfl, rfl, rfl, by simp, fun _ => ⟨rfl, rfl⟩⟩
    | false => exact ⟨_, rfl, rfl, rfl, fun _ => ⟨hv.trans (by rw [hparts.1]), rfl⟩, by simp⟩

/-- An overrun of two and a half runtimes. -/
def overrun : DlBudget where
  dlRuntime := 10
  dlDeadline := 100
  dlPeriod := 100
  dlBw := 104857
  dlDensity := 104857
  flags := 0
  runtime := -25
  deadline := 1000
  dlBoosted := false
  dlThrottled := true
  dlYielded := false

theorem replenishDlEntity_overrun :
    (0 < overrun.dlRuntime ∧ overrun.dlRuntime.toNat < 2 ^ 63 ∧ overrun.dlDeadline ≠ 0 ∧
      overrun.runtime.toInt ≤ overrun.dlRuntime.toNat) ∧
    ∃ k : ℕ, IsLeast {k : ℕ | 0 < overrun.restRuntime + k * overrun.dlRuntime.toNat} k ∧
      0 < overrun.restRuntime + k * overrun.dlRuntime.toNat ∧
      overrun.restRuntime + k * overrun.dlRuntime.toNat ≤ overrun.dlRuntime.toNat ∧
      ∀ fuel, k < fuel → ∃ e', replenishDlEntity fuel overrun overrun.toSchedDlEntity 1200 =
          some e' ∧ e'.dlYielded = false ∧ e'.dlThrottled = false ∧
        (dlTimeBefore (overrun.deadline + k * overrun.dlPeriod) 1200 = false →
          e'.runtime.toInt = overrun.restRuntime + k * overrun.dlRuntime.toNat ∧
          e'.deadline = overrun.deadline + k * overrun.dlPeriod) ∧
        (dlTimeBefore (overrun.deadline + k * overrun.dlPeriod) 1200 = true →
          e'.runtime = overrun.dlRuntime ∧ e'.deadline = 1200 + overrun.dlDeadline) :=
  ⟨by decide, replenishDlEntity_spec overrun 1200 (by decide) (by decide) (by decide) (by decide)⟩

/-! ## Reclaiming -/

/-- `RATIO_SHIFT`. -/
def ratioShift : ℕ := 8

/-- The bandwidths of a `struct dl_rq`. -/
structure DlRqBw where
  thisBw : BitVec 64
  runningBw : BitVec 64
  extraBw : BitVec 64
  bwRatio : BitVec 64

variable (rq : DlRqBw)

/-- `init_dl_rq_bw_ratio`, given the limits of the real-time classes in nanoseconds. -/
def initDlRqBwRatio (rtRuntime rtPeriod : BitVec 64) : DlRqBw :=
  if rtRuntime = runtimeInf then { rq with bwRatio := 1 <<< ratioShift, extraBw := 1 <<< bwShift }
  else { rq with
    bwRatio := toRatio rtRuntime rtPeriod >>> (bwShift - ratioShift)
    extraBw := toRatio rtPeriod rtRuntime }

/-- `u_act_min` of `grub_reclaim` : the bandwidth of the task, scaled. -/
def uActMin (dlBw : BitVec 64) : BitVec 64 := (dlBw * rq.bwRatio) >>> ratioShift

/-- `u_act` of `grub_reclaim`. -/
def uAct (dlBw : BitVec 64) : BitVec 64 :=
  let uInact := rq.thisBw - rq.runningBw
  if bwUnit - uActMin rq dlBw < uInact + rq.extraBw then uActMin rq dlBw
  else bwUnit - uInact - rq.extraBw

/-- `grub_reclaim`. -/
def grubReclaim (delta : BitVec 64) (rq : DlRqBw) (dlBw : BitVec 64) : BitVec 64 :=
  (delta * uAct rq dlBw) >>> bwShift

namespace DlRqBw

/-- The inactive bandwidth and the one that is set aside. -/
def unused : ℕ := rq.thisBw.toNat - rq.runningBw.toNat + rq.extraBw.toNat

/-- The rate at which a task should be charged. -/
def rate (dlBw : BitVec 64) : ℚ :=
  max ((uActMin rq dlBw).toNat / 2 ^ 20)
    (1 - (rq.thisBw.toNat - rq.runningBw.toNat) / 2 ^ 20 - rq.extraBw.toNat / 2 ^ 20)

/-- The same in units of `2^-20`. -/
def scaledRate (dlBw : BitVec 64) : ℕ :=
  max (uActMin rq dlBw).toNat (2 ^ 20 - rq.unused)

/-- The two differences of the comparison do not wrap, or the sums are so large that this does not
matter. -/
def GrubSafe (dlBw : BitVec 64) : Prop :=
  (uActMin rq dlBw).toNat ≤ 2 ^ 20 ∧ rq.unused < 2 ^ 64 ∨
  ((uActMin rq dlBw).toNat ≤ 2 ^ 20 ∨ rq.unused < 2 ^ 64) ∧
    2 ^ 64 + 2 ^ 20 ≤ rq.unused + (uActMin rq dlBw).toNat ∨
  2 ^ 65 + 2 ^ 20 ≤ rq.unused + (uActMin rq dlBw).toNat

variable {rq : DlRqBw} {dlBw : BitVec 64}

theorem uActMin_lt (rq : DlRqBw) (dlBw : BitVec 64) : (uActMin rq dlBw).toNat < 2 ^ 56 := by
  have hlt := (dlBw * rq.bwRatio).isLt
  rw [uActMin, toNat_ushiftRight, ratioShift, shiftRight_eq_div_pow]
  omega

variable (h : rq.runningBw ≤ rq.thisBw)
include h

theorem rate_eq : rq.rate dlBw = rq.scaledRate dlBw / 2 ^ 20 := by
  have hle : rq.runningBw.toNat ≤ rq.thisBw.toNat := h
  have hsub : (1 : ℚ) - (rq.thisBw.toNat - rq.runningBw.toNat) / 2 ^ 20 -
      rq.extraBw.toNat / 2 ^ 20 = (2 ^ 20 - rq.unused : ℚ) / 2 ^ 20 := by
    rw [unused]
    push_cast [cast_sub hle]
    ring
  rw [rate, hsub, max_div_div_right (by positivity)]
  congr 1
  rw [scaledRate]
  rcases le_total rq.unused (2 ^ 20) with hu | hu
  · rw [cast_max, cast_sub hu]
    norm_num
  rw [Nat.sub_eq_zero_of_le hu, Nat.max_zero, max_eq_left]
  have : (2 ^ 20 : ℚ) ≤ rq.unused := by exact_mod_cast hu
  have : (0 : ℚ) ≤ (uActMin rq dlBw).toNat := by positivity
  linarith

/-- `u_act` on natural numbers. -/
theorem toNat_uAct :
    (uAct rq dlBw).toNat =
      if (2 ^ 64 + 2 ^ 20 - (uActMin rq dlBw).toNat) % 2 ^ 64 < rq.unused % 2 ^ 64 then
        (uActMin rq dlBw).toNat
      else (2 ^ 20 + 2 ^ 65 - rq.unused) % 2 ^ 64 := by
  have hm := uActMin_lt rq dlBw
  have hinact := toNat_sub_of_le h
  have hunit : bwUnit.toNat = 2 ^ 20 := by decide
  have hlt := rq.thisBw.isLt
  have hlt' := rq.extraBw.isLt
  have hcomp : bwUnit - uActMin rq dlBw < rq.thisBw - rq.runningBw + rq.extraBw ↔
      (2 ^ 64 + 2 ^ 20 - (uActMin rq dlBw).toNat) % 2 ^ 64 < rq.unused % 2 ^ 64 := by
    rw [lt_def, toNat_sub, toNat_add, hinact, hunit, unused]
    omega
  simp only [uAct]
  by_cases hless : bwUnit - uActMin rq dlBw < rq.thisBw - rq.runningBw + rq.extraBw
  · rw [if_pos hless, if_pos (hcomp.mp hless)]
  · rw [if_neg hless, if_neg fun hless' => hless (hcomp.mpr hless'), toNat_sub,
      toNat_sub, hinact, hunit, unused]
    omega

/-- The exact charge. -/
theorem floor_mul_rate (delta : ℕ) :
    ⌊delta * rq.rate dlBw⌋ = (delta * rq.scaledRate dlBw / 2 ^ 20 : ℕ) := by
  rw [rate_eq h, ← mul_div_assoc]
  have := Rat.floor_intCast_div_natCast (delta * rq.scaledRate dlBw) (2 ^ 20)
  push_cast at this ⊢
  exact this

/-- Where `u_act` is the rate. -/
theorem toNat_uAct_eq_iff :
    (uAct rq dlBw).toNat = rq.scaledRate dlBw ↔ rq.GrubSafe dlBw := by
  have hm := uActMin_lt rq dlBw
  have hunused : rq.unused < 2 ^ 65 := by
    have := rq.thisBw.isLt
    have := rq.extraBw.isLt
    rw [unused]
    omega
  rw [toNat_uAct h, scaledRate, GrubSafe]
  split_ifs <;> omega

omit h

/-- A charge at a rate that is not exact is not the exact charge, for some time. -/
theorem exists_charge_ne {u v : ℕ} (hv : v < 2 ^ 56) (huv : u < 2 ^ 21 ∧ u < v ∨ 2 ^ 62 ≤ u)
    (hu : u < 2 ^ 64) : ∃ delta < 2 ^ 64, delta * v < 2 ^ 64 ∧
      delta * u % 2 ^ 64 / 2 ^ 20 ≠ delta * v / 2 ^ 20 := by
  rcases lt_or_ge v (2 ^ 22) with hsmall | hlarge
  · rcases huv with huv | huv
    · exact ⟨2 ^ 20, by omega, by omega, by omega⟩
    · exact ⟨1, by omega, by omega, by omega⟩
  · exact ⟨1, by omega, by omega, by omega⟩

theorem toNat_grubReclaim (delta : BitVec 64) :
    (grubReclaim delta rq dlBw).toNat = delta.toNat * (uAct rq dlBw).toNat % 2 ^ 64 / 2 ^ 20 := by
  rw [grubReclaim, toNat_ushiftRight, toNat_mul, bwShift, shiftRight_eq_div_pow]

end DlRqBw

open DlRqBw

/-- The charge of `grub_reclaim` is the exact one as long as its comparison does not wrap, and not
otherwise if the bandwidths are not absurdly large. -/
theorem grubReclaim_exact_iff (rq : DlRqBw) (dlBw : BitVec 64) (h : rq.runningBw ≤ rq.thisBw) :
    (((uAct rq dlBw).toNat : ℚ) / 2 ^ 20 = rq.rate dlBw ↔ rq.GrubSafe dlBw) ∧
    (rq.GrubSafe dlBw → ∀ delta : BitVec 64, delta.toNat * rq.rate dlBw * 2 ^ 20 < 2 ^ 64 →
      ((grubReclaim delta rq dlBw).toNat : ℤ) = ⌊delta.toNat * rq.rate dlBw⌋) ∧
    (¬rq.GrubSafe dlBw → rq.unused < 2 ^ 63 → ∃ delta : BitVec 64,
      delta.toNat * rq.rate dlBw * 2 ^ 20 < 2 ^ 64 ∧
      ((grubReclaim delta rq dlBw).toNat : ℤ) ≠ ⌊delta.toNat * rq.rate dlBw⌋) := by
  have hbound : ∀ delta : ℕ, delta * rq.rate dlBw * 2 ^ 20 < 2 ^ 64 ↔
      delta * rq.scaledRate dlBw < 2 ^ 64 := by
    intro delta
    rw [rate_eq h, mul_assoc, div_mul_cancel₀ _ (by norm_num)]
    exact_mod_cast Iff.rfl
  refine ⟨?_, fun hsafe delta hdelta => ?_, fun hsafe hunused => ?_⟩
  · rw [rate_eq h, ← toNat_uAct_eq_iff h, div_left_inj' (by norm_num)]
    exact cast_inj
  · rw [hbound] at hdelta
    rw [floor_mul_rate h, toNat_grubReclaim, (toNat_uAct_eq_iff h).mpr hsafe, mod_eq_of_lt hdelta]
  · have hm := uActMin_lt rq dlBw
    have huact : (uAct rq dlBw).toNat = _ := toNat_uAct h
    obtain ⟨delta, hlt, hdelta, hne⟩ := exists_charge_ne (u := (uAct rq dlBw).toNat)
      (v := rq.scaledRate dlBw) (by rw [scaledRate]; omega) (by
        rw [huact, scaledRate]
        rw [GrubSafe] at hsafe
        split_ifs <;> omega) (uAct rq dlBw).isLt
    refine ⟨BitVec.ofNat 64 delta, ?_, ?_⟩
    · rw [hbound, toNat_ofNat, mod_eq_of_lt hlt]
      exact hdelta
    · rw [floor_mul_rate h, toNat_grubReclaim, toNat_ofNat, mod_eq_of_lt hlt]
      exact_mod_cast hne

/-- A task with half of a CPU, on a run queue of which a quarter is inactive. -/
theorem grubReclaim_exact_half :
    let rq : DlRqBw := ⟨786432, 524288, 0, 256⟩
    rq.runningBw ≤ rq.thisBw ∧ rq.GrubSafe 524288 ∧
      ((((uAct rq 524288).toNat : ℚ) / 2 ^ 20 = rq.rate 524288 ↔ rq.GrubSafe 524288) ∧
      (rq.GrubSafe 524288 → ∀ delta : BitVec 64, delta.toNat * rq.rate 524288 * 2 ^ 20 < 2 ^ 64 →
        ((grubReclaim delta rq 524288).toNat : ℤ) = ⌊delta.toNat * rq.rate 524288⌋) ∧
      (¬rq.GrubSafe 524288 → rq.unused < 2 ^ 63 → ∃ delta : BitVec 64,
        delta.toNat * rq.rate 524288 * 2 ^ 20 < 2 ^ 64 ∧
        ((grubReclaim delta rq 524288).toNat : ℤ) ≠ ⌊delta.toNat * rq.rate 524288⌋)) :=
  ⟨by decide, .inl ⟨by decide, by decide⟩, grubReclaim_exact_iff _ _ (by decide)⟩

/-- A run queue with one task that may use the whole CPU, and the default limit of 95%. -/
def wholeCpu : DlRqBw := initDlRqBwRatio ⟨1048576, 1048576, 0, 0⟩ 950000000 1000000000

/-- The task is charged 50 µs for a millisecond, with a bandwidth of one. -/
theorem grubReclaim_undercharged :
    wholeCpu.runningBw ≤ wholeCpu.thisBw ∧ 1000000 * wholeCpu.rate 1048576 * 2 ^ 20 < 2 ^ 64 ∧
      (grubReclaim 1000000 wholeCpu 1048576).toNat = 50000 ∧
      ⌊1000000 * wholeCpu.rate 1048576⌋ = 1050781 := by
  have hle : wholeCpu.runningBw ≤ wholeCpu.thisBw := by decide
  have hscaled : wholeCpu.scaledRate 1048576 = 1101824 := by decide
  refine ⟨hle, ?_, by decide, ?_⟩
  · rw [rate_eq hle, hscaled]
    norm_num
  · have hfloor : ⌊(1000000 : ℕ) * wholeCpu.rate 1048576⌋ = _ := floor_mul_rate hle 1000000
    rw [hscaled] at hfloor
    exact_mod_cast hfloor

end LinuxKernelTest
