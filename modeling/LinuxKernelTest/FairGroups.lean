import LinuxKernelTest.FairTime
import LinuxKernelTest.CfsRqLoad

/-!
# Group entities of the fair class

A task group has one cfs_rq and one entity for each CPU. `calc_group_shares` of
`kernel/sched/fair.c` gives the entity its part of the shares of the group : the load of this CPU
over the load of the group, in which the contribution of this CPU is replaced by the larger of its
weight and its average. The load of the group is kept by `update_tg_load_avg`, which adds the change
of one contribution at a time (`FairTaskGroup.Balanced`).

`update_tg_cfs_runnable` gives a change of the load of the group's cfs_rq to its entity and adds the
change of the entity's share to the sums of the parent. For `runnable_load_sum` what it takes away
is the old sum times `se_weight`, where `se_runnable` was added
(`updateTgCfsRunnable_stale`).
-/

namespace LinuxKernelTest

open Finset Int64

/-! ## Shares -/

/-- What `calc_group_shares` reads of the cfs_rq of a CPU. -/
structure ShareRq where
  loadWeight : UInt64
  loadAvg : UInt64
  tgLoadAvgContrib : UInt64

/-- The load of a CPU, at least its average. -/
def ShareRq.load (q : ShareRq) : UInt64 :=
  if q.loadAvg < scaleLoadDown q.loadWeight then scaleLoadDown q.loadWeight else q.loadAvg

/-- `struct task_group` over `n` CPUs. The fields of type `long` are kept as their bits. -/
structure FairTaskGroup (n : ℕ) where
  root : Bool
  shares : UInt64
  loadAvg : UInt64
  cfsRq : Fin n → ShareRq

/-- `MIN_SHARES`. -/
def minShares : Int64 := 2

/-- `clamp_t(long, val, lo, hi)`. -/
def clampLong (val lo hi : Int64) : Int64 :=
  let val := if lo < val then val else lo
  if val < hi then val else hi

/-- `abs` of a `long`. -/
def absLong (x : UInt64) : UInt64 := if x.toInt64 < 0 then -x else x

section

variable {n : ℕ}
variable (g : FairTaskGroup n)

/-- `calc_group_shares`. -/
def calcGroupShares (cpu : Fin n) : Int64 :=
  let q := g.cfsRq cpu
  let tgShares := g.shares.toInt64
  let load := q.load.toInt64
  let tgWeight := g.loadAvg.toInt64 - q.tgLoadAvgContrib.toInt64 + load
  let shares := tgShares * load
  let shares := if tgWeight ≠ 0 then shares / tgWeight else shares
  clampLong shares minShares tgShares

/-- `update_tg_load_avg`. -/
def updateTgLoadAvg (cpu : Fin n) (force : Bool) : FairTaskGroup n :=
  let q := g.cfsRq cpu
  let delta := q.loadAvg - q.tgLoadAvgContrib
  if g.root then g
  else if force ∨ q.tgLoadAvgContrib / 64 < absLong delta then
    { g with
      loadAvg := g.loadAvg + delta
      cfsRq := Function.update g.cfsRq cpu { q with tgLoadAvgContrib := q.loadAvg } }
  else g

/-- The calls on a group, and the changes of its shares and of the load of a CPU between them. -/
inductive TgCall (n : ℕ)
  | update (cpu : Fin n) (force : Bool)
  | load (cpu : Fin n) (loadWeight loadAvg : UInt64)
  | shares (s : UInt64)

/-- Run one call. -/
def TgCall.apply : TgCall n → FairTaskGroup n
  | .update cpu force => updateTgLoadAvg g cpu force
  | .load cpu loadWeight loadAvg =>
    let q := { g.cfsRq cpu with loadWeight := loadWeight, loadAvg := loadAvg }
    { g with cfsRq := Function.update g.cfsRq cpu q }
  | .shares s => { g with shares := s }

/-- A group as it is allocated. -/
structure FairTaskGroup.Fresh (g : FairTaskGroup n) : Prop where
  loadAvg : g.loadAvg = 0
  contrib : ∀ cpu, (g.cfsRq cpu).tgLoadAvgContrib = 0

/-- The load of the group is the sum of the contributions. -/
def FairTaskGroup.Balanced : Prop :=
  g.loadAvg = ∑ cpu, (g.cfsRq cpu).tgLoadAvgContrib

variable {g}

theorem FairTaskGroup.Fresh.balanced (h : g.Fresh) : g.Balanced := by
  rw [FairTaskGroup.Balanced, h.loadAvg, sum_eq_zero fun cpu _ => h.contrib cpu]

/-- The sum after a change of one contribution. -/
theorem sum_contrib_update (cfsRq : Fin n → ShareRq) (cpu : Fin n) (q : ShareRq) :
    ∑ i, (Function.update cfsRq cpu q i).tgLoadAvgContrib =
      ∑ i, (cfsRq i).tgLoadAvgContrib + (q.tgLoadAvgContrib - (cfsRq cpu).tgLoadAvgContrib) := by
  rw [← add_sum_erase _ _ (mem_univ cpu),
    ← add_sum_erase _ (fun i => (cfsRq i).tgLoadAvgContrib) (mem_univ cpu),
    Function.update_self]
  have hrest : ∑ i ∈ univ.erase cpu, (Function.update cfsRq cpu q i).tgLoadAvgContrib =
      ∑ i ∈ univ.erase cpu, (cfsRq i).tgLoadAvgContrib :=
    sum_congr rfl fun i hi => by rw [Function.update_of_ne (ne_of_mem_erase hi)]
  rw [hrest]
  abel

theorem TgCall.apply_balanced (h : g.Balanced) (o : TgCall n) :
    (o.apply g).Balanced := by
  rw [FairTaskGroup.Balanced] at h
  cases o with
  | update cpu force =>
    simp only [TgCall.apply, updateTgLoadAvg]
    split_ifs
    · exact h
    · rw [FairTaskGroup.Balanced, sum_contrib_update, h]
    · exact h
  | load cpu loadWeight loadAvg =>
    rw [FairTaskGroup.Balanced, TgCall.apply, sum_contrib_update, sub_self, add_zero]
    exact h
  | shares s => exact h

theorem run_balanced (h : g.Balanced) (ops : List (TgCall n)) :
    (ops.foldl TgCall.apply g).Balanced := by
  induction ops generalizing g with
  | nil => exact h
  | cons o ops ih => exact ih (o.apply_balanced h)

/-! ### The parts -/

/-- Parts rounded down, each over a total in which its own load is replaced by a larger one. -/
theorem le_sum_parts {ι : Type*} [Fintype ι] (S : ℕ) (a l part : ι → ℕ) (hle : ∀ i, a i ≤ l i)
    (hpos : 0 < ∑ i, a i) (hpart : ∀ i, S * l i / (∑ j, a j - a i + l i) ≤ part i) :
    S ≤ ∑ i, part i + Fintype.card ι := by
  -- Each part and one more is at least the part of the own load of the total.
  have hone : ∀ i, S * a i ≤ (∑ j, a j) * (part i + 1) := fun i => by
    have hai : a i ≤ ∑ j, a j := single_le_sum (fun _ _ => Nat.zero_le _) (mem_univ i)
    obtain ⟨rest, hrest⟩ := Nat.exists_eq_add_of_le hai
    have hi := hpart i
    rw [hrest, Nat.add_sub_cancel_left] at hi
    rw [hrest]
    by_cases hzero : rest + l i = 0
    · have : a i = 0 := by have := hle i; omega
      rw [this]
      simp
    have hlt := Nat.lt_mul_div_succ (S * l i) (Nat.pos_of_ne_zero hzero)
    have hmul := hlt.le.trans (Nat.mul_le_mul_left _ (Nat.succ_le_succ hi))
    obtain ⟨d, hd⟩ := Nat.exists_eq_add_of_le (hle i)
    rw [hd] at hmul hzero
    refine Nat.le_of_mul_le_mul_left ?_ (Nat.pos_of_ne_zero hzero)
    calc (rest + (a i + d)) * (S * a i)
        ≤ (a i + rest) * (S * (a i + d)) := by nlinarith [Nat.zero_le (S * (rest * d))]
      _ ≤ (a i + rest) * ((rest + (a i + d)) * (part i + 1)) := by gcongr
      _ = (rest + (a i + d)) * ((a i + rest) * (part i + 1)) := by ring
  refine Nat.le_of_mul_le_mul_left ?_ hpos
  calc (∑ i, a i) * S = ∑ i, S * a i := by rw [← mul_sum, mul_comm]
    _ ≤ ∑ i, (∑ j, a j) * (part i + 1) := sum_le_sum fun i _ => hone i
    _ = (∑ j, a j) * (∑ i, part i + Fintype.card ι) := by
      rw [← mul_sum, sum_add_distrib]
      simp

theorem toInt_clampLong {val lo hi : Int64} (h : lo ≤ hi) :
    (clampLong val lo hi).toInt = max lo.toInt (min val.toInt hi.toInt) := by
  rw [le_iff_toInt_le] at h
  simp only [clampLong]
  split_ifs with h1 h2 h2 <;> simp only [lt_iff_toInt_lt] at h1 h2 <;> omega

/-- Each part is between both bounds. -/
theorem calcGroupShares_between (cpu : Fin n) (h : minShares ≤ g.shares.toInt64) :
    minShares ≤ calcGroupShares g cpu ∧ calcGroupShares g cpu ≤ g.shares.toInt64 := by
  have hle := le_iff_toInt_le.mp h
  rw [le_iff_toInt_le, le_iff_toInt_le, calcGroupShares, toInt_clampLong h]
  omega

theorem toInt_toInt64_of_lt {x : UInt64} (h : x.toNat < 2 ^ 63) : x.toInt64.toInt = x.toNat := by
  rw [toInt_toInt64, if_pos (by omega)]

theorem ShareRq.loadAvg_le_load (q : ShareRq) : q.loadAvg.toNat ≤ q.load.toNat := by
  rw [ShareRq.load]
  split_ifs with h
  · exact (UInt64.lt_iff_toNat_lt.mp h).le
  · exact le_rfl

theorem bmod_of_lt {x : ℤ} (h0 : 0 ≤ x) (h : x < 2 ^ 63) : x.bmod (2 ^ 64) = x :=
  Int.bmod_eq_of_le (by omega) (by omega)

/-- The part of a CPU where nothing overflows. -/
theorem le_calcGroupShares {cpu : Fin n} (h : minShares ≤ g.shares.toInt64)
    (hpos : 0 < g.loadAvg.toNat)
    (hcontrib : (g.cfsRq cpu).tgLoadAvgContrib = (g.cfsRq cpu).loadAvg)
    (hle : (g.cfsRq cpu).loadAvg.toNat ≤ g.loadAvg.toNat)
    (hprod : g.shares.toNat * (g.cfsRq cpu).load.toNat < 2 ^ 63)
    (hshares : g.shares.toNat < 2 ^ 63)
    (hsum : g.loadAvg.toNat + (g.cfsRq cpu).load.toNat < 2 ^ 63) :
    ((g.shares.toNat * (g.cfsRq cpu).load.toNat /
      (g.loadAvg.toNat - (g.cfsRq cpu).loadAvg.toNat + (g.cfsRq cpu).load.toNat) : ℕ) : ℤ) ≤
        (calcGroupShares g cpu).toInt := by
  have havg := (g.cfsRq cpu).loadAvg_le_load
  obtain ⟨rest, hrest⟩ := Nat.exists_eq_add_of_le hle
  -- The loads, as numbers.
  have hload := toInt_toInt64_of_lt (show (g.cfsRq cpu).load.toNat < 2 ^ 63 by omega)
  have hS := toInt_toInt64_of_lt hshares
  have hweight : (g.loadAvg.toInt64 - (g.cfsRq cpu).tgLoadAvgContrib.toInt64 +
      (g.cfsRq cpu).load.toInt64).toInt = ((rest + (g.cfsRq cpu).load.toNat : ℕ) : ℤ) := by
    have hsub : (g.loadAvg.toInt64 - (g.cfsRq cpu).tgLoadAvgContrib.toInt64).toInt = rest := by
      rw [toInt_sub, hcontrib, toInt_toInt64_of_lt (show g.loadAvg.toNat < 2 ^ 63 by omega),
        toInt_toInt64_of_lt (show (g.cfsRq cpu).loadAvg.toNat < 2 ^ 63 by omega),
        bmod_of_lt (by omega) (by omega)]
      omega
    rw [toInt_add, hsub, hload, bmod_of_lt (by omega) (by omega)]
    rfl
  have hmul : (g.shares.toInt64 * (g.cfsRq cpu).load.toInt64).toInt =
      ((g.shares.toNat * (g.cfsRq cpu).load.toNat : ℕ) : ℤ) := by
    rw [toInt_mul, hload, hS]
    exact_mod_cast bmod_of_lt (by positivity) (by exact_mod_cast hprod)
  have hne : g.loadAvg.toInt64 - (g.cfsRq cpu).tgLoadAvgContrib.toInt64 +
      (g.cfsRq cpu).load.toInt64 ≠ 0 := fun h0 => by
    rw [h0, show (0 : Int64).toInt = 0 from rfl] at hweight
    omega
  have hquot : g.shares.toNat * (g.cfsRq cpu).load.toNat / (rest + (g.cfsRq cpu).load.toNat) ≤
      g.shares.toNat :=
    Nat.div_le_of_le_mul (by rw [mul_comm]; gcongr; omega)
  rw [hrest, Nat.add_sub_cancel_left]
  simp only [calcGroupShares]
  rw [toInt_clampLong h, if_pos hne, toInt_div, hmul, hweight, hS,
    ← Int.ofNat_tdiv, bmod_of_lt (by positivity) (by omega)]
  omega

/-- In every state of every run in which each contribution is up to date, the parts are between both
bounds and together no less than the shares, up to one for each CPU. -/
theorem calcGroupShares_run {g₀ : FairTaskGroup n} (hfresh : g₀.Fresh) (ops : List (TgCall n))
    (hrun : ops.foldl TgCall.apply g₀ = g)
    (hcontrib : ∀ cpu, (g.cfsRq cpu).tgLoadAvgContrib = (g.cfsRq cpu).loadAvg)
    (hpos : 0 < g.loadAvg.toInt64) (hshares : minShares ≤ g.shares.toInt64)
    (hprod : ∀ cpu, g.shares.toNat * (g.cfsRq cpu).load.toNat < 2 ^ 63) :
    (∀ cpu, minShares ≤ calcGroupShares g cpu ∧ calcGroupShares g cpu ≤ g.shares.toInt64) ∧
      g.shares.toInt64.toInt - n ≤ ∑ cpu, (calcGroupShares g cpu).toInt := by
  have hbetween := fun cpu => calcGroupShares_between cpu hshares
  refine ⟨hbetween, ?_⟩
  have hbalanced : g.Balanced := hrun ▸ run_balanced hfresh.balanced ops
  rw [toInt64_pos_iff] at hpos
  have hsmall : g.shares.toNat < 2 ^ 63 := by
    by_contra hbig
    have := toInt64_neg_iff.mpr (not_lt.mp hbig)
    rw [lt_iff_toInt_lt] at this
    rw [le_iff_toInt_le] at hshares
    exact absurd (hshares.trans_lt this) (by decide)
  rw [toInt_toInt64_of_lt hsmall]
  obtain hfew | hmany := le_or_gt (g.shares.toNat : ℤ) (n + 1)
  · -- With so few shares, `MIN_SHARES` for each CPU is enough.
    have hn : 0 < n := Nat.pos_of_ne_zero fun h0 => by
      subst h0
      rw [FairTaskGroup.Balanced, univ_eq_empty, sum_empty] at hbalanced
      rw [hbalanced] at hpos
      exact absurd hpos.1 (by decide)
    have htwo : ∑ _cpu : Fin n, (2 : ℤ) ≤ ∑ cpu, (calcGroupShares g cpu).toInt :=
      sum_le_sum fun cpu _ => le_iff_toInt_le.mp (hbetween cpu).1
    rw [sum_const, card_univ, Fintype.card_fin, nsmul_eq_mul] at htwo
    omega
  -- With more, the loads are so small that no sum overflows.
  obtain ⟨B, hB⟩ : ∃ B, B = (2 ^ 63 - 1) / (n + 2) := ⟨_, rfl⟩
  have hBn : n * B + 2 * B ≤ 2 ^ 63 - 1 := by
    rw [← add_mul, hB]
    exact Nat.mul_div_le _ _
  have hload : ∀ cpu, (g.cfsRq cpu).load.toNat ≤ B := fun cpu => by
    have hle : n + 2 ≤ g.shares.toNat := by omega
    have := Nat.mul_le_mul_right (g.cfsRq cpu).load.toNat hle
    have := hprod cpu
    rw [hB, Nat.le_div_iff_mul_le (by omega), mul_comm]
    omega
  have hsumle : ∑ cpu, (g.cfsRq cpu).loadAvg.toNat ≤ n * B := by
    refine (sum_le_card_nsmul _ _ B fun cpu _ =>
      (ShareRq.loadAvg_le_load _).trans (hload cpu)).trans_eq ?_
    simp
  have hsum : g.loadAvg.toNat = ∑ cpu, (g.cfsRq cpu).loadAvg.toNat := by
    rw [show g.loadAvg = _ from hbalanced, sum_congr rfl fun cpu _ => hcontrib cpu,
      toNat_sum, Nat.mod_eq_of_lt]
    omega
  have hparts := le_sum_parts g.shares.toNat (fun cpu => (g.cfsRq cpu).loadAvg.toNat)
    (fun cpu => (g.cfsRq cpu).load.toNat) (fun cpu => (calcGroupShares g cpu).toInt.toNat)
    (fun cpu => ShareRq.loadAvg_le_load _) (hsum ▸ hpos.1) fun cpu => by
      have havg : (g.cfsRq cpu).loadAvg.toNat ≤ ∑ i, (g.cfsRq i).loadAvg.toNat :=
        single_le_sum (f := fun i => (g.cfsRq i).loadAvg.toNat)
          (fun _ _ => Nat.zero_le _) (mem_univ cpu)
      have hcpu := hload cpu
      have hle := le_calcGroupShares hshares hpos.1 (hcontrib cpu) (hsum ▸ havg) (hprod cpu)
        hsmall (by omega)
      rw [← hsum]
      omega
  have hnat : ∑ cpu, (calcGroupShares g cpu).toInt =
      ((∑ cpu, (calcGroupShares g cpu).toInt.toNat : ℕ) : ℤ) := by
    rw [Nat.cast_sum]
    refine sum_congr rfl fun cpu _ => (Int.toNat_of_nonneg ?_).symm
    have htwo : (2 : ℤ) ≤ _ := le_iff_toInt_le.mp (hbetween cpu).1
    omega
  rw [Fintype.card_fin] at hparts
  rw [hnat]
  omega

/-- A group on two CPUs, whose averages are updated by force. -/
def twoCpus : FairTaskGroup 2 :=
  [.shares 1048576, .load ⟨0, by decide⟩ 1048576 300, .load ⟨1, by decide⟩ 0 700,
    .update ⟨0, by decide⟩ true, .update ⟨1, by decide⟩ true].foldl TgCall.apply
    ⟨false, 0, 0, fun _ => ⟨0, 0, 0⟩⟩

theorem calcGroupShares_run_twoCpus :
    (calcGroupShares twoCpus 0 = 622820 ∧ calcGroupShares twoCpus 1 = 734003) ∧
      twoCpus.shares.toInt64.toInt - (2 : ℕ) ≤ ∑ cpu, (calcGroupShares twoCpus cpu).toInt :=
  ⟨by decide +kernel,
    (calcGroupShares_run ⟨rfl, fun _ => rfl⟩ _ rfl (by decide +kernel) (by decide +kernel)
      (by decide +kernel) (by decide +kernel)).2⟩

end

/-! ## Propagation -/

/-- What `update_tg_cfs_runnable` reads of the cfs_rq of a group. -/
structure GroupRq where
  loadWeight : UInt64
  loadSum : UInt64
  propRunnableSum : UInt64
deriving DecidableEq

/-- `div_s64`, with a divisor of 32 bits. -/
def divS64 (dividend divisor : UInt64) : Option UInt64 :=
  let d := divisor.toUInt32.toInt32.toInt64
  if d = 0 ∨ d = -1 ∧ dividend.toInt64 = Int64.minValue then none
  else some (dividend.toInt64 / d).toUInt64

variable (se : LoadEntity)

/-- The new unweighted sum of a group entity. -/
def tgRunnableSum (g : GroupRq) : Option UInt64 :=
  (if 0 ≤ g.propRunnableSum.toInt64 then
    let sum := g.propRunnableSum + se.avg.loadSum
    let most := UInt64.ofNat loadAvgMax
    some (if sum.toInt64 < most.toInt64 then sum else most)
  else
    let weight := scaleLoadDown g.loadWeight
    (if weight ≠ 0 then divS64 g.loadSum weight else some 0).map fun loadSum =>
      if se.avg.loadSum < loadSum then se.avg.loadSum else loadSum).map fun sum =>
    let running := (se.avg.utilSum >>> 10).toUInt64
    if running.toInt64 < sum.toInt64 then sum else running

/-- `add_positive`. -/
def addPositive (x v : UInt64) : UInt64 := if v.toInt64 < 0 ∧ x < x + v then 0 else x + v

/-- The change of `load_sum`. -/
def tgLoadDelta (sum : UInt64) : UInt64 :=
  se.weight * sum - se.weight * se.avg.loadSum

/-- The change of `runnable_load_sum`. -/
def tgRunnableDelta (sum : UInt64) : UInt64 :=
  se.runnable * sum - se.weight * se.avg.runnableLoadSum

variable (q : CfsRqLoad)

/-- `update_tg_cfs_runnable` : the parent, the entity and the cfs_rq of the group after it. -/
def updateTgCfsRunnable (se : LoadEntity) (onRq : Bool) (g : GroupRq) :
    Option (CfsRqLoad × LoadEntity × GroupRq) :=
  if g.propRunnableSum = 0 then some (q, se, g)
  else
    (tgRunnableSum se g).bind fun sum =>
    (divS64 (se.weight * sum) (UInt64.ofNat loadAvgMax)).bind fun loadAvg =>
    (divS64 (se.runnable * sum) (UInt64.ofNat loadAvgMax)).map fun runnableLoadAvg =>
      let avg := { q.avg with
        loadAvg := addPositive q.avg.loadAvg (loadAvg - se.avg.loadAvg)
        loadSum := addPositive q.avg.loadSum (tgLoadDelta se sum) }
      let avg := if onRq then
          { avg with
            runnableLoadAvg :=
              addPositive avg.runnableLoadAvg (runnableLoadAvg - se.avg.runnableLoadAvg)
            runnableLoadSum := addPositive avg.runnableLoadSum (tgRunnableDelta se sum) }
        else avg
      ({ q with avg := avg },
        { se with avg := { se.avg with
            loadSum := sum
            loadAvg := loadAvg
            runnableLoadSum := sum
            runnableLoadAvg := runnableLoadAvg } },
        { g with propRunnableSum := 0 })

/-- The addition is clamped. -/
def Clamped (x v : UInt64) : Prop := v.toInt64 < 0 ∧ x < x + v
deriving Decidable

theorem addPositive_of_not_clamped {x v : UInt64} (h : ¬Clamped x v) : addPositive x v = x + v :=
  if_neg h

/-- What the other entities have of `load_sum`. -/
def othersLoad (se : LoadEntity) : UInt64 :=
  q.avg.loadSum - se.weight * se.avg.loadSum

/-- What the other entities have of `runnable_load_sum`. -/
def othersRunnable (se : LoadEntity) : UInt64 :=
  q.avg.runnableLoadSum - se.runnable * se.avg.runnableLoadSum

variable {r : CfsRqLoad × LoadEntity × GroupRq} {onRq : Bool}

/-- The fields that a call changes, where nothing is clamped. -/
theorem updateTgCfsRunnable_spec {q : CfsRqLoad} {se : LoadEntity} {g : GroupRq}
    (hrun : updateTgCfsRunnable q se onRq g = some r)
    (hprop : g.propRunnableSum ≠ 0) :
    ∃ sum, tgRunnableSum se g = some sum ∧ r.2.1.loadWeight = se.loadWeight ∧
      r.2.1.runnableWeight = se.runnableWeight ∧ r.2.1.avg.loadSum = sum ∧
      r.2.1.avg.runnableLoadSum = sum ∧
      r.1.avg.loadSum = addPositive q.avg.loadSum (tgLoadDelta se sum) ∧
      (onRq = true →
        r.1.avg.runnableLoadSum = addPositive q.avg.runnableLoadSum (tgRunnableDelta se sum)) := by
  rw [updateTgCfsRunnable, if_neg hprop] at hrun
  obtain ⟨sum, hsum, hrun⟩ := Option.bind_eq_some_iff.mp hrun
  obtain ⟨loadAvg, -, hrun⟩ := Option.bind_eq_some_iff.mp hrun
  obtain ⟨runnableLoadAvg, -, rfl⟩ := Option.map_eq_some_iff.mp hrun
  refine ⟨sum, hsum, rfl, rfl, rfl, rfl, ?_, fun hon => ?_⟩
  · cases onRq <;> rfl
  · subst hon
    rfl

/-- The part of the other entities is kept just when the call does nothing, the entity is not
queued, both weights are the same or there was no sum to take away. -/
theorem updateTgCfsRunnable_iff {q : CfsRqLoad} {se : LoadEntity} {g : GroupRq}
    (hrun : updateTgCfsRunnable q se onRq g = some r)
    (hclamp : g.propRunnableSum ≠ 0 → ∀ sum, tgRunnableSum se g = some sum →
      ¬Clamped q.avg.loadSum (tgLoadDelta se sum) ∧
        (onRq = true → ¬Clamped q.avg.runnableLoadSum (tgRunnableDelta se sum)))
    (hweight : se.weight.toNat * se.avg.runnableLoadSum.toNat < 2 ^ 64)
    (hrunnable : se.runnable.toNat * se.avg.runnableLoadSum.toNat < 2 ^ 64) :
    (othersLoad r.1 r.2.1 = othersLoad q se ∧
      (onRq = true → othersRunnable r.1 r.2.1 = othersRunnable q se)) ↔
      g.propRunnableSum = 0 ∨ onRq = false ∨ se.runnable = se.weight ∨
        se.avg.runnableLoadSum = 0 := by
  by_cases hprop : g.propRunnableSum = 0
  · rw [updateTgCfsRunnable, if_pos hprop] at hrun
    cases hrun
    simp [hprop]
  obtain ⟨sum, hsum, hw, hrw, hload, hrunload, hq, hqr⟩ := updateTgCfsRunnable_spec hrun hprop
  obtain ⟨hnoclamp, hnoclamp'⟩ := hclamp hprop sum hsum
  have hsew : r.2.1.weight = se.weight := by rw [LoadEntity.weight, hw, LoadEntity.weight]
  have hser : r.2.1.runnable = se.runnable := by rw [LoadEntity.runnable, hrw, LoadEntity.runnable]
  have hothers : othersLoad r.1 r.2.1 = othersLoad q se := by
    rw [othersLoad, othersLoad, hsew, hload, hq, addPositive_of_not_clamped hnoclamp, tgLoadDelta]
    abel
  cases onRq with
  | false => simp [hothers]
  | true =>
    -- The difference is the old sum times the difference of both weights.
    have hdiff : othersRunnable r.1 r.2.1 - othersRunnable q se =
        se.runnable * se.avg.runnableLoadSum - se.weight * se.avg.runnableLoadSum := by
      rw [othersRunnable, othersRunnable, hser, hrunload, hqr rfl,
        addPositive_of_not_clamped (hnoclamp' rfl), tgRunnableDelta]
      abel
    have hiff : othersRunnable r.1 r.2.1 = othersRunnable q se ↔
        se.runnable * se.avg.runnableLoadSum = se.weight * se.avg.runnableLoadSum := by
      rw [← sub_eq_zero, hdiff, sub_eq_zero]
    have hmul : se.runnable * se.avg.runnableLoadSum = se.weight * se.avg.runnableLoadSum ↔
        se.runnable = se.weight ∨ se.avg.runnableLoadSum = 0 := by
      rw [← UInt64.toNat_inj, UInt64.toNat_mul, UInt64.toNat_mul, Nat.mod_eq_of_lt hweight,
        Nat.mod_eq_of_lt hrunnable, mul_eq_mul_right_iff, UInt64.toNat_inj,
        ← UInt64.toNat_inj (b := 0)]
      rfl
    simp [hothers, hprop, hiff, hmul]

/-- The parent of a group entity. -/
def tgParent : CfsRqLoad :=
  ⟨0, 0, false, ⟨0, 100000, 100000, 0, 0, 0, 0, 0⟩, ⟨0, 0, 0, 0⟩⟩

/-- A group entity of weight 2. -/
def tgEntity (runnableWeight : UInt64) : LoadEntity :=
  ⟨2048, runnableWeight, ⟨0, 10000, 10000, 0, 0, 0, 0, 0⟩⟩

/-- Load was added to the group. -/
def tgRq : GroupRq := ⟨1024, 0, 1000⟩

/-- Both weights are the same, and the other entities keep their part. -/
theorem updateTgCfsRunnable_iff_same :
    ∃ r, updateTgCfsRunnable tgParent (tgEntity 2048) true tgRq = some r ∧
      othersLoad r.1 r.2.1 = othersLoad tgParent (tgEntity 2048) ∧
      (true = true → othersRunnable r.1 r.2.1 = othersRunnable tgParent (tgEntity 2048)) := by
  have hsum : tgRunnableSum (tgEntity 2048) tgRq = some 11000 := by decide +kernel
  refine ⟨_, rfl, (updateTgCfsRunnable_iff (g := tgRq) rfl (fun _ sum h => ?_) ?_ ?_).mpr ?_⟩
  · rw [hsum] at h
    cases h
    exact ⟨by decide +kernel, fun _ => by decide +kernel⟩
  · decide +kernel
  · decide +kernel
  · exact .inr (.inr (.inl rfl))

/-- The entity has half the weight to run with : the others lose 10000. -/
theorem updateTgCfsRunnable_stale :
    ∃ r, updateTgCfsRunnable tgParent (tgEntity 1024) true tgRq = some r ∧
      tgRunnableSum (tgEntity 1024) tgRq = some 11000 ∧
      ¬Clamped tgParent.avg.loadSum (tgLoadDelta (tgEntity 1024) 11000) ∧
      ¬Clamped tgParent.avg.runnableLoadSum (tgRunnableDelta (tgEntity 1024) 11000) ∧
      othersRunnable tgParent (tgEntity 1024) = 90000 ∧ othersRunnable r.1 r.2.1 = 80000 :=
  ⟨_, rfl, by decide +kernel, by decide +kernel, by decide +kernel, by decide +kernel,
    by decide +kernel⟩

end LinuxKernelTest
