import LinuxKernelTest.Decay
import LinuxKernelTest.Pelt

/-!
# Bounds on tracked load

The machine words of the model are numbers here (`PeltUpdate.sum_spec`) : an update decays the
sums by the periods it crosses (`aged`) and adds the `contribution` of the time since.

A load sum is within the divider of `___update_load_avg` at any time (`peltSums_load_le`) : the old
sum and the rest of its period are parts of `LOAD_AVG_MAX`, and parts that are decayed one by one
stay parts of the decayed whole. For `util_sum`, which is rounded on a finer scale than what is
added to it, this fails.
-/

namespace LinuxKernelTest

open Nat PeltUpdate

/-! ## The sums as numbers -/

/-- The factor of `n < 32` periods, in units of `2 ^ -32`. -/
def decayFactor (n : ℕ) : ℕ := (runnableAvgYNInv.getD n 0).toNat

/-- `decay_load` on numbers. -/
def decay (n v : ℕ) : ℕ :=
  if n ≤ 32 * 63 then v / 2 ^ (n / 32) * decayFactor (n % 32) / 2 ^ 32 else 0

theorem mulU64U32Shr_toNat (a : UInt64) (mul : UInt32) :
    (mulU64U32Shr a mul 32).toNat = a.toNat * mul.toNat / 2 ^ 32 := by
  have hle : a.toNat * mul.toNat / 2 ^ 32 ≤ a.toNat := Nat.div_le_of_le_mul (by
      rw [Nat.mul_comm]
      exact mul_le_mul_right _ mul.toNat_lt.le)
  have := a.toNat_lt
  rw [mulU64U32Shr, shiftRight_eq_div_pow, UInt64.toNat_ofNat', mod_eq_of_lt (by omega)]

theorem decayLoad_toNat (val n : UInt64) : (decayLoad val n).toNat = decay n.toNat val.toNat := by
  rw [decayLoad, decay]
  by_cases hval : val = 0
  · subst hval
    simp
  rw [if_neg hval]
  by_cases hn : n.toNat ≤ 32 * 63
  case neg =>
    rw [if_pos (by rw [gt_iff_lt, UInt64.lt_iff_toNat_lt]; exact not_le.mp hn), if_neg hn]
    rfl
  have hlocal : n.toUInt32.toNat = n.toNat := by
    rw [UInt64.toNat_toUInt32]
    omega
  rw [if_neg (by rw [gt_iff_lt, UInt64.lt_iff_toNat_lt]; exact not_lt.mpr hn), if_pos hn]
  by_cases hperiod : n.toNat < 32
  · rw [if_neg (by
      rw [ge_iff_le, UInt32.le_iff_toNat_le, hlocal]; exact not_le.mpr hperiod),
      mulU64U32Shr_toNat, hlocal, div_eq_of_lt hperiod, mod_eq_of_lt hperiod,
      Nat.pow_zero, Nat.div_one]
    rfl
  rw [if_pos (by
    rw [ge_iff_le, UInt32.le_iff_toNat_le, hlocal]; exact not_lt.mp hperiod),
    mulU64U32Shr_toNat, UInt32.toNat_mod, UInt64.toNat_shiftRight, UInt32.toNat_toUInt64,
    UInt32.toNat_div, hlocal, shiftRight_eq_div_pow]
  have hshift : n.toNat / (UInt32.ofNat loadAvgPeriod).toNat % 64 = n.toNat / 32 := by
    change n.toNat / 32 % 64 = _
    omega
  rw [hshift]
  rfl

/-- The periods that end within `d` units from the point `c` of a period. -/
def crossed (c d : ℕ) : ℕ := (c + d) / 1024

/-- A sum after `p` periods. -/
def aged (p v : ℕ) : ℕ := if p = 0 then v else decay p v

/-- What `d` units of full activity from the point `c` of a period add. -/
def contribution (c d : ℕ) : ℕ :=
  if crossed c d = 0 then d
  else decay (crossed c d) (1024 - c) + (loadAvgMax - decay (crossed c d) loadAvgMax - 1024) +
    (c + d) % 1024

theorem decayFactor_lt (n : ℕ) : decayFactor n < 2 ^ 32 := UInt32.toNat_lt _

theorem isDecay_decay (n : ℕ) : IsDecay (decay n) := by
  have hpow : 0 < 2 ^ (n / 32) := Nat.two_pow_pos _
  unfold decay
  split
  · exact .comp (.scale (decayFactor_lt _).le) (by simpa using IsDecay.scale (a := 1) hpow)
  · exact .zero

theorem decay_of_lt {n v : ℕ} (hn : n < 32) : decay n v = v * decayFactor n / 2 ^ 32 := by
  rw [decay, if_pos (by omega), Nat.div_eq_of_lt hn, mod_eq_of_lt hn, Nat.pow_zero, Nat.div_one]

theorem decayFactor_succ_le : ∀ i < 31, decayFactor (i + 1) ≤ decayFactor i := by
  decide +kernel

/-- One period more. After 31 periods the table starts again, and a half is lost by the shift. -/
theorem decay_succ_le (v n : ℕ) : decay (n + 1) v ≤ decay n v := by
  rw [decay, decay]
  split_ifs with hsucc hn
  · refine Nat.div_le_div_right ?_
    by_cases hwrap : n % 32 = 31
    · rw [show (n + 1) / 32 = n / 32 + 1 by omega, show (n + 1) % 32 = 0 by omega, hwrap,
        Nat.pow_succ, ← Nat.div_div_eq_div_mul]
      generalize v / 2 ^ (n / 32) = x
      calc x / 2 * decayFactor 0 ≤ x / 2 * (2 * decayFactor 31) := Nat.mul_le_mul_left _ (by decide)
        _ = x / 2 * 2 * decayFactor 31 := (Nat.mul_assoc ..).symm
        _ ≤ x * decayFactor 31 := Nat.mul_le_mul_right _ (Nat.div_mul_le_self x 2)
    · rw [show (n + 1) / 32 = n / 32 by omega, show (n + 1) % 32 = n % 32 + 1 by omega]
      exact Nat.mul_le_mul_left _ (decayFactor_succ_le _ (by omega))
  · omega
  · exact Nat.zero_le _
  · exact Nat.le_refl 0

theorem decay_le_decay {n m : ℕ} (h : n ≤ m) (v : ℕ) : decay m v ≤ decay n v :=
  antitone_nat_of_succ_le (f := (decay · v)) (decay_succ_le v) h

theorem decay_le_one {n v : ℕ} (hn : 1 ≤ n) : decay n v ≤ v * 0xfa83b2da / 2 ^ 32 :=
  (decay_le_decay hn v).trans (decay_of_lt (by decide)).le

theorem decay_loadAvgMax_le {n : ℕ} (hn : 1 ≤ n) : decay n loadAvgMax ≤ loadAvgMax - 1024 :=
  decay_le_one hn

/-- Even no period at all takes something, for the first factor is less than one. -/
theorem decay_lt {v : ℕ} (hv : 0 < v) (n : ℕ) : decay n v < v := by
  have hfactor : v * decayFactor 0 < 2 ^ 32 * v := by
    rw [Nat.mul_comm]
    exact Nat.mul_lt_mul_of_pos_right (decayFactor_lt 0) hv
  refine (decay_le_decay (Nat.zero_le n) v).trans_lt ?_
  rw [decay_of_lt (by decide)]
  exact Nat.div_lt_of_lt_mul hfactor

theorem foldl_decayLoad (ns : List UInt64) (w : UInt64) (h : w.toNat ≤ ns.length) :
    ns.foldl decayLoad w = 0 := by
  induction ns generalizing w with
  | nil => exact UInt64.toNat_inj.mp (Nat.le_zero.mp h)
  | cons n ns ih =>
    refine ih _ ?_
    have hle := (isDecay_decay n.toNat).le_self w.toNat
    have hlt := @decay_lt w.toNat
    rw [List.length_cons] at h
    rw [decayLoad_toNat]
    grind

/-- More periods and a smaller value leave less, every decay of a positive value takes something,
and so repeated decay ends at 0. -/
theorem decayLoad_ordered (v w n m : UInt64) (ns : List UInt64) :
    (v ≤ w → n ≤ m → decayLoad v m ≤ decayLoad w n) ∧ decayLoad w n ≤ w ∧
      (0 < w → decayLoad w n < w) ∧ (w.toNat ≤ ns.length → ns.foldl decayLoad w = 0) := by
  simp only [UInt64.le_iff_toNat_le, UInt64.lt_iff_toNat_lt, decayLoad_toNat]
  refine ⟨fun hv hn => ?_, (isDecay_decay _).le_self _, fun hw => decay_lt hw _,
    foldl_decayLoad ns w⟩
  exact (decay_le_decay hn _).trans ((isDecay_decay _).mono hv)

/-- The sums of `sa'` are those of `sa` after `d` units. -/
structure Accumulated (d : ℕ) (load runnable : UInt64) (running : Bool) (sa sa' : SchedAvg) :
    Prop where
  periodContrib : sa'.periodContrib.toNat = (sa.periodContrib.toNat + d) % 1024
  loadSum : sa'.loadSum.toNat = (aged (crossed sa.periodContrib.toNat d) sa.loadSum.toNat +
    load.toNat * contribution sa.periodContrib.toNat d) % 2 ^ 64
  runnableLoadSum : sa'.runnableLoadSum.toNat =
    (aged (crossed sa.periodContrib.toNat d) sa.runnableLoadSum.toNat +
      runnable.toNat * contribution sa.periodContrib.toNat d) % 2 ^ 64
  utilSum : sa'.utilSum.toNat = (aged (crossed sa.periodContrib.toNat d) sa.utilSum.toNat +
    if running then 1024 * contribution sa.periodContrib.toNat d else 0) % 2 ^ 32
  utilAvg : sa'.utilAvg = sa.utilAvg

theorem accumulatePeltSegments_toNat {periods : UInt64} {d1 d3 : UInt32}
    (hperiods : 1 ≤ periods.toNat) (hd1 : d1.toNat ≤ 1024) (hd3 : d3.toNat < 1024) :
    (accumulatePeltSegments periods d1 d3).toNat =
      decay periods.toNat d1.toNat + (loadAvgMax - decay periods.toNat loadAvgMax - 1024) +
        d3.toNat := by
  have hc1 := (isDecay_decay periods.toNat).le_self d1.toNat
  have hmax := decay_loadAvgMax_le hperiods
  have hvalue : loadAvgMax = 47742 := rfl
  have hM : (UInt64.ofNat loadAvgMax).toNat = loadAvgMax := rfl
  have hdecay : (decayLoad (UInt64.ofNat loadAvgMax) periods).toNat =
      decay periods.toNat loadAvgMax := by
    rw [decayLoad_toNat, hM]
  have hc2 : (UInt64.ofNat loadAvgMax - decayLoad (UInt64.ofNat loadAvgMax) periods -
      1024).toNat = loadAvgMax - decay periods.toNat loadAvgMax - 1024 := by
    rw [UInt64.toNat_sub_of_le, UInt64.toNat_sub_of_le, hdecay, hM]
    · rfl
    · rw [UInt64.le_iff_toNat_le, hdecay, hM]
      omega
    · rw [UInt64.le_iff_toNat_le, UInt64.toNat_sub_of_le, hdecay, hM]
      · change 1024 ≤ _
        omega
      · rw [UInt64.le_iff_toNat_le, hdecay, hM]
        omega
  rw [accumulatePeltSegments, UInt32.toNat_add, UInt32.toNat_add, UInt64.toNat_toUInt32,
    UInt64.toNat_toUInt32, hc2, decayLoad_toNat, UInt32.toNat_toUInt64]
  omega

/-- `sum += load * contrib`, where `load` is not zero. -/
theorem addLoad_toNat (sum load contrib : UInt64) :
    (if load ≠ 0 then sum + load * contrib else sum).toNat =
      (sum.toNat + load.toNat * contrib.toNat) % 2 ^ 64 := by
  have := sum.toNat_lt
  by_cases h : load = 0
  · subst h
    rw [if_neg (not_not.mpr rfl), UInt64.toNat_zero, zero_mul]
    omega
  · rw [if_pos h, UInt64.toNat_add, UInt64.toNat_mul, add_mod_mod]

/-- `sum += contrib << SCHED_CAPACITY_SHIFT`, while running. -/
theorem addUtil_toNat (sum contrib : UInt32) (running : Bool) :
    (if running then sum + contrib <<< UInt32.ofNat schedCapacityShift else sum).toNat =
      (sum.toNat + if running then 1024 * contrib.toNat else 0) % 2 ^ 32 := by
  have := sum.toNat_lt
  cases running
  · rw [if_neg Bool.false_ne_true, if_neg Bool.false_ne_true]
    omega
  · rw [if_pos rfl, if_pos rfl, UInt32.toNat_add, UInt32.toNat_shiftLeft, add_mod_mod,
      shiftLeft_eq, mul_comm 1024]
    rfl

section

variable {load runnable : UInt64} {running : Bool} {sa : SchedAvg}

theorem accumulateSum_spec (delta : UInt64) (sa : SchedAvg) (load runnable : UInt64)
    (running : Bool) (hc : sa.periodContrib.toNat < 1024) (hd : delta.toNat < 2 ^ 54) :
    Accumulated delta.toNat load runnable running sa
        (accumulateSum delta sa load runnable running).1 ∧
      (accumulateSum delta sa load runnable running).2.toNat =
        crossed sa.periodContrib.toNat delta.toNat % 2 ^ 32 := by
  obtain ⟨total, hsum⟩ : ∃ total, delta + sa.periodContrib.toUInt64 = total := ⟨_, rfl⟩
  obtain ⟨p, hp⟩ : ∃ p, crossed sa.periodContrib.toNat delta.toNat = p := ⟨_, rfl⟩
  have htotal : total.toNat = sa.periodContrib.toNat + delta.toNat := by
    rw [← hsum, UInt64.toNat_add, UInt32.toNat_toUInt64]
    omega
  have hperiods : (total / 1024).toNat = p := by
    rw [UInt64.toNat_div, htotal, ← hp]
    rfl
  have hzero : total / 1024 = 0 ↔ p = 0 := by
    rw [← hperiods, ← UInt64.toNat_inj]
    rfl
  have hsplit := div_add_mod (sa.periodContrib.toNat + delta.toNat) 1024
  rw [← crossed, hp] at hsplit
  simp only [accumulateSum, hsum]
  refine ⟨?_, by rw [UInt64.toNat_toUInt32, hperiods, hp]⟩
  by_cases h : p = 0
  · have hcontrib : delta.toUInt32.toNat = contribution sa.periodContrib.toNat delta.toNat := by
      rw [contribution, hp, if_pos h, UInt64.toNat_toUInt32]
      omega
    simp only [if_neg (not_not.mpr (hzero.mpr h))]
    constructor
    · rw [UInt64.toNat_toUInt32, htotal]
      omega
    · rw [addLoad_toNat, UInt32.toNat_toUInt64, hcontrib, hp, aged, if_pos h]
    · rw [addLoad_toNat, UInt32.toNat_toUInt64, hcontrib, hp, aged, if_pos h]
    · rw [addUtil_toNat, hcontrib, hp, aged, if_pos h]
    · rfl
  have hpos := one_le_iff_ne_zero.mpr h
  have hrest : (total % 1024).toUInt32.toNat = (sa.periodContrib.toNat + delta.toNat) % 1024 := by
    rw [UInt64.toNat_toUInt32, UInt64.toNat_mod, htotal]
    change _ % 1024 % 2 ^ 32 = _
    omega
  have hd1 : (1024 - sa.periodContrib).toNat = 1024 - sa.periodContrib.toNat :=
    UInt32.toNat_sub_of_le _ _ (UInt32.le_iff_toNat_le.mpr hc.le)
  have hcontrib : (accumulatePeltSegments (total / 1024) (1024 - sa.periodContrib)
      (total % 1024).toUInt32).toNat = contribution sa.periodContrib.toNat delta.toNat := by
    rw [accumulatePeltSegments_toNat (by rwa [hperiods]) (by omega) (by omega), hperiods, hd1,
      hrest, contribution, hp, if_neg h]
  have haged : ∀ v : UInt64, (decayLoad v (total / 1024)).toNat = aged p v.toNat := fun v => by
    rw [decayLoad_toNat, hperiods, aged, if_neg h]
  simp only [if_pos (mt hzero.mp h)]
  constructor
  · exact hrest
  · rw [addLoad_toNat, UInt32.toNat_toUInt64, hcontrib, hp]
    exact congrArg (fun v => (v + _) % _) (haged _)
  · rw [addLoad_toNat, UInt32.toNat_toUInt64, hcontrib, hp]
    exact congrArg (fun v => (v + _) % _) (haged _)
  · have hutil : (sa.decaySums (total / 1024)).utilSum.toNat = aged p sa.utilSum.toNat := by
      have hle : aged p sa.utilSum.toNat ≤ sa.utilSum.toNat := by
        rw [aged, if_neg h]
        exact (isDecay_decay _).le_self _
      have := sa.utilSum.toNat_lt
      rw [SchedAvg.decaySums, UInt64.toNat_toUInt32, haged, UInt32.toNat_toUInt64]
      omega
    rw [addUtil_toNat, hcontrib, hutil, hp]
  · rfl

theorem Accumulated.refl (hc : sa.periodContrib.toNat < 1024) (t : UInt64) :
    Accumulated 0 load runnable running sa { sa with lastUpdateTime := t } := by
  have hcrossed : crossed sa.periodContrib.toNat 0 = 0 := div_eq_of_lt hc
  have hcontribution : contribution sa.periodContrib.toNat 0 = 0 := by
    rw [contribution, if_pos hcrossed]
  have hutil := sa.utilSum.toNat_lt
  constructor
  · exact (mod_eq_of_lt hc).symm
  · rw [hcrossed, aged, if_pos rfl, hcontribution, mul_zero, add_zero,
      mod_eq_of_lt (UInt64.toNat_lt _)]
  · rw [hcrossed, aged, if_pos rfl, hcontribution, mul_zero, add_zero,
      mod_eq_of_lt (UInt64.toNat_lt _)]
  · rw [hcrossed, aged, if_pos rfl, hcontribution, mul_zero, ite_self, add_zero, mod_eq_of_lt hutil]
  · rfl

end

/-- The units of 1024 ns that an update accounts for : none where time goes backwards. -/
def PeltUpdate.units (sa : SchedAvg) (u : PeltUpdate) : ℕ :=
  if (u.now - sa.lastUpdateTime).toInt64 < 0 then 0
  else ((u.now - sa.lastUpdateTime) >>> 10).toNat

/-- The period boundaries that an update crosses. -/
def PeltUpdate.periods (sa : SchedAvg) (u : PeltUpdate) : ℕ :=
  crossed sa.periodContrib.toNat (u.units sa)

variable {sa : SchedAvg} {u : PeltUpdate}

/-- One update of the sums, whichever way it goes. -/
theorem PeltUpdate.sum_spec (u : PeltUpdate) (hc : sa.periodContrib.toNat < 1024) :
    Accumulated (u.units sa) u.load (if u.load = 0 then 0 else u.runnable)
        (if u.load = 0 then false else u.running) sa (u.sum sa).1 ∧
      ((u.sum sa).2 = true ↔ u.periods sa % 2 ^ 32 ≠ 0) := by
  have hnone : crossed sa.periodContrib.toNat 0 % 2 ^ 32 = 0 := by
    rw [crossed, add_zero, div_eq_of_lt hc, zero_mod]
  rw [periods, units, sum, updateLoadSum]
  by_cases hback : (u.now - sa.lastUpdateTime).toInt64 < 0
  · rw [if_pos hback, if_pos hback]
    exact ⟨.refl hc _, iff_of_false Bool.false_ne_true (not_not.mpr hnone)⟩
  rw [if_neg hback, if_neg hback]
  by_cases hshort : (u.now - sa.lastUpdateTime) >>> 10 = 0
  · rw [if_pos hshort, hshort]
    exact ⟨.refl hc _, iff_of_false Bool.false_ne_true (not_not.mpr hnone)⟩
  rw [if_neg hshort]
  have hd : ((u.now - sa.lastUpdateTime) >>> 10).toNat < 2 ^ 54 := by
    have := (u.now - sa.lastUpdateTime).toNat_lt
    rw [UInt64.toNat_shiftRight, shiftRight_eq_div_pow]
    change _ / 2 ^ 10 < _
    omega
  obtain ⟨hacc, hret⟩ := accumulateSum_spec _
    { sa with lastUpdateTime := sa.lastUpdateTime + (u.now - sa.lastUpdateTime) >>> 10 <<< 10 }
    u.load (if u.load = 0 then 0 else u.runnable) (if u.load = 0 then false else u.running) hc hd
  refine
    ⟨⟨hacc.periodContrib, hacc.loadSum, hacc.runnableLoadSum, hacc.utilSum, hacc.utilAvg⟩, ?_⟩
  rw [← hret, decide_eq_true_iff, Ne, Ne, ← UInt32.toNat_inj]
  rfl

/-- The divider of `___update_load_avg` at the point `c` of a period. -/
def divider (c : ℕ) : ℕ := loadAvgMax - 1024 + c

theorem updateLoadAvg_spec (w r : UInt64) (hc : sa.periodContrib.toNat < 1024) :
    ∃ sa', updateLoadAvg sa w r = some sa' ∧
      sa'.loadAvg.toNat = w.toNat * sa.loadSum.toNat % 2 ^ 64 / divider sa.periodContrib.toNat ∧
      sa'.runnableLoadAvg.toNat =
        r.toNat * sa.runnableLoadSum.toNat % 2 ^ 64 / divider sa.periodContrib.toNat ∧
      sa'.utilAvg.toNat = sa.utilSum.toNat / divider sa.periodContrib.toNat ∧
      sa'.utilSum = sa.utilSum ∧ sa'.periodContrib = sa.periodContrib ∧
      sa'.lastUpdateTime = sa.lastUpdateTime := by
  have hdivider : (UInt32.ofNat (loadAvgMax - 1024) + sa.periodContrib).toNat =
      divider sa.periodContrib.toNat := by
    have hofNat : (UInt32.ofNat (loadAvgMax - 1024)).toNat = loadAvgMax - 1024 := rfl
    have hvalue : loadAvgMax = 47742 := rfl
    rw [UInt32.toNat_add, hofNat, divider]
    omega
  have hne : UInt32.ofNat (loadAvgMax - 1024) + sa.periodContrib ≠ 0 := by
    rw [Ne, ← UInt32.toNat_inj, hdivider, divider, loadAvgMax]
    exact Nat.ne_of_gt (Nat.add_pos_left (by decide) _)
  refine ⟨_, if_neg hne, ?_, ?_, ?_, rfl, rfl, rfl⟩
  · rw [UInt64.toNat_div, UInt64.toNat_mul, UInt32.toNat_toUInt64, hdivider]
  · rw [UInt64.toNat_div, UInt64.toNat_mul, UInt32.toNat_toUInt64, hdivider]
  · rw [UInt32.toNat_toUInt64, UInt32.toNat_div, hdivider]

/-! ## Load and runnable load -/

section

variable {c d s : ℕ}

theorem contribution_of_crossed (h : crossed c d ≠ 0) :
    contribution c d = decay (crossed c d) (1024 - c) +
      (loadAvgMax - decay (crossed c d) loadAvgMax - 1024) + (c + d) % 1024 :=
  if_neg h

/-- An idle sum within the divider stays within it. -/
theorem aged_le_divider (hc : c < 1024) (hs : s ≤ divider c) :
    aged (crossed c d) s ≤ divider ((c + d) % 1024) := by
  rw [divider, loadAvgMax] at hs ⊢
  by_cases h : crossed c d = 0
  · rw [aged, if_pos h]
    rw [crossed] at h
    omega
  · have hdecay := decay_le_one (v := s) (one_le_iff_ne_zero.mpr h)
    rw [aged, if_neg h]
    omega

/-- A fully active sum within the divider stays within it : the old sum and the rest of its
period are parts of `LOAD_AVG_MAX`. -/
theorem aged_add_contribution_le (hc : c < 1024) (hs : s ≤ divider c) :
    aged (crossed c d) s + contribution c d ≤ divider ((c + d) % 1024) := by
  by_cases h : crossed c d = 0
  · rw [aged, contribution, if_pos h, if_pos h]
    rw [crossed] at h
    rw [divider] at hs ⊢
    omega
  have hparts : s + (1024 - c) ≤ loadAvgMax := by
    rw [divider, loadAvgMax] at hs
    rw [loadAvgMax]
    omega
  have hrefill := (isDecay_decay (crossed c d)).refill_le hparts
  have hmax := decay_loadAvgMax_le (one_le_iff_ne_zero.mpr h)
  rw [aged, if_neg h, contribution_of_crossed h, divider]
  omega

/-- Either way, for a load of zero or one, and no overflow. -/
theorem aged_add_load_le (hc : c < 1024) (hs : s ≤ divider c) {load : ℕ} (hload : load ≤ 1) :
    (aged (crossed c d) s + load * contribution c d) % 2 ^ 64 ≤ divider ((c + d) % 1024) := by
  refine (mod_le _ _).trans ?_
  rcases le_one_iff_eq_zero_or_eq_one.mp hload with rfl | rfl
  · rw [zero_mul]
    exact aged_le_divider hc hs
  · rw [one_mul]
    exact aged_add_contribution_le hc hs

end

/-- Both load sums are within the divider. -/
structure SchedAvg.LoadBounded (sa : SchedAvg) : Prop where
  periodContrib_lt : sa.periodContrib.toNat < 1024
  loadSum_le : sa.loadSum.toNat ≤ divider sa.periodContrib.toNat
  runnableLoadSum_le : sa.runnableLoadSum.toNat ≤ divider sa.periodContrib.toNat

/-- A load of zero or one, as an entity passes it. -/
def PeltUpdate.Unit (u : PeltUpdate) : Prop := u.load ≤ 1 ∧ u.runnable ≤ 1

theorem PeltUpdate.sum_loadBounded (h : sa.LoadBounded)
    (hu : u.Unit) : (u.sum sa).1.LoadBounded := by
  have hacc := (u.sum_spec h.periodContrib_lt).1
  have hload : u.load.toNat ≤ 1 := UInt64.le_iff_toNat_le.mp hu.1
  have hrunnable : (if u.load = 0 then 0 else u.runnable).toNat ≤ 1 := by
    split
    · exact zero_le 1
    · exact UInt64.le_iff_toNat_le.mp hu.2
  constructor
  · rw [hacc.periodContrib]
    exact by omega
  · rw [hacc.loadSum, hacc.periodContrib]
    exact aged_add_load_le h.periodContrib_lt h.loadSum_le hload
  · rw [hacc.runnableLoadSum, hacc.periodContrib]
    exact aged_add_load_le h.periodContrib_lt h.runnableLoadSum_le hrunnable

theorem peltSums_loadBounded {us : List PeltUpdate} (h : ∀ u ∈ us, u.Unit) :
    (peltSums us).LoadBounded := by
  induction us using List.reverseRecOn with
  | nil => exact ⟨by decide, by decide, by decide⟩
  | append_singleton us u ih =>
    rw [peltSums, List.foldl_append]
    exact sum_loadBounded (ih fun v hv => h v (List.mem_append_left _ hv))
      (h u List.mem_concat_self)

/-- A weighted sum within the divider averages to the weight at most. -/
theorem weighted_div_le {w sum c : ℕ} (hsum : sum ≤ divider c) (hw : w * sum < 2 ^ 64) :
    w * sum % 2 ^ 64 / divider c ≤ w := by
  rw [mod_eq_of_lt hw]
  exact Nat.div_le_of_le_mul (by rw [Nat.mul_comm]; exact Nat.mul_le_mul_right w hsum)

/-- After any updates with a load of zero or one, the sums are within the divider, and the
averages they give are at most the weights. -/
theorem peltSums_load_le (us : List PeltUpdate) (h : ∀ u ∈ us, u.load ≤ 1 ∧ u.runnable ≤ 1) :
    let sa := peltSums us
    sa.periodContrib.toNat < 1024 ∧ sa.loadSum.toNat ≤ loadAvgMax - 1024 + sa.periodContrib.toNat ∧
      sa.runnableLoadSum.toNat ≤ loadAvgMax - 1024 + sa.periodContrib.toNat ∧
      ∀ w r : UInt64, w.toNat * sa.loadSum.toNat < 2 ^ 64 →
        r.toNat * sa.runnableLoadSum.toNat < 2 ^ 64 →
        ∃ sa', updateLoadAvg sa w r = some sa' ∧ sa'.loadAvg ≤ w ∧ sa'.runnableLoadAvg ≤ r := by
  intro sa
  have hsa : sa.LoadBounded := peltSums_loadBounded h
  refine ⟨hsa.periodContrib_lt, hsa.loadSum_le, hsa.runnableLoadSum_le, fun w r hw hr => ?_⟩
  obtain ⟨sa', hrun, hload, hrunnable, -⟩ := updateLoadAvg_spec w r hsa.periodContrib_lt
  refine ⟨sa', hrun, ?_, ?_⟩
  · rw [UInt64.le_iff_toNat_le, hload]
    exact weighted_div_le hsa.loadSum_le hw
  · rw [UInt64.le_iff_toNat_le, hrunnable]
    exact weighted_div_le hsa.runnableLoadSum_le hr

/-- An entity that runs for a while and is then blocked. -/
theorem peltSums_load_le_blocked :
    let us :=
      [updateLoadAvgSe 1536000 true true 1024 1024, updateLoadAvgBlockedSe 4096000 1024 1024]
    (peltSums us).loadSum = 1415 ∧
      ∃ sa', updateLoadAvg (peltSums us) 1024 1024 = some sa' ∧ sa'.loadAvg ≤ 1024 ∧
        sa'.runnableLoadAvg ≤ 1024 := by
  intro us
  have h := peltSums_load_le us (by decide)
  exact ⟨by decide +kernel, h.2.2.2 1024 1024 (by decide +kernel) (by decide +kernel)⟩

/-! ## Utilization

`util_sum` is 1024 times as large as the contributions that are added to it. Where a boundary is
crossed, the contributions are rounded to whole units and the decayed `util_sum` to the 1024th part
of one, so `util_sum` can come to lie above 1024 times the divider. What it has in excess decays
as well. The gain is largest where one boundary is crossed, and where the rest of the old period is
decayed with almost no loss : there are fourteen points of the period for which the excess can
reach the divider itself. -/

/-- The points of a period from which a crossing of one boundary gains too much. -/
def harmfulPhases : List ℕ := [44, 91, 184, 231, 324, 371, 464, 511, 604, 651, 744, 791, 884, 931]

/-- The excess of `util_sum` that no divider reaches. -/
def utilExcess : ℕ := 46717

theorem decay_one (v : ℕ) : decay 1 v = v * 0xfa83b2da / 2 ^ 32 := by
  rw [decay, if_pos (by decide), show 1 / 32 = 0 from rfl, Nat.pow_zero, Nat.div_one]
  rfl

/-- Away from the harmful points, the rest of the old period loses enough. -/
theorem le_mod_of_not_harmful {c : ℕ} (hc : c < 1024) (h : c ∉ harmfulPhases) :
    37832865 ≤ (1024 - c) * 0xfa83b2da % 2 ^ 32 := by
  revert c
  decide +kernel

section

variable {c d u : ℕ}

theorem aged_le_util (hc : c < 1024) (hu : u ≤ 1024 * divider c + utilExcess) :
    aged (crossed c d) u ≤ 1024 * divider ((c + d) % 1024) + utilExcess := by
  rw [divider, loadAvgMax, utilExcess] at hu ⊢
  by_cases h : crossed c d = 0
  · rw [aged, if_pos h]
    rw [crossed] at h
    omega
  · have hdecay := decay_le_one (v := u) (one_le_iff_ne_zero.mpr h)
    rw [aged, if_neg h]
    omega

/-- Two or more periods decay the excess by more than they gain. -/
theorem decay_mul_add_le {n v x : ℕ} (hn : 2 ≤ n) (hx : x ≤ utilExcess) :
    decay n (1024 * v + x) ≤ 1024 * decay n v + utilExcess := by
  rw [utilExcess] at hx ⊢
  by_cases hlow : n < 32
  · have hgain := scale_mul_add_le (a := decayFactor n) (b := 2 ^ 32) (by decide) 1024 v x
    have hold : decay n x ≤ x * 0xf5257d14 / 2 ^ 32 :=
      (decay_le_decay hn x).trans (decay_of_lt (by decide)).le
    rw [decay_of_lt hlow] at hold
    rw [decay_of_lt hlow, decay_of_lt hlow]
    omega
  rw [decay, decay]
  split_ifs with hlast
  · -- The shift rounds as well, and halves the excess.
    have hhalf : x / 2 ^ (n / 32) ≤ x / 2 :=
      Nat.div_le_div_left (Nat.le_self_pow (by omega) 2) (by decide)
    have hshift : (1024 * v + x) / 2 ^ (n / 32) ≤ 1024 * (v / 2 ^ (n / 32)) + (1024 + x / 2) := by
      have := scale_mul_add_le (a := 1) (b := 2 ^ (n / 32)) (Nat.two_pow_pos _) 1024 v x
      simp only [Nat.mul_one] at this
      omega
    have hscaled := ((IsDecay.scale (decayFactor_lt (n % 32)).le).mono hshift).trans
      (scale_mul_add_le (by decide) 1024 (v / 2 ^ (n / 32)) (1024 + x / 2))
    have hold := (IsDecay.scale (decayFactor_lt (n % 32)).le).le_self (1024 + x / 2)
    omega
  · exact Nat.zero_le _

/-- One period, away from the harmful points. -/
theorem decay_one_add_le (hc : c < 1024) (hphase : c ∉ harmfulPhases)
    (hu : u ≤ 1024 * divider c + utilExcess) :
    decay 1 u + 1024 * decay 1 (1024 - c) ≤ 1024 * decay 1 loadAvgMax + utilExcess := by
  have hloss := le_mod_of_not_harmful hc hphase
  rw [divider, loadAvgMax, utilExcess] at hu
  rw [decay_one, decay_one, decay_one, loadAvgMax, utilExcess]
  omega

/-- An active `util_sum` keeps its excess within `utilExcess`. -/
theorem aged_add_util_le (hc : c < 1024) (hphase : crossed c d = 1 → c ∉ harmfulPhases)
    (hu : u ≤ 1024 * divider c + utilExcess) :
    aged (crossed c d) u + 1024 * contribution c d ≤
      1024 * divider ((c + d) % 1024) + utilExcess := by
  by_cases h : crossed c d = 0
  · rw [aged, contribution, if_pos h, if_pos h]
    rw [crossed] at h
    rw [divider] at hu ⊢
    omega
  have hpos := one_le_iff_ne_zero.mpr h
  have hgain : decay (crossed c d) u + 1024 * decay (crossed c d) (1024 - c) ≤
      1024 * decay (crossed c d) loadAvgMax + utilExcess := by
    by_cases hone : crossed c d = 1
    · rw [hone]
      exact decay_one_add_le hc (hphase hone) hu
    have hparts : loadAvgMax - (1024 - c) + (1024 - c) = loadAvgMax := by
      rw [loadAvgMax]
      omega
    have hsuper := (isDecay_decay (crossed c d)).superadd (loadAvgMax - (1024 - c)) (1024 - c)
    have hu' : u ≤ 1024 * (loadAvgMax - (1024 - c)) + utilExcess := by
      rw [divider, loadAvgMax] at hu
      rw [loadAvgMax]
      omega
    have hold := (isDecay_decay (crossed c d)).mono hu'
    have hnew := decay_mul_add_le (n := crossed c d) (v := loadAvgMax - (1024 - c)) (by omega)
      (le_refl utilExcess)
    rw [hparts] at hsuper
    omega
  have hmax := decay_loadAvgMax_le hpos
  have hvalue : loadAvgMax = 47742 := rfl
  rw [aged, if_neg h, contribution_of_crossed h, divider]
  omega

end

/-- The excess of `util_sum` is within `utilExcess`, and `util_avg` within the capacity. -/
structure SchedAvg.UtilBounded (sa : SchedAvg) : Prop where
  periodContrib_lt : sa.periodContrib.toNat < 1024
  utilSum_le : sa.utilSum.toNat ≤ 1024 * divider sa.periodContrib.toNat + utilExcess
  utilAvg_le : sa.utilAvg.toNat ≤ schedCapacityScale

/-- An update of a running entity that crosses one boundary starts from a point in `S`. -/
def PeltUpdate.SingleFrom (S : ℕ → Prop) (sa : SchedAvg) (u : PeltUpdate) : Prop :=
  u.load ≠ 0 → u.running = true → u.periods sa = 1 → S sa.periodContrib.toNat

/-- The average of a `util_sum` whose excess is within `utilExcess`. -/
theorem util_div_le {c u : ℕ} (hu : u ≤ 1024 * divider c + utilExcess) :
    u / divider c ≤ schedCapacityScale := by
  have hlt : utilExcess < divider c := Nat.lt_add_right c (by decide)
  refine Nat.le_of_lt_succ ((Nat.div_lt_iff_lt_mul (by omega)).mpr ?_)
  change u < 1025 * divider c
  omega

theorem PeltUpdate.step_utilBounded (h : sa.UtilBounded)
    (hu : u.SingleFrom (· ∉ harmfulPhases) sa) : ∃ r, u.step sa = some r ∧ r.1.UtilBounded := by
  obtain ⟨hacc, -⟩ := u.sum_spec h.periodContrib_lt
  have hc : (u.sum sa).1.periodContrib.toNat < 1024 := by
    rw [hacc.periodContrib]
    exact by omega
  have hsum : (u.sum sa).1.utilSum.toNat ≤
      1024 * divider (u.sum sa).1.periodContrib.toNat + utilExcess := by
    rw [hacc.utilSum, hacc.periodContrib]
    refine (mod_le _ _).trans ?_
    by_cases hrun : (if u.load = 0 then false else u.running) = true
    · rw [if_pos hrun]
      refine aged_add_util_le h.periodContrib_lt (fun hone => ?_) h.utilSum_le
      by_cases hload : u.load = 0
      · rw [if_pos hload] at hrun
        exact absurd hrun Bool.false_ne_true
      · rw [if_neg hload] at hrun
        exact hu hload hrun hone
    · rw [if_neg hrun, add_zero]
      exact aged_le_util h.periodContrib_lt h.utilSum_le
  rw [step]
  by_cases hret : (u.sum sa).2 = true
  · obtain ⟨sa', hrun, -, -, havg, hutil, hcontrib, -⟩ :=
      updateLoadAvg_spec u.weight u.runnableWeight hc
    refine ⟨(sa', true), by rw [if_pos hret, hrun]; rfl, ?_, ?_, ?_⟩
    · rwa [hcontrib]
    · rwa [hcontrib, hutil]
    · rw [havg]
      exact util_div_le hsum
  · exact ⟨_, if_neg hret, hc, hsum, by rw [hacc.utilAvg]; exact h.utilAvg_le⟩

/-! ### Harmful points do harm -/

/-- An entity that runs without a break, seen at the unit `t` of time. -/
def runningAt (t : ℕ) : PeltUpdate :=
  updateLoadAvgSe (UInt64.ofNat (1024 * t)) true true 1024 1024

/-- One update at the point `c` of each of `m` periods, and one at the end of the last. -/
def steadyTail (c k : ℕ) : ℕ → List PeltUpdate
  | 0 => [runningAt ((2101 + k) * 1024)]
  | m + 1 => runningAt ((2101 + k) * 1024 + c) :: steadyTail c (k + 1) m

/-- The same after `2100` periods of which nothing was seen. -/
def steadyRun (c m : ℕ) : List PeltUpdate := runningAt (2100 * 1024 + c) :: steadyTail c 0 m

/-- `util_sum` at the point `c`, `k` periods later. -/
def steadyUtil (c : ℕ) : ℕ → ℕ
  | 0 => 1024 * contribution 0 (2100 * 1024 + c) % 2 ^ 32
  | k + 1 => (decay 1 (steadyUtil c k) + 1024 * contribution c 1024) % 2 ^ 32

theorem steadyUtil_harmful :
    ∀ c ∈ harmfulPhases, 1024 < (decay 1 (steadyUtil c 300) +
      1024 * contribution c (1024 - c)) % 2 ^ 32 / divider 0 := by
  decide +kernel

/-- The entity has run, seen last at the unit `t`. -/
structure SteadyAt (t util : ℕ) (sa : SchedAvg) : Prop where
  lastUpdateTime : sa.lastUpdateTime.toNat = 1024 * t
  periodContrib : sa.periodContrib.toNat = t % 1024
  utilSum : sa.utilSum.toNat = util

theorem toInt64_nonneg {x : UInt64} (h : x.toNat < 2 ^ 63) : ¬x.toInt64 < 0 := by
  rw [Int64.lt_iff_toInt_lt, toInt_toInt64, if_pos (by omega)]
  exact Int.not_lt.mpr (Int.natCast_nonneg _)

section

variable {t d util : ℕ} {sa : SchedAvg}

variable (h : SteadyAt t util sa) {S : ℕ → Prop}
include h

theorem SteadyAt.delta (htime : t + d < 2 ^ 50) :
    ((runningAt (t + d)).now - sa.lastUpdateTime).toNat = 1024 * d := by
  have hnow : (runningAt (t + d)).now.toNat = 1024 * (t + d) :=
    UInt64.toNat_ofNat_of_lt (show 1024 * (t + d) < 2 ^ 64 by omega)
  have hlast := h.lastUpdateTime
  rw [UInt64.toNat_sub_of_le _ _ (UInt64.le_iff_toNat_le.mpr (by omega)), hnow, hlast]
  omega

theorem SteadyAt.units (htime : t + d < 2 ^ 50) :
    (runningAt (t + d)).units sa = d := by
  have hdelta := h.delta htime
  rw [PeltUpdate.units, if_neg (toInt64_nonneg (by omega)), UInt64.toNat_shiftRight, hdelta,
    shiftRight_eq_div_pow]
  exact Nat.mul_div_cancel_left d (by decide)

omit h in
theorem accumulateSum_lastUpdateTime (delta load runnable : UInt64) (running : Bool) :
    (accumulateSum delta sa load runnable running).1.lastUpdateTime = sa.lastUpdateTime := by
  simp only [accumulateSum]
  split <;> rfl

theorem SteadyAt.sum_lastUpdateTime (htime : t + d < 2 ^ 50)
    (hd : d ≠ 0) : ((runningAt (t + d)).sum sa).1.lastUpdateTime.toNat = 1024 * (t + d) := by
  have hdelta := h.delta htime
  have hshift : (((runningAt (t + d)).now - sa.lastUpdateTime) >>> 10).toNat = d := by
    rw [UInt64.toNat_shiftRight, hdelta, shiftRight_eq_div_pow]
    exact Nat.mul_div_cancel_left d (by decide)
  have hne : ((runningAt (t + d)).now - sa.lastUpdateTime) >>> 10 ≠ 0 := by
    rwa [Ne, ← UInt64.toNat_inj, hshift]
  rw [sum, updateLoadSum, if_neg (toInt64_nonneg (by omega))]
  rw [if_neg hne, accumulateSum_lastUpdateTime]
  rw [UInt64.toNat_add, UInt64.toNat_shiftLeft, hshift, h.lastUpdateTime, shiftLeft_eq]
  change (1024 * t + d * 2 ^ 10 % 2 ^ 64) % 2 ^ 64 = _
  omega

/-- The next time the entity is seen. -/
theorem SteadyAt.step (htime : t + d < 2 ^ 40)
    (hcrossed : crossed (t % 1024) d ≠ 0) :
    ∃ sa', (runningAt (t + d)).step sa = some (sa', true) ∧
      SteadyAt (t + d) ((aged (crossed (t % 1024) d) util +
        1024 * contribution (t % 1024) d) % 2 ^ 32) sa' ∧
      sa'.utilAvg.toNat = sa'.utilSum.toNat / divider sa'.periodContrib.toNat := by
  have hc : sa.periodContrib.toNat < 1024 := by
    rw [h.periodContrib]
    exact by omega
  obtain ⟨hacc, hret⟩ := (runningAt (t + d)).sum_spec hc
  rw [periods, h.units (by omega), h.periodContrib] at hret
  have htrue := hret.mpr (by rw [crossed] at hcrossed ⊢; omega)
  have hd : d ≠ 0 := by
    rintro rfl
    exact hcrossed (div_eq_of_lt (by omega))
  have hlast := h.sum_lastUpdateTime (d := d) (by omega) hd
  have hcontrib := hacc.periodContrib
  have hutil := hacc.utilSum
  rw [h.units (by omega), h.periodContrib, mod_add_mod] at hcontrib
  rw [h.units (by omega), h.periodContrib, h.utilSum,
    if_pos (show (if (runningAt (t + d)).load = 0 then false
      else (runningAt (t + d)).running) = true from rfl)] at hutil
  obtain ⟨sa', hrun, -, -, havg, hutil', hcontrib', hlast'⟩ := updateLoadAvg_spec
    (runningAt (t + d)).weight (runningAt (t + d)).runnableWeight
    (show ((runningAt (t + d)).sum sa).1.periodContrib.toNat < 1024 by
      rw [hcontrib]
      exact by omega)
  refine ⟨sa', by rw [PeltUpdate.step, if_pos htrue, hrun]; rfl, ⟨?_, ?_, ?_⟩, ?_⟩
  · rw [hlast', hlast]
  · rw [hcontrib', hcontrib]
  · rw [hutil', hutil]
  · rw [havg, hutil', hcontrib']

omit h

theorem steadyTail_spec {c : ℕ} (hc : c < 1024) (hS : S c) (m : ℕ) :
    ∀ {k : ℕ} {sa : SchedAvg}, k + m < 1000 → SteadyAt ((2100 + k) * 1024 + c) (steadyUtil c k) sa →
      CallsMeet PeltUpdate.step (PeltUpdate.SingleFrom S) sa (steadyTail c k m) ∧
      ∃ r, runCalls PeltUpdate.step sa (steadyTail c k m) = some r ∧
        r.1.utilAvg.toNat = (decay 1 (steadyUtil c (k + m)) +
          1024 * contribution c (1024 - c)) % 2 ^ 32 / divider 0 := by
  induction m with
  | zero =>
    intro k sa hk h
    have hphase : ((2100 + k) * 1024 + c) % 1024 = c := by omega
    have hone : crossed c (1024 - c) = 1 := by
      rw [crossed]
      omega
    have htime : (2101 + k) * 1024 = (2100 + k) * 1024 + c + (1024 - c) := by omega
    obtain ⟨sa', hstep, hsteady, havg⟩ := h.step (d := 1024 - c) (by omega)
      (by rw [hphase, hone]; decide)
    rw [← htime] at hstep hsteady
    have hend : (2101 + k) * 1024 % 1024 = 0 := mul_mod_left _ _
    refine ⟨⟨fun _ _ _ => by rwa [h.periodContrib, hphase], fun _ _ => trivial⟩,
      (sa', [true]), ?_, ?_⟩
    · rw [steadyTail, runCalls_cons hstep]
      rfl
    · rw [havg, hsteady.utilSum, hsteady.periodContrib, hend, hphase, hone, aged,
        if_neg one_ne_zero, add_zero]
  | succ m ih =>
    intro k sa hk h
    have hphase : ((2100 + k) * 1024 + c) % 1024 = c := by omega
    have hone : crossed c 1024 = 1 := by
      rw [crossed]
      omega
    have htime : (2101 + k) * 1024 + c = (2100 + k) * 1024 + c + 1024 := by omega
    obtain ⟨sa', hstep, hsteady, -⟩ := h.step (d := 1024) (by omega)
      (by rw [hphase, hone]; decide)
    rw [← htime, hphase, hone, aged, if_neg one_ne_zero, ← steadyUtil,
      show (2101 + k) * 1024 + c = (2100 + (k + 1)) * 1024 + c by omega] at hsteady
    rw [← htime] at hstep
    obtain ⟨hmeet, r, hrun, havg⟩ := ih (by omega) hsteady
    refine ⟨⟨fun _ _ _ => by rwa [h.periodContrib, hphase], fun r' hr' => ?_⟩,
      (r.1, true :: r.2), ?_, ?_⟩
    · obtain rfl := Option.some.inj (hr'.symm.trans hstep)
      exact hmeet
    · rw [steadyTail, runCalls_cons hstep, hrun]
      rfl
    · rw [havg, show k + 1 + m = k + (m + 1) by omega]

theorem steadyRun_spec {c m : ℕ} (hc : c < 1024) (hS : S c) (hm : m < 1000) :
    CallsMeet PeltUpdate.step (PeltUpdate.SingleFrom S) SchedAvg.zeroed (steadyRun c m) ∧
      ∃ r, peltRun (steadyRun c m) = some r ∧ r.1.utilAvg.toNat = (decay 1 (steadyUtil c m) +
          1024 * contribution c (1024 - c)) % 2 ^ 32 / divider 0 := by
  have hzero : SteadyAt 0 0 SchedAvg.zeroed := ⟨rfl, rfl, rfl⟩
  have hcrossed : crossed 0 (2100 * 1024 + c) = 2100 := by
    rw [crossed]
    omega
  obtain ⟨sa', hstep, hsteady, -⟩ := hzero.step (d := 2100 * 1024 + c) (by omega)
    (by rw [zero_mod, hcrossed]; decide)
  have hfirst : (aged (crossed (0 % 1024) (2100 * 1024 + c)) 0 +
      1024 * contribution (0 % 1024) (2100 * 1024 + c)) % 2 ^ 32 = steadyUtil c 0 := by
    have hnone : aged 2100 0 = 0 := by decide +kernel
    rw [zero_mod, hcrossed, hnone, zero_add, steadyUtil]
  rw [hfirst, zero_add] at hsteady
  rw [zero_add] at hstep
  obtain ⟨hmeet, r, hrun, havg⟩ := steadyTail_spec hc hS m (k := 0) (by omega) hsteady
  refine ⟨⟨fun _ _ hone => ?_, fun r' hr' => ?_⟩, (r.1, true :: r.2), ?_, ?_⟩
  · have hunits := hzero.units (d := 2100 * 1024 + c) (by omega)
    rw [zero_add] at hunits
    rw [periods, hunits, show SchedAvg.zeroed.periodContrib.toNat = 0 from rfl, hcrossed] at hone
    exact absurd hone (by decide)
  · obtain rfl := Option.some.inj (hr'.symm.trans hstep)
    exact hmeet
  · rw [peltRun, steadyRun, runCalls_cons hstep, hrun]
    rfl
  · rw [havg, zero_add]

end

/-- For every set of points of the period : if running updates that cross one boundary start from
these points only, then no run makes `util_avg` exceed the capacity, if and only if none of the
points is harmful. -/
theorem peltRun_utilAvg_le_iff (S : ℕ → Prop) :
    (∀ us, CallsMeet PeltUpdate.step (PeltUpdate.SingleFrom S) SchedAvg.zeroed us →
      ∃ r, peltRun us = some r ∧ r.1.utilAvg.toNat ≤ schedCapacityScale) ↔
    ∀ c ∈ harmfulPhases, ¬S c := by
  constructor
  · intro hall c hharm hS
    have hc : c < 1024 := (show ∀ c ∈ harmfulPhases, c < 1024 by decide) c hharm
    obtain ⟨hmeet, r, hrun, havg⟩ := steadyRun_spec (m := 300) hc hS (by omega)
    obtain ⟨r', hrun', hle⟩ := hall _ hmeet
    obtain rfl := Option.some.inj (hrun.symm.trans hrun')
    rw [havg, show schedCapacityScale = 1024 from rfl] at hle
    exact not_lt.mpr hle (steadyUtil_harmful c hharm)
  · intro hsafe us hmeet
    obtain ⟨r, hrun, hr⟩ := runCalls_invariant SchedAvg.UtilBounded (PeltUpdate.SingleFrom S)
      (fun sa u h hu => step_utilBounded h fun hload hrunning hone hharm =>
        hsafe _ hharm (hu hload hrunning hone))
      ⟨by decide, by decide, by decide⟩ hmeet
    exact ⟨r, hrun, hr.utilAvg_le⟩

/-- An entity that runs without a break is seen at the point 884 of each period, and then at the
end of one. -/
theorem peltRun_utilAvg_steady :
    (peltRun (steadyRun 884 215)).map (fun r => r.1.utilAvg) = some 1025 := by
  decide +kernel

/-! ## No wrapping -/

/-- A bound that `util_sum` keeps over any history, apart from what the current period has added. -/
def utilCeiling : ℕ := 2300000000

theorem aged_add_util_le_ceiling {c d v : ℕ} (hc : c < 1024) (hv : v ≤ utilCeiling + 1024 * c) :
    aged (crossed c d) v + 1024 * contribution c d ≤ utilCeiling + 1024 * ((c + d) % 1024) := by
  rw [utilCeiling] at hv ⊢
  by_cases h : crossed c d = 0
  · rw [aged, contribution, if_pos h, if_pos h]
    rw [crossed] at h
    omega
  have hdecay := decay_le_one (v := v) (Nat.one_le_iff_ne_zero.mpr h)
  have hcontrib := aged_add_contribution_le (d := d) hc (Nat.zero_le _)
  rw [divider, loadAvgMax] at hcontrib
  rw [aged, if_neg h]
  omega

/-- What `util_sum` is after an update, without wrapping. -/
def PeltUpdate.utilSum (sa : SchedAvg) (u : PeltUpdate) : ℕ :=
  aged (u.periods sa) sa.utilSum.toNat + if u.load ≠ 0 ∧ u.running = true then
    1024 * contribution sa.periodContrib.toNat (u.units sa) else 0

/-- `util_sum` is below the ceiling. -/
structure SchedAvg.UtilKept (sa : SchedAvg) : Prop where
  periodContrib_lt : sa.periodContrib.toNat < 1024
  utilSum_le : sa.utilSum.toNat ≤ utilCeiling + 1024 * sa.periodContrib.toNat

theorem PeltUpdate.sum_utilKept (h : sa.UtilKept) :
    (u.sum sa).1.utilSum.toNat = u.utilSum sa ∧ (u.sum sa).1.UtilKept := by
  have hacc := (u.sum_spec h.periodContrib_lt).1
  have hle := aged_add_util_le_ceiling (d := u.units sa) h.periodContrib_lt h.utilSum_le
  have hrunning : (if u.load = 0 then false else u.running) = true ↔
      u.load ≠ 0 ∧ u.running = true := by
    split_ifs with hload <;> simp [hload]
  have hexact : u.utilSum sa ≤ utilCeiling + 1024 * (u.sum sa).1.periodContrib.toNat := by
    rw [PeltUpdate.utilSum, PeltUpdate.periods, hacc.periodContrib]
    split_ifs <;> omega
  have hc : (u.sum sa).1.periodContrib.toNat < 1024 := by
    rw [hacc.periodContrib]
    exact Nat.mod_lt _ (by decide)
  have hsum : (u.sum sa).1.utilSum.toNat = u.utilSum sa := by
    rw [hacc.utilSum]
    simp only [hrunning]
    refine Nat.mod_eq_of_lt (hexact.trans_lt ?_)
    rw [utilCeiling]
    omega
  exact ⟨hsum, hc, hsum.trans_le hexact⟩

theorem peltSums_utilKept (us : List PeltUpdate) : (peltSums us).UtilKept := by
  induction us using List.reverseRecOn with
  | nil => exact ⟨by decide, by decide⟩
  | append_singleton us u ih =>
    rw [peltSums, List.foldl_append]
    exact (PeltUpdate.sum_utilKept ih).2

/-- The differences of `__accumulate_pelt_segments` do not wrap, the contribution is at most
`LOAD_AVG_MAX`, and after any history no update wraps `util_sum`. -/
theorem pelt_no_wrap (us : List PeltUpdate) (u : PeltUpdate) :
    (∀ periods : UInt64, periods ≠ 0 →
      (decayLoad (UInt64.ofNat loadAvgMax) periods).toNat + 1024 ≤ loadAvgMax) ∧
    (∀ (periods : UInt64) (d1 d3 : UInt32), periods ≠ 0 → d1 ≤ 1024 → d3 < 1024 →
      (accumulatePeltSegments periods d1 d3).toNat = (decayLoad d1.toUInt64 periods).toNat +
        (loadAvgMax - (decayLoad (UInt64.ofNat loadAvgMax) periods).toNat - 1024) + d3.toNat ∧
      (accumulatePeltSegments periods d1 d3).toNat ≤ loadAvgMax) ∧
    (peltSums us).periodContrib < 1024 ∧
    contribution (peltSums us).periodContrib.toNat (u.units (peltSums us)) ≤ loadAvgMax ∧
    (u.sum (peltSums us)).1.utilSum.toNat = u.utilSum (peltSums us) := by
  have hkept := peltSums_utilKept us
  have hdecay : ∀ periods : UInt64, (decayLoad (UInt64.ofNat loadAvgMax) periods).toNat =
      decay periods.toNat loadAvgMax := fun periods => decayLoad_toNat _ _
  have hvalue : loadAvgMax = 47742 := rfl
  have hpos : ∀ {periods : UInt64}, periods ≠ 0 → 1 ≤ periods.toNat := fun hne =>
    Nat.one_le_iff_ne_zero.mpr fun h => hne (UInt64.toNat_inj.mp h)
  refine ⟨fun p hp => ?_, fun p d1 d3 hp hd1 hd3 => ?_, hkept.periodContrib_lt, ?_,
    (PeltUpdate.sum_utilKept hkept).1⟩
  · have hle := decay_loadAvgMax_le (hpos hp)
    rw [hdecay]
    omega
  · rw [UInt32.le_iff_toNat_le] at hd1
    have hsum := accumulatePeltSegments_toNat (hpos hp) hd1 hd3
    have hmono := (isDecay_decay p.toNat).mono (hd1.trans (show 1024 ≤ loadAvgMax by decide))
    have hle := decay_loadAvgMax_le (hpos hp)
    have hd3' : d3.toNat < 1024 := hd3
    rw [hdecay, decayLoad_toNat, UInt32.toNat_toUInt64]
    exact ⟨hsum, by omega⟩
  · have hcontrib := aged_add_contribution_le (d := u.units (peltSums us)) hkept.periodContrib_lt
      (Nat.zero_le _)
    rw [divider] at hcontrib
    omega

end LinuxKernelTest
