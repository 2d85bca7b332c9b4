import Mathlib.Algebra.Order.Floor.Semifield
import Mathlib.Tactic
import LinuxKernelTest.CfsQueue

/-!
# Weighted time in the fair class

`__calc_delta` of `kernel/sched/fair.c` multiplies a time by a weight and divides it by another one,
with a reciprocal of 32 bits in place of the division and shifts that keep the factor in 32 bits.
For `calc_delta_fair` the factor is `NICE_0_LOAD`, a multiple of every power of two that the shifts
take away, so nothing but the reciprocal is rounded (`toNat_calcDeltaFair`). For a slice of the
period the factor is at most the weight that is divided by, and there are no shifts at all
(`toNat_calcDelta_of_le`).

`place_entity` compares a virtual runtime with `min_vruntime` by the sign of their difference modulo
`2^64`. An entity that has fallen behind by `2^63` keeps its old virtual runtime
(`placeEntity_stale`).
-/

namespace LinuxKernelTest

open UInt64 Nat

/-! ## The product -/

/-- `shrinkFact` shifts until the factor fits, and not more. -/
theorem shrinkFact_spec : ∀ (n : ℕ) (fact : UInt64) (shift : ℕ), fact.toNat < 2 ^ (32 + n) →
    ∃ i ≤ n, (shrinkFact n fact shift).1.toNat = fact.toNat / 2 ^ i ∧
      (shrinkFact n fact shift).2 = shift - i ∧ fact.toNat / 2 ^ i < 2 ^ 32 ∧
      (i = 0 ∨ 2 ^ 32 ≤ fact.toNat / 2 ^ (i - 1))
  | 0, fact, shift, h => ⟨0, le_rfl, by simp [shrinkFact], by simp [shrinkFact], by simpa using h,
      .inl rfl⟩
  | n + 1, fact, shift, h => by
    have hshift : (fact >>> 32).toNat = fact.toNat / 2 ^ 32 := by
      rw [UInt64.toNat_shiftRight, Nat.shiftRight_eq_div_pow]
      rfl
    have hhalf : (fact >>> 1).toNat = fact.toNat / 2 := by
      rw [UInt64.toNat_shiftRight, Nat.shiftRight_eq_div_pow]
      rfl
    by_cases hbig : fact >>> 32 ≠ 0
    · have hge : 2 ^ 32 ≤ fact.toNat := by
        by_contra hlt
        refine hbig (UInt64.toNat_inj.mp ?_)
        rw [hshift, Nat.div_eq_of_lt (not_le.mp hlt)]
        rfl
      have hlt' : (fact >>> 1).toNat < 2 ^ (32 + n) := by
        rw [hhalf]
        rw [show 32 + (n + 1) = 32 + n + 1 by ring, pow_succ] at h
        omega
      obtain ⟨i, hi, hfact, hs, hlt, hmin⟩ := shrinkFact_spec n (fact >>> 1) (shift - 1) hlt'
      rw [shrinkFact, if_pos hbig]
      rw [hhalf, Nat.div_div_eq_div_mul, ← pow_succ'] at hfact hlt
      refine ⟨i + 1, by omega, hfact, by rw [hs]; omega, hlt, .inr ?_⟩
      rcases hmin with rfl | hmin
      · simpa using hge
      rw [hhalf, Nat.div_div_eq_div_mul, ← pow_succ'] at hmin
      cases i with
      | zero => simpa using hge
      | succ i => simpa using hmin
    · rw [shrinkFact, if_neg hbig]
      refine ⟨0, by omega, by simp, by simp, ?_, .inl rfl⟩
      have hzero : fact.toNat / 2 ^ 32 = 0 := by
        rw [← hshift, not_not.mp hbig]
        rfl
      rw [pow_zero, Nat.div_one]
      omega

/-- A factor of 32 bits is left as it is. -/
theorem shrinkFact_of_lt {fact : UInt64} (n shift : ℕ) (h : fact.toNat < 2 ^ 32) :
    shrinkFact n fact shift = (fact, shift) := by
  have hzero : fact >>> 32 = 0 := by
    apply UInt64.toNat_inj.mp
    rw [UInt64.toNat_shiftRight, shiftRight_eq_div_pow]
    exact div_eq_of_lt h
  cases n with
  | zero => rfl
  | succ n => rw [shrinkFact, if_neg (by simp [hzero])]

/-! ## The reciprocal -/

/-- The weight that is divided by, in its upper bits. -/
def scaledWeight (weight : UInt64) : ℕ := max 1 (weight.toNat / 2 ^ 10)

/-- `inv_weight` is not set, or is that of this weight. -/
def InvFresh (weight : UInt64) (invWeight : UInt32) : Prop :=
  invWeight = 0 ∨ invWeight = updateInvWeight weight 0

variable {weight : UInt64} {invWeight : UInt32}

theorem toNat_updateInvWeight
    (hw : scaledWeight weight < 2 ^ 32 - 1) (h : InvFresh weight invWeight) :
    (updateInvWeight weight invWeight).toNat = (2 ^ 32 - 1) / scaledWeight weight := by
  have hshift : (weight >>> 10).toNat = weight.toNat / 2 ^ 10 := by
    rw [UInt64.toNat_shiftRight, shiftRight_eq_div_pow]
    rfl
  have hconst : wmultConst.toUInt64.toNat = 2 ^ 32 - 1 := rfl
  have hzero : (updateInvWeight weight 0).toNat = (2 ^ 32 - 1) / scaledWeight weight := by
    rw [scaledWeight] at hw ⊢
    rw [updateInvWeight, if_neg (by simp)]
    rw [if_neg (by rw [UInt64.le_iff_toNat_le, hconst, hshift]; omega)]
    split_ifs with h0
    · have hw0 : weight.toNat / 2 ^ 10 = 0 := by
        rw [← hshift, h0]
        rfl
      rw [hw0]
      rfl
    · have hpos : weight.toNat / 2 ^ 10 ≠ 0 := fun hw0 => h0 (by
        apply UInt64.toNat_inj.mp
        rw [hshift, hw0]
        rfl)
      rw [UInt64.toNat_toUInt32, UInt64.toNat_div, hconst, hshift, max_eq_right (by omega)]
      exact mod_eq_of_lt ((div_le_self _ _).trans_lt (by norm_num))
  rcases h with rfl | rfl
  · exact hzero
  · by_cases h0 : updateInvWeight weight 0 = 0
    · rw [h0, hzero]
    · rw [updateInvWeight, if_pos h0, hzero]

/-! ## `calc_delta_fair` -/

/-- `NICE_0_LOAD` in place of the weight : the shifts of the factor lose nothing. -/
theorem toNat_calcDelta_nice0Load (delta : UInt64) (inv : UInt32) :
    (calcDelta delta nice0Load inv).toNat = delta.toNat * (1024 * inv.toNat) / 2 ^ 32 % 2 ^ 64 := by
  have hinv := inv.toNat_lt
  have hfirst : shrinkFact 32 (nice0Load >>> 10) 32 = (1024, 32) :=
    shrinkFact_of_lt 32 32 (by decide)
  have hfact : ((1024 : UInt64).toUInt32.toUInt64 * inv.toUInt64).toNat = 1024 * inv.toNat := by
    rw [UInt64.toNat_mul, UInt32.toNat_toUInt64, UInt32.toNat_toUInt64, Nat.mod_eq_of_lt]
    · rfl
    · have : (1024 : UInt64).toUInt32.toNat = 1024 := rfl
      rw [this]
      omega
  obtain ⟨i, -, hshrunk, hshift, hlt, hmin⟩ := shrinkFact_spec 32
    ((1024 : UInt64).toUInt32.toUInt64 * inv.toUInt64) 32 (by rw [hfact]; omega)
  rw [hfact] at hshrunk hlt hmin
  -- With more than ten shifts the factor had more than 42 bits.
  have hi : i ≤ 10 := by
    by_contra hi
    rcases hmin with h0 | hmin
    · omega
    · have hpow : 2 ^ 10 ≤ 2 ^ (i - 1) := Nat.pow_le_pow_right (by norm_num) (by omega)
      have := (Nat.div_le_div_left hpow (by norm_num)).trans' hmin
      omega
  obtain ⟨c, hc⟩ : ∃ c, 1024 * inv.toNat = 2 ^ i * c := by
    refine ⟨2 ^ (10 - i) * inv.toNat, ?_⟩
    rw [← mul_assoc, ← pow_add, show i + (10 - i) = 10 by omega]
    norm_num
  rw [hc, Nat.mul_div_cancel_left _ (by positivity)] at hshrunk hlt
  simp only [calcDelta, hfirst]
  rw [mulU64U32Shr, hshift, toNat_toUInt32, hshrunk, Nat.mod_eq_of_lt hlt,
    toNat_ofNat', Nat.shiftRight_eq_div_pow, hc]
  congr 1
  rw [show (2 : ℕ) ^ 32 = 2 ^ (32 - i) * 2 ^ i by rw [← pow_add]; congr 1; omega,
    show delta.toNat * (2 ^ i * c) = delta.toNat * c * 2 ^ i by ring,
    Nat.mul_div_mul_right _ _ (by positivity)]

variable {delta : UInt64} {e : CfsEntity}

variable (hdelta : delta.toNat * 1024 < 2 ^ 64)
include hdelta

/-- What `calc_delta_fair` computes. -/
theorem toNat_calcDeltaFair
    (hw : scaledWeight e.weight < 2 ^ 32 - 1) (hinv : InvFresh e.weight e.invWeight) :
    (calcDeltaFair delta e).1.toNat = if e.weight = nice0Load then delta.toNat
      else delta.toNat * (1024 * ((2 ^ 32 - 1) / scaledWeight e.weight)) / 2 ^ 32 := by
  rw [calcDeltaFair]
  by_cases heq : e.weight = nice0Load
  · rw [if_neg (not_not.mpr heq), if_pos heq]
  rw [if_pos heq, if_neg heq, toNat_calcDelta_nice0Load, toNat_updateInvWeight hw hinv,
    Nat.mod_eq_of_lt]
  have hle : (2 ^ 32 - 1) / scaledWeight e.weight ≤ 2 ^ 32 :=
    (Nat.div_le_self _ _).trans (by norm_num)
  refine (Nat.div_le_of_le_mul ?_).trans_lt hdelta
  calc delta.toNat * (1024 * ((2 ^ 32 - 1) / scaledWeight e.weight))
      ≤ delta.toNat * (1024 * 2 ^ 32) := by gcongr
    _ = 2 ^ 32 * (delta.toNat * 1024) := by ring

omit hdelta in
theorem scaledWeight_pos (weight : UInt64) : 0 < scaledWeight weight := by
  rw [scaledWeight]
  omega

/-- The bounds on the result, for every weight. -/
theorem calcDeltaFair_bounds
    (hw : scaledWeight e.weight < 2 ^ 32 - 1) (hinv : InvFresh e.weight e.invWeight) :
    ((calcDeltaFair delta e).1.toNat : ℚ) ≤ delta.toNat * 1024 / scaledWeight e.weight ∧
      (delta.toNat * 1024 / scaledWeight e.weight - delta.toNat * 1024 / 2 ^ 32 - 1 : ℚ) ≤
        (calcDeltaFair delta e).1.toNat := by
  have hpos : (0 : ℚ) < scaledWeight e.weight := by exact_mod_cast scaledWeight_pos e.weight
  rw [toNat_calcDeltaFair hdelta hw hinv]
  split_ifs with heq
  · have hscaled : scaledWeight e.weight = 1024 := by rw [heq]; rfl
    rw [hscaled]
    push_cast
    constructor <;> field_simp <;> nlinarith [(cast_nonneg delta.toNat : (0 : ℚ) ≤ delta.toNat)]
  · obtain ⟨w, hwe⟩ : ∃ w, w = scaledWeight e.weight := ⟨_, rfl⟩
    obtain ⟨inv, hinve⟩ : ∃ inv, inv = (2 ^ 32 - 1) / w := ⟨_, rfl⟩
    rw [← hwe] at hpos ⊢
    rw [← hinve]
    have hmod := div_add_mod (2 ^ 32 - 1) w
    have hlt := mod_lt (2 ^ 32 - 1) (show 0 < w by exact_mod_cast hpos)
    rw [← hinve] at hmod
    -- The reciprocal is below `2^32 / w`, and by less than one.
    have hle : (w : ℚ) * inv ≤ 2 ^ 32 := by
      have : w * inv ≤ 2 ^ 32 := by omega
      exact_mod_cast this
    have hge : (2 ^ 32 : ℚ) ≤ w * inv + w := by
      have : 2 ^ 32 ≤ w * inv + w := by omega
      exact_mod_cast this
    have hd : (0 : ℚ) ≤ delta.toNat := cast_nonneg _
    have hfloor : ((delta.toNat * (1024 * inv) / 2 ^ 32 : ℕ) : ℚ) ≤
        delta.toNat * (1024 * inv) / 2 ^ 32 := by
      have := cast_div_le (m := delta.toNat * (1024 * inv)) (n := 2 ^ 32) (α := ℚ)
      push_cast at this ⊢
      exact this
    have hfloor' : (delta.toNat * (1024 * inv) / 2 ^ 32 : ℚ) ≤
        (delta.toNat * (1024 * inv) / 2 ^ 32 : ℕ) + 1 := by
      have := lt_floor_add_one ((delta.toNat * (1024 * inv) : ℕ) / (2 ^ 32 : ℕ) : ℚ)
      rw [floor_div_eq_div] at this
      push_cast at this ⊢
      exact this.le
    constructor
    · refine hfloor.trans ?_
      rw [div_le_div_iff₀ (by norm_num) hpos]
      nlinarith
    · have hlow : (delta.toNat * 1024 / w - delta.toNat * 1024 / 2 ^ 32 : ℚ) ≤
          delta.toNat * (1024 * inv) / 2 ^ 32 := by
        rw [sub_le_iff_le_add, ← add_div, div_le_div_iff₀ hpos (by norm_num)]
        nlinarith
      linarith

/-- A larger time gives a larger result. -/
theorem calcDeltaFair_mono {delta' : UInt64}
    (hw : scaledWeight e.weight < 2 ^ 32 - 1) (hinv : InvFresh e.weight e.invWeight)
    (h : delta' ≤ delta) : (calcDeltaFair delta' e).1 ≤ (calcDeltaFair delta e).1 := by
  have hle := le_iff_toNat_le.mp h
  have hdelta' : delta'.toNat * 1024 < 2 ^ 64 := (mul_le_mul_right _ hle).trans_lt hdelta
  rw [le_iff_toNat_le, toNat_calcDeltaFair hdelta hw hinv, toNat_calcDeltaFair hdelta' hw hinv]
  split_ifs
  · exact hle
  · gcongr

omit hdelta in
theorem scaledWeight_mono {a b : UInt64} (h : a ≤ b) : scaledWeight a ≤ scaledWeight b := by
  have hle := Nat.div_le_div_right (c := 2 ^ 10) (le_iff_toNat_le.mp h)
  rw [scaledWeight, scaledWeight]
  omega

/-- A larger weight gives no larger result, across `NICE_0_LOAD` too. -/
theorem calcDeltaFair_antitone {e' : CfsEntity}
    (hw : scaledWeight e.weight < 2 ^ 32 - 1) (hinv : InvFresh e.weight e.invWeight)
    (hw' : scaledWeight e'.weight < 2 ^ 32 - 1) (hinv' : InvFresh e'.weight e'.invWeight)
    (h : e.weight ≤ e'.weight) : (calcDeltaFair delta e').1 ≤ (calcDeltaFair delta e).1 := by
  have hle := scaledWeight_mono h
  have hnat := le_iff_toNat_le.mp h
  have hnice : nice0Load.toNat = 2 ^ 20 := rfl
  have hpos := scaledWeight_pos e.weight
  rw [le_iff_toNat_le, toNat_calcDeltaFair hdelta hw hinv, toNat_calcDeltaFair hdelta hw' hinv']
  split_ifs with h' h0 h0
  · exact le_rfl
  · -- Below `NICE_0_LOAD` the factor is at least one.
    have hbelow : scaledWeight e.weight ≤ 1023 := by
      have hne : e.weight.toNat ≠ 2 ^ 20 := fun hw => h0 (UInt64.toNat_inj.mp hw)
      rw [h', hnice] at hnat
      rw [scaledWeight]
      omega
    have hinvge : 4198404 ≤ (2 ^ 32 - 1) / scaledWeight e.weight :=
      (Nat.div_le_div_left hbelow hpos).trans' (by norm_num)
    rw [Nat.le_div_iff_mul_le (by norm_num)]
    gcongr
    omega
  · -- From `NICE_0_LOAD` on it is at most one.
    have habove : 1024 ≤ scaledWeight e'.weight := by
      rw [h0, hnice] at hnat
      rw [scaledWeight]
      omega
    have hinvle : (2 ^ 32 - 1) / scaledWeight e'.weight ≤ (2 ^ 32 - 1) / 1024 :=
      Nat.div_le_div_left habove (by norm_num)
    refine Nat.div_le_of_le_mul ?_
    rw [mul_comm (2 ^ 32)]
    gcongr
    omega
  · gcongr

omit hdelta

/-- `calc_delta_fair` is tight and ordered. -/
theorem calcDeltaFair_tight_ordered (delta : UInt64) (e : CfsEntity)
    (hdelta : delta.toNat * 1024 < 2 ^ 64) (hw : scaledWeight e.weight < 2 ^ 32 - 1)
    (hinv : InvFresh e.weight e.invWeight) :
    (∀ delta' ≤ delta, (calcDeltaFair delta' e).1 ≤ (calcDeltaFair delta e).1) ∧
      (∀ e' : CfsEntity, e.weight ≤ e'.weight → scaledWeight e'.weight < 2 ^ 32 - 1 →
        InvFresh e'.weight e'.invWeight → (calcDeltaFair delta e').1 ≤ (calcDeltaFair delta e).1) ∧
      ((calcDeltaFair delta e).1.toNat : ℚ) ≤ delta.toNat * 1024 / scaledWeight e.weight ∧
      (delta.toNat * 1024 / scaledWeight e.weight - delta.toNat * 1024 / 2 ^ 32 - 1 : ℚ) ≤
        (calcDeltaFair delta e).1.toNat :=
  ⟨fun _ h => calcDeltaFair_mono hdelta hw hinv h,
    fun _ h hw' hinv' => calcDeltaFair_antitone hdelta hw hinv hw' hinv' h,
    calcDeltaFair_bounds hdelta hw hinv⟩

/-- An entity of nice 5, with its weight of 335. -/
def niceFive : CfsEntity := ⟨343040, 0, 343040, false, 0, 0, 0, 0, false⟩

theorem calcDeltaFair_tight_ordered_niceFive :
    ((calcDeltaFair 1000000 niceFive).1.toNat : ℚ) ≤
      (1000000 : UInt64).toNat * 1024 / scaledWeight niceFive.weight :=
  (calcDeltaFair_tight_ordered 1000000 niceFive (by decide +kernel) (by decide +kernel)
    (.inl rfl)).2.2.1

/-! ## Slices of the period -/

/-- The load of a `cfs_rq`. Each change of the weight takes `inv_weight` away. -/
structure RqLoad where
  weight : UInt64
  invWeight : UInt32
  fresh : InvFresh weight invWeight

/-- `update_load_add`. -/
def updateLoadAdd (lw : RqLoad) (inc : UInt64) : RqLoad := ⟨lw.weight + inc, 0, .inl rfl⟩

theorem InvFresh.update (h : InvFresh weight invWeight) :
    InvFresh weight (updateInvWeight weight invWeight) := by
  rcases h with rfl | rfl
  · exact .inr rfl
  · by_cases h0 : updateInvWeight weight 0 = 0
    · exact .inl (by rw [h0, h0])
    · exact .inr (by rw [updateInvWeight, if_pos h0])

/-- `__update_inv_weight` of the load of a `cfs_rq`. -/
def RqLoad.updateInv (lw : RqLoad) : RqLoad :=
  ⟨lw.weight, updateInvWeight lw.weight lw.invWeight, lw.fresh.update⟩

/-- The tunables of the period. -/
structure PeriodTunables where
  latency : UInt32
  minGranularity : UInt32
  nrLatency : UInt32

/-- `__sched_period`. -/
def schedPeriod (tune : PeriodTunables) (nrRunning : UInt64) : UInt64 :=
  if tune.nrLatency.toUInt64 < nrRunning then nrRunning * tune.minGranularity.toUInt64
  else tune.latency.toUInt64

/-- An entity with the load of the `cfs_rq` it is on. -/
structure SliceLevel where
  weight : UInt64
  onRq : Bool
  load : RqLoad

/-- One round of `sched_slice` : the slice, and the level with its load after the round. -/
def SliceLevel.slice (se : SliceLevel) (slice : UInt64) : UInt64 × SliceLevel :=
  if se.onRq then
    let load := se.load.updateInv
    (calcDelta slice se.weight load.invWeight, { se with load := load })
  else
    -- The sum is a copy on the stack.
    let lw := (updateLoadAdd se.load se.weight).updateInv
    (calcDelta slice se.weight lw.invWeight, se)

/-- The rounds of `sched_slice`, from the entity up. -/
def sliceLevels : UInt64 → List SliceLevel → UInt64 × List SliceLevel
  | slice, [] => (slice, [])
  | slice, se :: parents =>
    let round := se.slice slice
    let rest := sliceLevels round.1 parents
    (rest.1, round.2 :: rest.2)

/-- `sched_slice` for an entity and its parents. -/
def schedSlice (tune : PeriodTunables) (nrRunning : UInt32) (se : SliceLevel)
    (parents : List SliceLevel) : UInt64 × List SliceLevel :=
  sliceLevels (schedPeriod tune (nrRunning + if se.onRq then 0 else 1).toUInt64) (se :: parents)

/-- `sched_slice` for each of the entities on a root `cfs_rq` without groups. -/
def schedSlices (tune : PeriodTunables) (nrRunning : UInt32) : RqLoad → List UInt64 → List UInt64
  | _, [] => []
  | load, weight :: weights =>
    (schedSlice tune nrRunning ⟨weight, true, load⟩ []).1 ::
      schedSlices tune nrRunning load.updateInv weights

/-- With a weight of at most the one divided by, nothing is shifted. -/
theorem toNat_calcDelta_of_le {slice : UInt64} {inv : UInt32}
    (h : weight.toNat / 2 ^ 10 * inv.toNat < 2 ^ 32) (hw : weight.toNat / 2 ^ 10 < 2 ^ 32) :
    (calcDelta slice weight inv).toNat =
      slice.toNat * (weight.toNat / 2 ^ 10 * inv.toNat) / 2 ^ 32 := by
  have hshift : (weight >>> 10).toNat = weight.toNat / 2 ^ 10 := by
    rw [UInt64.toNat_shiftRight, Nat.shiftRight_eq_div_pow]
    rfl
  have hfact : ((weight >>> 10).toUInt32.toUInt64 * inv.toUInt64).toNat =
      weight.toNat / 2 ^ 10 * inv.toNat := by
    rw [UInt64.toNat_mul, UInt32.toNat_toUInt64, UInt32.toNat_toUInt64, UInt64.toNat_toUInt32,
      hshift, Nat.mod_eq_of_lt hw, Nat.mod_eq_of_lt (by omega)]
  have hslice := slice.toNat_lt
  simp only [calcDelta]
  rw [shrinkFact_of_lt 32 32 (by rw [hshift]; exact hw)]
  rw [shrinkFact_of_lt 32 32 (by rw [hfact]; exact h)]
  rw [mulU64U32Shr, toNat_toUInt32, hfact, Nat.mod_eq_of_lt h, toNat_ofNat',
    Nat.shiftRight_eq_div_pow, Nat.mod_eq_of_lt]
  refine (Nat.div_le_of_le_mul ?_).trans_lt hslice
  rw [mul_comm (2 ^ 32)]
  gcongr

variable {load : RqLoad}

/-- The reciprocal, as a fraction of the largest. -/
theorem RqLoad.toNat_updateInv (h : load.weight.toNat / 2 ^ 10 < 2 ^ 32 - 1) :
    load.updateInv.invWeight.toNat = (2 ^ 32 - 1) / scaledWeight load.weight :=
  toNat_updateInvWeight (by rw [scaledWeight]; omega) load.fresh

/-- The slice of one entity that is queued. -/
theorem toNat_schedSlice (tune : PeriodTunables) (nrRunning : UInt32)
    (hload : load.weight.toNat / 2 ^ 10 < 2 ^ 32 - 1)
    (hle : weight ≤ load.weight) : (schedSlice tune nrRunning ⟨weight, true, load⟩ []).1.toNat =
      (schedPeriod tune nrRunning.toUInt64).toNat *
        (weight.toNat / 2 ^ 10 * ((2 ^ 32 - 1) / scaledWeight load.weight)) / 2 ^ 32 := by
  have hscaled : weight.toNat / 2 ^ 10 ≤ scaledWeight load.weight :=
    (Nat.div_le_div_right (le_iff_toNat_le.mp hle)).trans (le_max_right _ _)
  have hprod : weight.toNat / 2 ^ 10 * ((2 ^ 32 - 1) / scaledWeight load.weight) < 2 ^ 32 := by
    have hmul := mul_le_mul_right ((2 ^ 32 - 1) / scaledWeight load.weight) hscaled
    have hdiv := mul_div_le (2 ^ 32 - 1) (scaledWeight load.weight)
    omega
  rw [← RqLoad.toNat_updateInv hload] at hprod ⊢
  have hlt : weight.toNat / 2 ^ 10 < 2 ^ 32 :=
    (Nat.div_le_div_right (le_iff_toNat_le.mp hle)).trans_lt (by omega)
  rw [← toNat_calcDelta_of_le hprod hlt]
  simp [schedSlice, sliceLevels, SliceLevel.slice]

/-- The weights of a list, in their upper bits, are together at most those of the sum. -/
theorem sum_scaled_le (weights : List UInt64) :
    (weights.map fun w => w.toNat / 2 ^ 10).sum ≤ (weights.map UInt64.toNat).sum / 2 ^ 10 := by
  induction weights with
  | nil => simp
  | cons w weights ih =>
    simp only [List.map_cons, List.sum_cons]
    omega

/-- The slices of a list, for the load they all are divided by. -/
theorem sum_schedSlices_le (tune : PeriodTunables) (nrRunning : UInt32) {total : UInt64}
    (htotal : total.toNat / 2 ^ 10 < 2 ^ 32 - 1) : ∀ (load : RqLoad) (weights : List UInt64),
    load.weight = total → (∀ w ∈ weights, w ≤ total) →
    ((schedSlices tune nrRunning load weights).map UInt64.toNat).sum ≤
      (schedPeriod tune nrRunning.toUInt64).toNat *
        ((weights.map fun w => w.toNat / 2 ^ 10).sum * ((2 ^ 32 - 1) / scaledWeight total)) / 2 ^ 32
  | _, [], _, _ => by simp [schedSlices]
  | load, w :: weights, hload, hle => by
    have ih := sum_schedSlices_le tune nrRunning htotal load.updateInv weights hload
      fun x hx => hle x (List.mem_cons_of_mem _ hx)
    have hslice := toNat_schedSlice tune nrRunning (by rw [hload]; exact htotal)
      (show w ≤ load.weight by rw [hload]; exact hle w List.mem_cons_self)
    rw [hload] at hslice
    simp only [schedSlices, List.map_cons, List.sum_cons]
    rw [hslice]
    refine (Nat.add_le_add_left ih _).trans (Nat.div_add_div_le_add_div.trans (le_of_eq ?_))
    congr 1
    ring

/-- The slices of all entities that are queued are together at most the period. -/
theorem sum_schedSlices_le_schedPeriod (tune : PeriodTunables) (nrRunning : UInt32) (load : RqLoad)
    (weights : List UInt64) (hsum : (weights.map UInt64.toNat).sum = load.weight.toNat)
    (hload : load.weight.toNat / 2 ^ 10 < 2 ^ 32 - 1) :
    ((schedSlices tune nrRunning load weights).map UInt64.toNat).sum ≤
      (schedPeriod tune nrRunning.toUInt64).toNat := by
  have hle : ∀ w ∈ weights, w ≤ load.weight := fun w hw => by
    rw [le_iff_toNat_le, ← hsum]
    exact List.single_le_sum (fun _ _ => Nat.zero_le _) _ (List.mem_map_of_mem hw)
  refine (sum_schedSlices_le tune nrRunning hload load weights rfl hle).trans
    (Nat.div_le_of_le_mul ?_)
  rw [mul_comm (2 ^ 32)]
  gcongr
  calc (weights.map fun w => w.toNat / 2 ^ 10).sum * ((2 ^ 32 - 1) / scaledWeight load.weight)
      ≤ scaledWeight load.weight * ((2 ^ 32 - 1) / scaledWeight load.weight) := by
        gcongr
        exact (sum_scaled_le weights).trans (by rw [hsum, scaledWeight]; exact le_max_right _ _)
    _ ≤ 2 ^ 32 - 1 := Nat.mul_div_le _ _
    _ ≤ 2 ^ 32 := by norm_num

/-- Three entities, of nice 0, 0 and 5. -/
def threeWeights : List UInt64 := [1048576, 1048576, 343040]

theorem sum_schedSlices_le_schedPeriod_three :
    schedSlices ⟨6000000, 750000, 8⟩ 3 ⟨2440192, 0, .inl rfl⟩ threeWeights =
        [2578262, 2578262, 843474] ∧
      ((schedSlices ⟨6000000, 750000, 8⟩ 3 ⟨2440192, 0, .inl rfl⟩ threeWeights).map
        UInt64.toNat).sum ≤ 6000000 :=
  ⟨by decide +kernel,
    sum_schedSlices_le_schedPeriod _ _ _ _ (by decide +kernel) (by decide +kernel)⟩

/-! ## Placing an entity that wakes up -/

theorem toInt64_pos_iff {x : UInt64} : 0 < x.toInt64 ↔ 0 < x.toNat ∧ x.toNat < 2 ^ 63 := by
  have hx := x.toNat_lt
  rw [Int64.lt_iff_toInt_lt, toInt_toInt64, show (0 : Int64).toInt = 0 from rfl]
  split <;> omega

/-- How far an entity that wakes up may be behind `min_vruntime`. -/
def CfsTunables.thresh (tune : CfsTunables) : ℕ :=
  if tune.gentleFairSleepers then tune.latency.toNat / 2 else tune.latency.toNat

/-- What `place_entity` stores. -/
theorem placeEntity_vruntime (tune : CfsTunables) (q : CfsRq) (se : RbPtr) :
    ∃ thresh : UInt64, thresh.toNat = tune.thresh ∧ ((q.placeEntity tune se).se se).vruntime =
        maxVruntime (q.se se).vruntime (q.minVruntime - thresh) := by
  refine ⟨_, ?_, by rw [CfsRq.placeEntity, CfsRq.setSe_self]⟩
  rw [CfsTunables.thresh]
  split_ifs
  · rw [UInt64.toNat_shiftRight, shiftRight_eq_div_pow]
    rfl
  · rfl

/-- `place_entity` stores the larger of both virtual runtimes just when the entity is not behind by
half of the range or more, modulo `2^64`. -/
theorem placeEntity_iff (tune : CfsTunables) (q : CfsRq) (se : RbPtr) (v M : ℤ) (hle : v ≤ M)
    (hv : ((q.se se).vruntime.toNat : ℤ) = v % 2 ^ 64)
    (hM : (q.minVruntime.toNat : ℤ) = M % 2 ^ 64) :
    ((((q.placeEntity tune se).se se).vruntime.toNat : ℤ) = max v (M - tune.thresh) % 2 ^ 64) ↔
      M - tune.thresh ≤ v ∨ (M - tune.thresh - v) % 2 ^ 64 < 2 ^ 63 := by
  obtain ⟨thresh, hthresh, hplace⟩ := placeEntity_vruntime tune q se
  have hsmall : tune.thresh < 2 ^ 32 := by
    have := tune.latency.toNat_lt
    rw [CfsTunables.thresh]
    split_ifs <;> omega
  have hMlt := q.minVruntime.toNat_lt
  -- The target, and its distance from the virtual runtime.
  have htarget : ((q.minVruntime - thresh).toNat : ℤ) = (M - tune.thresh) % 2 ^ 64 := by
    rw [UInt64.toNat_sub, hthresh]
    omega
  have hdiff : ((q.minVruntime - thresh - (q.se se).vruntime).toNat : ℤ) =
      (M - tune.thresh - v) % 2 ^ 64 := by
    rw [UInt64.toNat_sub]
    omega
  rw [hplace, maxVruntime]
  split_ifs with hpos
  · rw [toInt64_pos_iff] at hpos
    rw [htarget]
    omega
  · rw [toInt64_pos_iff] at hpos
    rw [hv]
    omega

theorem placeEntity_iff_nap :
    (((({ idleCfsRq with minVruntime := 10000000 } : CfsRq).placeEntity ⟨6000000, true⟩ 8).se
      8).vruntime.toNat : ℤ) = 7000000 :=
  (placeEntity_iff ⟨6000000, true⟩ { idleCfsRq with minVruntime := 10000000 } 8 0 10000000
    (by norm_num) rfl rfl).mpr (.inr (by decide +kernel))

/-- While the entity slept, `min_vruntime` has run on by half of the range. -/
def longSleep : CfsRq := { idleCfsRq with minVruntime := 9223372036857775809 }

/-- It has run on by half of the range and the whole latency. -/
def longerSleep : CfsRq := { idleCfsRq with minVruntime := 9223372036860775809 }

/-- The entity keeps its virtual runtime, and is behind by more than the threshold. Without
`GENTLE_FAIR_SLEEPERS`, as the repository is built, the same happens a little later. -/
theorem placeEntity_stale :
    ((longSleep.se 8).vruntime.toNat : ℤ) = 0 % 2 ^ 64 ∧
      (longSleep.minVruntime.toNat : ℤ) = (2 ^ 63 + 3000001) % 2 ^ 64 ∧
      ((longSleep.placeEntity ⟨6000000, true⟩ 8).se 8).vruntime = 0 ∧
      ((((longSleep.placeEntity ⟨6000000, true⟩ 8).se 8).vruntime.toNat : ℤ) ≠
        max 0 (2 ^ 63 + 3000001 - ((⟨6000000, true⟩ : CfsTunables).thresh : ℤ)) % 2 ^ 64) ∧
      (longerSleep.minVruntime.toNat : ℤ) = (2 ^ 63 + 6000001) % 2 ^ 64 ∧
      ((longerSleep.placeEntity ⟨6000000, false⟩ 8).se 8).vruntime = 0 ∧
      ((((longerSleep.placeEntity ⟨6000000, false⟩ 8).se 8).vruntime.toNat : ℤ) ≠
        max 0 (2 ^ 63 + 6000001 - ((⟨6000000, false⟩ : CfsTunables).thresh : ℤ)) % 2 ^ 64) := by
  decide +kernel

end LinuxKernelTest
