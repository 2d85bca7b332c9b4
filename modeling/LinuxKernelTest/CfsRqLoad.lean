import LinuxKernelTest.PeltBounds

/-!
# The load of a queue that is taken off the leaf list

A cfs_rq carries the sum of the averages of its entities. `attach_entity_load_avg` and
`detach_entity_load_avg` of `kernel/sched/fair.c` add and subtract an entity;
`remove_entity_load_avg` only notes what is to be subtracted, and the next
`update_cfs_rq_load_avg` does it before it ages the sums. Each signal is kept twice, as a sum and as
an average, and both are subtracted on their own, down to 0. `cfs_rq_is_decayed` looks at the sums;
a cfs_rq that it accepts is updated no more.

`SchedAvg.Synced` says that an average is 0 where its sum is. It fails when a subtraction exhausts a
sum and not the average : the sums were built with the divider of another point of the period, so a
removed average times the divider can be more than the sum it was part of. `DecayCall.Kept` is the
condition on each call under which this does not happen.

An entity is a value of each call, so that its averages are free.
-/

namespace LinuxKernelTest

open UInt64 Nat

/-! ## The model -/

/-- `sub_positive` on 64 bits. -/
def subPositive (x v : UInt64) : UInt64 := if x < x - v then 0 else x - v

/-- `sub_positive` on 32 bits. -/
def subPositive32 (x v : UInt32) : UInt32 := if x < x - v then 0 else x - v

/-- `scale_load_down`. -/
def scaleLoadDown (w : UInt64) : UInt64 := w >>> 10

/-- `struct sched_entity`, as far as load tracking uses it. -/
structure LoadEntity where
  loadWeight : UInt64
  runnableWeight : UInt64
  avg : SchedAvg
deriving DecidableEq

/-- `se_weight`. -/
def LoadEntity.weight (se : LoadEntity) : UInt64 := scaleLoadDown se.loadWeight

/-- `se_runnable`. -/
def LoadEntity.runnable (se : LoadEntity) : UInt64 := scaleLoadDown se.runnableWeight

/-- `removed` of a cfs_rq. -/
structure RemovedLoad where
  nr : UInt32
  loadAvg : UInt64
  utilAvg : UInt64
  runnableSum : UInt64
deriving DecidableEq

/-- `struct cfs_rq`, as far as load tracking uses it. -/
structure CfsRqLoad where
  loadWeight : UInt64
  runnableWeight : UInt64
  curr : Bool
  avg : SchedAvg
  removed : RemovedLoad
deriving DecidableEq

/-- `LOAD_AVG_MAX - 1024 + period_contrib`. -/
def SchedAvg.divider (sa : SchedAvg) : UInt32 :=
  UInt32.ofNat (loadAvgMax - 1024) + sa.periodContrib

variable (q : CfsRqLoad) {avg sum a v : UInt64} {sa : SchedAvg}

/-- `attach_entity_load_avg` : the queue and the entity after it. `div_u64` takes a 32-bit
divisor. -/
def attachEntityLoadAvg (se : LoadEntity) : Option (CfsRqLoad × LoadEntity) :=
  let divider := q.avg.divider
  let utilSum := (se.avg.utilAvg * divider.toUInt64).toUInt32
  (if se.weight ≠ 0 then
    if se.weight.toUInt32 = 0 then none
    else some (se.avg.loadAvg * divider.toUInt64 / se.weight.toUInt32.toUInt64)
  else some divider.toUInt64).map fun loadSum =>
    let avg := { se.avg with
      lastUpdateTime := q.avg.lastUpdateTime
      periodContrib := q.avg.periodContrib
      utilSum := utilSum
      loadSum := loadSum
      runnableLoadSum := loadSum }
    ({ q with avg := { q.avg with
        loadAvg := q.avg.loadAvg + avg.loadAvg
        loadSum := q.avg.loadSum + se.weight * avg.loadSum
        utilAvg := q.avg.utilAvg + avg.utilAvg
        utilSum := q.avg.utilSum + avg.utilSum } },
      { se with avg := avg })

/-- `detach_entity_load_avg`. -/
def detachEntityLoadAvg (se : LoadEntity) : CfsRqLoad :=
  { q with avg := { q.avg with
      loadAvg := subPositive q.avg.loadAvg se.avg.loadAvg
      loadSum := subPositive q.avg.loadSum (se.weight * se.avg.loadSum)
      utilAvg := subPositive q.avg.utilAvg se.avg.utilAvg
      utilSum := subPositive32 q.avg.utilSum se.avg.utilSum } }

/-- `remove_entity_load_avg`, with `sync_entity_load_avg` : the queue and the entity after it. -/
def removeEntityLoadAvg (se : LoadEntity) : Option (CfsRqLoad × LoadEntity) :=
  ((updateLoadAvgBlockedSe q.avg.lastUpdateTime se.weight se.runnable).step se.avg).map fun r =>
    ({ q with removed :=
        { nr := q.removed.nr + 1
          utilAvg := q.removed.utilAvg + r.1.utilAvg
          loadAvg := q.removed.loadAvg + r.1.loadAvg
          runnableSum := q.removed.runnableSum + r.1.loadSum } },
      { se with avg := r.1 })

/-- The part of `update_cfs_rq_load_avg` that subtracts what was removed. -/
def foldRemoved : CfsRqLoad :=
  if q.removed.nr ≠ 0 then
    let divider := q.avg.divider.toUInt64
    { q with
      removed := ⟨0, 0, 0, 0⟩
      avg := { q.avg with
        loadAvg := subPositive q.avg.loadAvg q.removed.loadAvg
        loadSum := subPositive q.avg.loadSum (q.removed.loadAvg * divider)
        utilAvg := subPositive q.avg.utilAvg q.removed.utilAvg
        utilSum := subPositive32 q.avg.utilSum (q.removed.utilAvg * divider).toUInt32 } }
  else q

/-- `__update_load_avg_cfs_rq`. -/
def CfsRqLoad.pelt (now : UInt64) : PeltUpdate :=
  updateLoadAvgCfsRq now (scaleLoadDown q.loadWeight) (scaleLoadDown q.runnableWeight) q.curr

/-- `update_cfs_rq_load_avg` : the queue after it and the return value. -/
def updateCfsRqLoadAvg (now : UInt64) (q : CfsRqLoad) : Option (CfsRqLoad × Bool) :=
  let q' := foldRemoved q
  ((q'.pelt now).step q'.avg).map fun r =>
    ({ q' with avg := r.1 }, q.removed.nr ≠ 0 || r.2)

/-- `cfs_rq_is_decayed`. -/
def cfsRqIsDecayed : Bool :=
  if q.loadWeight ≠ 0 then false
  else if q.avg.loadSum ≠ 0 then false
  else if q.avg.utilSum ≠ 0 then false
  else if q.avg.runnableLoadSum ≠ 0 then false
  else true

/-- The calls on a queue, and a change of its weights and its current entity between them. -/
inductive DecayCall
  | attach (se : LoadEntity)
  | detach (se : LoadEntity)
  | remove (se : LoadEntity)
  | update (now : UInt64)
  | weights (loadWeight runnableWeight : UInt64) (curr : Bool)
deriving DecidableEq

/-- Run one call. -/
def DecayCall.run : DecayCall → Option (CfsRqLoad × Unit)
  | .attach se => (attachEntityLoadAvg q se).map fun r => (r.1, ())
  | .detach se => some (detachEntityLoadAvg q se, ())
  | .remove se => (removeEntityLoadAvg q se).map fun r => (r.1, ())
  | .update now => (updateCfsRqLoadAvg now q).map fun r => (r.1, ())
  | .weights w r curr => some ({ q with loadWeight := w, runnableWeight := r, curr := curr }, ())

/-- A queue as `init_cfs_rq` leaves it. -/
def CfsRqLoad.zeroed : CfsRqLoad := ⟨0, 0, false, SchedAvg.zeroed, ⟨0, 0, 0, 0⟩⟩

/-! ## Sums and averages that reach 0 together -/

/-- Where a sum is 0, so is its average. -/
structure SchedAvg.Synced (sa : SchedAvg) : Prop where
  load : sa.loadSum = 0 → sa.loadAvg = 0
  util : sa.utilSum = 0 → sa.utilAvg = 0
  runnable : sa.runnableLoadSum = 0 → sa.runnableLoadAvg = 0

theorem subPositive_eq_zero_iff {x v : UInt64} : subPositive x v = 0 ↔ x ≤ v := by
  rw [subPositive, le_iff_toNat_le]
  have hx := x.toNat_lt
  have hv := v.toNat_lt
  have h0 : (0 : UInt64).toNat = 0 := rfl
  split_ifs with h
  · rw [UInt64.lt_iff_toNat_lt, UInt64.toNat_sub] at h
    exact iff_of_true rfl (by omega)
  · rw [UInt64.lt_iff_toNat_lt, UInt64.toNat_sub] at h
    rw [← UInt64.toNat_inj, UInt64.toNat_sub, h0]
    omega

theorem subPositive_le (x v : UInt64) : (subPositive x v).toNat ≤ x.toNat := by
  rw [subPositive]
  split_ifs with h
  · exact zero_le _
  · exact UInt64.le_iff_toNat_le.mp (UInt64.not_lt.mp h)

theorem subPositive32_eq_zero_iff {x v : UInt32} : subPositive32 x v = 0 ↔ x ≤ v := by
  rw [subPositive32, UInt32.le_iff_toNat_le]
  have hx := x.toNat_lt
  have hv := v.toNat_lt
  have h0 : (0 : UInt32).toNat = 0 := rfl
  split_ifs with h
  · rw [UInt32.lt_iff_toNat_lt, UInt32.toNat_sub] at h
    exact iff_of_true rfl (by omega)
  · rw [UInt32.lt_iff_toNat_lt, UInt32.toNat_sub] at h
    rw [← UInt32.toNat_inj, UInt32.toNat_sub, h0]
    omega

theorem subPositive32_le (x v : UInt32) : (subPositive32 x v).toNat ≤ x.toNat := by
  rw [subPositive32]
  split_ifs with h
  · exact zero_le _
  · exact UInt32.le_iff_toNat_le.mp (UInt32.not_lt.mp h)

/-- Two subtractions reach 0 together, if the one from the sum only does with the other. -/
theorem subPositive_synced (h : avg ≤ a ∨ v < sum) :
    subPositive sum v = 0 → subPositive avg a = 0 := by
  rw [subPositive_eq_zero_iff, subPositive_eq_zero_iff]
  intro hle
  exact h.resolve_right (UInt64.not_lt.mpr hle)

theorem subPositive32_synced {avg a : UInt64} {sum v : UInt32} (h : avg ≤ a ∨ v < sum) :
    subPositive32 sum v = 0 → subPositive avg a = 0 := by
  rw [subPositive32_eq_zero_iff, subPositive_eq_zero_iff]
  intro hle
  exact h.resolve_right (UInt32.not_lt.mpr hle)

/-- An addition without overflow gives 0 only from zeros. -/
theorem add_synced (hlt : sum.toNat + v.toNat < 2 ^ 64)
    (h : sum = 0 → avg = 0) (h' : v = 0 → a = 0) : sum + v = 0 → avg + a = 0 := by
  intro hzero
  have hnat := congrArg UInt64.toNat hzero
  have h0 : (0 : UInt64).toNat = 0 := rfl
  rw [UInt64.toNat_add, mod_eq_of_lt hlt, h0] at hnat
  rw [h (UInt64.toNat_inj.mp (by omega)), h' (UInt64.toNat_inj.mp (by omega))]
  rfl

theorem add_synced32 {avg a : UInt64} {sum v : UInt32} (hlt : sum.toNat + v.toNat < 2 ^ 32)
    (h : sum = 0 → avg = 0) (h' : v = 0 → a = 0) : sum + v = 0 → avg + a = 0 := by
  intro hzero
  have hnat := congrArg UInt32.toNat hzero
  have h0 : (0 : UInt32).toNat = 0 := rfl
  rw [UInt32.toNat_add, mod_eq_of_lt hlt, h0] at hnat
  rw [h (UInt32.toNat_inj.mp (by omega)), h' (UInt32.toNat_inj.mp (by omega))]
  rfl

theorem toNat_divider (hc : sa.periodContrib.toNat < 1024) :
    sa.divider.toNat = divider sa.periodContrib.toNat := by
  have hofNat : (UInt32.ofNat (loadAvgMax - 1024)).toNat = loadAvgMax - 1024 := rfl
  have hvalue : loadAvgMax = 47742 := rfl
  rw [SchedAvg.divider, UInt32.toNat_add, hofNat, divider]
  omega

/-- `___update_load_avg` leaves the sums alone and makes each average from its sum. -/
theorem updateLoadAvg_synced (w r : UInt64) (hc : sa.periodContrib.toNat < 1024) :
    ∃ sa', updateLoadAvg sa w r = some sa' ∧ sa'.periodContrib = sa.periodContrib ∧ sa'.Synced := by
  obtain ⟨sa', hrun, -⟩ := updateLoadAvg_spec w r hc
  refine ⟨sa', hrun, ?_⟩
  rw [updateLoadAvg] at hrun
  split_ifs at hrun
  obtain rfl := Option.some.inj hrun
  refine ⟨rfl, fun h => ?_, fun h => ?_, fun h => ?_⟩
  · dsimp only at h ⊢
    rw [h, UInt64.mul_zero, UInt64.zero_div]
  · dsimp only at h ⊢
    rw [h, UInt32.zero_div]
    rfl
  · dsimp only at h ⊢
    rw [h, UInt64.mul_zero, UInt64.zero_div]

/-- An update never fails; either the averages are made from the sums again, or only the sums
change. -/
theorem PeltUpdate.step_cases (u : PeltUpdate) (hc : sa.periodContrib.toNat < 1024) :
    ∃ r, u.step sa = some r ∧ r.1.periodContrib.toNat < 1024 ∧
      (r.1.Synced ∨ u.periods sa % 2 ^ 32 = 0 ∧ r.1 = (u.sum sa).1) := by
  obtain ⟨hacc, hret⟩ := u.sum_spec hc
  have hc' : (u.sum sa).1.periodContrib.toNat < 1024 := by
    rw [hacc.periodContrib]
    exact by omega
  rw [PeltUpdate.step]
  by_cases hcross : (u.sum sa).2 = true
  · obtain ⟨sa', hrun, hcontrib, hsync⟩ := updateLoadAvg_synced u.weight u.runnableWeight hc'
    exact ⟨(sa', true), by rw [if_pos hcross, hrun]; rfl, by rwa [hcontrib], .inl hsync⟩
  · exact ⟨_, if_neg hcross, hc', .inr ⟨not_not.mp fun h => hcross (hret.mpr h), rfl⟩⟩

/-- `___update_load_sum` leaves the averages alone. -/
theorem PeltUpdate.sum_avgs (sa : SchedAvg) (u : PeltUpdate) :
    (u.sum sa).1.loadAvg = sa.loadAvg ∧ (u.sum sa).1.utilAvg = sa.utilAvg ∧
      (u.sum sa).1.runnableLoadAvg = sa.runnableLoadAvg := by
  rw [PeltUpdate.sum, updateLoadSum]
  dsimp only
  split_ifs
  · exact ⟨rfl, rfl, rfl⟩
  · exact ⟨rfl, rfl, rfl⟩
  all_goals
    rw [accumulateSum]
    dsimp only
    split_ifs <;> exact ⟨rfl, rfl, rfl⟩

/-! ## The calls -/

/-- The subtraction of what was removed takes a sum to 0 only with its average. -/
def CfsRqLoad.FoldKept : Prop :=
  (q.avg.loadAvg ≤ q.removed.loadAvg ∨
    q.removed.loadAvg * q.avg.divider.toUInt64 < q.avg.loadSum) ∧
  (q.avg.utilAvg ≤ q.removed.utilAvg ∨
    (q.removed.utilAvg * q.avg.divider.toUInt64).toUInt32 < q.avg.utilSum)

/-- The sums have room for what less than a period adds. -/
def CfsRqLoad.Room : Prop :=
  q.avg.loadSum.toNat + (scaleLoadDown q.loadWeight).toNat * 1024 < 2 ^ 64 ∧
  q.avg.runnableLoadSum.toNat + (scaleLoadDown q.runnableWeight).toNat * 1024 < 2 ^ 64 ∧
  q.avg.utilSum.toNat + 1024 * 1024 < 2 ^ 32

/-- The condition on a call under which a sum reaches 0 only with its average.
An entity that is attached has a load of at least one unit of the sum and does not wrap the sums;
one that is detached does not exhaust a sum and leave a rest of the average; an update ages the
averages too (the number of periods fits into the 32 bits that `accumulate_sum` returns), or it
crosses no period and the removed averages do not exhaust a sum either. -/
def DecayCall.Kept : DecayCall → Prop
  | .attach se =>
    q.avg.utilSum.toNat + se.avg.utilAvg.toNat * divider q.avg.periodContrib.toNat < 2 ^ 32 ∧
    q.avg.loadSum.toNat + se.avg.loadAvg.toNat * divider q.avg.periodContrib.toNat < 2 ^ 64 ∧
    se.weight.toNat < 2 ^ 32 ∧
    (se.avg.loadAvg = 0 ∨ se.weight ≠ 0 ∧
      se.weight.toNat ≤ se.avg.loadAvg.toNat * divider q.avg.periodContrib.toNat)
  | .detach se =>
    (q.avg.loadAvg ≤ se.avg.loadAvg ∨ se.weight * se.avg.loadSum < q.avg.loadSum) ∧
    (q.avg.utilAvg ≤ se.avg.utilAvg ∨ se.avg.utilSum < q.avg.utilSum)
  | .remove se => se.avg.periodContrib.toNat < 1024
  | .update now =>
    (q.pelt now).periods q.avg % 2 ^ 32 ≠ 0 ∨
    (q.pelt now).periods q.avg = 0 ∧ (q.removed.nr = 0 ∨ q.FoldKept) ∧
      (scaleLoadDown q.loadWeight = 0 ∨ q.Room)
  | .weights _ _ _ => True

instance (q : CfsRqLoad) : Decidable q.FoldKept := inferInstanceAs (Decidable (_ ∧ _))

instance (q : CfsRqLoad) : Decidable q.Room := inferInstanceAs (Decidable (_ ∧ _))

instance (q : CfsRqLoad) : ∀ c : DecayCall, Decidable (c.Kept q)
  | .attach _ | .detach _ => inferInstanceAs (Decidable (_ ∧ _))
  | .remove _ => inferInstanceAs (Decidable (_ < _))
  | .update _ => inferInstanceAs (Decidable (_ ∨ _))
  | .weights _ _ _ => inferInstanceAs (Decidable True)

/-- The state between calls. -/
structure CfsRqLoad.Tracked (q : CfsRqLoad) : Prop where
  contrib : q.avg.periodContrib.toNat < 1024
  synced : q.avg.Synced

theorem CfsRqLoad.tracked_zeroed : CfsRqLoad.zeroed.Tracked :=
  ⟨by decide, fun _ => rfl, fun _ => rfl, fun _ => rfl⟩

/-- `load_sum` of an entity that is attached, weighted : 0 only if its average is. -/
theorem attachedLoad {d : UInt32} {a w : UInt64} (hw : w.toNat < 2 ^ 32)
    (hlt : a.toNat * d.toNat < 2 ^ 64) (hround : a = 0 ∨ w ≠ 0 ∧ w.toNat ≤ a.toNat * d.toNat) :
    ∃ sum, (if w ≠ 0 then
        if w.toUInt32 = 0 then none else some (a * d.toUInt64 / w.toUInt32.toUInt64)
      else some d.toUInt64) = some sum ∧
      (w * sum).toNat ≤ a.toNat * d.toNat ∧ (w * sum = 0 → a = 0) := by
  by_cases hzero : w = 0
  · refine ⟨d.toUInt64, if_neg (not_not.mpr hzero), ?_, fun _ => ?_⟩
    · rw [hzero, zero_mul]
      exact zero_le _
    · exact hround.resolve_right fun h => h.1 hzero
  have hw32 : w.toUInt32.toNat = w.toNat := by
    rw [toNat_toUInt32, mod_eq_of_lt hw]
  have hpos : 0 < w.toNat := pos_of_ne_zero fun h => hzero (UInt64.toNat_inj.mp h)
  have hne : w.toUInt32 ≠ 0 := by
    intro h
    rw [h] at hw32
    exact hpos.ne hw32
  have hsum : (a * d.toUInt64 / w.toUInt32.toUInt64).toNat = a.toNat * d.toNat / w.toNat := by
    rw [UInt64.toNat_div, UInt64.toNat_mul, UInt32.toNat_toUInt64, UInt32.toNat_toUInt64, hw32,
      mod_eq_of_lt hlt]
  have hle := mul_div_le (a.toNat * d.toNat) w.toNat
  have hprod : (w * (a * d.toUInt64 / w.toUInt32.toUInt64)).toNat =
      w.toNat * (a.toNat * d.toNat / w.toNat) := by
    rw [UInt64.toNat_mul, hsum, mod_eq_of_lt (hle.trans_lt hlt)]
  refine ⟨_, by rw [if_pos hzero, if_neg hne], hprod.trans_le hle, fun h => ?_⟩
  have hnat := congrArg toNat h
  rw [hprod] at hnat
  have hq : a.toNat * d.toNat / w.toNat = 0 := (Nat.mul_eq_zero.mp hnat).resolve_left hpos.ne'
  rcases hround with h0 | ⟨-, hge⟩
  · exact h0
  · exact absurd hq (div_pos hge hpos).ne'

variable {q} {se : LoadEntity} {now : UInt64}

theorem attachEntityLoadAvg_tracked (h : q.Tracked)
    (hkept : (DecayCall.attach se).Kept q) :
    ∃ r, attachEntityLoadAvg q se = some r ∧ r.1.Tracked := by
  obtain ⟨hutil, hload, hweight, hround⟩ := hkept
  have hdiv := toNat_divider h.contrib
  have hpos : 0 < q.avg.divider.toNat := by
    rw [hdiv]
    exact Nat.add_pos_left (by decide) _
  rw [← hdiv] at hutil hload hround
  have hutilSum : (se.avg.utilAvg * q.avg.divider.toUInt64).toUInt32.toNat =
      se.avg.utilAvg.toNat * q.avg.divider.toNat := by
    rw [UInt64.toNat_toUInt32, UInt64.toNat_mul, UInt32.toNat_toUInt64,
      mod_eq_of_lt (by omega), mod_eq_of_lt (by omega)]
  obtain ⟨sum, hsum, hle, hzero⟩ := attachedLoad hweight (by omega) hround
  refine ⟨_, by rw [attachEntityLoadAvg]; dsimp only; rw [hsum]; rfl, h.contrib, ?_, ?_,
    h.synced.runnable⟩
  · exact add_synced (by omega) h.synced.load hzero
  · refine add_synced32 (by omega) h.synced.util fun h0 => ?_
    have hnat := congrArg UInt32.toNat h0
    rw [hutilSum] at hnat
    exact UInt64.toNat_inj.mp ((Nat.mul_eq_zero.mp hnat).resolve_right hpos.ne')

theorem detachEntityLoadAvg_tracked (h : q.Tracked)
    (hkept : (DecayCall.detach se).Kept q) : (detachEntityLoadAvg q se).Tracked :=
  ⟨h.contrib, subPositive_synced hkept.1, subPositive32_synced hkept.2, h.synced.runnable⟩

/-- What was removed is only noted. -/
theorem removeEntityLoadAvg_tracked (h : q.Tracked)
    (hkept : (DecayCall.remove se).Kept q) :
    ∃ r, removeEntityLoadAvg q se = some r ∧ r.1.Tracked := by
  obtain ⟨r, hr, -⟩ :=
    (updateLoadAvgBlockedSe q.avg.lastUpdateTime se.weight se.runnable).step_cases hkept
  exact ⟨_, by rw [removeEntityLoadAvg, hr]; rfl, h.contrib, h.synced⟩

theorem foldRemoved_tracked (h : q.Tracked) (hkept : q.removed.nr = 0 ∨ q.FoldKept) :
    (foldRemoved q).Tracked := by
  rw [foldRemoved]
  split_ifs with hnr
  · obtain ⟨hload, hutil⟩ := hkept.resolve_left hnr
    exact ⟨h.contrib, subPositive_synced hload, subPositive32_synced hutil, h.synced.runnable⟩
  · exact h

/-- What the subtraction leaves alone, and that the sums do not grow. -/
theorem foldRemoved_spec :
    (foldRemoved q).loadWeight = q.loadWeight ∧ (∀ now, (foldRemoved q).pelt now = q.pelt now) ∧
      (∀ u : PeltUpdate, u.periods (foldRemoved q).avg = u.periods q.avg) ∧
      (foldRemoved q).avg.periodContrib = q.avg.periodContrib ∧
      (q.Room → (foldRemoved q).Room) := by
  rw [foldRemoved]
  split_ifs with hnr
  · refine ⟨rfl, fun _ => rfl, fun _ => rfl, rfl, fun hroom => ?_⟩
    have hload := subPositive_le q.avg.loadSum (q.removed.loadAvg * q.avg.divider.toUInt64)
    have hutil := subPositive32_le q.avg.utilSum
      (q.removed.utilAvg * q.avg.divider.toUInt64).toUInt32
    exact ⟨(Nat.add_le_add_right hload _).trans_lt hroom.1, hroom.2.1,
      (Nat.add_le_add_right hutil _).trans_lt hroom.2.2⟩
  · exact ⟨rfl, fun _ => rfl, fun _ => rfl, rfl, id⟩

/-- Less than a period adds to the sums, and takes none of them to 0. -/
theorem CfsRqLoad.sum_synced (h : q.Tracked)
    (hperiods : (q.pelt now).periods q.avg = 0) (hroom : scaleLoadDown q.loadWeight = 0 ∨ q.Room) :
    ((q.pelt now).sum q.avg).1.Synced := by
  obtain ⟨hacc, -⟩ := (q.pelt now).sum_spec h.contrib
  obtain ⟨hload, hutil, hrunnable⟩ := (q.pelt now).sum_avgs q.avg
  have hunits : (q.pelt now).units q.avg < 1024 := by
    have := lt_of_div_eq_zero (by decide) hperiods
    omega
  have hcontribution : contribution q.avg.periodContrib.toNat ((q.pelt now).units q.avg) =
      (q.pelt now).units q.avg := if_pos hperiods
  have haged : ∀ v, aged (crossed q.avg.periodContrib.toNat ((q.pelt now).units q.avg)) v = v :=
    fun v => if_pos hperiods
  have hloadSum := hacc.loadSum
  have hrunnableSum := hacc.runnableLoadSum
  have hutilSum := hacc.utilSum
  rw [haged, hcontribution] at hloadSum hrunnableSum hutilSum
  have hloadRoom : q.avg.loadSum.toNat + (q.pelt now).load.toNat * (q.pelt now).units q.avg <
      2 ^ 64 := by
    rcases hroom with hzero | hroom
    · rw [show (q.pelt now).load = 0 from hzero, show (0 : UInt64).toNat = 0 from rfl, Nat.zero_mul]
      exact toNat_lt _
    · exact (Nat.add_le_add_left (Nat.mul_le_mul_left _ hunits.le) _).trans_lt hroom.1
  have hrunnableRoom : q.avg.runnableLoadSum.toNat + (if (q.pelt now).load = 0 then 0
      else (q.pelt now).runnable).toNat * (q.pelt now).units q.avg < 2 ^ 64 := by
    rcases hroom with hzero | hroom
    · rw [if_pos (show (q.pelt now).load = 0 from hzero), show (0 : UInt64).toNat = 0 from rfl,
        Nat.zero_mul]
      exact toNat_lt _
    have hle : (if (q.pelt now).load = 0 then 0 else (q.pelt now).runnable).toNat ≤
        (scaleLoadDown q.runnableWeight).toNat := by
      split_ifs
      · exact zero_le _
      · exact le_rfl
    exact (Nat.add_le_add_left (Nat.mul_le_mul hle hunits.le) _).trans_lt hroom.2.1
  have hutilRoom : q.avg.utilSum.toNat + (if (if (q.pelt now).load = 0 then false
      else (q.pelt now).running) = true then 1024 * (q.pelt now).units q.avg else 0) < 2 ^ 32 := by
    rcases hroom with hzero | hroom
    · rw [if_pos (show (q.pelt now).load = 0 from hzero), if_neg Bool.false_ne_true]
      exact UInt32.toNat_lt _
    · have hfits := hroom.2.2
      split_ifs <;> omega
  rw [mod_eq_of_lt hloadRoom] at hloadSum
  rw [mod_eq_of_lt hrunnableRoom] at hrunnableSum
  rw [mod_eq_of_lt hutilRoom] at hutilSum
  refine ⟨fun hzero => ?_, fun hzero => ?_, fun hzero => ?_⟩
  · rw [hzero] at hloadSum
    rw [hload]
    exact h.synced.load (UInt64.toNat_inj.mp (Nat.eq_zero_of_add_eq_zero_right hloadSum.symm))
  · rw [hzero] at hutilSum
    rw [hutil]
    exact h.synced.util (UInt32.toNat_inj.mp (Nat.eq_zero_of_add_eq_zero_right hutilSum.symm))
  · rw [hzero] at hrunnableSum
    rw [hrunnable]
    exact h.synced.runnable
      (UInt64.toNat_inj.mp (Nat.eq_zero_of_add_eq_zero_right hrunnableSum.symm))

theorem updateCfsRqLoadAvg_tracked (h : q.Tracked)
    (hkept : (DecayCall.update now).Kept q) :
    ∃ r, updateCfsRqLoadAvg now q = some r ∧ r.1.Tracked := by
  obtain ⟨hweight, hpelt, hperiods, hcontrib, hroom⟩ := foldRemoved_spec (q := q)
  have hlt : (foldRemoved q).avg.periodContrib.toNat < 1024 := by
    rw [hcontrib]
    exact h.contrib
  obtain ⟨r, hr, hc, hcase⟩ := ((foldRemoved q).pelt now).step_cases hlt
  refine ⟨_, by rw [updateCfsRqLoadAvg, hr]; rfl, hc, ?_⟩
  rcases hcase with hsync | ⟨hnone, hsum⟩
  · exact hsync
  rw [hpelt, hperiods] at hnone
  obtain ⟨hzero, hfold, hwrap⟩ := hkept.resolve_left (not_not.mpr hnone)
  dsimp only
  rw [hsum]
  refine (foldRemoved q).sum_synced (foldRemoved_tracked h hfold) ?_ ?_
  · rw [hpelt, hperiods]
    exact hzero
  · rw [hweight]
    exact hwrap.imp_right hroom

/-! ## Every history -/

theorem DecayCall.run_tracked (h : q.Tracked) {c : DecayCall} (hkept : c.Kept q) :
    ∃ r, c.run q = some r ∧ r.1.Tracked := by
  cases c with
  | attach se =>
    obtain ⟨r, hr, h'⟩ := attachEntityLoadAvg_tracked h hkept
    exact ⟨(r.1, ()), by rw [DecayCall.run, hr]; rfl, h'⟩
  | detach se => exact ⟨_, rfl, detachEntityLoadAvg_tracked h hkept⟩
  | remove se =>
    obtain ⟨r, hr, h'⟩ := removeEntityLoadAvg_tracked h hkept
    exact ⟨(r.1, ()), by rw [DecayCall.run, hr]; rfl, h'⟩
  | update now =>
    obtain ⟨r, hr, h'⟩ := updateCfsRqLoadAvg_tracked h hkept
    exact ⟨(r.1, ()), by rw [DecayCall.run, hr]; rfl, h'⟩
  | weights w r curr => exact ⟨_, rfl, h.contrib, h.synced⟩

/-- `cfs_rq_is_decayed` looks at the sums. -/
theorem sums_of_decayed (h : cfsRqIsDecayed q = true) :
    q.avg.loadSum = 0 ∧ q.avg.utilSum = 0 ∧ q.avg.runnableLoadSum = 0 := by
  rw [cfsRqIsDecayed] at h
  split_ifs at h with hw hload hutil hrunnable
  exact ⟨not_not.mp hload, not_not.mp hutil, not_not.mp hrunnable⟩

/-- A history whose calls all keep sums and averages together : a queue that is judged decayed
carries no load. -/
theorem decayRun_no_load (ops : List DecayCall)
    (h : CallsMeet DecayCall.run (fun q c => DecayCall.Kept q c) CfsRqLoad.zeroed ops) :
    ∃ r, runCalls DecayCall.run CfsRqLoad.zeroed ops = some r ∧
      (cfsRqIsDecayed r.1 = true → r.1.avg.loadAvg = 0 ∧ r.1.avg.utilAvg = 0 ∧
        r.1.avg.runnableLoadAvg = 0) := by
  obtain ⟨r, hr, htracked⟩ := runCalls_invariant CfsRqLoad.Tracked
    (fun q c => DecayCall.Kept q c) (fun q c hq hc => DecayCall.run_tracked hq hc)
    CfsRqLoad.tracked_zeroed h
  refine ⟨r, hr, fun hdecayed => ?_⟩
  obtain ⟨hload, hutil, hrunnable⟩ := sums_of_decayed hdecayed
  exact ⟨htracked.synced.load hload, htracked.synced.util hutil, htracked.synced.runnable hrunnable⟩

/-- An entity of the default weight whose averages are `a`. -/
def loadEntityOf (a : UInt64) : LoadEntity :=
  ⟨1048576, 1048576, { SchedAvg.zeroed with loadAvg := a, utilAvg := a }⟩

/-- The entity after `attach_entity_load_avg` at the start of a period. -/
def attachedEntityOf (a : UInt64) : LoadEntity :=
  ⟨1048576, 1048576, { SchedAvg.zeroed with
    loadAvg := a
    utilAvg := a
    utilSum := (a * 46718).toUInt32
    loadSum := a * 46718 / 1024
    runnableLoadSum := a * 46718 / 1024 }⟩

/-- The only entity leaves, and its load with it. -/
theorem decayRun_no_load_single :
    CallsMeet DecayCall.run (fun q c => DecayCall.Kept q c) CfsRqLoad.zeroed
      [.attach (loadEntityOf 47), .update (1023 * 1024), .remove (attachedEntityOf 47),
        .update (1023 * 1024)] ∧
    ∃ r, runCalls DecayCall.run CfsRqLoad.zeroed
        [.attach (loadEntityOf 47), .update (1023 * 1024), .remove (attachedEntityOf 47),
          .update (1023 * 1024)] = some r ∧
      (cfsRqIsDecayed r.1 = true → r.1.avg.loadAvg = 0 ∧ r.1.avg.utilAvg = 0 ∧
        r.1.avg.runnableLoadAvg = 0) := by
  have h : CallsMeet DecayCall.run (fun q c => DecayCall.Kept q c) CfsRqLoad.zeroed
      [.attach (loadEntityOf 47), .update (1023 * 1024), .remove (attachedEntityOf 47),
        .update (1023 * 1024)] := by
    decide +kernel
  exact ⟨h, decayRun_no_load _ h⟩

/-- Two entities are attached at the start of a period and one leaves at its end : 47 times the
larger divider exhausts the sums, and an average of 1 stays. -/
theorem decayRun_strands_load :
    ∃ r, runCalls DecayCall.run CfsRqLoad.zeroed
        [.attach (loadEntityOf 47), .attach (loadEntityOf 1), .update (1023 * 1024),
          .remove (attachedEntityOf 47), .update (1023 * 1024)] = some r ∧
      cfsRqIsDecayed r.1 = true ∧ r.1.avg.loadAvg = 1 ∧ r.1.avg.utilAvg = 1 := by
  have hrun : ((runCalls DecayCall.run CfsRqLoad.zeroed
      [.attach (loadEntityOf 47), .attach (loadEntityOf 1), .update (1023 * 1024),
        .remove (attachedEntityOf 47), .update (1023 * 1024)]).map fun r =>
          (cfsRqIsDecayed r.1, r.1.avg.loadAvg, r.1.avg.utilAvg)) = some (true, 1, 1) := by
    decide +kernel
  obtain ⟨r, hr, hvalue⟩ := Option.map_eq_some_iff.mp hrun
  have hvalues := Prod.mk.inj hvalue
  exact ⟨r, hr, hvalues.1, Prod.mk.inj hvalues.2⟩

end LinuxKernelTest
