import LinuxKernelTest.DlAdmission
import LinuxKernelTest.RoseTree
import LinuxKernelTest.Machine

/-!
# The bandwidths of the groups of real-time tasks

Every task group may use `rt_runtime` in every `rt_period` for its real-time tasks, its child
groups included. `tg_set_rt_bandwidth` of `kernel/sched/rt.c` checks a new value in one walk over
the tree of all groups, in which `tg_rt_schedulable` puts the new value in the place of the old one
wherever it meets the group, as a parent or as a child.

Bandwidths are compared as ratios in 20 binary places, so the exact ones are feasible up to
`1 / 2^20` for each group that is compared (`RtTree.Feasible`). The sums of ratios do not wrap : a
call changes one child of one group, and the sum before it was at most a ratio
(`RtTree.Level.substitute`).
-/

set_option linter.unusedSectionVars false

namespace LinuxKernelTest

open Function List RoseTree Nat

/-! ## The model -/

/-- `struct rt_bandwidth`. -/
structure RtBandwidth where
  rtPeriod : BitVec 64
  rtRuntime : BitVec 64
deriving DecidableEq, Repr

/-- `sysctl_sched_rt_period`, an `unsigned int`, and `sysctl_sched_rt_runtime`, an `int`. -/
structure RtSysctl where
  schedRtPeriod : BitVec 32
  schedRtRuntime : BitVec 32
deriving DecidableEq, Repr

variable (sys : RtSysctl)

/-- `global_rt_period`. -/
def RtSysctl.globalRtPeriod : BitVec 64 := sys.schedRtPeriod.setWidth 64 * 1000

/-- `global_rt_runtime`. -/
def RtSysctl.globalRtRuntime : BitVec 64 :=
  if sys.schedRtRuntime.toInt < 0 then runtimeInf else sys.schedRtRuntime.signExtend 64 * 1000

/-- `rt_bandwidth_enabled`. -/
def RtSysctl.rtBandwidthEnabled : Bool := 0 ≤ sys.schedRtRuntime.toInt

/-- The global limit, as a bandwidth. -/
def RtSysctl.limit : RtBandwidth := ⟨sys.globalRtPeriod, sys.globalRtRuntime⟩

/-- `to_ratio` of a bandwidth. -/
def RtBandwidth.ratio (b : RtBandwidth) : BitVec 64 := toRatio b.rtPeriod b.rtRuntime

/-- `struct task_group`, with `rt_runtime` of its run queue on each CPU of `κ`. -/
structure TaskGroup (κ ι : Type) where
  id : ι
  rtBandwidth : RtBandwidth
  rtRqRuntime : κ → BitVec 64

/-- The tree of task groups. -/
abbrev RtTree (κ ι : Type) := RoseTree (TaskGroup κ ι)

/-- `struct rt_schedulable_data`. -/
structure RtSchedulableData (ι : Type) where
  tg : ι
  rtPeriod : BitVec 64
  rtRuntime : BitVec 64

section

variable {κ ι : Type} [DecidableEq ι]

/-- The bandwidth of a group, with the new one in its place. -/
def RtSchedulableData.bandwidth (d : RtSchedulableData ι) (tg : TaskGroup κ ι) : RtBandwidth :=
  if tg.id = d.tg then ⟨d.rtPeriod, d.rtRuntime⟩ else tg.rtBandwidth

/-- `tg_rt_schedulable` : the error, if any. `tgHasRtTasks` says which groups have real-time
tasks. -/
def tgRtSchedulable (tgHasRtTasks : ι → Bool) (d : RtSchedulableData ι)
    (tg : RtTree κ ι) : Option ℤ :=
  let b := d.bandwidth tg.label
  if b.rtPeriod < b.rtRuntime ∧ b.rtRuntime ≠ runtimeInf then some (-22)
  else if sys.rtBandwidthEnabled ∧ b.rtRuntime = 0 ∧ tgHasRtTasks tg.label.id then some (-16)
  else
    let total := b.ratio
    if toRatio sys.globalRtPeriod sys.globalRtRuntime < total then some (-22)
    else
      let sum := tg.children.foldl (fun sum child => sum + (d.bandwidth child.label).ratio) 0
      if total < sum then some (-22) else none

/-- `__rt_schedulable` : `walk_tg_tree` from the root group, which does nothing on the way up. -/
def rtSchedulable (tgHasRtTasks : ι → Bool) (tree : RtTree κ ι)
    (d : RtSchedulableData ι) : Option ℤ :=
  tree.firstError (tgRtSchedulable sys tgHasRtTasks d)

/-- What `tg_set_rt_bandwidth` writes, as a change of a group. -/
def TaskGroup.setRt (d : RtSchedulableData ι) (tg : TaskGroup κ ι) : TaskGroup κ ι :=
  if tg.id = d.tg then ⟨tg.id, ⟨d.rtPeriod, d.rtRuntime⟩, fun _ => d.rtRuntime⟩ else tg

/-- `tg_set_rt_bandwidth` : the tree after it and the return value. -/
def tgSetRtBandwidth (tgHasRtTasks : ι → Bool) (tree : RtTree κ ι) (tg : ι)
    (rtPeriod rtRuntime : BitVec 64) : RtTree κ ι × ℤ :=
  if tg = tree.label.id ∧ rtRuntime = 0 then (tree, -22)
  else if rtPeriod = 0 then (tree, -22)
  else
    match rtSchedulable sys tgHasRtTasks tree ⟨tg, rtPeriod, rtRuntime⟩ with
    | some err => (tree, err)
    | none => (tree.edit (TaskGroup.setRt ⟨tg, rtPeriod, rtRuntime⟩) (fun _ cs => cs), 0)

/-- The group that `sched_create_group` makes : the default period and no runtime. -/
def schedCreateGroup (g : ι) : TaskGroup κ ι :=
  ⟨g, ⟨sys.globalRtPeriod, 0⟩, fun _ => 0⟩

variable (tree : RtTree κ ι) {α : Type*} {l : List α}

/-- `sched_online_group` of a new group. -/
def schedOnlineGroup (g parent : ι) : RtTree κ ι :=
  tree.edit (fun tg => tg) fun tg cs =>
    if tg.id = parent then .node (schedCreateGroup sys g) [] :: cs else cs

/-- `sched_offline_group`. -/
def schedOfflineGroup (g : ι) : RtTree κ ι :=
  tree.edit (fun tg => tg) fun _ cs => cs.filter fun c => c.label.id ≠ g

/-- The root group after `sched_init`. -/
def rtSchedInit (root : ι) : RtTree κ ι :=
  .node ⟨root, ⟨sys.globalRtPeriod, sys.globalRtRuntime⟩, fun _ => sys.globalRtRuntime⟩ []

/-- A call that changes the groups or their bandwidths. -/
inductive RtGroupCall (ι : Type)
  | online (g parent : ι)
  | offline (g : ι)
  | setBandwidth (tg : ι) (rtPeriod rtRuntime : BitVec 64) (tgHasRtTasks : ι → Bool)

/-- One call : the tree after it and the return value. -/
def RtGroupCall.step : RtGroupCall ι → Option (RtTree κ ι × ℤ)
  | online g parent => some (schedOnlineGroup sys tree g parent, 0)
  | offline g => some (schedOfflineGroup tree g, 0)
  | setBandwidth tg rtPeriod rtRuntime tgHasRtTasks =>
    some (tgSetRtBandwidth sys tgHasRtTasks tree tg rtPeriod rtRuntime)

/-- A runtime that is infinite or that the shift of `to_ratio` does not cut. -/
def RtBandwidth.Fits (b : RtBandwidth) : Prop :=
  b.rtRuntime = runtimeInf ∨ b.rtRuntime.toNat < 2 ^ 44

instance RtBandwidth.decidableFits (b : RtBandwidth) : Decidable b.Fits :=
  inferInstanceAs (Decidable (_ ∨ _))

/-- A new group is none of the tree, and a new runtime does not make `to_ratio` wrap. -/
def RtGroupCall.Orderly : RtGroupCall ι → Prop
  | online g _ => ∀ s ∈ tree.subtrees, s.label.id ≠ g
  | offline _ => True
  | setBandwidth _ rtPeriod rtRuntime _ => (⟨rtPeriod, rtRuntime⟩ : RtBandwidth).Fits

instance RtGroupCall.decidableOrderly (tree : RtTree κ ι) :
    ∀ call : RtGroupCall ι, Decidable (call.Orderly tree)
  | .online g _ => inferInstanceAs (Decidable (∀ s ∈ tree.subtrees, s.label.id ≠ g))
  | .offline _ => isTrue trivial
  | .setBandwidth _ rtPeriod rtRuntime _ =>
    inferInstanceAs (Decidable (⟨rtPeriod, rtRuntime⟩ : RtBandwidth).Fits)

/-- The share of a CPU that a bandwidth stands for ; an infinite runtime counts as a whole CPU. -/
def RtBandwidth.share (b : RtBandwidth) : ℚ :=
  if b.rtRuntime = runtimeInf then 1 else b.rtRuntime.toNat / b.rtPeriod.toNat

/-- Every group is within the global limit, and the children of a group within the group, up to the
rounding of each ratio. -/
structure RtTree.Feasible (sys : RtSysctl) (tree : RtTree κ ι) : Prop where
  limit : ∀ s ∈ tree.subtrees, s.label.rtBandwidth.share < sys.limit.share + 1 / 2 ^ bwShift
  sum : ∀ s ∈ tree.subtrees, (s.children.map fun c => c.label.rtBandwidth.share).sum ≤
    s.label.rtBandwidth.share + s.children.length / 2 ^ bwShift

/-! ## Ratios -/

/-- The share of a bandwidth in units of `1 / 2^20`, rounded down. -/
theorem RtBandwidth.share_bounds {b : RtBandwidth} (h : b.Fits) :
    (b.ratio.toNat : ℚ) ≤ b.share * 2 ^ bwShift ∧ b.share * 2 ^ bwShift < b.ratio.toNat + 1 := by
  rw [ratio, share]
  by_cases hinf : b.rtRuntime = runtimeInf
  · have hunit : (toRatio b.rtPeriod b.rtRuntime).toNat = 2 ^ bwShift := by
      rw [toRatio, if_pos hinf]
      decide
    rw [if_pos hinf, hunit, one_mul]
    push_cast
    exact ⟨le_rfl, lt_add_one _⟩
  by_cases hzero : b.rtPeriod = 0
  · rw [if_neg hinf, toRatio, if_neg hinf, if_pos hzero, hzero]
    simp
  have hpos : (0 : ℚ) < b.rtPeriod.toNat := by
    have : b.rtPeriod.toNat ≠ 0 := fun h0 => hzero (BitVec.eq_of_toNat_eq h0)
    exact_mod_cast pos_of_ne_zero this
  rw [if_neg hinf, toNat_toRatio (h.resolve_left hinf) hzero, div_mul_eq_mul_div]
  constructor
  · rw [le_div_iff₀ hpos]
    exact_mod_cast div_mul_le_self _ _
  · rw [div_lt_iff₀ hpos]
    exact_mod_cast lt_mul_of_div_lt (lt_succ_self _) (by exact_mod_cast hpos)

/-- The global runtime is a number of microseconds in an `int`. -/
theorem RtSysctl.globalRtRuntime_cases :
    sys.globalRtRuntime = runtimeInf ∨ sys.globalRtRuntime.toNat < 2 ^ 42 := by
  rw [globalRtRuntime]
  split_ifs with hneg
  · exact .inl rfl
  · have hmsb : sys.schedRtRuntime.msb = false := by
      rw [BitVec.msb_eq_toInt]
      simpa using hneg
    have hthousand : (1000 : BitVec 64).toNat = 1000 := by decide
    rw [BitVec.signExtend_eq_setWidth_of_msb_false hmsb, BitVec.toNat_mul, BitVec.toNat_setWidth,
      hthousand, mod_eq_of_lt (by omega), mod_eq_of_lt (by omega)]
    omega

theorem RtSysctl.limit_fits : sys.limit.Fits :=
  sys.globalRtRuntime_cases.imp_right fun h => h.trans (by decide)

/-- Two ratios within the limit add up without wrapping. -/
theorem RtSysctl.limit_ratio_lt : sys.limit.ratio.toNat < 2 ^ 63 := by
  rw [RtBandwidth.ratio, limit, toRatio]
  split_ifs with hinf hzero
  · decide
  · decide
  · have hlt := sys.globalRtRuntime_cases.resolve_left hinf
    rw [BitVec.toNat_udiv, BitVec.toNat_shiftLeft, shiftLeft_eq]
    refine (div_le_self _ _).trans_lt ((mod_le _ _).trans_lt ?_)
    exact (Nat.mul_lt_mul_of_pos_right hlt (Nat.two_pow_pos _)).trans (by decide)

/-! ## Sums over the children -/

/-- A sum of words that does not wrap. -/
theorem toNat_foldl_add (f : α → BitVec 64) (l : List α) (a : BitVec 64)
    (h : a.toNat + (l.map fun x => (f x).toNat).sum < 2 ^ 64) :
    (l.foldl (fun sum x => sum + f x) a).toNat = a.toNat + (l.map fun x => (f x).toNat).sum := by
  induction l generalizing a with
  | nil => rfl
  | cons x l ih =>
    rw [map_cons, sum_cons] at h ⊢
    have hadd : (a + f x).toNat = a.toNat + (f x).toNat := BitVec.toNat_add_of_lt (by omega)
    rw [foldl_cons, ih _ (by omega), hadd, add_assoc]

/-- A change of the terms of one identity adds at most one bound to a sum. -/
theorem sum_map_le_add {id : α → ι} {f g : α → ℕ} {k : ι} {m : ℕ}
    (hnodup : (l.map id).Nodup) (hg : ∀ x ∈ l, g x ≤ m) (heq : ∀ x ∈ l, id x ≠ k → g x = f x) :
    (l.map g).sum ≤ (l.map f).sum + m := by
  induction l with
  | nil => simp
  | cons x l ih =>
    rw [map_cons, nodup_cons] at hnodup
    rw [forall_mem_cons] at hg heq
    simp only [map_cons, sum_cons]
    by_cases hx : id x = k
    · -- No other term has the identity of `x`.
      have hrest : l.map g = l.map f := map_congr_left fun y hy =>
        heq.2 y hy fun hyk => hnodup.1 (mem_map.mpr ⟨y, hy, hyk.trans hx.symm⟩)
      rw [hrest]
      omega
    · have := ih hnodup.2 hg.2 heq.2
      have := heq.1 hx
      omega

/-! ## One call -/

/-- What the checks of `tg_rt_schedulable` keep at every group, as exact numbers. -/
structure RtTree.Level (sys : RtSysctl) (s : RtTree κ ι) : Prop where
  nodup : (s.children.map fun c => c.label.id).Nodup
  fits : s.label.rtBandwidth.Fits
  limit : s.label.rtBandwidth.ratio.toNat ≤ sys.limit.ratio.toNat
  sum : (s.children.map fun c => c.label.rtBandwidth.ratio.toNat).sum ≤
    s.label.rtBandwidth.ratio.toNat

/-- Every group of a tree keeps it. -/
def RtTree.Leveled : Prop :=
  ∀ s ∈ tree.subtrees, RtTree.Level sys s

variable {sys : RtSysctl} {tgHasRtTasks : ι → Bool} {d : RtSchedulableData ι} {tree s : RtTree κ ι}

/-- Two of the checks of a group that passes. -/
theorem le_of_tgRtSchedulable (h : tgRtSchedulable sys tgHasRtTasks d s = none) :
    (d.bandwidth s.label).ratio.toNat ≤ sys.limit.ratio.toNat ∧
    (s.children.foldl (fun sum child => sum + (d.bandwidth child.label).ratio) 0).toNat ≤
      (d.bandwidth s.label).ratio.toNat := by
  simp only [tgRtSchedulable] at h
  split_ifs at h with hperiod htasks hlimit hsum
  exact ⟨BitVec.le_def.mp (BitVec.not_lt.mp hlimit), BitVec.le_def.mp (BitVec.not_lt.mp hsum)⟩

theorem TaskGroup.id_setRt (tg : TaskGroup κ ι) : (tg.setRt d).id = tg.id := by
  rw [setRt]
  split_ifs <;> rfl

theorem TaskGroup.rtBandwidth_setRt (tg : TaskGroup κ ι) :
    (tg.setRt d).rtBandwidth = d.bandwidth tg := by
  rw [setRt, RtSchedulableData.bandwidth]
  split_ifs <;> rfl

/-- The walk substitutes the new value, and so keeps what holds of the exact sums. -/
theorem RtTree.Level.substitute (h : RtTree.Level sys s)
    (hfits : (⟨d.rtPeriod, d.rtRuntime⟩ : RtBandwidth).Fits)
    (hself : tgRtSchedulable sys tgHasRtTasks d s = none)
    (hchildren : ∀ c ∈ s.children, tgRtSchedulable sys tgHasRtTasks d c = none) :
    RtTree.Level sys (s.edit (TaskGroup.setRt d) fun _ cs => cs) := by
  obtain ⟨hlimit, hsum⟩ := le_of_tgRtSchedulable hself
  have hexact : (s.children.map fun c => (d.bandwidth c.label).ratio.toNat).sum ≤
      (s.children.map fun c => c.label.rtBandwidth.ratio.toNat).sum + sys.limit.ratio.toNat := by
    refine sum_map_le_add (k := d.tg) h.nodup
      (fun c hc => (le_of_tgRtSchedulable (hchildren c hc)).1) fun c _ hne => ?_
    rw [RtSchedulableData.bandwidth, if_neg hne]
  have hroom := sys.limit_ratio_lt
  have hzero : (0 : BitVec 64).toNat = 0 := rfl
  have hfold := toNat_foldl_add (fun c : RoseTree (TaskGroup κ ι) => (d.bandwidth c.label).ratio)
    s.children 0
    (by have := h.sum; have := h.limit; rw [hzero]; omega)
  constructor
  · simpa [comp_def, TaskGroup.id_setRt] using h.nodup
  · rw [label_edit, TaskGroup.rtBandwidth_setRt, RtSchedulableData.bandwidth]
    split_ifs
    · exact hfits
    · exact h.fits
  · rwa [label_edit, TaskGroup.rtBandwidth_setRt]
  · rw [hfold, hzero, zero_add] at hsum
    simpa [comp_def, TaskGroup.rtBandwidth_setRt] using hsum

variable {rtPeriod rtRuntime : BitVec 64} {tg : ι}

/-- A call that is refused changes nothing. -/
theorem tgSetRtBandwidth_refuses
    (h : (tgSetRtBandwidth sys tgHasRtTasks tree tg rtPeriod rtRuntime).2 ≠ 0) :
    (tgSetRtBandwidth sys tgHasRtTasks tree tg rtPeriod rtRuntime).1 = tree := by
  revert h
  rw [tgSetRtBandwidth]
  split_ifs
  · exact fun _ => rfl
  · exact fun _ => rfl
  · split
    · exact fun _ => rfl
    · exact fun h => absurd rfl h

variable (h : RtTree.Leveled sys tree)
include h

theorem tgSetRtBandwidth_level
    (hfits : (⟨rtPeriod, rtRuntime⟩ : RtBandwidth).Fits) :
    RtTree.Leveled sys (tgSetRtBandwidth sys tgHasRtTasks tree tg rtPeriod rtRuntime).1 := by
  rw [tgSetRtBandwidth]
  split_ifs
  · exact h
  · exact h
  · split
    · exact h
    · rename_i hok
      rw [rtSchedulable, firstError_eq_none] at hok
      intro s hs
      obtain hnone | ⟨s0, hs0, rfl⟩ := mem_subtrees_edit (E := fun _ => False)
        (fun _ hE => hE.elim) (fun _ _ c hc => .inl hc) hs
      · exact hnone.elim
      · exact (h s0 hs0).substitute hfits (hok s0 hs0) fun c hc =>
          hok c (child_mem_subtrees hs0 hc)

/-- A new group has no runtime, and adds nothing to the sum of its parent. -/
theorem schedOnlineGroup_level {g parent : ι}
    (hnew : ∀ s ∈ tree.subtrees, s.label.id ≠ g) :
    RtTree.Leveled sys (schedOnlineGroup sys tree g parent) := by
  have hzero : (toRatio sys.globalRtPeriod 0#64).toNat = 0 := by
    rw [toRatio]
    split_ifs with hinf hp
    · exact absurd hinf (by decide)
    · rfl
    · simp
  intro s hs
  obtain rfl | ⟨s0, hs0, rfl⟩ := mem_subtrees_edit
    (E := (· = .node (schedCreateGroup sys g) []))
    (by rintro c rfl s hs; simpa [mem_subtrees] using hs)
    (by intro tg cs c hc; split_ifs at hc <;> simp_all [or_comm]) hs
  · refine ⟨by simp, .inr (by simp [schedCreateGroup]), ?_, by simp⟩
    simp [schedCreateGroup, RtBandwidth.ratio, hzero]
  have h0 := h s0 hs0
  have hfresh : g ∉ s0.children.map fun c => c.label.id := by
    rintro hmem
    obtain ⟨c, hc, rfl⟩ := mem_map.mp hmem
    exact hnew c (child_mem_subtrees hs0 hc) rfl
  constructor
  · rw [children_edit]
    split_ifs
    · simpa [comp_def, schedCreateGroup] using ⟨by simpa using hfresh, h0.nodup⟩
    · simpa [comp_def] using h0.nodup
  · simpa using h0.fits
  · simpa using h0.limit
  · rw [children_edit, label_edit]
    split_ifs
    · simpa [comp_def, schedCreateGroup, RtBandwidth.ratio, hzero] using h0.sum
    · simpa [comp_def] using h0.sum

theorem schedOfflineGroup_level {g : ι} :
    RtTree.Leveled sys (schedOfflineGroup tree g) := by
  intro s hs
  obtain hnone | ⟨s0, hs0, rfl⟩ := mem_subtrees_edit (E := fun _ => False)
    (fun _ hE => hE.elim) (fun _ _ c hc => .inl (mem_of_mem_filter hc)) hs
  · exact hnone.elim
  have h0 := h s0 hs0
  have hsub : ∀ cs : List (RtTree κ ι), (cs.filter fun c => c.label.id ≠ g).Sublist cs :=
    fun cs => filter_sublist
  constructor
  · rw [children_edit]
    refine List.Nodup.sublist ((hsub _).map _) ?_
    simpa [comp_def] using h0.nodup
  · simpa using h0.fits
  · simpa using h0.limit
  · rw [children_edit, label_edit]
    refine (((hsub _).map _).sum_le_sum fun _ _ => zero_le _).trans ?_
    simpa [comp_def] using h0.sum

/-! ## Runs -/

omit h in
/-- The shares of several groups, up to the rounding of each. -/
theorem RtBandwidth.sum_share_le {b : α → RtBandwidth}
    (h : ∀ x ∈ l, (b x).Fits) :
    (l.map fun x => (b x).share).sum * 2 ^ bwShift ≤
      ((l.map fun x => (b x).ratio.toNat).sum : ℕ) + l.length := by
  induction l with
  | nil => simp
  | cons x l ih =>
    rw [forall_mem_cons] at h
    have hx := (share_bounds h.1).2.le
    have hrest := ih h.2
    simp only [map_cons, sum_cons, length_cons]
    rw [add_mul, cast_add, cast_add, cast_one]
    linarith

/-- Ratios that are exact up to rounding bound the shares. -/
theorem RtTree.Leveled.feasible : RtTree.Feasible sys tree := by
  have hunit : (0 : ℚ) < 2 ^ bwShift := by positivity
  constructor
  · intro s hs
    have hlow := (RtBandwidth.share_bounds sys.limit_fits).1
    have hhigh := (RtBandwidth.share_bounds (h s hs).fits).2
    have hle : (s.label.rtBandwidth.ratio.toNat : ℚ) ≤ sys.limit.ratio.toNat := by
      exact_mod_cast (h s hs).limit
    refine lt_of_mul_lt_mul_right ?_ hunit.le
    rw [add_mul, one_div, inv_mul_cancel₀ hunit.ne']
    linarith
  · intro s hs
    have hlow := (RtBandwidth.share_bounds (h s hs).fits).1
    have hchildren := RtBandwidth.sum_share_le
      (b := fun c : RoseTree (TaskGroup κ ι) => c.label.rtBandwidth)
      fun c hc => (h c (child_mem_subtrees hs hc)).fits
    have hsum : (((s.children.map fun c => c.label.rtBandwidth.ratio.toNat).sum : ℕ) : ℚ) ≤
        s.label.rtBandwidth.ratio.toNat := by
      exact_mod_cast (h s hs).sum
    refine le_of_mul_le_mul_right ?_ hunit
    rw [add_mul, div_mul_cancel₀ _ hunit.ne']
    linarith

omit h

theorem rtSchedInit_leveled (root : ι) :
    RtTree.Leveled sys (rtSchedInit sys root : RtTree κ ι) := by
  intro s hs
  obtain rfl : s = rtSchedInit sys root := by
    simpa [rtSchedInit, mem_subtrees] using hs
  exact ⟨by simp [rtSchedInit], sys.limit_fits, le_rfl, by simp [rtSchedInit]⟩

theorem RtGroupCall.step_leveled (tree : RtTree κ ι) (call : RtGroupCall ι)
    (h : RtTree.Leveled sys tree) (hcall : call.Orderly tree) :
    ∃ r, RtGroupCall.step sys tree call = some r ∧ RtTree.Leveled sys r.1 := by
  cases call with
  | online g parent => exact ⟨_, rfl, schedOnlineGroup_level h hcall⟩
  | offline g => exact ⟨_, rfl, schedOfflineGroup_level h⟩
  | setBandwidth tg rtPeriod rtRuntime tgHasRtTasks =>
    exact ⟨_, rfl, tgSetRtBandwidth_level h hcall⟩

/-- **Feasibility of the bandwidths.** After every sequence of calls the bandwidths are feasible,
and a call that then is refused changes nothing. -/
theorem rtRun_feasible {root : ι} {calls : List (RtGroupCall ι)}
    (hcalls : CallsMeet (RtGroupCall.step sys) RtGroupCall.Orderly
      (rtSchedInit sys root : RtTree κ ι) calls) :
    ∃ r, runCalls (RtGroupCall.step sys) (rtSchedInit sys root : RtTree κ ι) calls = some r ∧
      RtTree.Feasible sys r.1 ∧
      ∀ tg rtPeriod rtRuntime tgHasRtTasks,
        (tgSetRtBandwidth sys tgHasRtTasks r.1 tg rtPeriod rtRuntime).2 ≠ 0 →
          (tgSetRtBandwidth sys tgHasRtTasks r.1 tg rtPeriod rtRuntime).1 = r.1 := by
  obtain ⟨r, hrun, hlevel⟩ := runCalls_invariant (RtTree.Leveled sys) RtGroupCall.Orderly
    RtGroupCall.step_leveled (rtSchedInit_leveled root) hcalls
  exact ⟨r, hrun, hlevel.feasible, fun _ _ _ _ => tgSetRtBandwidth_refuses⟩

end

/-- `sysctl_sched_rt_period` and `sysctl_sched_rt_runtime` as they are compiled in. -/
def rtSysctlDefault : RtSysctl := ⟨1000000, 950000⟩

/-- A group in a group with half of a CPU takes a third of one, and then its parent cannot have
less. -/
def rtNested : List (RtGroupCall ℕ) :=
  [.online 1 0, .online 2 1, .setBandwidth 1 1000000 500000 fun _ => false,
    .setBandwidth 2 3000000 1000000 fun _ => false, .setBandwidth 1 1000000 300000 fun _ => false]

theorem rtRun_feasible_nested :
    (runCalls (RtGroupCall.step rtSysctlDefault) (rtSchedInit rtSysctlDefault 0 : RtTree Unit ℕ)
      rtNested).map Prod.snd = some [0, 0, 0, 0, -22] ∧
    ∃ r, runCalls (RtGroupCall.step rtSysctlDefault)
      (rtSchedInit rtSysctlDefault 0 : RtTree Unit ℕ) rtNested = some r ∧
      RtTree.Feasible rtSysctlDefault r.1 := by
  refine ⟨by decide +kernel, ?_⟩
  have hcalls : CallsMeet (RtGroupCall.step rtSysctlDefault) RtGroupCall.Orderly
      (rtSchedInit rtSysctlDefault 0 : RtTree Unit ℕ) rtNested := by
    decide +kernel
  obtain ⟨r, hrun, hfeasible, -⟩ := rtRun_feasible hcalls
  exact ⟨r, hrun, hfeasible⟩

/-- The root group may have a little more than the global limit, within the rounding. -/
theorem rtRun_above_limit :
    ∃ r, runCalls (RtGroupCall.step rtSysctlDefault)
      (rtSchedInit rtSysctlDefault 0 : RtTree Unit ℕ)
      [.setBandwidth 0 1000000001 950000001 fun _ => false] = some r ∧ r.2 = [0] ∧
      rtSysctlDefault.limit.share < r.1.label.rtBandwidth.share :=
  ⟨_, rfl, by decide +kernel, by decide +kernel⟩

end LinuxKernelTest
