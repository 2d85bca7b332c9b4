import LinuxKernelTest.Loop
import LinuxKernelTest.Machine
import Mathlib.Data.BitVec

/-!
# Bandwidth of a task group

A task group with a quota has a pool of runtime, `cfs_b->runtime`, that is set to the quota once a
period. The cfs_rq of each CPU takes slices from the pool into its own `runtime_remaining`
(`assign_cfs_rq_runtime`), charges what its tasks run (`account_cfs_rq_runtime`), gives slack back
when it goes idle (`return_cfs_rq_runtime`), and is throttled when it has none left. The two timers
hand the pool out to the throttled ones (`distribute_cfs_runtime`) : they take the amount out of the
pool only after they have handed it out.

Every function runs under its locks as a whole. The quota is finite, so `cfs_bandwidth_used()` is
true. `unthrottle_cfs_rq` enqueues into the parents' cfs_rqs, which charge the pools of other
groups; of its effects, the model has those on this group. The slice is the unsigned
`sysctl_sched_cfs_bandwidth_slice` in microseconds, a parameter.
-/

set_option linter.unusedSectionVars false

namespace LinuxKernelTest

open Function BitVec List Nat

/-! ## The model -/

/-- `struct cfs_rq`, as far as bandwidth control uses it. -/
structure BwRq where
  runtimeRemaining : BitVec 64
  runtimeEnabled : Bool
  throttled : Bool
  nrRunning : BitVec 32
deriving DecidableEq, Repr

/-- `struct cfs_bandwidth` of a group, for the CPUs `ι`. -/
structure CfsBandwidth (ι : Type) where
  quota : BitVec 64
  runtime : BitVec 64
  idle : Bool
  periodActive : Bool
  distributeRunning : Bool
  slackStarted : Bool
  throttledCfsRq : List ι
deriving DecidableEq, Repr

/-- A task group : its pool, and its cfs_rq on each CPU. -/
structure BwGroup (ι : Type) where
  cfsB : CfsBandwidth ι
  rq : ι → BwRq

/-- `RUNTIME_INF` : no quota. -/
def quotaInf : BitVec 64 := BitVec.allOnes 64

/-- `min_cfs_rq_runtime`. -/
def minCfsRqRuntime : BitVec 64 := 1000000

variable (sysctl : BitVec 32)

/-- `sched_cfs_bandwidth_slice`. -/
def schedCfsBandwidthSlice : BitVec 64 := sysctl.setWidth 64 * 1000

/-- `min` of two `u64`. -/
def minU64 (x y : BitVec 64) : BitVec 64 := if x < y then x else y

/-- `lsub_positive`. -/
def lsubPositive (x v : BitVec 64) : BitVec 64 := x - minU64 x v

section

variable {ι : Type} [DecidableEq ι]
variable (g : BwGroup ι) {x a : BitVec 64}

/-- Write the run queue `i`. -/
def BwGroup.setRq (i : ι) (r : BwRq) : BwGroup ι :=
  { g with rq := update g.rq i r }

/-- Set `runtime_remaining` of a cfs_rq. -/
def BwGroup.setRemaining (i : ι) (v : BitVec 64) : BwGroup ι :=
  g.setRq i { g.rq i with runtimeRemaining := v }

/-- Set the pool. -/
def BwGroup.setRuntime (v : BitVec 64) : BwGroup ι :=
  { g with cfsB := { g.cfsB with runtime := v } }

/-- `start_cfs_bandwidth`. -/
def startCfsBandwidth (b : CfsBandwidth ι) : CfsBandwidth ι :=
  if b.periodActive then b else { b with periodActive := true }

/-- `__refill_cfs_bandwidth_runtime`. -/
def refillCfsBandwidthRuntime (b : CfsBandwidth ι) : CfsBandwidth ι :=
  if b.quota ≠ quotaInf then { b with runtime := b.quota } else b

/-- `assign_cfs_rq_runtime` : the group after it and the return value. -/
def assignCfsRqRuntime (g : BwGroup ι) (i : ι) : BwGroup ι × Bool :=
  let minAmount := schedCfsBandwidthSlice sysctl - (g.rq i).runtimeRemaining
  let (b, amount) :=
    if g.cfsB.quota = quotaInf then (g.cfsB, minAmount)
    else
      let b := startCfsBandwidth g.cfsB
      if 0 < b.runtime then
        let amount := minU64 b.runtime minAmount
        ({ b with runtime := b.runtime - amount, idle := false }, amount)
      else (b, 0)
  let remaining := (g.rq i).runtimeRemaining + amount
  ({ g with cfsB := b }.setRemaining i remaining, 0 < remaining.toInt)

/-- `account_cfs_rq_runtime`. -/
def accountCfsRqRuntime (g : BwGroup ι) (i : ι) (deltaExec : BitVec 64) : BwGroup ι :=
  if !(g.rq i).runtimeEnabled then g
  else
    let g := g.setRemaining i ((g.rq i).runtimeRemaining - deltaExec)
    if 0 < (g.rq i).runtimeRemaining.toInt then g
    else if (g.rq i).throttled then g
    else (assignCfsRqRuntime sysctl g i).1

/-- `start_cfs_slack_bandwidth`; `runtime_refresh_within` is always 0. -/
def startCfsSlackBandwidth (b : CfsBandwidth ι) : CfsBandwidth ι :=
  if b.slackStarted then b else { b with slackStarted := true }

/-- `return_cfs_rq_runtime`. -/
def returnCfsRqRuntime (g : BwGroup ι) (i : ι) : BwGroup ι :=
  if !(g.rq i).runtimeEnabled ∨ (g.rq i).nrRunning ≠ 0 then g
  else
    let slackRuntime := (g.rq i).runtimeRemaining - minCfsRqRuntime
    if slackRuntime.toInt ≤ 0 then g
    else
      let g :=
        if g.cfsB.quota ≠ quotaInf then
          let b := { g.cfsB with runtime := g.cfsB.runtime + slackRuntime }
          let b :=
            if schedCfsBandwidthSlice sysctl < b.runtime ∧ b.throttledCfsRq ≠ [] then
              startCfsSlackBandwidth b
            else b
          { g with cfsB := b }
        else g
      g.setRemaining i ((g.rq i).runtimeRemaining - slackRuntime)

/-- `throttle_cfs_rq` : an already running distribution does not see the new head of the list. -/
def throttleCfsRqBw (i : ι) : BwGroup ι :=
  let b := g.cfsB
  let b' := { b with throttledCfsRq :=
    if b.distributeRunning then i :: b.throttledCfsRq else b.throttledCfsRq ++ [i] }
  { g with cfsB := if b.throttledCfsRq = [] then startCfsBandwidth b' else b' }.setRq i
    { g.rq i with throttled := true }

/-- `check_cfs_rq_runtime`. -/
def checkCfsRqRuntime (i : ι) : BwGroup ι :=
  if !(g.rq i).runtimeEnabled ∨ 0 < (g.rq i).runtimeRemaining.toInt then g
  else if (g.rq i).throttled then g
  else throttleCfsRqBw g i

/-- `unthrottle_cfs_rq`. -/
def unthrottleCfsRqBw (i : ι) : BwGroup ι :=
  { g with cfsB := { g.cfsB with throttledCfsRq := g.cfsB.throttledCfsRq.erase i } }.setRq i
    { g.rq i with throttled := false }

/-- The body of the loop of `distribute_cfs_runtime` for one throttled cfs_rq. -/
def distributeTo (remaining : BitVec 64) (i : ι) : BwGroup ι × BitVec 64 :=
  if !(g.rq i).throttled then (g, remaining)
  else
    let runtime := -(g.rq i).runtimeRemaining + 1
    let runtime := if remaining < runtime then remaining else runtime
    let v := (g.rq i).runtimeRemaining + runtime
    let g := g.setRemaining i v
    (if 0 < v.toInt then unthrottleCfsRqBw g i else g, remaining - runtime)

/-- The loop of `distribute_cfs_runtime`, over the list as it was at the start : an entry that is
removed keeps its link to the next. -/
def distributeLoop : List ι → BwGroup ι → BitVec 64 → BwGroup ι × BitVec 64
  | [], g, remaining => (g, remaining)
  | i :: l, g, remaining =>
    let r := distributeTo g remaining i
    if r.2 = 0 then r else distributeLoop l r.1 r.2

/-- `distribute_cfs_runtime` : the group after it and the amount handed out. -/
def distributeCfsRuntime (remaining : BitVec 64) : BwGroup ι × BitVec 64 :=
  let r := distributeLoop g.cfsB.throttledCfsRq g remaining
  (r.1, remaining - r.2)

/-- Write `distribute_running`. -/
def BwGroup.setDistributeRunning (v : Bool) : BwGroup ι :=
  { g with cfsB := { g.cfsB with distributeRunning := v } }

/-- Hand out the pool, then take out what was handed out. -/
def distributePool : BwGroup ι :=
  let r := distributeCfsRuntime (g.setDistributeRunning true) g.cfsB.runtime
  let g := r.1.setDistributeRunning false
  g.setRuntime (lsubPositive g.cfsB.runtime r.2)

/-- A round of the distribution loop of `do_sched_cfs_period_timer`. -/
def periodRound : Round (BwGroup ι) (BwGroup ι) :=
  if g.cfsB.throttledCfsRq ≠ [] ∧ 0 < g.cfsB.runtime ∧ !g.cfsB.distributeRunning then
    .again (distributePool g)
  else .done g

/-- The distribution loop of `do_sched_cfs_period_timer`. -/
def periodDistribution : Option (BwGroup ι) := runLoop periodRound 2 g

/-- `do_sched_cfs_period_timer` : the group after it and the return value. -/
def doSchedCfsPeriodTimer : Option (BwGroup ι × Bool) :=
  if g.cfsB.quota = quotaInf then some (g, true)
  else if g.cfsB.idle ∧ g.cfsB.throttledCfsRq = [] then some (g, true)
  else
    let g := { g with cfsB := refillCfsBandwidthRuntime g.cfsB }
    if g.cfsB.throttledCfsRq = [] then some ({ g with cfsB := { g.cfsB with idle := true } }, false)
    else
      (periodDistribution g).map fun g => ({ g with cfsB := { g.cfsB with idle := false } }, false)

/-- `do_sched_cfs_slack_timer`; `runtime_refresh_within` is always 0. -/
def doSchedCfsSlackTimer (g : BwGroup ι) : BwGroup ι :=
  let g := { g with cfsB := { g.cfsB with slackStarted := false } }
  if g.cfsB.distributeRunning then g
  else if g.cfsB.quota ≠ quotaInf ∧ schedCfsBandwidthSlice sysctl < g.cfsB.runtime then
    distributePool g
  else g

/-- The calls of a period : those that move runtime, and a check that may throttle. -/
inductive BwCall (ι : Type)
  | account (i : ι) (deltaExec : BitVec 64)
  | giveBack (i : ι)
  | slackTimer
  | periodLoop
  | check (i : ι)
deriving DecidableEq, Repr

/-- A call, and the time it charges. -/
def BwCall.run (g : BwGroup ι) : BwCall ι → Option (BwGroup ι × ℕ)
  | .account i deltaExec =>
    some (accountCfsRqRuntime sysctl g i deltaExec,
      if (g.rq i).runtimeEnabled then deltaExec.toNat else 0)
  | .giveBack i => some (returnCfsRqRuntime sysctl g i, 0)
  | .slackTimer => some (doSchedCfsSlackTimer sysctl g, 0)
  | .periodLoop => (periodDistribution g).map fun g => (g, 0)
  | .check i => some (checkCfsRqRuntime g i, 0)

/-! ## 64-bit arithmetic -/

theorem toInt_add_of_range (h : x.toInt + a.toNat < 2 ^ 63) :
    (x + a).toInt = x.toInt + a.toNat := by
  rw [toInt_eq_toNat_cond, toNat_add]
  rw [toInt_eq_toNat_cond] at h ⊢
  split_ifs at h ⊢ <;> omega

theorem toInt_sub_of_range (h : -2 ^ 63 ≤ x.toInt - a.toNat) :
    (x - a).toInt = x.toInt - a.toNat := by
  rw [toInt_eq_toNat_cond, toNat_sub]
  rw [toInt_eq_toNat_cond] at h ⊢
  split_ifs at h ⊢ <;> omega

theorem toNat_minU64 (x y : BitVec 64) : (minU64 x y).toNat = min x.toNat y.toNat := by
  rw [minU64]
  split_ifs with h <;> rw [lt_def] at h <;> omega

/-- Taking out what was handed out leaves what was not. -/
theorem lsubPositive_sub {x v : BitVec 64} (h : v.toNat ≤ x.toNat) :
    lsubPositive x (x - v) = v := by
  have hsub := toNat_sub_of_le (le_def.mpr h)
  rw [lsubPositive, minU64]
  split_ifs with hlt
  · rw [lt_def, hsub] at hlt
    omega
  · rw [sub_sub_cancel]

/-- A slice is far below the range of `s64`. -/
theorem toNat_slice_lt : (schedCfsBandwidthSlice sysctl).toNat < 2 ^ 42 := by
  rw [schedCfsBandwidthSlice, toNat_mul, toNat_setWidth]
  have h1000 : (1000 : BitVec 64).toNat = 1000 := rfl
  rw [h1000, mod_eq_of_lt (show sysctl.toNat < 2 ^ 64 by omega), mod_eq_of_lt (by omega)]
  omega

/-! ## What is in the pools -/

section Pools

variable [Fintype ι] (g : BwGroup ι) {A : Type}

/-- The runtime of the cfs_rqs, in the arithmetic of the machine. -/
def BwGroup.local64 : BitVec 64 := ∑ i, (g.rq i).runtimeRemaining

/-- The runtime of the cfs_rqs. -/
def BwGroup.localInt : ℤ := ∑ i, (g.rq i).runtimeRemaining.toInt

/-- A sum over the cfs_rqs after one of them has changed. -/
theorem sum_setRq [AddCommGroup A] (f : BwRq → A) (g : BwGroup ι) (i : ι) (r : BwRq) :
    ∑ j, f ((g.setRq i r).rq j) = ∑ j, f (g.rq j) + (f r - f (g.rq i)) := by
  have hcomp : (fun j => f ((g.setRq i r).rq j)) = update (fun j => f (g.rq j)) i (f r) := by
    funext j
    rcases eq_or_ne j i with rfl | hne
    · simp [BwGroup.setRq]
    · simp [BwGroup.setRq, hne]
  have hsum := Finset.add_sum_erase Finset.univ (fun j => f (g.rq j)) (Finset.mem_univ i)
  rw [hcomp, Finset.sum_update_of_mem (Finset.mem_univ i), ← Finset.erase_eq, ← hsum]
  abel

/-- All of the group's runtime, in the arithmetic of the machine. -/
def BwGroup.pool64 : BitVec 64 := g.cfsB.runtime + g.local64

/-- All of the group's runtime. -/
def BwGroup.poolInt : ℤ := g.cfsB.runtime.toNat + g.localInt

/-- The list holds the throttled cfs_rqs. -/
structure BwGroup.Listed (g : BwGroup ι) : Prop where
  nodup : g.cfsB.throttledCfsRq.Nodup
  mem : ∀ i, i ∈ g.cfsB.throttledCfsRq ↔ (g.rq i).throttled = true

/-- The state between two calls of a group with a finite quota. -/
structure BwGroup.Ready (g : BwGroup ι) : Prop where
  listed : g.Listed
  running : g.cfsB.distributeRunning = false
  quota : g.cfsB.quota ≠ quotaInf

/-- No cfs_rq is in debt by as much as `s64` holds, and the throttled ones have nothing left. -/
structure BwGroup.Solvent (g : BwGroup ι) : Prop where
  low : ∀ i, -2 ^ 63 + (minCfsRqRuntime.toNat : ℤ) ≤ (g.rq i).runtimeRemaining.toInt
  throttled : ∀ i, (g.rq i).throttled = true → (g.rq i).runtimeRemaining.toInt ≤ 0

/-- A call that charges `c` keeps the accounts : modulo `2^64` in any case, and exactly if no
arithmetic wraps (`fits`). -/
structure BwGroup.Settles (g g' : BwGroup ι) (c : ℕ) (fits : Prop) : Prop where
  ready : g'.Ready
  pool64 : g'.pool64 + BitVec.ofNat 64 c = g.pool64
  exact : g.Solvent → fits → g'.Solvent ∧ g'.poolInt + c = g.poolInt

theorem BwGroup.Ready.settles_refl {g : BwGroup ι} (h : g.Ready) (fits : Prop) :
    g.Settles g 0 fits :=
  ⟨h, add_zero _, fun hs _ => ⟨hs, by rw [cast_zero, add_zero]⟩⟩

theorem BwGroup.Settles.trans {g g1 g2 : BwGroup ι} {c : ℕ} {fits : Prop}
    (h : g.Settles g1 c fits) (h' : g1.Settles g2 0 True) : g.Settles g2 c fits where
  ready := h'.ready
  pool64 := by
    have h0 := h'.pool64
    rw [BitVec.add_zero] at h0
    rw [h0, h.pool64]
  exact hs hfits := by
    obtain ⟨hs1, h1⟩ := h.exact hs hfits
    obtain ⟨hs2, h2⟩ := h'.exact hs1 trivial
    exact ⟨hs2, by rw [← h1, ← h2, cast_zero, add_zero]⟩

/-! ## Moving runtime between the pool and one cfs_rq -/

/-- The cfs_rq `i` has `v` now; the rest is as it was, but for the pool and the timers. -/
structure BwGroup.Moved (g g' : BwGroup ι) (i : ι) (v : BitVec 64) : Prop where
  rq : g'.rq = update g.rq i { g.rq i with runtimeRemaining := v }
  quota : g'.cfsB.quota = g.cfsB.quota
  list : g'.cfsB.throttledCfsRq = g.cfsB.throttledCfsRq
  running : g'.cfsB.distributeRunning = g.cfsB.distributeRunning

section Moved

variable {g g' : BwGroup ι} {i : ι} {v : BitVec 64}

variable (h : g.Moved g' i v)
include h

theorem BwGroup.Moved.remaining : (g'.rq i).runtimeRemaining = v := by
  rw [h.rq, update_self]

theorem BwGroup.Moved.other {j : ι} (hj : j ≠ i) : g'.rq j = g.rq j := by
  rw [h.rq, update_of_ne hj]

theorem BwGroup.Moved.throttled (j : ι) :
    (g'.rq j).throttled = (g.rq j).throttled := by
  rcases eq_or_ne j i with rfl | hne
  · rw [h.rq, update_self]
  · rw [h.other hne]

theorem BwGroup.Moved.listed (hg : g.Listed) : g'.Listed :=
  ⟨by rw [h.list]; exact hg.nodup, fun j => by rw [h.list, h.throttled]; exact hg.mem j⟩

theorem BwGroup.Moved.ready (hg : g.Ready) : g'.Ready :=
  ⟨h.listed hg.listed, by rw [h.running]; exact hg.running, by rw [h.quota]; exact hg.quota⟩

omit h in
theorem BwGroup.Moved.sum [AddCommGroup A] (f : BitVec 64 → A) (h : g.Moved g' i v) :
    ∑ j, f (g'.rq j).runtimeRemaining =
      ∑ j, f (g.rq j).runtimeRemaining + (f v - f (g.rq i).runtimeRemaining) := by
  have hsum := sum_setRq (fun r => f r.runtimeRemaining) g i
    { g.rq i with runtimeRemaining := v }
  rw [h.rq]
  exact hsum

theorem BwGroup.Moved.local64 :
    g'.local64 = g.local64 + (v - (g.rq i).runtimeRemaining) := h.sum fun x => x

theorem BwGroup.Moved.localInt :
    g'.localInt = g.localInt + (v.toInt - (g.rq i).runtimeRemaining.toInt) := h.sum BitVec.toInt

theorem BwGroup.Moved.solvent (hg : g.Solvent)
    (hlow : -2 ^ 63 + (minCfsRqRuntime.toNat : ℤ) ≤ v.toInt)
    (hthrottled : (g.rq i).throttled = true → v.toInt ≤ 0) : g'.Solvent where
  low j := by
    rcases eq_or_ne j i with rfl | hne
    · rwa [h.remaining]
    · rw [h.other hne]
      exact hg.low j
  throttled j hj := by
    rw [h.throttled] at hj
    rcases eq_or_ne j i with rfl | hne
    · rw [h.remaining]
      exact hthrottled hj
    · rw [h.other hne]
      exact hg.throttled j hj

omit h

end Moved

theorem moved_setRemaining (i : ι) (v : BitVec 64) :
    g.Moved (g.setRemaining i v) i v := ⟨rfl, rfl, rfl, rfl⟩

variable {g} {l : List ι}

/-- A cfs_rq takes an amount out of the pool, at most up to a slice. -/
theorem assignCfsRqRuntime_moved (hg : g.Ready) (i : ι) :
    ∃ a : BitVec 64, a.toNat ≤ g.cfsB.runtime.toNat ∧
      a.toNat ≤ (schedCfsBandwidthSlice sysctl - (g.rq i).runtimeRemaining).toNat ∧
      (assignCfsRqRuntime sysctl g i).1.cfsB.runtime = g.cfsB.runtime - a ∧
      g.Moved (assignCfsRqRuntime sysctl g i).1 i ((g.rq i).runtimeRemaining + a) := by
  have hstart : ∀ b : CfsBandwidth ι, (startCfsBandwidth b).runtime = b.runtime ∧
      (startCfsBandwidth b).quota = b.quota ∧
      (startCfsBandwidth b).throttledCfsRq = b.throttledCfsRq ∧
      (startCfsBandwidth b).distributeRunning = b.distributeRunning := by
    intro b
    rw [startCfsBandwidth]
    split_ifs <;> exact ⟨rfl, rfl, rfl, rfl⟩
  obtain ⟨hruntime, hquota, hlist, hrunning⟩ := hstart g.cfsB
  rw [assignCfsRqRuntime]
  simp only [if_neg hg.quota]
  by_cases hpos : 0 < (startCfsBandwidth g.cfsB).runtime
  · simp only [if_pos hpos]
    refine ⟨minU64 (startCfsBandwidth g.cfsB).runtime
      (schedCfsBandwidthSlice sysctl - (g.rq i).runtimeRemaining), ?_,
      (toNat_minU64 ..).trans_le (min_le_right ..), ?_, rfl, hquota, hlist, hrunning⟩
    · exact (toNat_minU64 ..).trans_le (hruntime ▸ min_le_left ..)
    · exact congrArg (· - _) hruntime
  · simp only [if_neg hpos]
    exact ⟨0, zero_le _, zero_le _, hruntime.trans (sub_zero _).symm, rfl, hquota, hlist, hrunning⟩

theorem assignCfsRqRuntime_settles (hg : g.Ready) {i : ι}
    (hneg : (g.rq i).runtimeRemaining.toInt ≤ 0) (hrun : (g.rq i).throttled = false) :
    g.Settles (assignCfsRqRuntime sysctl g i).1 0 True := by
  obtain ⟨a, hpool, hslice, hruntime, hmoved⟩ := assignCfsRqRuntime_moved sysctl hg i
  have hle := toNat_slice_lt sysctl
  refine ⟨hmoved.ready hg, ?_, fun hs _ => ?_⟩
  · rw [BwGroup.pool64, BwGroup.pool64, hruntime, hmoved.local64, BitVec.add_zero]
    ring
  -- What is missing up to a slice does not wrap, since the cfs_rq has nothing left.
  have hmin : ((schedCfsBandwidthSlice sysctl - (g.rq i).runtimeRemaining).toNat : ℤ) ≤
      (schedCfsBandwidthSlice sysctl).toNat - (g.rq i).runtimeRemaining.toInt := by
    rw [toNat_sub]
    rw [toInt_eq_toNat_cond] at hneg ⊢
    split_ifs at hneg ⊢ <;> omega
  have hadd : ((g.rq i).runtimeRemaining + a).toInt = (g.rq i).runtimeRemaining.toInt + a.toNat :=
    toInt_add_of_range (by omega)
  refine ⟨hmoved.solvent hs ?_ ?_, ?_⟩
  · have := hs.low i
    omega
  · intro h
    rw [hrun] at h
    exact absurd h (by decide)
  · rw [BwGroup.poolInt, BwGroup.poolInt, hruntime, hmoved.localInt, hadd,
      toNat_sub_of_le (le_def.mpr hpool)]
    omega

/-- Charging a cfs_rq, and refilling it from the pool if it has nothing left. -/
theorem accountCfsRqRuntime_settles (hg : g.Ready) (i : ι) (deltaExec : BitVec 64) :
    g.Settles (accountCfsRqRuntime sysctl g i deltaExec)
      (if (g.rq i).runtimeEnabled then deltaExec.toNat else 0)
      ((g.rq i).runtimeEnabled = true → -2 ^ 63 + (minCfsRqRuntime.toNat : ℤ) ≤
        (g.rq i).runtimeRemaining.toInt - deltaExec.toNat) := by
  rw [accountCfsRqRuntime]
  by_cases hen : (g.rq i).runtimeEnabled = true
  case neg =>
    rw [if_pos (by simpa using hen), if_neg hen]
    exact hg.settles_refl _
  set v := (g.rq i).runtimeRemaining - deltaExec with hv
  have hmoved := moved_setRemaining g i v
  have hcharge : g.Settles (g.setRemaining i v) deltaExec.toNat
      ((g.rq i).runtimeEnabled = true → -2 ^ 63 + (minCfsRqRuntime.toNat : ℤ) ≤
        (g.rq i).runtimeRemaining.toInt - deltaExec.toNat) := by
    refine ⟨hmoved.ready hg, ?_, fun hs hfits => ?_⟩
    · rw [BwGroup.pool64, BwGroup.pool64, hmoved.local64, hv, ofNat_toNat, setWidth_eq]
      simp only [BwGroup.setRemaining, BwGroup.setRq]
      ring
    · have hlow := hfits hen
      have hsub : v.toInt = (g.rq i).runtimeRemaining.toInt - deltaExec.toNat :=
        toInt_sub_of_range (by omega)
      refine ⟨hmoved.solvent hs (by omega) fun h => ?_, ?_⟩
      · have := hs.throttled i h
        omega
      · rw [BwGroup.poolInt, BwGroup.poolInt, hmoved.localInt, hsub]
        simp only [BwGroup.setRemaining, BwGroup.setRq]
        omega
  rw [if_neg (by simp [hen]), if_pos hen]
  dsimp only
  split_ifs with hpos hthr
  · exact hcharge
  · exact hcharge
  · exact hcharge.trans (assignCfsRqRuntime_settles sysctl (hmoved.ready hg) (not_lt.mp hpos)
      (by simpa using hthr))

/-- A cfs_rq with slack gives it to the pool. -/
theorem returnCfsRqRuntime_moved (hg : g.Ready) {i : ι}
    (hon : ¬ ((!(g.rq i).runtimeEnabled) = true ∨ (g.rq i).nrRunning ≠ 0))
    (hslack : ¬ ((g.rq i).runtimeRemaining - minCfsRqRuntime).toInt ≤ 0) :
    (returnCfsRqRuntime sysctl g i).cfsB.runtime =
        g.cfsB.runtime + ((g.rq i).runtimeRemaining - minCfsRqRuntime) ∧
      g.Moved (returnCfsRqRuntime sysctl g i) i minCfsRqRuntime := by
  have hrest : (g.rq i).runtimeRemaining - ((g.rq i).runtimeRemaining - minCfsRqRuntime) =
      minCfsRqRuntime := sub_sub_cancel _ _
  rw [returnCfsRqRuntime, if_neg hon]
  rw [if_neg hslack, if_pos hg.quota]
  dsimp only
  rw [hrest]
  split_ifs with hstart
  · rw [startCfsSlackBandwidth]
    split_ifs <;> exact ⟨rfl, rfl, rfl, rfl, rfl⟩
  · exact ⟨rfl, rfl, rfl, rfl, rfl⟩

/-- Giving slack back to the pool, down to `min_cfs_rq_runtime`. -/
theorem returnCfsRqRuntime_settles (hg : g.Ready) (i : ι) :
    g.Settles (returnCfsRqRuntime sysctl g i) 0
      ((g.cfsB.runtime.toNat : ℤ) + (g.rq i).runtimeRemaining.toInt - minCfsRqRuntime.toNat <
        2 ^ 64) := by
  by_cases hon : (!(g.rq i).runtimeEnabled) = true ∨ (g.rq i).nrRunning ≠ 0
  · rw [returnCfsRqRuntime, if_pos hon]
    exact hg.settles_refl _
  by_cases hslack : ((g.rq i).runtimeRemaining - minCfsRqRuntime).toInt ≤ 0
  · rw [returnCfsRqRuntime, if_neg hon]
    rw [if_pos hslack]
    exact hg.settles_refl _
  obtain ⟨hruntime, hmoved⟩ := returnCfsRqRuntime_moved sysctl hg hon hslack
  refine ⟨hmoved.ready hg, ?_, fun hs hfits => ?_⟩
  · rw [BwGroup.pool64, BwGroup.pool64, hruntime, hmoved.local64, BitVec.add_zero]
    ring
  have hlow := hs.low i
  have hsub : ((g.rq i).runtimeRemaining - minCfsRqRuntime).toInt =
      (g.rq i).runtimeRemaining.toInt - minCfsRqRuntime.toNat := toInt_sub_of_range (by omega)
  have hmin : minCfsRqRuntime.toInt = minCfsRqRuntime.toNat := by decide
  have hnat : (((g.rq i).runtimeRemaining - minCfsRqRuntime).toNat : ℤ) =
      (g.rq i).runtimeRemaining.toInt - minCfsRqRuntime.toNat := by
    rw [← hsub]
    rw [toInt_eq_toNat_cond] at hslack ⊢
    have hlt := ((g.rq i).runtimeRemaining - minCfsRqRuntime).isLt
    split_ifs at hslack ⊢ <;> omega
  refine ⟨hmoved.solvent hs (by omega) fun h => ?_, ?_⟩
  · have := hs.throttled i h
    omega
  · rw [BwGroup.poolInt, BwGroup.poolInt, hmoved.localInt, hruntime, toNat_add,
      mod_eq_of_lt (by omega)]
    push_cast
    omega

/-! ## Throttling and distribution -/

/-- A check throttles only a cfs_rq with nothing left, and moves no runtime. -/
theorem checkCfsRqRuntime_settles (hg : g.Ready) (i : ι) :
    g.Settles (checkCfsRqRuntime g i) 0 True := by
  rw [checkCfsRqRuntime]
  split_ifs with hpos hthr
  · exact hg.settles_refl _
  · exact hg.settles_refl _
  · have hneg : (g.rq i).runtimeRemaining.toInt ≤ 0 := not_lt.mp fun h => hpos (.inr h)
    have hrq : (throttleCfsRqBw g i).rq = update g.rq i { g.rq i with throttled := true } := rfl
    have hrem : ∀ j, ((throttleCfsRqBw g i).rq j).runtimeRemaining = (g.rq j).runtimeRemaining := by
      intro j
      rcases eq_or_ne j i with rfl | hne
      · rw [hrq, update_self]
      · rw [hrq, update_of_ne hne]
    have hb : (throttleCfsRqBw g i).cfsB.runtime = g.cfsB.runtime ∧
        (throttleCfsRqBw g i).cfsB.quota = g.cfsB.quota ∧
        (throttleCfsRqBw g i).cfsB.distributeRunning = false ∧
        (throttleCfsRqBw g i).cfsB.throttledCfsRq = g.cfsB.throttledCfsRq ++ [i] := by
      rw [throttleCfsRqBw]
      simp only [hg.running, Bool.false_eq_true, if_false]
      simp only [BwGroup.setRq, startCfsBandwidth]
      split_ifs <;> exact ⟨rfl, rfl, rfl, rfl⟩
    obtain ⟨hruntime, hquota, hrunning, hlist⟩ := hb
    have hnot : i ∉ g.cfsB.throttledCfsRq := fun h => hthr ((hg.listed.mem i).mp h)
    refine ⟨⟨⟨?_, fun j => ?_⟩, hrunning, by rw [hquota]; exact hg.quota⟩, ?_,
      fun hs _ => ⟨⟨?_, ?_⟩, ?_⟩⟩
    · rw [hlist, nodup_append]
      refine ⟨hg.listed.nodup, nodup_singleton i, ?_⟩
      intro a ha b hb hab
      rw [mem_singleton] at hb
      exact hnot (hb ▸ hab ▸ ha)
    · rw [hlist, mem_append, mem_singleton, hg.listed.mem, hrq]
      rcases eq_or_ne j i with rfl | hne
      · simp
      · simp [hne]
    · rw [BitVec.add_zero, BwGroup.pool64, BwGroup.pool64, hruntime, BwGroup.local64,
        BwGroup.local64]
      simp only [hrem]
    · intro j
      rw [hrem]
      exact hs.low j
    · intro j hj
      rw [hrem]
      rcases eq_or_ne j i with rfl | hne
      · exact hneg
      · rw [hrq, update_of_ne hne] at hj
        exact hs.throttled j hj
    · rw [cast_zero, add_zero, BwGroup.poolInt, BwGroup.poolInt, hruntime, BwGroup.localInt,
        BwGroup.localInt]
      simp only [hrem]

/-- A distribution has handed out `a` : the pool has not changed yet. -/
structure BwGroup.Handed (g g' : BwGroup ι) (a : ℕ) : Prop where
  listed : g'.Listed
  runtime : g'.cfsB.runtime = g.cfsB.runtime
  quota : g'.cfsB.quota = g.cfsB.quota
  running : g'.cfsB.distributeRunning = g.cfsB.distributeRunning
  local64 : g'.local64 = g.local64 + BitVec.ofNat 64 a
  exact : g.Solvent → g'.Solvent ∧ g'.localInt = g.localInt + a

theorem BwGroup.Listed.handed_refl (h : g.Listed) : g.Handed g 0 :=
  ⟨h, rfl, rfl, rfl, (add_zero _).symm, fun hs => ⟨hs, by rw [cast_zero, add_zero]⟩⟩

theorem BwGroup.Handed.trans {g g1 g2 : BwGroup ι} {a b : ℕ} (h : g.Handed g1 a)
    (h' : g1.Handed g2 b) : g.Handed g2 (a + b) where
  listed := h'.listed
  runtime := h'.runtime.trans h.runtime
  quota := h'.quota.trans h.quota
  running := h'.running.trans h.running
  local64 := by rw [h'.local64, h.local64, ofNat_add, add_assoc]
  exact hs := by
    obtain ⟨hs1, h1⟩ := h.exact hs
    obtain ⟨hs2, h2⟩ := h'.exact hs1
    exact ⟨hs2, by rw [h2, h1, cast_add, add_assoc]⟩

/-- Taking the first cfs_rq off the list. -/
theorem unthrottleCfsRqBw_spec (hg : g.Listed) {i : ι}
    (hl : g.cfsB.throttledCfsRq = i :: l) :
    (unthrottleCfsRqBw g i).Listed ∧ (unthrottleCfsRqBw g i).cfsB.throttledCfsRq = l ∧
      (∀ j, ((unthrottleCfsRqBw g i).rq j).runtimeRemaining = (g.rq j).runtimeRemaining) ∧
      ∀ j, ((unthrottleCfsRqBw g i).rq j).throttled = true ↔ j ≠ i ∧ (g.rq j).throttled = true := by
  have hlist : (unthrottleCfsRqBw g i).cfsB.throttledCfsRq = l := by
    have herase : (unthrottleCfsRqBw g i).cfsB.throttledCfsRq = g.cfsB.throttledCfsRq.erase i := rfl
    rw [herase, hl, erase_cons_head]
  have hrq : (unthrottleCfsRqBw g i).rq = update g.rq i { g.rq i with throttled := false } := rfl
  have hthr : ∀ j, ((unthrottleCfsRqBw g i).rq j).throttled = true ↔
      j ≠ i ∧ (g.rq j).throttled = true := by
    intro j
    rcases eq_or_ne j i with rfl | hne
    · simp [hrq]
    · simp [hrq, hne]
  have hnodup := hg.nodup
  rw [hl, nodup_cons] at hnodup
  refine ⟨⟨by rw [hlist]; exact hnodup.2, fun j => ?_⟩, hlist, fun j => ?_, hthr⟩
  · rw [hlist, hthr, ← hg.mem, hl, mem_cons]
    constructor
    · intro hj
      exact ⟨fun hji => hnodup.1 (hji ▸ hj), .inr hj⟩
    · rintro ⟨hne, hj⟩
      exact hj.resolve_left hne
  · rcases eq_or_ne j i with rfl | hne
    · rw [hrq, update_self]
    · rw [hrq, update_of_ne hne]

/-- One step of the distribution : either nothing remains, or the cfs_rq is off the list. -/
theorem distributeTo_spec (hg : g.Listed) {i : ι}
    (hl : g.cfsB.throttledCfsRq = i :: l) (remaining : BitVec 64) :
    ∃ a, g.Handed (distributeTo g remaining i).1 a ∧
      (distributeTo g remaining i).2.toNat + a = remaining.toNat ∧
      ((distributeTo g remaining i).2 = 0 ∨
        (distributeTo g remaining i).1.cfsB.throttledCfsRq = l) := by
  have hthr : (g.rq i).throttled = true := (hg.mem i).mp (by rw [hl]; exact mem_cons_self)
  rw [distributeTo, if_neg (by simp [hthr])]
  dsimp only
  set x := (g.rq i).runtimeRemaining with hx
  set a := if remaining < -x + 1 then remaining else -x + 1 with ha
  have hle : a.toNat ≤ remaining.toNat := by
    rw [ha]
    split_ifs with h
    · exact le_rfl
    · exact BitVec.le_def.mp (BitVec.not_lt.mp h)
  have hmoved := moved_setRemaining g i (x + a)
  have hlisted := hmoved.listed hg
  have hlist := hmoved.list.trans hl
  have hsum : (remaining - a).toNat + a.toNat = remaining.toNat := by
    rw [toNat_sub_of_le (le_def.mpr hle)]
    omega
  have h64 : (g.setRemaining i (x + a)).local64 = g.local64 + BitVec.ofNat 64 a.toNat := by
    rw [hmoved.local64, BitVec.ofNat_toNat, BitVec.setWidth_eq, ← hx]
    ring
  -- A throttled cfs_rq gets at most what lifts it to 1.
  have hint : g.Solvent → (x + a).toInt = x.toInt + a.toNat ∧
      -2 ^ 63 + (minCfsRqRuntime.toNat : ℤ) ≤ (x + a).toInt := by
    intro hs
    have hlow : -2 ^ 63 + (minCfsRqRuntime.toNat : ℤ) ≤ x.toInt := hs.low i
    have hneg : x.toInt ≤ 0 := hs.throttled i hthr
    have hmax : (a.toNat : ℤ) ≤ -x.toInt + 1 := by
      have hle' : a.toNat ≤ (-x + 1).toNat := by
        rw [ha]
        split_ifs with h
        · exact (lt_def.mp h).le
        · exact le_rfl
      have hnat : ((-x + 1).toNat : ℤ) ≤ -x.toInt + 1 := by
        have hlt := x.isLt
        have h1 : (1 : BitVec 64).toNat = 1 := rfl
        rw [toNat_add, toNat_neg, h1]
        rw [toInt_eq_toNat_cond] at hneg ⊢
        split_ifs at hneg ⊢ <;> omega
      omega
    have hadd := toInt_add_of_range (x := x) (a := a) (by omega)
    exact ⟨hadd, by omega⟩
  refine ⟨a.toNat, ?_, hsum, ?_⟩
  · split_ifs with hpos
    · obtain ⟨hlisted', -, hrem, hthr'⟩ := unthrottleCfsRqBw_spec hlisted hlist
      refine ⟨hlisted', rfl, rfl, rfl, ?_, fun hs => ?_⟩
      · rw [BwGroup.local64]
        simp only [hrem]
        exact h64
      obtain ⟨hadd, hlow⟩ := hint hs
      refine ⟨⟨fun j => ?_, fun j hj => ?_⟩, ?_⟩
      · rw [hrem]
        rcases eq_or_ne j i with rfl | hne
        · rwa [hmoved.remaining]
        · rw [hmoved.other hne]
          exact hs.low j
      · obtain ⟨hne, hj⟩ := (hthr' j).mp hj
        rw [hrem, hmoved.other hne]
        rw [hmoved.throttled] at hj
        exact hs.throttled j hj
      · rw [BwGroup.localInt]
        simp only [hrem]
        have := hmoved.localInt
        rw [BwGroup.localInt] at this
        rw [this, hadd, hx]
        omega
    · refine ⟨hlisted, rfl, rfl, rfl, h64, fun hs => ?_⟩
      obtain ⟨hadd, hlow⟩ := hint hs
      refine ⟨hmoved.solvent hs hlow fun _ => not_lt.mp hpos, ?_⟩
      rw [hmoved.localInt, hadd, hx]
      omega
  · by_cases hclamp : remaining < -x + 1
    · left
      rw [ha, if_pos hclamp, sub_self]
    · right
      have hone : x + a = 1 := by
        rw [ha, if_neg hclamp]
        ring
      rw [hone, if_pos (by decide)]
      rw [hone] at hlisted hlist
      exact (unthrottleCfsRqBw_spec hlisted hlist).2.1

/-- The whole distribution : either nothing remains, or nobody is throttled. -/
theorem distributeLoop_spec : ∀ {l : List ι} {g : BwGroup ι} (remaining : BitVec 64), g.Listed →
    g.cfsB.throttledCfsRq = l →
    ∃ a, g.Handed (distributeLoop l g remaining).1 a ∧
      (distributeLoop l g remaining).2.toNat + a = remaining.toNat ∧
      ((distributeLoop l g remaining).2 = 0 ∨
        (distributeLoop l g remaining).1.cfsB.throttledCfsRq = [])
  | [], _, _, hg, hl => ⟨0, hg.handed_refl, rfl, .inr hl⟩
  | i :: l, g, remaining, hg, hl => by
    obtain ⟨a, hhand, hsum, hend⟩ := distributeTo_spec hg hl remaining
    rw [distributeLoop]
    split_ifs with hzero
    · exact ⟨a, hhand, hsum, .inl hzero⟩
    · obtain ⟨b, hhand', hsum', hend'⟩ := distributeLoop_spec (distributeTo g remaining i).2
        hhand.listed (hend.resolve_left hzero)
      exact ⟨a + b, hhand.trans hhand', by omega, hend'⟩

/-- Handing out the pool moves runtime and leaves the pool or the list empty. -/
theorem distributePool_spec (hg : g.Ready) :
    g.Settles (distributePool g) 0 True ∧
      ((distributePool g).cfsB.runtime = 0 ∨ (distributePool g).cfsB.throttledCfsRq = []) := by
  obtain ⟨a, hhand, hsum, hend⟩ := distributeLoop_spec
    (g := g.setDistributeRunning true) g.cfsB.runtime ⟨hg.listed.nodup, hg.listed.mem⟩ rfl
  set r := distributeLoop (g.setDistributeRunning true).cfsB.throttledCfsRq
    (g.setDistributeRunning true) g.cfsB.runtime
  have hpool : lsubPositive r.1.cfsB.runtime (g.cfsB.runtime - r.2) = r.2 := by
    rw [show r.1.cfsB.runtime = g.cfsB.runtime from hhand.runtime]
    exact lsubPositive_sub (by omega)
  have hdist : distributePool g = (r.1.setDistributeRunning false).setRuntime r.2 :=
    congrArg (r.1.setDistributeRunning false).setRuntime hpool
  have hruntime : (distributePool g).cfsB.runtime = r.2 := by rw [hdist]; rfl
  have hlist : (distributePool g).cfsB.throttledCfsRq = r.1.cfsB.throttledCfsRq := by
    rw [hdist]; rfl
  have hrq : (distributePool g).rq = r.1.rq := by rw [hdist]; rfl
  have hrunning : (distributePool g).cfsB.distributeRunning = false := by rw [hdist]; rfl
  have hquota : (distributePool g).cfsB.quota = g.cfsB.quota := by rw [hdist]; exact hhand.quota
  refine ⟨⟨⟨⟨?_, fun j => ?_⟩, hrunning, by rw [hquota]; exact hg.quota⟩, ?_, fun hs _ => ?_⟩, ?_⟩
  · rw [hlist]
    exact hhand.listed.nodup
  · rw [hlist, hrq]
    exact hhand.listed.mem j
  · have h64 : (distributePool g).local64 = g.local64 + BitVec.ofNat 64 a := by
      rw [BwGroup.local64, hrq]
      exact hhand.local64
    have hback : r.2 + BitVec.ofNat 64 a = g.cfsB.runtime := by
      refine BitVec.eq_of_toNat_eq ?_
      have hlt := g.cfsB.runtime.isLt
      rw [BitVec.toNat_add, BitVec.toNat_ofNat, mod_eq_of_lt (show a < 2 ^ 64 by omega), hsum,
        mod_eq_of_lt hlt]
    rw [BwGroup.pool64, BwGroup.pool64, hruntime, h64, BitVec.add_zero, ← hback]
    ring
  · obtain ⟨hs', hint⟩ := hhand.exact ⟨hs.low, hs.throttled⟩
    refine ⟨⟨fun j => by rw [hrq]; exact hs'.low j,
      fun j => by rw [hrq]; exact hs'.throttled j⟩, ?_⟩
    have hint' : (distributePool g).localInt = g.localInt + a := by
      rw [BwGroup.localInt, hrq]
      exact hint
    rw [BwGroup.poolInt, BwGroup.poolInt, hruntime, hint']
    omega
  · rw [hruntime, hlist]
    exact hend

/-- The distribution loop of the period timer ends after one distribution. -/
theorem periodDistribution_settles (hg : g.Ready) :
    ∃ g', periodDistribution g = some g' ∧ g.Settles g' 0 True := by
  by_cases hcond : g.cfsB.throttledCfsRq ≠ [] ∧ 0 < g.cfsB.runtime ∧
      (!g.cfsB.distributeRunning) = true
  case neg =>
    have hdone : periodRound g = .done g := if_neg hcond
    exact ⟨g, by rw [periodDistribution, runLoop_done hdone], hg.settles_refl _⟩
  obtain ⟨hsettles, hend⟩ := distributePool_spec hg
  have hstop : ¬ ((distributePool g).cfsB.throttledCfsRq ≠ [] ∧
      0 < (distributePool g).cfsB.runtime ∧
      (!(distributePool g).cfsB.distributeRunning) = true) := by
    rintro ⟨hlist, hpos, -⟩
    rcases hend with h0 | hnil
    · rw [h0] at hpos
      exact absurd hpos (by decide)
    · exact hlist hnil
  have hagain : periodRound g = .again (distributePool g) := if_pos hcond
  have hdone : periodRound (distributePool g) = .done (distributePool g) := if_neg hstop
  exact ⟨distributePool g, by rw [periodDistribution, runLoop_again hagain, runLoop_done hdone],
    hsettles⟩

theorem doSchedCfsSlackTimer_settles (hg : g.Ready) :
    g.Settles (doSchedCfsSlackTimer sysctl g) 0 True := by
  have hready : BwGroup.Ready { g with cfsB := { g.cfsB with slackStarted := false } } :=
    ⟨⟨hg.listed.nodup, hg.listed.mem⟩, hg.running, hg.quota⟩
  have hflag : g.Settles { g with cfsB := { g.cfsB with slackStarted := false } } 0 True :=
    ⟨hready, add_zero _, fun hs _ => ⟨⟨hs.low, hs.throttled⟩, add_zero _⟩⟩
  rw [doSchedCfsSlackTimer]
  split_ifs with hrunning hpool
  · exact hflag
  · exact hflag.trans (distributePool_spec hready).1
  · exact hflag

/-! ## Runs -/

/-- The 64-bit values of the call do not wrap. -/
def BwCall.Fits (g : BwGroup ι) : BwCall ι → Prop
  | .account i deltaExec => (g.rq i).runtimeEnabled = true →
      -2 ^ 63 + (minCfsRqRuntime.toNat : ℤ) ≤ (g.rq i).runtimeRemaining.toInt - deltaExec.toNat
  | .giveBack i =>
      (g.cfsB.runtime.toNat : ℤ) + (g.rq i).runtimeRemaining.toInt - minCfsRqRuntime.toNat < 2 ^ 64
  | .slackTimer | .periodLoop | .check _ => True

instance (g : BwGroup ι) : ∀ call : BwCall ι, Decidable (call.Fits g)
  | .account _ _ => inferInstanceAs (Decidable (_ = true → _ ≤ _))
  | .giveBack _ => inferInstanceAs (Decidable (_ < _))
  | .slackTimer | .periodLoop | .check _ => inferInstanceAs (Decidable True)

theorem BwCall.settles (hg : g.Ready) (call : BwCall ι) :
    ∃ r, call.run sysctl g = some r ∧ g.Settles r.1 r.2 (call.Fits g) := by
  cases call with
  | account i deltaExec => exact ⟨_, rfl, accountCfsRqRuntime_settles sysctl hg i deltaExec⟩
  | giveBack i => exact ⟨_, rfl, returnCfsRqRuntime_settles sysctl hg i⟩
  | slackTimer => exact ⟨_, rfl, doSchedCfsSlackTimer_settles sysctl hg⟩
  | periodLoop =>
    obtain ⟨g', hg', hsettles⟩ := periodDistribution_settles hg
    exact ⟨(g', 0), by rw [BwCall.run, hg']; rfl, hsettles⟩
  | check i => exact ⟨_, rfl, checkCfsRqRuntime_settles hg i⟩

/-- The runtime that the cfs_rqs are short of. -/
def BwGroup.short (g : BwGroup ι) : ℤ := ∑ i, max 0 (-(g.rq i).runtimeRemaining.toInt)

theorem BwGroup.neg_localInt_le : -g.localInt ≤ g.short := by
  rw [BwGroup.localInt, BwGroup.short, ← Finset.sum_neg_distrib]
  exact Finset.sum_le_sum fun i _ => le_max_right _ _

/-- Every sequence of calls ends, and keeps the pool, the runtime of the cfs_rqs and the time
charged together constant : modulo `2^64` in any case, and exactly if the calls do not wrap 64-bit
values. The pool counts with its unsigned value, so no call takes out more than it has. What is
charged after a refill is then at most the quota, what the cfs_rqs held and what they are short
of. -/
theorem bwRun_conserved (sysctl : BitVec 32) (hg : g.Ready)
    (calls : List (BwCall ι)) :
    ∃ r, runCalls (BwCall.run sysctl) g calls = some r ∧ r.1.Ready ∧
      r.1.pool64 + BitVec.ofNat 64 r.2.sum = g.pool64 ∧
      (g.Solvent → CallsMeet (BwCall.run sysctl) BwCall.Fits g calls →
        r.1.poolInt + r.2.sum = g.poolInt ∧
        (g.cfsB.runtime = g.cfsB.quota →
          (r.2.sum : ℤ) ≤ g.cfsB.quota.toNat + g.localInt + r.1.short)) := by
  have hmeet : CallsMeet (BwCall.run sysctl) (fun _ _ => True) g calls :=
    callsMeet_of_forall fun _ _ => trivial
  obtain ⟨r, hrun, hready, h64⟩ := runCalls_conserves BwGroup.Ready (fun _ _ => True)
    BwGroup.pool64 (BitVec.ofNat 64)
    (fun g call h _ => by
      obtain ⟨r, hrun, hsettles⟩ := BwCall.settles sysctl h call
      exact ⟨r, hrun, hsettles.ready, hsettles.pool64⟩)
    hg hmeet
  have hofNat : ∀ cs : List ℕ, (cs.map (BitVec.ofNat 64)).sum = BitVec.ofNat 64 cs.sum := by
    intro cs
    induction cs with
    | nil => rfl
    | cons c cs ih => rw [map_cons, sum_cons, sum_cons, ih, BitVec.ofNat_add]
  rw [hofNat] at h64
  refine ⟨r, hrun, hready, h64, fun hs hfits => ?_⟩
  obtain ⟨r', hrun', -, hint⟩ := runCalls_conserves (fun g => g.Ready ∧ g.Solvent)
    (fun g (call : BwCall ι) => call.Fits g) BwGroup.poolInt (fun c : ℕ => (c : ℤ))
    (fun g call h hfits => by
      obtain ⟨r, hrun, hsettles⟩ := BwCall.settles sysctl h.1 call
      obtain ⟨hs, hint⟩ := hsettles.exact h.2 hfits
      exact ⟨r, hrun, ⟨hsettles.ready, hs⟩, hint⟩)
    ⟨hg, hs⟩ hfits
  obtain rfl : r = r' := Option.some.inj (hrun.symm.trans hrun')
  rw [← cast_list_sum] at hint
  refine ⟨hint, fun hrefill => ?_⟩
  have hshort := r.1.neg_localInt_le
  rw [BwGroup.poolInt, BwGroup.poolInt, hrefill] at hint
  omega

/-! ## Periods -/

/-- A call or, for `none`, the period timer, with what it takes out of the group's runtime. A refill
takes out what is left in the pool and puts the quota in. -/
def bwPeriodRun (g : BwGroup ι) : Option (BwCall ι) → Option (BwGroup ι × ℤ)
  | some call => (call.run sysctl g).map fun r => (r.1, r.2)
  | none => (doSchedCfsPeriodTimer g).map fun r =>
    (r.1, if r.2 then 0 else g.cfsB.runtime.toNat - g.cfsB.quota.toNat)

theorem bwPeriodRun_spec (g : BwGroup ι) (o : Option (BwCall ι)) (h : g.Ready ∧ g.Solvent)
    (hfits : ∀ call ∈ o, call.Fits g) : ∃ r, bwPeriodRun sysctl g o = some r ∧
      (r.1.Ready ∧ r.1.Solvent) ∧ r.1.poolInt + id r.2 = g.poolInt := by
  obtain ⟨hg, hs⟩ := h
  rcases o with _ | call
  case some =>
    obtain ⟨r, hrun, h⟩ := call.settles sysctl hg
    obtain ⟨hs', hpool⟩ := h.exact hs (hfits call rfl)
    exact ⟨(r.1, r.2), by rw [bwPeriodRun, hrun]; rfl, ⟨h.ready, hs'⟩, hpool⟩
  -- The timer : the refilled group is as ready for the distribution as it was before.
  have hready : (g.setRuntime g.cfsB.quota).Ready :=
    ⟨⟨hg.listed.nodup, hg.listed.mem⟩, hg.running, hg.quota⟩
  rw [bwPeriodRun, doSchedCfsPeriodTimer, if_neg hg.quota, refillCfsBandwidthRuntime,
    if_pos hg.quota]
  split_ifs with hstop
  · exact ⟨_, rfl, ⟨hg, hs⟩, add_zero _⟩
  obtain ⟨g', hdist, h⟩ := periodDistribution_settles hready
  obtain ⟨hs', hpool⟩ := h.exact ⟨hs.low, hs.throttled⟩ trivial
  by_cases hnil : g.cfsB.throttledCfsRq = []
  · refine ⟨_, congrArg _ (if_pos hnil), ⟨⟨⟨hg.listed.nodup, hg.listed.mem⟩, hg.running, hg.quota⟩,
      hs.low, hs.throttled⟩, ?_⟩
    change (g.cfsB.quota.toNat + g.localInt : ℤ) + (_ - _) = g.cfsB.runtime.toNat + g.localInt
    omega
  · refine ⟨_, congrArg _ ((if_neg hnil).trans (congrArg _ hdist)),
      ⟨⟨⟨h.ready.listed.nodup, h.ready.listed.mem⟩, h.ready.running, h.ready.quota⟩,
        hs'.low, hs'.throttled⟩, ?_⟩
    change g'.poolInt + 0 = g.cfsB.quota.toNat + g.localInt at hpool
    change g'.poolInt + (_ - _) = g.cfsB.runtime.toNat + g.localInt
    omega

/-- Over any number of periods, what is charged comes out of the pools and the refills or is a debt.
What is left in the pool at a refill is lost. -/
theorem bwPeriods_conserved (sysctl : BitVec 32) (hg : g.Ready) (hs : g.Solvent)
    {calls : List (Option (BwCall ι))}
    (hfits : CallsMeet (bwPeriodRun sysctl) (fun g o => ∀ call ∈ o, call.Fits g) g calls) :
    ∃ r, runCalls (bwPeriodRun sysctl) g calls = some r ∧ (r.1.Ready ∧ r.1.Solvent) ∧
      r.1.poolInt + r.2.sum = g.poolInt ∧ r.2.sum ≤ g.poolInt + r.1.short := by
  obtain ⟨r, hrun, hr, hsum⟩ := runCalls_conserves _ _ BwGroup.poolInt id
    (bwPeriodRun_spec sysctl) ⟨hg, hs⟩ hfits
  rw [map_id] at hsum
  have hshort := r.1.neg_localInt_le
  refine ⟨r, hrun, hr, hsum, ?_⟩
  rw [BwGroup.poolInt] at hsum
  omega

end Pools

end

/-- A group on two CPUs with a quota of 20 ms per period, just refilled. The second CPU is throttled
with a debt of 1 ms. -/
def bwTwo : BwGroup Bool where
  cfsB := ⟨20000000, 20000000, false, true, false, false, [true]⟩
  rq i := if i then ⟨-1000000, true, true, 1⟩ else ⟨0, true, false, 0⟩

theorem ready_bwTwo : bwTwo.Ready := ⟨⟨by decide, by decide⟩, rfl, by decide⟩

theorem solvent_bwTwo : bwTwo.Solvent := ⟨by decide, by decide⟩

/-- The first CPU runs for 2 ms on a slice of 5 ms, the period timer lets the second one run again,
and the first one goes idle and gives all but 1 ms back. -/
def bwTwoCalls : List (BwCall Bool) := [.account false 2000000, .periodLoop, .giveBack false]

/-- The pool ends with 15999999 ns : the first CPU took 7 ms and gave 4 ms back, the second one took
its debt and 1 ns. -/
theorem bwRun_conserved_two :
    ∃ r, runCalls (BwCall.run 5000) bwTwo bwTwoCalls = some r ∧
      r.1.cfsB.runtime.toNat + (r.1.localInt + r.2.sum) = 20000000 - 1000000 ∧
      (r.1.cfsB.runtime, r.2.sum) = (15999999, 2000000) := by
  obtain ⟨r, hrun, -, -, hexact⟩ := bwRun_conserved 5000 ready_bwTwo bwTwoCalls
  obtain ⟨hsum, -⟩ := hexact solvent_bwTwo (by decide +kernel)
  have hpool : bwTwo.poolInt = 20000000 - 1000000 := by decide +kernel
  have hval : (runCalls (BwCall.run 5000) bwTwo bwTwoCalls).map
      (fun r => (r.1.cfsB.runtime, r.2.sum)) = some (15999999, 2000000) := by decide +kernel
  rw [hrun, Option.map_some, Option.some.injEq] at hval
  refine ⟨r, hrun, ?_, hval⟩
  rw [← hpool, ← hsum, BwGroup.poolInt]
  ring

/-- The same, and then the period timer. -/
theorem bwPeriods_conserved_two :
    ∃ r, runCalls (bwPeriodRun 5000) bwTwo (bwTwoCalls.map some ++ [none]) = some r ∧
      (r.1.Ready ∧ r.1.Solvent) ∧ r.1.poolInt + r.2.sum = bwTwo.poolInt ∧
      r.2.sum ≤ bwTwo.poolInt + r.1.short :=
  bwPeriods_conserved 5000 ready_bwTwo solvent_bwTwo (by decide +kernel)

/-- Two charges of `2^63 - 1` on one CPU : the first takes the pool, the second wraps
`runtime_remaining` to a positive value. The sum has grown by `2^64`, and nobody is short of
anything although far more than the quota has been charged. -/
theorem bwRun_wraps :
    ∃ g : BwGroup (Fin 1), g.Ready ∧ g.Solvent ∧ g.cfsB.runtime = g.cfsB.quota ∧
      ∃ r, runCalls (BwCall.run 5000) g [.account 0 (2 ^ 63 - 1), .account 0 (2 ^ 63 - 1)] =
          some r ∧
        r.1.poolInt + r.2.sum = g.poolInt + 2 ^ 64 ∧
        ¬ (r.2.sum : ℤ) ≤ g.cfsB.quota.toNat + g.localInt + r.1.short := by
  refine ⟨⟨⟨100000000, 100000000, false, true, false, false, []⟩, fun _ => ⟨0, true, false, 1⟩⟩,
    ⟨⟨by decide, by decide⟩, rfl, by decide⟩, ⟨by decide, by decide⟩, rfl, _, rfl, ?_, ?_⟩
  · decide +kernel
  · decide +kernel

end LinuxKernelTest
