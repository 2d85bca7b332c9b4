import LinuxKernelTest.Machine

/-!
# Per-entity load tracking

A model of `kernel/sched/pelt.c`. Time is cut into periods of 1024 units of 1024 ns. A sum of past
activity is decayed by the factor `y` at every period boundary, with `y ^ 32 = 1 / 2`, and the
activity since the last update is added (`accumulate_sum`). An average is the sum divided by the
largest value the sum can have at this point of the period (`___update_load_avg`).

The fields and all arithmetic are the source's own machine words, which wrap. `running` is an `int`
of which the code only asks whether it is zero, so it is a `Bool` here; the `int` that
`___update_load_sum` returns is one too. A division by zero is `none`.
-/

namespace LinuxKernelTest

/-! ## The decay of a sum -/

/-- `runnable_avg_yN_inv`. -/
def runnableAvgYNInv : List UInt32 :=
  [0xffffffff, 0xfa83b2da, 0xf5257d14, 0xefe4b99a, 0xeac0c6e6, 0xe5b906e6,
   0xe0ccdeeb, 0xdbfbb796, 0xd744fcc9, 0xd2a81d91, 0xce248c14, 0xc9b9bd85,
   0xc5672a10, 0xc12c4cc9, 0xbd08a39e, 0xb8fbaf46, 0xb504f333, 0xb123f581,
   0xad583ee9, 0xa9a15ab4, 0xa5fed6a9, 0xa2704302, 0x9ef5325f, 0x9b8d39b9,
   0x9837f050, 0x94f4efa8, 0x91c3d373, 0x8ea4398a, 0x8b95c1e3, 0x88980e80,
   0x85aac367, 0x82cd8698]

/-- `LOAD_AVG_PERIOD`. -/
def loadAvgPeriod : ℕ := 32

/-- `LOAD_AVG_MAX`. -/
def loadAvgMax : ℕ := 47742

/-- `SCHED_CAPACITY_SHIFT`. -/
def schedCapacityShift : ℕ := 10

/-- `SCHED_CAPACITY_SCALE`. -/
def schedCapacityScale : ℕ := 1 <<< schedCapacityShift

/-- `mul_u64_u32_shr` : the product has 128 bits. -/
def mulU64U32Shr (a : UInt64) (mul : UInt32) (shift : ℕ) : UInt64 :=
  UInt64.ofNat ((a.toNat * mul.toNat) >>> shift)

/-- `decay_load`. The index into the table is below 32. -/
def decayLoad (val n : UInt64) : UInt64 :=
  if val = 0 then 0
  else if n > UInt64.ofNat (loadAvgPeriod * 63) then 0
  else
    let localN := n.toUInt32
    if localN ≥ UInt32.ofNat loadAvgPeriod then
      mulU64U32Shr (val >>> (localN / UInt32.ofNat loadAvgPeriod).toUInt64)
        (runnableAvgYNInv.getD (localN % UInt32.ofNat loadAvgPeriod).toNat 0) 32
    else mulU64U32Shr val (runnableAvgYNInv.getD localN.toNat 0) 32

/-- `__accumulate_pelt_segments`. -/
def accumulatePeltSegments (periods : UInt64) (d1 d3 : UInt32) : UInt32 :=
  let c1 := (decayLoad d1.toUInt64 periods).toUInt32
  let c2 := (UInt64.ofNat loadAvgMax - decayLoad (UInt64.ofNat loadAvgMax) periods - 1024).toUInt32
  c1 + c2 + d3

/-! ## The sums and the averages -/

/-- `struct sched_avg`. -/
structure SchedAvg where
  lastUpdateTime : UInt64
  loadSum : UInt64
  runnableLoadSum : UInt64
  utilSum : UInt32
  periodContrib : UInt32
  loadAvg : UInt64
  runnableLoadAvg : UInt64
  utilAvg : UInt64
deriving DecidableEq

namespace SchedAvg

/-- A `struct sched_avg` of zeros. -/
def zeroed : SchedAvg := ⟨0, 0, 0, 0, 0, 0, 0, 0⟩

/-- Step 1 of `accumulate_sum` : decay the old sums. -/
def decaySums (sa : SchedAvg) (periods : UInt64) : SchedAvg :=
  { sa with
    loadSum := decayLoad sa.loadSum periods
    runnableLoadSum := decayLoad sa.runnableLoadSum periods
    utilSum := (decayLoad sa.utilSum.toUInt64 periods).toUInt32 }

end SchedAvg

/-- `accumulate_sum`, with the periods it returns. -/
def accumulateSum (delta : UInt64) (sa : SchedAvg) (load runnable : UInt64) (running : Bool) :
    SchedAvg × UInt32 :=
  let total := delta + sa.periodContrib.toUInt64
  let periods := total / 1024
  let old := if periods ≠ 0 then sa.decaySums periods else sa
  let rest := (if periods ≠ 0 then total % 1024 else total).toUInt32
  -- Step 2 of the source : without a boundary between, all of `delta` counts.
  let contrib := if periods ≠ 0 then
      accumulatePeltSegments periods (1024 - sa.periodContrib) rest
    else delta.toUInt32
  ({ old with
      periodContrib := rest
      loadSum := if load ≠ 0 then old.loadSum + load * contrib.toUInt64 else old.loadSum
      runnableLoadSum :=
        if runnable ≠ 0 then old.runnableLoadSum + runnable * contrib.toUInt64
        else old.runnableLoadSum
      utilSum :=
        if running then old.utilSum + contrib <<< UInt32.ofNat schedCapacityShift
        else old.utilSum },
    periods.toUInt32)

/-- `___update_load_sum`. -/
def updateLoadSum (now : UInt64) (sa : SchedAvg) (load runnable : UInt64) (running : Bool) :
    SchedAvg × Bool :=
  let delta := now - sa.lastUpdateTime
  if delta.toInt64 < 0 then ({ sa with lastUpdateTime := now }, false)
  else
    let delta := delta >>> 10
    if delta = 0 then (sa, false)
    else
      let sa := { sa with lastUpdateTime := sa.lastUpdateTime + delta <<< 10 }
      -- `running` is a subset of `runnable` : without load both are clear.
      let r := accumulateSum delta sa load (if load = 0 then 0 else runnable)
        (if load = 0 then false else running)
      (r.1, r.2 ≠ 0)

variable (sa : SchedAvg)

/-- `___update_load_avg`. -/
def updateLoadAvg (load runnable : UInt64) : Option SchedAvg :=
  let divider := UInt32.ofNat (loadAvgMax - 1024) + sa.periodContrib
  if divider = 0 then none
  else some { sa with
    loadAvg := load * sa.loadSum / divider.toUInt64
    runnableLoadAvg := runnable * sa.runnableLoadSum / divider.toUInt64
    utilAvg := (sa.utilSum / divider).toUInt64 }

/-! ## Updates -/

/-- One update : the arguments of `___update_load_sum`, and the weights for `___update_load_avg`. -/
structure PeltUpdate where
  now : UInt64
  load : UInt64
  runnable : UInt64
  running : Bool
  weight : UInt64
  runnableWeight : UInt64
deriving DecidableEq

/-- `___update_load_sum` of an update. -/
def PeltUpdate.sum (u : PeltUpdate) : SchedAvg × Bool :=
  updateLoadSum u.now sa u.load u.runnable u.running

/-- `___update_load_sum`, and `___update_load_avg` where it returns non-zero. -/
def PeltUpdate.step (u : PeltUpdate) : Option (SchedAvg × Bool) :=
  let r := u.sum sa
  if r.2 then (updateLoadAvg r.1 u.weight u.runnableWeight).map fun sa' => (sa', true)
  else some r

/-- `__update_load_avg_blocked_se` for an entity with `se_weight` and `se_runnable`. -/
def updateLoadAvgBlockedSe (now seWeight seRunnable : UInt64) : PeltUpdate :=
  ⟨now, 0, 0, false, seWeight, seRunnable⟩

/-- `__update_load_avg_se` for an entity that is on the queue, or not, and is `cfs_rq->curr`,
or not. -/
def updateLoadAvgSe (now : UInt64) (onRq curr : Bool) (seWeight seRunnable : UInt64) : PeltUpdate :=
  ⟨now, if onRq then 1 else 0, if onRq then 1 else 0, curr, seWeight, seRunnable⟩

/-- `__update_load_avg_cfs_rq` for a queue with a weight and a runnable weight, scaled down. -/
def updateLoadAvgCfsRq (now weight runnableWeight : UInt64) (curr : Bool) : PeltUpdate :=
  ⟨now, weight, runnableWeight, curr, 1, 1⟩

/-- The updates `us` from a zeroed `struct sched_avg`. -/
def peltRun (us : List PeltUpdate) : Option (SchedAvg × List Bool) :=
  runCalls PeltUpdate.step SchedAvg.zeroed us

/-- The sums after `us`, without the averages. -/
def peltSums (us : List PeltUpdate) : SchedAvg :=
  us.foldl (fun sa u => (u.sum sa).1) SchedAvg.zeroed

/-- A word of 64 bits as a signed one. -/
theorem toInt_toInt64 (x : UInt64) : x.toInt64.toInt =
    if 2 * x.toNat < 2 ^ 64 then (x.toNat : ℤ) else x.toNat - 2 ^ 64 :=
  BitVec.toInt_eq_toNat_cond x.toBitVec

end LinuxKernelTest
