import LinuxKernelTest.Pelt
import LinuxKernelTest.RbtreeCached
import Mathlib.Data.UInt

/-!
# The queue of a cfs_rq

`enqueue_entity`, `dequeue_entity`, `set_next_entity`, `put_prev_entity` and `reweight_entity` of
`kernel/sched/fair.c` on one cfs_rq, with `update_curr` and the other functions they call. An entity
is the address of its `run_node`. The entities that are on the queue are in the timeline, a
red-black tree by `vruntime` with a cached first node, but for the current one; the queue also keeps
the sum of their weights, the sum of their runnable weights and their number.

The value of the clock is an argument of every call, and so are the shares that `update_cfs_group`
computes for the entity of a group, whatever the load averages are : they are not part of the model,
nor are statistics, the list `cfs_tasks`, the buddies and the leaf list, which none of this reads.
Bandwidth control is off.

`CfsRq.Meets` has one set of entities for each thing that is kept, so that every step of a call
changes one of them; between calls they are the same.
-/

namespace LinuxKernelTest

open Finset

/-! ## The model -/

/-- `struct sched_entity`; `group` says that it has a queue of its own. -/
structure CfsEntity where
  weight : UInt64
  invWeight : UInt32
  runnableWeight : UInt64
  onRq : Bool
  execStart : UInt64
  sumExecRuntime : UInt64
  vruntime : UInt64
  prevSumExecRuntime : UInt64
  group : Bool
deriving DecidableEq

/-- `struct cfs_rq`, with all entities. -/
structure CfsRq where
  se : RbPtr → CfsEntity
  weight : UInt64
  runnableWeight : UInt64
  nrRunning : UInt32
  minVruntime : UInt64
  timeline : RbCached Unit
  curr : RbPtr

/-- `sysctl_sched_latency` and the feature `GENTLE_FAIR_SLEEPERS`. -/
structure CfsTunables where
  latency : UInt32
  gentleFairSleepers : Bool

/-- `ENQUEUE_WAKEUP`. -/
def enqueueWakeup : UInt32 := 0x01

/-- `ENQUEUE_MIGRATED`. -/
def enqueueMigrated : UInt32 := 0x40

/-- `DEQUEUE_SLEEP`. -/
def dequeueSleep : UInt32 := 0x01

/-- `DEQUEUE_SAVE`. -/
def dequeueSave : UInt32 := 0x02

/-- `DEQUEUE_MOVE`. -/
def dequeueMove : UInt32 := 0x04

/-- `NICE_0_LOAD`. -/
def nice0Load : UInt64 := 1048576

/-- `WMULT_CONST`. -/
def wmultConst : UInt32 := 0xffffffff

/-- `max_vruntime`. -/
def maxVruntime (max vruntime : UInt64) : UInt64 :=
  if 0 < (vruntime - max).toInt64 then vruntime else max

/-- `min_vruntime`. -/
def minVruntime (min vruntime : UInt64) : UInt64 :=
  if (vruntime - min).toInt64 < 0 then vruntime else min

/-- `entity_before`. -/
def entityBefore (a b : CfsEntity) : Bool := (a.vruntime - b.vruntime).toInt64 < 0

/-- `__update_inv_weight` : the new `inv_weight`. -/
def updateInvWeight (weight : UInt64) (invWeight : UInt32) : UInt32 :=
  if invWeight ≠ 0 then invWeight
  else
    let w := weight >>> 10
    if wmultConst.toUInt64 ≤ w then 1
    else if w = 0 then wmultConst
    else (wmultConst.toUInt64 / w).toUInt32

/-- The loops of `__calc_delta` : halve `fact` until it fits into 32 bits. -/
def shrinkFact : ℕ → UInt64 → ℕ → UInt64 × ℕ
  | 0, fact, shift => (fact, shift)
  | n + 1, fact, shift =>
    if fact >>> 32 ≠ 0 then shrinkFact n (fact >>> 1) (shift - 1) else (fact, shift)

/-- `__calc_delta`, given the `inv_weight` that `__update_inv_weight` has left. A 64-bit number fits
into 32 bits after 32 rounds. -/
def calcDelta (deltaExec weight : UInt64) (invWeight : UInt32) : UInt64 :=
  let (fact, shift) := shrinkFact 32 (weight >>> 10) 32
  let (fact, shift) := shrinkFact 32 (fact.toUInt32.toUInt64 * invWeight.toUInt64) shift
  mulU64U32Shr deltaExec fact.toUInt32 shift

/-- `calc_delta_fair` : the result, and `inv_weight` after it. -/
def calcDeltaFair (delta : UInt64) (e : CfsEntity) : UInt64 × UInt32 :=
  if e.weight ≠ nice0Load then
    let invWeight := updateInvWeight e.weight e.invWeight
    (calcDelta delta nice0Load invWeight, invWeight)
  else (delta, e.invWeight)

namespace CfsRq

variable (q : CfsRq)

/-- Store the fields of an entity. -/
def setSe (se : RbPtr) (e : CfsEntity) : CfsRq :=
  { q with se := Function.update q.se se e }

theorem setSe_self (se : RbPtr) (e : CfsEntity) : (q.setSe se e).se se = e :=
  Function.update_self ..

theorem setSe_of_ne {se x : RbPtr} (e : CfsEntity) (h : x ≠ se) : (q.setSe se e).se x = q.se x :=
  Function.update_of_ne h ..

/-- `update_min_vruntime`. -/
def updateMinVruntime : CfsRq :=
  let running := q.curr ≠ 0 ∧ (q.se q.curr).onRq
  let vruntime := if running then (q.se q.curr).vruntime else q.minVruntime
  let leftmost := q.timeline.leftmost
  let vruntime := if leftmost ≠ 0 then
      if running then LinuxKernelTest.minVruntime vruntime (q.se leftmost).vruntime
      else (q.se leftmost).vruntime
    else vruntime
  { q with minVruntime := maxVruntime q.minVruntime vruntime }

variable (now : UInt64)

/-- `update_curr`. -/
def updateCurr (q : CfsRq) : CfsRq :=
  if q.curr = 0 then q
  else
    let e := q.se q.curr
    let deltaExec := now - e.execStart
    if deltaExec.toInt64 ≤ 0 then q
    else
      let delta := calcDeltaFair deltaExec e
      updateMinVruntime (q.setSe q.curr { e with
        execStart := now
        sumExecRuntime := e.sumExecRuntime + deltaExec
        vruntime := e.vruntime + delta.1
        invWeight := delta.2 })

/-- `account_entity_enqueue`. -/
def accountEntityEnqueue (se : RbPtr) : CfsRq :=
  { q with weight := q.weight + (q.se se).weight, nrRunning := q.nrRunning + 1 }

/-- `account_entity_dequeue`. -/
def accountEntityDequeue (se : RbPtr) : CfsRq :=
  { q with weight := q.weight - (q.se se).weight, nrRunning := q.nrRunning - 1 }

/-- `enqueue_runnable_load_avg`. -/
def enqueueRunnableLoadAvg (se : RbPtr) : CfsRq :=
  { q with runnableWeight := q.runnableWeight + (q.se se).runnableWeight }

/-- `dequeue_runnable_load_avg`. -/
def dequeueRunnableLoadAvg (se : RbPtr) : CfsRq :=
  { q with runnableWeight := q.runnableWeight - (q.se se).runnableWeight }

/-- `reweight_entity`. -/
def reweightEntity (q : CfsRq) (se : RbPtr) (weight runnable : UInt64) : CfsRq :=
  let q := if (q.se se).onRq then
      let q := if q.curr = se then q.updateCurr now else q
      (q.accountEntityDequeue se).dequeueRunnableLoadAvg se
    else q
  let q := q.setSe se { q.se se with
    runnableWeight := runnable
    weight := weight
    invWeight := 0 }
  if (q.se se).onRq then (q.accountEntityEnqueue se).enqueueRunnableLoadAvg se else q

/-- `update_cfs_group`, with what `calc_group_shares` and `calc_group_runnable` return. -/
def updateCfsGroup (q : CfsRq) (se : RbPtr) (shares runnable : UInt64) : CfsRq :=
  if (q.se se).group then q.reweightEntity now se shares runnable else q

variable (tune : CfsTunables)

/-- `place_entity` of an entity that wakes up. -/
def placeEntity (q : CfsRq) (se : RbPtr) : CfsRq :=
  let thresh := tune.latency.toUInt64
  let thresh := if tune.gentleFairSleepers then thresh >>> 1 else thresh
  let e := q.se se
  q.setSe se { e with vruntime := maxVruntime e.vruntime (q.minVruntime - thresh) }

/-- `__enqueue_entity`. -/
def enqueueTimeline (se : RbPtr) : Option CfsRq :=
  (rbAddCached (fun entry => entityBefore (q.se se) (q.se entry)) q.timeline se).map fun r =>
    { q with timeline := r.1 }

/-- `__dequeue_entity`. -/
def dequeueTimeline (se : RbPtr) : Option CfsRq :=
  (rbEraseCached q.timeline se).map fun r => { q with timeline := r.1 }

/-- Add `min_vruntime` to the `vruntime` of an entity. -/
def renormalise (se : RbPtr) : CfsRq :=
  q.setSe se { q.se se with vruntime := (q.se se).vruntime + q.minVruntime }

/-- `enqueue_entity`, up to the timeline. -/
def enqueueAccount (now : UInt64) (q : CfsRq) (se : RbPtr) (flags : UInt32)
    (shares runnable : UInt64) : CfsRq :=
  let renorm := flags &&& enqueueWakeup = 0 ∨ flags &&& enqueueMigrated ≠ 0
  let curr := q.curr = se
  let q := if renorm ∧ curr then q.renormalise se else q
  let q := q.updateCurr now
  let q := if renorm ∧ ¬curr then q.renormalise se else q
  let q := q.updateCfsGroup now se shares runnable
  let q := q.enqueueRunnableLoadAvg se
  let q := q.accountEntityEnqueue se
  if flags &&& enqueueWakeup ≠ 0 then q.placeEntity tune se else q

/-- Set `on_rq`. -/
def setOnRq (se : RbPtr) (onRq : Bool) : CfsRq :=
  q.setSe se { q.se se with onRq := onRq }

/-- `enqueue_entity`. -/
def enqueueEntity (now : UInt64) (q : CfsRq) (se : RbPtr) (flags : UInt32)
    (shares runnable : UInt64) : Option CfsRq :=
  let q' := q.enqueueAccount tune now se flags shares runnable
  (if q.curr = se then some q' else q'.enqueueTimeline se).map (·.setOnRq se true)

/-- `dequeue_entity`. -/
def dequeueEntity (q : CfsRq) (se : RbPtr) (flags : UInt32)
    (shares runnable : UInt64) : Option CfsRq :=
  let q := q.updateCurr now
  let q := q.dequeueRunnableLoadAvg se
  (if se ≠ q.curr then q.dequeueTimeline se else some q).map fun q =>
    let q := q.setOnRq se false
    let q := q.accountEntityDequeue se
    let q := if flags &&& dequeueSleep = 0 then
        q.setSe se { q.se se with vruntime := (q.se se).vruntime - q.minVruntime }
      else q
    let q := q.updateCfsGroup now se shares runnable
    if flags &&& (dequeueSave ||| dequeueMove) ≠ dequeueSave then q.updateMinVruntime else q

/-- `set_next_entity`. -/
def setNextEntity (q : CfsRq) (se : RbPtr) : Option CfsRq :=
  (if (q.se se).onRq then q.dequeueTimeline se else some q).map fun q =>
    let q := q.setSe se { q.se se with execStart := now }
    let q := { q with curr := se }
    q.setSe se { q.se se with prevSumExecRuntime := (q.se se).sumExecRuntime }

/-- `put_prev_entity`. -/
def putPrevEntity (q : CfsRq) (prev : RbPtr) : Option CfsRq :=
  let q := if (q.se prev).onRq then q.updateCurr now else q
  (if (q.se prev).onRq then q.enqueueTimeline prev else some q).map fun q => { q with curr := 0 }

end CfsRq

/-- A call on a cfs_rq, at a time. -/
inductive CfsCall
  | enqueue (now : UInt64) (se : RbPtr) (flags : UInt32) (shares runnable : UInt64)
  | dequeue (now : UInt64) (se : RbPtr) (flags : UInt32) (shares runnable : UInt64)
  | setNext (now : UInt64) (se : RbPtr)
  | putPrev (now : UInt64) (prev : RbPtr)
  | reweight (now : UInt64) (se : RbPtr) (weight runnable : UInt64)
deriving DecidableEq

/-- Run one call. -/
def CfsCall.run (tune : CfsTunables) (q : CfsRq) : CfsCall → Option (CfsRq × Unit)
  | .enqueue now se flags shares runnable =>
    (q.enqueueEntity tune now se flags shares runnable).map (·, ())
  | .dequeue now se flags shares runnable =>
    (q.dequeueEntity now se flags shares runnable).map (·, ())
  | .setNext now se => (q.setNextEntity now se).map (·, ())
  | .putPrev now prev => (q.putPrevEntity now prev).map (·, ())
  | .reweight now se weight runnable => some (q.reweightEntity now se weight runnable, ())

/-- The entities that were enqueued and not dequeued. -/
def CfsCall.spec (queued : Finset RbPtr) : CfsCall → Finset RbPtr × Unit
  | .enqueue _ se _ _ _ => (insert se queued, ())
  | .dequeue _ se _ _ _ => (queued.erase se, ())
  | .setNext _ _ => (queued, ())
  | .putPrev _ _ => (queued, ())
  | .reweight _ _ _ _ => (queued, ())

/-- The calls as they are made : an entity that is not on the queue is enqueued, one that is on it
is dequeued, an entity becomes the current one when there is none, and it is the current one that is
put back. The address of a `struct rb_node` is a multiple of `sizeof(long)`. -/
def CfsCall.Issued (q : CfsRq) : CfsCall → Prop
  | .enqueue _ se _ _ _ => se ≠ 0 ∧ Aligned se ∧ (q.se se).onRq = false
  | .dequeue _ se _ _ _ => (q.se se).onRq = true
  | .setNext _ se => se ≠ 0 ∧ q.curr = 0
  | .putPrev _ prev => prev ≠ 0 ∧ prev = q.curr
  | .reweight _ se _ _ => se ≠ 0

/-- The virtual times on the queue are less than `2 ^ 63` apart : there is one from which all the
others are less than that ahead. -/
def CfsRq.Window (q : CfsRq) : Prop :=
  ∃ base : UInt64, ∀ se, (q.se se).onRq = true → ((q.se se).vruntime - base).toNat < 2 ^ 63

/-! ## The order of virtual times -/

theorem toInt64_neg_iff {x : UInt64} : x.toInt64 < 0 ↔ 2 ^ 63 ≤ x.toNat := by
  have hx := x.toNat_lt
  rw [Int64.lt_iff_toInt_lt, toInt_toInt64, show (0 : Int64).toInt = 0 from rfl]
  split <;> omega

/-- In a window, `entity_before` compares the distances from its start. -/
theorem entityBefore_iff {a b : CfsEntity} {base : UInt64}
    (ha : (a.vruntime - base).toNat < 2 ^ 63) (hb : (b.vruntime - base).toNat < 2 ^ 63) :
    entityBefore a b = true ↔ (a.vruntime - base).toNat < (b.vruntime - base).toNat := by
  have hva := a.vruntime.toNat_lt
  have hvb := b.vruntime.toNat_lt
  have hbase := base.toNat_lt
  rw [entityBefore, decide_eq_true_iff, toInt64_neg_iff]
  rw [UInt64.toNat_sub] at ha hb ⊢
  rw [UInt64.toNat_sub, UInt64.toNat_sub]
  omega

/-! ## What is kept -/

/-- The sums are over `S` and `R`, the entities in `O` are marked, and the timeline has the sequence
`list`, in order. -/
structure CfsRq.Meets (q : CfsRq) (S R O : Finset RbPtr) (list : List RbPtr) : Prop where
  weight : q.weight = ∑ se ∈ S, (q.se se).weight
  nrRunning : q.nrRunning = UInt32.ofNat S.card
  runnableWeight : q.runnableWeight = ∑ se ∈ R, (q.se se).runnableWeight
  onRq : ∀ se, (q.se se).onRq = true ↔ se ∈ O
  timeline : q.timeline.Represents list
  sorted : list.Pairwise fun a b => entityBefore (q.se b) (q.se a) = false

namespace CfsRq.Meets

variable {q : CfsRq} {S R O : Finset RbPtr} {list : List RbPtr} {se : RbPtr}

theorem setSe_congr {β : Type} {e : CfsEntity} {x : RbPtr} (f : CfsEntity → β)
    (hf : x = se → f e = f (q.se se)) : f ((q.setSe se e).se x) = f (q.se x) := by
  by_cases hxe : x = se
  · rw [hxe, setSe_self, hf hxe]
  · rw [setSe_of_ne q e hxe]

section

variable (h : q.Meets S R O list) {e : CfsEntity}
include h

/-- An entity may change in what is not kept of it, and be marked or not. -/
theorem setSe_mark {O' : Finset RbPtr}
    (hon : ∀ x, ((q.setSe se e).se x).onRq = true ↔ x ∈ O')
    (hweight : se ∈ S → e.weight = (q.se se).weight)
    (hrunnable : se ∈ R → e.runnableWeight = (q.se se).runnableWeight)
    (hvruntime : se ∈ list → e.vruntime = (q.se se).vruntime) :
    (q.setSe se e).Meets S R O' list := by
  refine ⟨?_, h.nrRunning, ?_, hon, h.timeline, ?_⟩
  · refine h.weight.trans (sum_congr rfl fun x hx => ?_)
    exact (setSe_congr (·.weight) fun hxe => hweight (hxe ▸ hx)).symm
  · refine h.runnableWeight.trans (sum_congr rfl fun x hx => ?_)
    exact (setSe_congr (·.runnableWeight) fun hxe => hrunnable (hxe ▸ hx)).symm
  · have hv : ∀ x ∈ list, ((q.setSe se e).se x).vruntime = (q.se x).vruntime :=
      fun x hx => setSe_congr (·.vruntime) fun hxe => hvruntime (hxe ▸ hx)
    refine h.sorted.imp_of_mem fun {a b} ha hb hab => ?_
    rw [entityBefore, hv a ha, hv b hb]
    exact hab

theorem setSe (hon : e.onRq = (q.se se).onRq)
    (hweight : se ∈ S → e.weight = (q.se se).weight)
    (hrunnable : se ∈ R → e.runnableWeight = (q.se se).runnableWeight)
    (hvruntime : se ∈ list → e.vruntime = (q.se se).vruntime) :
    (q.setSe se e).Meets S R O list := by
  refine h.setSe_mark (fun x => ?_) hweight hrunnable hvruntime
  rw [← h.onRq, setSe_congr (·.onRq) fun _ => hon]

/-- `min_vruntime` and `curr` are not kept. -/
theorem setClock (v : UInt64) (c : RbPtr) :
    { q with minVruntime := v, curr := c }.Meets S R O list :=
  ⟨h.weight, h.nrRunning, h.runnableWeight, h.onRq, h.timeline, h.sorted⟩

theorem updateMinVruntime : q.updateMinVruntime.Meets S R O list :=
  h.setClock _ q.curr

theorem setOnRq (se : RbPtr) (b : Bool) :
    (q.setOnRq se b).Meets S R (if b then insert se O else O.erase se) list := by
  refine h.setSe_mark (fun x => ?_) (fun _ => rfl) (fun _ => rfl) fun _ => rfl
  by_cases hx : x = se
  · rw [hx, setSe_self]
    cases b <;> simp
  · rw [setSe_of_ne q _ hx, h.onRq]
    cases b <;> simp [hx]

theorem accountEntityEnqueue (hse : se ∉ S) :
    (q.accountEntityEnqueue se).Meets (insert se S) R O list := by
  refine ⟨?_, ?_, h.runnableWeight, h.onRq, h.timeline, h.sorted⟩
  · rw [CfsRq.accountEntityEnqueue, sum_insert hse, ← h.weight, add_comm]
  · rw [CfsRq.accountEntityEnqueue, card_insert_of_notMem hse, h.nrRunning, UInt32.ofNat_add]
    rfl

theorem accountEntityDequeue (hse : se ∈ S) :
    (q.accountEntityDequeue se).Meets (S.erase se) R O list := by
  refine ⟨?_, ?_, h.runnableWeight, h.onRq, h.timeline, h.sorted⟩
  · rw [CfsRq.accountEntityDequeue, h.weight, ← add_sum_erase _ _ hse, add_sub_cancel_left]
  · have hcard := card_erase_add_one hse
    rw [CfsRq.accountEntityDequeue, h.nrRunning, ← hcard, UInt32.ofNat_add]
    exact add_sub_cancel_right _ _

theorem enqueueRunnableLoadAvg (hse : se ∉ R) :
    (q.enqueueRunnableLoadAvg se).Meets S (insert se R) O list := by
  refine ⟨h.weight, h.nrRunning, ?_, h.onRq, h.timeline, h.sorted⟩
  rw [CfsRq.enqueueRunnableLoadAvg, sum_insert hse, ← h.runnableWeight, add_comm]

theorem dequeueRunnableLoadAvg (hse : se ∈ R) :
    (q.dequeueRunnableLoadAvg se).Meets S (R.erase se) O list := by
  refine ⟨h.weight, h.nrRunning, ?_, h.onRq, h.timeline, h.sorted⟩
  rw [CfsRq.dequeueRunnableLoadAvg, h.runnableWeight, ← add_sum_erase _ _ hse, add_sub_cancel_left]

/-- The current entity is not in the timeline, so it may run. -/
theorem updateCurr (hcurr : q.curr ∉ list) (now : UInt64) :
    (q.updateCurr now).Meets S R O list := by
  rw [CfsRq.updateCurr]
  split_ifs
  · exact h
  dsimp only
  split_ifs
  · exact h
  · refine Meets.updateMinVruntime (h.setSe rfl (fun _ => rfl) (fun _ => rfl) fun hin => ?_)
    exact absurd hin hcurr

/-- A change of the weights of an entity that does not count. -/
theorem setWeights (hS : se ∉ S) (hR : se ∉ R) (weight runnable : UInt64) :
    (q.setSe se { q.se se with
      runnableWeight := runnable
      weight := weight
      invWeight := 0 }).Meets S R O list :=
  h.setSe rfl (fun hin => absurd hin hS) (fun hin => absurd hin hR) fun _ => rfl

end

theorem reweightEntity (h : q.Meets S S S list) (hcurr : q.curr ∉ list) (now : UInt64) (se : RbPtr)
    (weight runnable : UInt64) : (q.reweightEntity now se weight runnable).Meets S S S list := by
  rw [CfsRq.reweightEntity]
  by_cases hon : (q.se se).onRq = true
  case neg =>
    have hse : se ∉ S := fun hin => hon ((h.onRq se).mpr hin)
    rw [if_neg hon]
    have hout := h.setWeights hse hse weight runnable
    rw [if_neg fun hin => hse ((hout.onRq se).mp hin)]
    exact hout
  have hse : se ∈ S := (h.onRq se).mp hon
  have hrun : (if q.curr = se then q.updateCurr now else q).Meets S S S list := by
    split_ifs
    · exact h.updateCurr hcurr now
    · exact h
  rw [if_pos hon]
  dsimp only
  generalize (if q.curr = se then q.updateCurr now else q) = q1 at hrun
  have hout := ((hrun.accountEntityDequeue hse).dequeueRunnableLoadAvg hse).setWeights
    (notMem_erase se S) (notMem_erase se S) weight runnable
  rw [if_pos ((hout.onRq se).mpr hse)]
  have hin := (hout.accountEntityEnqueue (notMem_erase se S)).enqueueRunnableLoadAvg
    (notMem_erase se S)
  rwa [insert_erase hse] at hin

theorem updateCfsGroup (h : q.Meets S S S list) (hcurr : q.curr ∉ list) (now : UInt64) (se : RbPtr)
    (shares runnable : UInt64) : (q.updateCfsGroup now se shares runnable).Meets S S S list := by
  rw [CfsRq.updateCfsGroup]
  split_ifs
  · exact h.reweightEntity hcurr now se shares runnable
  · exact h

/-- `__enqueue_entity` puts an entity in its place. -/
theorem enqueueTimeline (h : q.Meets S R O list) (hne : se ≠ 0) (haligned : Aligned se)
    (hout : se ∉ list) :
    ∃ r list', q.enqueueTimeline se = some { q with timeline := r } ∧
      (∀ x, x ∈ list' ↔ x = se ∨ x ∈ list) ∧
      ((∃ base : UInt64, ∀ x, x = se ∨ x ∈ list → ((q.se x).vruntime - base).toNat < 2 ^ 63) →
        { q with timeline := r }.Meets S R O list') := by
  obtain ⟨r, answer, pre, post, hrun, rfl, hr, hplace⟩ := rbAddCached_spec h.timeline hne haligned
    hout fun entry => entityBefore (q.se se) (q.se entry)
  refine ⟨r, pre ++ se :: post, by rw [CfsRq.enqueueTimeline, hrun]; rfl, fun x => ?_, ?_⟩
  · simp only [List.mem_append, List.mem_cons]
    tauto
  rintro ⟨base, hbase⟩
  have hself := hbase se (.inl rfl)
  have hlist : ∀ x ∈ pre ++ post, ((q.se x).vruntime - base).toNat < 2 ^ 63 := fun x hx =>
    hbase x (.inr hx)
  have hconsistent : OrderConsistent (fun entry => entityBefore (q.se se) (q.se entry))
      (pre ++ post) := by
    refine h.sorted.imp_of_mem fun {a b} ha hb hab => ?_
    intro hless
    rw [← Bool.not_eq_true, entityBefore_iff (hlist b hb) (hlist a ha)] at hab
    rw [entityBefore_iff hself (hlist a ha)] at hless
    rw [entityBefore_iff hself (hlist b hb)]
    omega
  obtain ⟨hpre, hpost⟩ := hplace hconsistent
  refine ⟨h.weight, h.nrRunning, h.runnableWeight, h.onRq, hr, ?_⟩
  obtain ⟨hsortedPre, hsortedPost, hcross⟩ := List.pairwise_append.mp h.sorted
  refine List.pairwise_append.mpr ⟨hsortedPre, List.pairwise_cons.mpr ⟨fun x hx => ?_, hsortedPost⟩,
    fun a ha b hb => ?_⟩
  · have hless := hpost x hx
    have hx' := hlist x (List.mem_append_right _ hx)
    rw [entityBefore_iff hself hx'] at hless
    rw [← Bool.not_eq_true, entityBefore_iff hx' hself]
    omega
  · rcases List.mem_cons.mp hb with rfl | hb
    · exact hpre a ha
    · exact hcross a ha b hb

theorem dequeueTimeline (h : q.Meets S R O list) (hse : se ∈ list) :
    ∃ r, q.dequeueTimeline se = some { q with timeline := r } ∧
      { q with timeline := r }.Meets S R O (list.erase se) := by
  obtain ⟨r, answer, hrun, hr⟩ := rbEraseCached_represents h.timeline hse
  exact ⟨r, by rw [CfsRq.dequeueTimeline, hrun]; rfl, h.weight, h.nrRunning, h.runnableWeight,
    h.onRq, hr, h.sorted.sublist List.erase_sublist⟩

end CfsRq.Meets

/-! ## The calls -/

/-- Between calls : all sums are over the entities on the queue, and the timeline has those of them
that are not the current one. -/
structure CfsRq.Keeps (q : CfsRq) (queued : Finset RbPtr) (list : List RbPtr) : Prop where
  meets : q.Meets queued queued queued list
  mem_iff : ∀ x, x ∈ list ↔ x ∈ queued ∧ x ≠ q.curr
  proper : ∀ x ∈ queued, x ≠ 0 ∧ Aligned x

namespace CfsRq

variable {q : CfsRq} {queued : Finset RbPtr} {list : List RbPtr} {se : RbPtr}

theorem updateMinVruntime_curr (q : CfsRq) : q.updateMinVruntime.curr = q.curr := rfl

theorem updateCurr_curr (q : CfsRq) (now : UInt64) : (q.updateCurr now).curr = q.curr := by
  rw [updateCurr]
  split_ifs
  · rfl
  dsimp only
  split_ifs <;> rfl

theorem reweightEntity_curr (q : CfsRq) (now : UInt64) (se : RbPtr) (weight runnable : UInt64) :
    (q.reweightEntity now se weight runnable).curr = q.curr := by
  rw [reweightEntity]
  split_ifs
  all_goals first | exact q.updateCurr_curr now | rfl

theorem updateCfsGroup_curr (q : CfsRq) (now : UInt64) (se : RbPtr) (shares runnable : UInt64) :
    (q.updateCfsGroup now se shares runnable).curr = q.curr := by
  rw [updateCfsGroup]
  split_ifs
  · exact q.reweightEntity_curr now se shares runnable
  · rfl

variable (h : q.Keeps queued list)
include h

theorem Keeps.curr_notMem : q.curr ∉ list := fun hin =>
  ((h.mem_iff q.curr).mp hin).2 rfl

theorem Keeps.notMem (hse : se ∉ queued) : se ∉ list := fun hin =>
  hse ((h.mem_iff se).mp hin).1

/-- `enqueue_entity` up to the timeline : the entity counts, but is not marked yet. -/
theorem Keeps.enqueueAccount (hse : se ∉ queued) (tune : CfsTunables)
    (now : UInt64) (flags : UInt32) (shares runnable : UInt64) :
    (q.enqueueAccount tune now se flags shares runnable).Meets (insert se queued)
        (insert se queued) queued list ∧
      (q.enqueueAccount tune now se flags shares runnable).curr = q.curr := by
  have hout := h.notMem hse
  -- The `vruntime` of the entity is free, as it is not in the timeline.
  have hfree : ∀ {q' : CfsRq} {S R : Finset RbPtr} (v : UInt64), q'.Meets S R queued list →
      (q'.setSe se { q'.se se with vruntime := v }).Meets S R queued list := fun v h' =>
    h'.setSe rfl (fun _ => rfl) (fun _ => rfl) fun hin => absurd hin hout
  have hrenorm : ∀ {q' : CfsRq} (c : Prop) [Decidable c], q'.Meets queued queued queued list →
      (if c then q'.renormalise se else q').Meets queued queued queued list ∧
        (if c then q'.renormalise se else q').curr = q'.curr := by
    intro q' c _ h'
    split_ifs
    · exact ⟨hfree _ h', rfl⟩
    · exact ⟨h', rfl⟩
  rw [CfsRq.enqueueAccount]
  obtain ⟨h1, hc1⟩ := hrenorm ((flags &&& enqueueWakeup = 0 ∨ flags &&& enqueueMigrated ≠ 0) ∧
    q.curr = se) h.meets
  generalize (if (flags &&& enqueueWakeup = 0 ∨ flags &&& enqueueMigrated ≠ 0) ∧ q.curr = se then
    q.renormalise se else q) = q1 at h1 hc1 ⊢
  have h2 := h1.updateCurr (by rw [hc1]; exact h.curr_notMem) now
  have hc2 := (q1.updateCurr_curr now).trans hc1
  generalize q1.updateCurr now = q2 at h2 hc2 ⊢
  obtain ⟨h3, hc3⟩ := hrenorm ((flags &&& enqueueWakeup = 0 ∨ flags &&& enqueueMigrated ≠ 0) ∧
    ¬q.curr = se) h2
  generalize (if (flags &&& enqueueWakeup = 0 ∨ flags &&& enqueueMigrated ≠ 0) ∧ ¬q.curr = se then
    q2.renormalise se else q2) = q3 at h3 hc3 ⊢
  have h4 := h3.updateCfsGroup (by rw [hc3, hc2]; exact h.curr_notMem) now se shares runnable
  have hc4 := (q3.updateCfsGroup_curr now se shares runnable).trans (hc3.trans hc2)
  generalize q3.updateCfsGroup now se shares runnable = q4 at h4 hc4 ⊢
  have h5 := (h4.enqueueRunnableLoadAvg hse).accountEntityEnqueue hse
  split_ifs
  · exact ⟨hfree _ h5, hc4⟩
  · exact ⟨h5, hc4⟩

omit h in
/-- The window of a state, for an entity and those of a sequence. -/
theorem Window.of_onRq {q q' : CfsRq} (h : q'.Window) (hsame : ∀ x, (q'.se x).vruntime =
    (q.se x).vruntime) (hon : ∀ x, x = se ∨ x ∈ list → (q'.se x).onRq = true) :
    ∃ base : UInt64, ∀ x, x = se ∨ x ∈ list → ((q.se x).vruntime - base).toNat < 2 ^ 63 := by
  obtain ⟨base, hbase⟩ := h
  refine ⟨base, fun x hx => ?_⟩
  rw [← hsame]
  exact hbase x (hon x hx)

omit h in
theorem setOnRq_vruntime (q : CfsRq) (se x : RbPtr) (b : Bool) :
    ((q.setOnRq se b).se x).vruntime = (q.se x).vruntime := by
  by_cases hx : x = se
  · rw [hx, setOnRq, setSe_self]
  · rw [setOnRq, setSe_of_ne q _ hx]

theorem enqueueEntity_keeps (hne : se ≠ 0) (haligned : Aligned se)
    (hoff : (q.se se).onRq = false) (tune : CfsTunables) (now : UInt64) (flags : UInt32)
    (shares runnable : UInt64) :
    ∃ q' list', q.enqueueEntity tune now se flags shares runnable = some q' ∧
      (∀ x, (q'.se x).onRq = true ↔ x ∈ insert se queued) ∧
      (q'.Window → q'.Keeps (insert se queued) list') := by
  have hse : se ∉ queued := fun hin => by
    rw [(h.meets.onRq se).mpr hin] at hoff
    exact Bool.noConfusion hoff
  obtain ⟨hmeets, hcurr⟩ := h.enqueueAccount hse tune now flags shares runnable
  have hproper : ∀ x ∈ insert se queued, x ≠ 0 ∧ Aligned x := fun x hx =>
    (mem_insert.mp hx).elim (fun hx => hx ▸ ⟨hne, haligned⟩) (h.proper x)
  rw [enqueueEntity]
  generalize q.enqueueAccount tune now se flags shares runnable = q1 at hmeets hcurr ⊢
  by_cases hc : q.curr = se
  · rw [if_pos hc]
    have hfinal := hmeets.setOnRq se true
    refine ⟨_, list, rfl, hfinal.onRq, fun _ => ⟨hfinal, fun x => ?_, hproper⟩⟩
    have hcurr' : (q1.setOnRq se true).curr = q.curr := hcurr
    rw [h.mem_iff, hcurr', hc, mem_insert]
    exact ⟨fun hx => ⟨.inr hx.1, hx.2⟩, fun hx => ⟨hx.1.resolve_left hx.2, hx.2⟩⟩
  rw [if_neg hc]
  obtain ⟨r, list', hrun, hmem, hsorted⟩ := hmeets.enqueueTimeline hne haligned (h.notMem hse)
  have hmarked : ∀ x, (({ q1 with timeline := r }.setOnRq se true).se x).onRq = true ↔
      x ∈ insert se queued := by
    intro x
    by_cases hx : x = se
    · rw [hx, setOnRq, setSe_self]
      exact iff_of_true rfl (mem_insert_self se queued)
    · rw [setOnRq, setSe_of_ne _ _ hx, mem_insert, or_iff_right hx]
      exact hmeets.onRq x
  rw [hrun]
  refine ⟨_, list', rfl, hmarked, fun hwindow => ?_⟩
  have hfinal := hsorted (hwindow.of_onRq (fun x => setOnRq_vruntime ..) fun x hx =>
    (hmarked x).mpr (mem_insert.mpr (hx.imp_right fun hx => ((h.mem_iff x).mp hx).1)))
  refine ⟨hfinal.setOnRq se true, fun x => ?_, hproper⟩
  have hcurr' : ({ q1 with timeline := r }.setOnRq se true).curr = q.curr := hcurr
  rw [hmem, h.mem_iff, hcurr', mem_insert]
  constructor
  · rintro (rfl | hx)
    · exact ⟨.inl rfl, fun heq => hc heq.symm⟩
    · exact ⟨.inr hx.1, hx.2⟩
  · rintro ⟨rfl | hx, hne'⟩
    · exact .inl rfl
    · exact .inr ⟨hx, hne'⟩

theorem dequeueEntity_keeps (hon : (q.se se).onRq = true) (now : UInt64)
    (flags : UInt32) (shares runnable : UInt64) :
    ∃ q' list', q.dequeueEntity now se flags shares runnable = some q' ∧
      q'.Keeps (queued.erase se) list' := by
  have hse : se ∈ queued := (h.meets.onRq se).mp hon
  have h1 := (h.meets.updateCurr h.curr_notMem now).dequeueRunnableLoadAvg hse
  have hc1 := q.updateCurr_curr now
  rw [dequeueEntity]
  dsimp only
  generalize q.updateCurr now = q1 at h1 hc1 ⊢
  have hnodup : list.Nodup := by
    obtain ⟨t, hsound, -, rfl⟩ := h.meets.timeline.mem
    exact hsound.holds.distinct
  -- Out of the timeline, unless it is the current entity.
  have hout : ∃ q2, (if se ≠ (q1.dequeueRunnableLoadAvg se).curr then
        (q1.dequeueRunnableLoadAvg se).dequeueTimeline se
      else some (q1.dequeueRunnableLoadAvg se)) = some q2 ∧ q2.curr = q.curr ∧
      q2.Meets queued (queued.erase se) queued (list.erase se) := by
    by_cases hc : se = q.curr
    · refine ⟨_, if_neg (not_not.mpr (hc.trans hc1.symm)), hc1, ?_⟩
      rwa [List.erase_of_not_mem (hc ▸ h.curr_notMem)]
    · obtain ⟨r, hr, hmeets⟩ := h1.dequeueTimeline ((h.mem_iff se).mpr ⟨hse, hc⟩)
      exact ⟨_, (if_pos fun heq => hc (heq.trans hc1)).trans hr, hc1, hmeets⟩
  obtain ⟨q2, hrun, hc2, h2⟩ := hout
  rw [hrun, Option.map_some]
  have h3 := (h2.setOnRq se false).accountEntityDequeue hse
  have hc3 : ((q2.setOnRq se false).accountEntityDequeue se).curr = q.curr := hc2
  rw [if_neg Bool.false_ne_true] at h3
  generalize (q2.setOnRq se false).accountEntityDequeue se = q3 at h3 hc3 ⊢
  have h4 : (if flags &&& dequeueSleep = 0 then
        q3.setSe se { q3.se se with vruntime := (q3.se se).vruntime - q3.minVruntime }
      else q3).Meets (queued.erase se) (queued.erase se) (queued.erase se) (list.erase se) ∧
      (if flags &&& dequeueSleep = 0 then
        q3.setSe se { q3.se se with vruntime := (q3.se se).vruntime - q3.minVruntime }
      else q3).curr = q.curr := by
    split_ifs
    · refine ⟨h3.setSe rfl (fun _ => rfl) (fun _ => rfl) fun hin => ?_, hc3⟩
      exact absurd hin hnodup.not_mem_erase
    · exact ⟨h3, hc3⟩
  obtain ⟨h4, hc4⟩ := h4
  generalize (if flags &&& dequeueSleep = 0 then
      q3.setSe se { q3.se se with vruntime := (q3.se se).vruntime - q3.minVruntime }
    else q3) = q4 at h4 hc4 ⊢
  have hcurr : q4.curr ∉ list.erase se := fun hin => by
    rw [hc4] at hin
    exact h.curr_notMem (List.mem_of_mem_erase hin)
  have h5 := h4.updateCfsGroup hcurr now se shares runnable
  have hc5 := (q4.updateCfsGroup_curr now se shares runnable).trans hc4
  have hmem : ∀ x, x ∈ list.erase se ↔ x ∈ queued.erase se ∧ x ≠ q.curr := fun x => by
    rw [hnodup.mem_erase_iff, h.mem_iff, mem_erase, and_assoc]
  have hproper : ∀ x ∈ queued.erase se, x ≠ 0 ∧ Aligned x := fun x hx =>
    h.proper x (mem_of_mem_erase hx)
  refine ⟨_, list.erase se, rfl, ?_⟩
  split_ifs
  · refine ⟨h5.updateMinVruntime, ?_, hproper⟩
    rw [updateMinVruntime_curr, hc5]
    exact hmem
  · refine ⟨h5, ?_, hproper⟩
    rw [hc5]
    exact hmem

theorem setNextEntity_keeps (hcurr : q.curr = 0) (now : UInt64)
    (se : RbPtr) :
    ∃ q' list', q.setNextEntity now se = some q' ∧ q'.Keeps queued list' := by
  have hnodup : list.Nodup := by
    obtain ⟨t, hsound, -, rfl⟩ := h.meets.timeline.mem
    exact hsound.holds.distinct
  have hmem : ∀ x, x ∈ list ↔ x ∈ queued := fun x => by
    rw [h.mem_iff, hcurr]
    exact ⟨And.left, fun hx => ⟨hx, (h.proper x hx).1⟩⟩
  have hout : ∃ q1, (if (q.se se).onRq then q.dequeueTimeline se else some q) = some q1 ∧
      q1.Meets queued queued queued (list.erase se) := by
    by_cases hon : (q.se se).onRq = true
    · obtain ⟨r, hr, hmeets⟩ := h.meets.dequeueTimeline ((hmem se).mpr ((h.meets.onRq se).mp hon))
      exact ⟨_, (if_pos hon).trans hr, hmeets⟩
    · refine ⟨q, if_neg hon, ?_⟩
      rw [List.erase_of_not_mem fun hin => hon ((h.meets.onRq se).mpr ((hmem se).mp hin))]
      exact h.meets
  obtain ⟨q1, hrun, h1⟩ := hout
  refine ⟨_, list.erase se, by rw [setNextEntity, hrun]; rfl, ?_, fun x => ?_, h.proper⟩
  · refine Meets.setSe ?_ rfl (fun _ => rfl) (fun _ => rfl) fun _ => rfl
    refine Meets.setClock (h1.setSe ?_ (fun _ => ?_) (fun _ => ?_) fun _ => ?_) _ se <;> rfl
  · rw [hnodup.mem_erase_iff, hmem, and_comm]
    rfl

theorem putPrevEntity_keeps {prev : RbPtr} (hprev : prev = q.curr)
    (now : UInt64) :
    ∃ q' list', q.putPrevEntity now prev = some q' ∧
      (∀ x, (q'.se x).onRq = true ↔ x ∈ queued) ∧ (q'.Window → q'.Keeps queued list') := by
  have h1 := h.meets.updateCurr h.curr_notMem now
  rw [putPrevEntity]
  by_cases hon : (q.se prev).onRq = true
  case neg =>
    rw [if_neg hon, if_neg hon]
    have hin : prev ∉ queued := fun hin => hon ((h.meets.onRq prev).mpr hin)
    refine ⟨_, list, rfl, h.meets.onRq, fun _ => ⟨h.meets.setClock _ 0, fun x => ?_, h.proper⟩⟩
    rw [h.mem_iff, ← hprev]
    exact ⟨fun hx => ⟨hx.1, (h.proper x hx.1).1⟩, fun hx => ⟨hx.1, fun heq => hin (heq ▸ hx.1)⟩⟩
  have hin : prev ∈ queued := (h.meets.onRq prev).mp hon
  rw [if_pos hon]
  generalize q.updateCurr now = q1 at h1 ⊢
  rw [if_pos ((h1.onRq prev).mpr hin)]
  obtain ⟨r, list', hrun, hmem, hsorted⟩ := h1.enqueueTimeline (h.proper prev hin).1
    (h.proper prev hin).2 (hprev ▸ h.curr_notMem)
  rw [hrun]
  refine ⟨_, list', rfl, h1.onRq, fun hwindow => ?_⟩
  have hfinal := hsorted (hwindow.of_onRq (fun x => rfl) fun x hx => (h1.onRq x).mpr
    (hx.elim (fun hx => hx ▸ hin) fun hx => ((h.mem_iff x).mp hx).1))
  refine ⟨hfinal.setClock _ 0, fun x => ?_, h.proper⟩
  rw [hmem, h.mem_iff, ← hprev]
  constructor
  · rintro (rfl | hx)
    · exact ⟨hin, (h.proper x hin).1⟩
    · exact ⟨hx.1, (h.proper x hx.1).1⟩
  · rintro ⟨hx, -⟩
    by_cases hxp : x = prev
    · exact .inl hxp
    · exact .inr ⟨hx, hxp⟩

theorem reweightEntity_keeps (now : UInt64) (se : RbPtr)
    (weight runnable : UInt64) : (q.reweightEntity now se weight runnable).Keeps queued list :=
  ⟨h.meets.reweightEntity h.curr_notMem now se weight runnable, by
    rw [reweightEntity_curr]
    exact h.mem_iff, h.proper⟩

omit h

end CfsRq

/-! ## Every run -/

/-- A queue as `init_cfs_rq` leaves it, with no entity on it. -/
structure CfsRq.Fresh (q : CfsRq) : Prop where
  sums : q.weight = 0 ∧ q.runnableWeight = 0 ∧ q.nrRunning = 0
  onRq : ∀ se, (q.se se).onRq = false
  root : q.timeline.mem.link .root = 0 ∧ q.timeline.leftmost = 0 ∧ q.timeline.mem.stores = []
  curr : q.curr = 0

variable {q : CfsRq}

theorem CfsRq.Fresh.keeps (h : q.Fresh) : q.Keeps ∅ [] := by
  obtain ⟨hweight, hrunnable, hnr⟩ := h.sums
  obtain ⟨hroot, hleft, hstores⟩ := h.root
  have hholds : q.timeline.mem.Holds .nil := ⟨⟨hroot, trivial⟩, trivial, ColorTree.distinct_nil⟩
  refine ⟨⟨hweight, hnr, hrunnable, fun se => by simp [h.onRq se], ⟨⟨.nil, ?_, ?_, rfl⟩, hleft⟩,
    .nil⟩, fun x => by simp, fun x hx => absurd hx (notMem_empty x)⟩
  · exact ⟨hholds, fun _ _ => trivial, by simp [Traced, hstores], trivial⟩
  · exact ColorTree.redBlack_iff.mpr ⟨0, .nil⟩

/-- A call marks and unmarks as it should, and where the virtual times stay in a window it keeps the
sums and the timeline. -/
theorem CfsCall.run_keeps (tune : CfsTunables) {queued : Finset RbPtr}
    {list : List RbPtr} {o : CfsCall} (h : q.Keeps queued list) (hissued : o.Issued q) :
    ∃ q' list', o.run tune q = some (q', (o.spec queued).2) ∧
      (∀ x, (q'.se x).onRq = true ↔ x ∈ (o.spec queued).1) ∧
      (q'.Window → q'.Keeps (o.spec queued).1 list') := by
  cases o with
  | enqueue now se flags shares runnable =>
    obtain ⟨hne, haligned, hoff⟩ := hissued
    obtain ⟨q', list', hrun, h'⟩ := CfsRq.enqueueEntity_keeps h hne haligned hoff tune now flags
      shares runnable
    exact ⟨q', list', by rw [CfsCall.run, hrun]; rfl, h'⟩
  | dequeue now se flags shares runnable =>
    obtain ⟨q', list', hrun, h'⟩ := CfsRq.dequeueEntity_keeps h hissued now flags shares runnable
    exact ⟨q', list', by rw [CfsCall.run, hrun]; rfl, h'.meets.onRq, fun _ => h'⟩
  | setNext now se =>
    obtain ⟨q', list', hrun, h'⟩ := CfsRq.setNextEntity_keeps h hissued.2 now se
    exact ⟨q', list', by rw [CfsCall.run, hrun]; rfl, h'.meets.onRq, fun _ => h'⟩
  | putPrev now prev =>
    obtain ⟨q', list', hrun, h'⟩ := CfsRq.putPrevEntity_keeps h hissued.2 now
    exact ⟨q', list', by rw [CfsCall.run, hrun]; rfl, h'⟩
  | reweight now se weight runnable =>
    have h' := CfsRq.reweightEntity_keeps h now se weight runnable
    exact ⟨_, list, rfl, h'.meets.onRq, fun _ => h'⟩

/-- A sum of words is the sum modulo `2 ^ 64`. -/
theorem toNat_sum {ι : Type*} (s : Finset ι) (f : ι → UInt64) :
    (∑ i ∈ s, f i).toNat = (∑ i ∈ s, (f i).toNat) % 2 ^ 64 := by
  classical
  induction s using Finset.induction_on with
  | empty => rfl
  | insert a s ha ih =>
    rw [sum_insert ha, sum_insert ha, UInt64.toNat_add, ih, Nat.add_mod_mod]

/-- In every state of every run, the marked entities are those that were enqueued and not dequeued,
the sums are over them, and the timeline has those that are not the current one, in order, with the
first one cached. -/
theorem cfsRun_accounts (tune : CfsTunables) (hq : q.Fresh) (ops : List CfsCall)
    (h : CallsMeet (CfsCall.run tune)
      (fun q o => o.Issued q ∧ ∀ r, o.run tune q = some r → r.1.Window) q ops) :
    ∃ r queued t, runCalls (CfsCall.run tune) q ops = some r ∧
      (runAbstract CfsCall.spec ∅ ops).1 = queued ∧
      (∀ se, (r.1.se se).onRq = true ↔ se ∈ queued) ∧
      r.1.weight.toNat = (∑ se ∈ queued, (r.1.se se).weight.toNat) % 2 ^ 64 ∧
      r.1.runnableWeight.toNat = (∑ se ∈ queued, (r.1.se se).runnableWeight.toNat) % 2 ^ 64 ∧
      r.1.nrRunning.toNat = queued.card % 2 ^ 32 ∧
      r.1.timeline.mem.Holds t ∧ t.RedBlack ∧
      (∀ se, se ∈ t ↔ se ∈ queued ∧ se ≠ r.1.curr) ∧
      (t.toList.Pairwise fun a b => entityBefore (r.1.se b) (r.1.se a) = false) ∧
      r.1.timeline.leftmost = t.toList.head?.getD 0 := by
  have hstep : ∀ (q : CfsRq) (queued : Finset RbPtr) (o : CfsCall), (∃ list, q.Keeps queued list) →
      (o.Issued q ∧ ∀ r, o.run tune q = some r → r.1.Window) →
      ∃ q', o.run tune q = some (q', (o.spec queued).2) ∧
        ∃ list, q'.Keeps (o.spec queued).1 list := by
    rintro q queued o ⟨list, hkeeps⟩ ⟨hissued, hwindow⟩
    obtain ⟨q', list', hrun, -, hkeeps'⟩ := CfsCall.run_keeps tune hkeeps hissued
    exact ⟨q', hrun, list', hkeeps' (hwindow _ hrun)⟩
  obtain ⟨q', hrun, list, hkeeps⟩ := runCalls_refines_of_meets _ _ hstep ⟨[], hq.keeps⟩ h
  obtain ⟨t, hsound, hredBlack, rfl⟩ := hkeeps.meets.timeline.mem
  refine ⟨_, _, t, hrun, rfl, hkeeps.meets.onRq, ?_, ?_, ?_, hsound.holds, hredBlack,
    hkeeps.mem_iff, hkeeps.meets.sorted, hkeeps.meets.timeline.leftmost⟩
  · rw [hkeeps.meets.weight, toNat_sum]
  · rw [hkeeps.meets.runnableWeight, toNat_sum]
  · rw [hkeeps.meets.nrRunning, UInt32.toNat_ofNat']

instance (q : CfsRq) : ∀ o : CfsCall, Decidable (o.Issued q)
  | .enqueue _ _ _ _ _ | .setNext _ _ | .putPrev _ _ => inferInstanceAs (Decidable (_ ∧ _))
  | .dequeue _ _ _ _ _ => inferInstanceAs (Decidable (_ = _))
  | .reweight _ _ _ _ => inferInstanceAs (Decidable (_ ≠ _))

/-- As long as there are only the entities `a` and `b`, with virtual times below `2 ^ 63`, there
is a window. -/
theorem callsMeet_of_pair (tune : CfsTunables) (a b : RbPtr) (hq : q.Fresh)
    {ops : List CfsCall}
    (h : CallsMeet (CfsCall.run tune) (fun q o => o.Issued q ∧ (o.spec {a, b}).1 ⊆ {a, b} ∧
      (o.run tune q).all (fun r => (r.1.se a).vruntime.toNat < 2 ^ 63 &&
        (r.1.se b).vruntime.toNat < 2 ^ 63)) q ops) :
    CallsMeet (CfsCall.run tune)
      (fun q o => o.Issued q ∧ ∀ r, o.run tune q = some r → r.1.Window) q ops := by
  refine h.imp (fun q => ∃ queued list, queued ⊆ {a, b} ∧ q.Keeps queued list) ?_
    ⟨∅, [], empty_subset _, hq.keeps⟩
  rintro q o ⟨queued, list, hsub, hkeeps⟩ ⟨hissued, hS, hbelow⟩
  obtain ⟨q', list', hrun, hmarked, hkeeps'⟩ := CfsCall.run_keeps tune hkeeps hissued
  have hsub' : (o.spec queued).1 ⊆ {a, b} := by
    refine Subset.trans ?_ hS
    cases o with
    | enqueue now se flags shares runnable => exact insert_subset_insert se hsub
    | dequeue now se flags shares runnable => exact erase_subset_erase se hsub
    | _ => exact hsub
  have hwindow : q'.Window := by
    simp only [hrun, Option.all_some, Bool.and_eq_true, decide_eq_true_iff] at hbelow
    refine ⟨0, fun x hx => ?_⟩
    rw [sub_zero]
    rcases mem_insert.mp (hsub' ((hmarked x).mp hx)) with rfl | hx
    · exact hbelow.1
    · exact mem_singleton.mp hx ▸ hbelow.2
  refine ⟨⟨hissued, fun r hr => ?_⟩, fun r hr => ?_⟩
  · rw [hrun] at hr
    exact Option.some.inj hr ▸ hwindow
  · rw [hrun] at hr
    exact Option.some.inj hr ▸ ⟨_, list', hsub', hkeeps' hwindow⟩

/-- A queue with no entity on it, and entities of the default weight. -/
def idleCfsRq : CfsRq :=
  ⟨fun _ => ⟨1048576, 0, 1048576, false, 0, 0, 0, 0, false⟩, 0, 0, 0, 0,
    ⟨⟨fun _ => 0, fun _ => 0, fun _ => (), []⟩, 0⟩, 0⟩

/-- The first of two entities runs and is put back, and the second one is dequeued. -/
def cfsPairCalls : List CfsCall :=
  [.enqueue 0 8 0 0 0, .enqueue 0 16 0 0 0, .setNext 0 8, .putPrev 2000 8, .dequeue 3000 16 0 0 0]

theorem cfsRun_accounts_pair :
    ∃ r t, runCalls (CfsCall.run ⟨6000000, true⟩) idleCfsRq cfsPairCalls = some r ∧
      r.1.nrRunning.toNat = 1 ∧ r.1.timeline.mem.Holds t ∧ t.RedBlack ∧
      (∀ se, se ∈ t ↔ se ∈ ({8} : Finset RbPtr) ∧ se ≠ r.1.curr) ∧
      r.1.timeline.leftmost = t.toList.head?.getD 0 := by
  have hfresh : idleCfsRq.Fresh := ⟨⟨rfl, rfl, rfl⟩, fun _ => rfl, ⟨rfl, rfl, rfl⟩, rfl⟩
  obtain ⟨r, queued, t, hrun, hqueued, -, -, -, hnr, hholds, hblack, hmem, -, hleft⟩ :=
    cfsRun_accounts ⟨6000000, true⟩ hfresh cfsPairCalls
      (callsMeet_of_pair _ 8 16 hfresh (by decide +kernel))
  have hset : queued = {8} := by
    rw [← hqueued]
    decide
  rw [hset] at hnr hmem
  exact ⟨r, t, hrun, hnr, hholds, hblack, hmem, hleft⟩

end LinuxKernelTest
