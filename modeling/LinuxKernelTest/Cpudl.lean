import LinuxKernelTest.IndexedHeap
import LinuxKernelTest.Loop

/-!
# The heap of CPU deadlines

`kernel/sched/cpudeadline.c` keeps the CPUs that run deadline tasks in a max-heap by deadline, and
a mask of the CPUs that are free. The array `elements` has one item for each CPU and is used
twice : `dl` and `cpu` of item `i` are position `i` of the heap, `idx` of item `c` is the position
of CPU `c`, or `IDX_INVALID`.

The sifts move a hole : they keep the element in `orig_cpu` and `orig_dl`, pull others over the hole
and write the element back at the end. A read or write outside the array is `none`. Each call holds
`cp->lock`, so calls do not interleave.
-/

namespace LinuxKernelTest

open Function

/-- `dl_time_before`. -/
def dlTimeBefore (a b : BitVec 64) : Bool := (a - b).toInt < 0

/-- `struct cpudl_item`. -/
structure CpudlItem where
  dl : BitVec 64
  cpu : ℕ
  idx : ℤ
deriving DecidableEq, Repr

/-- `IDX_INVALID`. -/
def idxInvalid : ℤ := -1

/-- `struct cpudl`, for `nr` CPUs. -/
structure Cpudl (nr : ℕ) where
  size : ℕ
  freeCpus : BitVec nr
  elements : ℕ → CpudlItem

variable (nr : ℕ)

variable (e : ℕ → CpudlItem)

/-- Read an item. -/
def itemAt (i : ℕ) : Option CpudlItem :=
  if i < nr then some (e i) else none

/-- Write `cpu` and `dl` of item `i`, and the position of the CPU. -/
def placeAt (i cpu : ℕ) (dl : BitVec 64) : Option (ℕ → CpudlItem) :=
  if i < nr ∧ cpu < nr then
    let e := update e i { e i with cpu := cpu, dl := dl }
    some (update e cpu { e cpu with idx := i })
  else none

/-- Pull the element at `j` onto `i`. -/
def pullTo (i j : ℕ) : Option (ℕ → CpudlItem) :=
  (itemAt nr e j).bind fun x => placeAt nr e i x.cpu x.dl

/-! ## Sifting -/

/-- `largest` of a round of `cpudl_heapify_down`. -/
def largestOf (nr size : ℕ) (origDl : BitVec 64) (idx : ℕ) (e : ℕ → CpudlItem) : Option ℕ :=
  let l := 2 * idx + 1
  let r := 2 * idx + 2
  (if l < size then
    (itemAt nr e l).map fun x => if dlTimeBefore origDl x.dl then (l, x.dl) else (idx, origDl)
  else some (idx, origDl)).bind fun (largest, largestDl) =>
    if r < size then
      (itemAt nr e r).map fun x => if dlTimeBefore largestDl x.dl then r else largest
    else some largest

/-- A round of `cpudl_heapify_down`. -/
def downRound (nr size : ℕ) (origDl : BitVec 64) :
    ℕ × (ℕ → CpudlItem) → Round (ℕ × (ℕ → CpudlItem)) (Option (ℕ × (ℕ → CpudlItem)))
  | (idx, e) =>
    match largestOf nr size origDl idx e with
    | none => .done none
    | some largest =>
      if largest = idx then .done (some (idx, e))
      else
        match pullTo nr e idx largest with
        | none => .done none
        | some e => .again (largest, e)

/-- `cpudl_heapify_down`. Every round goes down one level. -/
def cpudlHeapifyDown (nr size : ℕ) (e : ℕ → CpudlItem) (idx : ℕ) : Option (ℕ → CpudlItem) :=
  (itemAt nr e idx).bind fun orig =>
    if 2 * idx + 1 ≥ size then some e
    else
      (runLoop (downRound nr size orig.dl) (nr + 1) (idx, e)).join.bind fun (idx, e) =>
        placeAt nr e idx orig.cpu orig.dl

/-- A round of `cpudl_heapify_up`. -/
def upRound (origDl : BitVec 64) :
    ℕ × (ℕ → CpudlItem) → Round (ℕ × (ℕ → CpudlItem)) (Option (ℕ × (ℕ → CpudlItem)))
  | (idx, e) =>
    let p := heapParent idx
    match itemAt nr e p with
    | none => .done none
    | some x =>
      if dlTimeBefore origDl x.dl then .done (some (idx, e))
      else
        match pullTo nr e idx p with
        | none => .done none
        | some e => if p ≠ 0 then .again (p, e) else .done (some (p, e))

/-- `cpudl_heapify_up`. -/
def cpudlHeapifyUp (e : ℕ → CpudlItem) (idx : ℕ) : Option (ℕ → CpudlItem) :=
  (itemAt nr e idx).bind fun orig =>
    if idx = 0 then some e
    else
      (runLoop (upRound nr orig.dl) (nr + 1) (idx, e)).join.bind fun (idx, e) =>
        placeAt nr e idx orig.cpu orig.dl

/-- `cpudl_heapify`. -/
def cpudlHeapify (nr size : ℕ) (e : ℕ → CpudlItem) (idx : ℕ) : Option (ℕ → CpudlItem) :=
  if idx > 0 then
    (itemAt nr e (heapParent idx)).bind fun p =>
      (itemAt nr e idx).bind fun x =>
        if dlTimeBefore p.dl x.dl then cpudlHeapifyUp nr e idx
        else cpudlHeapifyDown nr size e idx
  else cpudlHeapifyDown nr size e idx

/-! ## The calls -/

/-- `cpumask_set_cpu`. -/
def cpumaskSetCpu {nr : ℕ} (cpu : ℕ) (mask : BitVec nr) : BitVec nr :=
  mask ||| BitVec.twoPow nr cpu

/-- `cpumask_clear_cpu`. -/
def cpumaskClearCpu {nr : ℕ} (cpu : ℕ) (mask : BitVec nr) : BitVec nr :=
  mask &&& ~~~BitVec.twoPow nr cpu

/-- `cpudl_init`, with the mask of possible CPUs. -/
def cpudlInit (possible : BitVec nr) : Cpudl nr where
  size := 0
  freeCpus := 0
  elements i := ⟨0, 0, if possible.getLsbD i then idxInvalid else 0⟩

/-- `cpudl_clear`. -/
def cpudlClear {nr : ℕ} (cp : Cpudl nr) (cpu : ℕ) : Option (Cpudl nr) :=
  (itemAt nr cp.elements cpu).bind fun item =>
    if item.idx = idxInvalid then some cp
    else if cp.size = 0 ∨ item.idx < 0 then none
    else
      (itemAt nr cp.elements (cp.size - 1)).bind fun last =>
        (placeAt nr cp.elements item.idx.toNat last.cpu last.dl).bind fun e =>
          let e := update e cpu { e cpu with idx := idxInvalid }
          (cpudlHeapify nr (cp.size - 1) e item.idx.toNat).map fun e =>
            ⟨cp.size - 1, cpumaskSetCpu cpu cp.freeCpus, e⟩

/-- `cpudl_set`. -/
def cpudlSet {nr : ℕ} (cp : Cpudl nr) (cpu : ℕ) (dl : BitVec 64) : Option (Cpudl nr) :=
  (itemAt nr cp.elements cpu).bind fun item =>
    if item.idx = idxInvalid then
      (placeAt nr cp.elements cp.size cpu dl).bind fun e =>
        (cpudlHeapifyUp nr e cp.size).map fun e =>
          ⟨cp.size + 1, cpumaskClearCpu cpu cp.freeCpus, e⟩
    else if item.idx < 0 ∨ nr ≤ item.idx.toNat then none
    else
      let i := item.idx.toNat
      let e := update cp.elements i { cp.elements i with dl := dl }
      (cpudlHeapify nr cp.size e i).map fun e => { cp with elements := e }

/-- `cpudl_set_freecpu`. -/
def cpudlSetFreecpu {nr : ℕ} (cp : Cpudl nr) (cpu : ℕ) : Cpudl nr :=
  { cp with freeCpus := cpumaskSetCpu cpu cp.freeCpus }

/-- `cpudl_clear_freecpu`. -/
def cpudlClearFreecpu {nr : ℕ} (cp : Cpudl nr) (cpu : ℕ) : Cpudl nr :=
  { cp with freeCpus := cpumaskClearCpu cpu cp.freeCpus }

/-- What `cpudl_find` reads of a task : `dl.deadline` and `cpus_ptr`. -/
structure DlTask (nr : ℕ) where
  deadline : BitVec 64
  cpus : BitVec nr

/-- `cpudl_find` with a mask to fill in (or `NULL`) : the return value and the mask. -/
def cpudlFind {nr : ℕ} (cp : Cpudl nr) (p : DlTask nr) (laterMask : Option (BitVec nr)) :
    Option (ℤ × Option (BitVec nr)) :=
  let laterMask := laterMask.map fun _ => cp.freeCpus &&& p.cpus
  if laterMask.getD 0 ≠ 0 then some (1, laterMask)
  else
    (itemAt nr cp.elements 0).map fun root =>
      if p.cpus.getLsbD root.cpu ∧ dlTimeBefore p.deadline root.dl then
        (1, laterMask.map (cpumaskSetCpu root.cpu))
      else (0, laterMask)

/-- The calls that change the state. -/
inductive CpudlOp
  | set (cpu : ℕ) (dl : BitVec 64)
  | clear (cpu : ℕ)
  | setFreecpu (cpu : ℕ)
  | clearFreecpu (cpu : ℕ)
deriving DecidableEq, Repr

/-- The CPU that a call is about. -/
def CpudlOp.cpu : CpudlOp → ℕ
  | .set cpu _ | .clear cpu | .setFreecpu cpu | .clearFreecpu cpu => cpu

/-- Run one call. -/
def CpudlOp.run {nr : ℕ} (cp : Cpudl nr) : CpudlOp → Option (Cpudl nr)
  | .set cpu dl => cpudlSet cp cpu dl
  | .clear cpu => cpudlClear cp cpu
  | .setFreecpu cpu => some (cpudlSetFreecpu cp cpu)
  | .clearFreecpu cpu => some (cpudlClearFreecpu cp cpu)

/-- The calls `ops` after `cpudl_init`. -/
def cpudlRun (possible : BitVec nr) (ops : List CpudlOp) : Option (Cpudl nr) :=
  ops.foldlM CpudlOp.run (cpudlInit nr possible)

end LinuxKernelTest
