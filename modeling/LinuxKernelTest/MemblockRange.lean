import LinuxKernelTest.Memblock
import Mathlib.Data.Nat.Bitwise

/-!
# Memblock : free ranges and allocation

`__next_mem_range` and `__next_mem_range_rev` walk along two arrays at once : the regions of
`type_a`, and the areas between the regions of `type_b`. Area `i` lies before region `i`, and the
last area goes up to `PHYS_ADDR_MAX`. The two indices are packed into one `u64`, the index into
`type_a` in the lower half, and all ones is the end of the iteration. As `int`s the indices can be
negative; where they are compared with the unsigned `cnt` a negative index is a huge one.

The allocator takes the free ranges from the top (`__memblock_find_range_top_down`) and reserves
what it finds. `memblock_find_in_range_node` has a bottom-up branch for an `end` above the end of
the kernel image, but sets `kernel_end = end`. The iterators change nothing but their index, so a
`return` from the body of the iteration is the first range the body has a result for.
-/

namespace LinuxKernelTest

/-! ## The areas between regions -/

/-- `NUMA_NO_NODE`. -/
def numaNoNode : ℤ := -1

/-- `memblock_is_mirror`. -/
def memblockIsMirror (m : MemblockRegion) : Bool := m.flags &&& memblockMirror ≠ 0

/-- `should_skip_region`. -/
def shouldSkipRegion (m : MemblockRegion) (nid : ℤ) (flags : MemblockFlags) : Bool :=
  if nid ≠ numaNoNode ∧ nid ≠ m.nid then true
  else if flags &&& memblockMirror ≠ 0 ∧ memblockIsMirror m = false then true
  else if flags &&& memblockNomap = 0 ∧ memblockIsNomap m = true then true
  else false

/-- `MAX_NUMNODES` is still accepted for "any node". -/
def anyNode (nid : ℤ) : ℤ := if nid = maxNumnodes then numaNoNode else nid

/-- What the out parameters get. -/
structure MemRange where
  start : ℕ
  stop : ℕ
  nid : ℤ
deriving DecidableEq, Repr

/-- The address `x` lies in the range. -/
def MemRange.Contains (range : MemRange) (x : ℕ) : Prop := range.start ≤ x ∧ x < range.stop

/-- The address `x` lies in the region. -/
def MemblockRegion.Contains (r : MemblockRegion) (x : ℕ) : Prop := r.base ≤ x ∧ x < r.base + r.size

/-- The address `x` lies in a region of the array. -/
def MemblockType.Contains (t : MemblockType) (x : ℕ) : Prop := ∃ r ∈ t.regions, r.Contains x

variable (w : ℕ)

/-- `r_start` : the end of the region before the area. -/
def areaStart (type : MemblockType) (idx : ℤ) : Option ℕ :=
  if idx = 0 then some 0
  else type.regions[(idx - 1).toNat]?.map fun r => physAdd w r.base r.size

/-- `r_end` : the base of the region behind the area. -/
def areaEnd (type : MemblockType) (idx : ℤ) : Option ℕ :=
  if idx < type.cnt then type.regions[idx.toNat]?.map MemblockRegion.base
  else some (physAddrMax w)

/-- The packed indices. -/
def packIdx (idxA idxB : ℤ) : BitVec 64 := BitVec.ofInt 32 idxB ++ BitVec.ofInt 32 idxA

/-- The index for `type_a`, an `int`. -/
def lowIdx (idx : BitVec 64) : ℤ := (idx.extractLsb' 0 32).toInt

/-- The index for `type_b`, an `int`. -/
def highIdx (idx : BitVec 64) : ℤ := (idx.extractLsb' 32 32).toInt

/-- `ULLONG_MAX`. -/
def ullongMax : BitVec 64 := BitVec.allOnes 64

/-- How a scan of the areas ends : at an area to go on from with the next region, or with a range
and the indices for the next call. -/
inductive AreaScan
  | passed (idxB : ℤ)
  | found (idxA idxB : ℤ) (range : MemRange)

/-! ## Forwards -/

/-- A round of the scan of the areas for the region `m` at `idxA`. -/
def areaRound (typeB : MemblockType) (m : MemblockRegion) (idxA idxB : ℤ) :
    Round ℤ (Option AreaScan) :=
  let mStart := m.base
  let mEnd := physAdd w m.base m.size
  if 0 ≤ idxB ∧ idxB < typeB.cnt + 1 then
    match areaStart w typeB idxB, areaEnd w typeB idxB with
    | some rStart, some rEnd =>
      if rStart ≥ mEnd then .done (some (.passed idxB))
      else if mStart < rEnd then
        let range := ⟨max mStart rStart, min mEnd rEnd, m.nid⟩
        -- The one that ends first is advanced for the next iteration.
        if mEnd ≤ rEnd then .done (some (.found (idxA + 1) idxB range))
        else .done (some (.found idxA (idxB + 1) range))
      else .again (idxB + 1)
    | _, _ => .done none
  else .done (some (.passed idxB))

/-- A round of the loop over the regions of `type_a`. -/
def rangeRound (nid : ℤ) (flags : MemblockFlags) (typeA : MemblockType)
    (typeB : Option MemblockType) : ℤ × ℤ → Round (ℤ × ℤ) (Option (BitVec 64 × Option MemRange))
  | (idxA, idxB) =>
    if 0 ≤ idxA ∧ idxA < typeA.cnt then
      match typeA.regions[idxA.toNat]? with
      | none => .done none
      | some m =>
        if shouldSkipRegion m nid flags then .again (idxA + 1, idxB)
        else
          match typeB with
          | none =>
            .done (some (packIdx (idxA + 1) idxB,
              some ⟨m.base, physAdd w m.base m.size, m.nid⟩))
          | some typeB =>
            match (runLoop (areaRound w typeB m idxA) memblockFuel idxB).join with
            | none => .done none
            | some (.passed idxB) => .again (idxA + 1, idxB)
            | some (.found idxA idxB range) => .done (some (packIdx idxA idxB, some range))
    else .done (some (ullongMax, none))

/-- `__next_mem_range` : the new index, and the range if there is one. -/
def nextMemRange (nid : ℤ) (flags : MemblockFlags) (typeA : MemblockType)
    (typeB : Option MemblockType) (idx : BitVec 64) : Option (BitVec 64 × Option MemRange) :=
  (runLoop (rangeRound w (anyNode nid) flags typeA typeB) memblockFuel
    (lowIdx idx, highIdx idx)).join

/-! ## Backwards -/

/-- A round of the backward scan of the areas. -/
def areaRoundRev (typeB : MemblockType) (m : MemblockRegion) (idxA idxB : ℤ) :
    Round ℤ (Option AreaScan) :=
  let mStart := m.base
  let mEnd := physAdd w m.base m.size
  if 0 ≤ idxB then
    match areaStart w typeB idxB, areaEnd w typeB idxB with
    | some rStart, some rEnd =>
      if rEnd ≤ mStart then .done (some (.passed idxB))
      else if mEnd > rStart then
        let range := ⟨max mStart rStart, min mEnd rEnd, m.nid⟩
        if mStart ≥ rStart then .done (some (.found (idxA - 1) idxB range))
        else .done (some (.found idxA (idxB - 1) range))
      else .again (idxB - 1)
    | _, _ => .done none
  else .done (some (.passed idxB))

/-- A round of the backward loop over the regions of `type_a`. -/
def rangeRoundRev (nid : ℤ) (flags : MemblockFlags) (typeA : MemblockType)
    (typeB : Option MemblockType) : ℤ × ℤ → Round (ℤ × ℤ) (Option (BitVec 64 × Option MemRange))
  | (idxA, idxB) =>
    if 0 ≤ idxA then
      match typeA.regions[idxA.toNat]? with
      | none => .done none
      | some m =>
        if shouldSkipRegion m nid flags then .again (idxA - 1, idxB)
        else
          match typeB with
          | none =>
            .done (some (packIdx (idxA - 1) idxB,
              some ⟨m.base, physAdd w m.base m.size, m.nid⟩))
          | some typeB =>
            match (runLoop (areaRoundRev w typeB m idxA) memblockFuel idxB).join with
            | none => .done none
            | some (.passed idxB) => .again (idxA - 1, idxB)
            | some (.found idxA idxB range) => .done (some (packIdx idxA idxB, some range))
    else .done (some (ullongMax, none))

/-- `__next_mem_range_rev`, which starts at the ends of the arrays. -/
def nextMemRangeRev (nid : ℤ) (flags : MemblockFlags) (typeA : MemblockType)
    (typeB : Option MemblockType) (idx : BitVec 64) : Option (BitVec 64 × Option MemRange) :=
  let start : ℤ × ℤ :=
    if idx = ullongMax then
      ((typeA.cnt : ℤ) - 1, match typeB with
        | some typeB => (typeB.cnt : ℤ)
        | none => 0)
    else (lowIdx idx, highIdx idx)
  (runLoop (rangeRoundRev w (anyNode nid) flags typeA typeB) memblockFuel start).join

/-! ## Iteration -/

/-- `for (i = start, next(&i); i != ULLONG_MAX; next(&i))` : the ranges the body is run with. -/
def forEachRange (next : BitVec 64 → Option (BitVec 64 × Option MemRange)) :
    ℕ → BitVec 64 → Option (List MemRange)
  | 0, _ => none
  | n + 1, idx =>
    (next idx).bind fun
      | (idx, range) =>
        if idx = ullongMax then some []
        else range.bind fun range => (forEachRange next n idx).map fun l => range :: l

/-- `for_each_free_mem_range`. -/
def forEachFreeMemRange (memory reserved : MemblockType) (nid : ℤ)
    (flags : MemblockFlags) : Option (List MemRange) :=
  forEachRange (nextMemRange w nid flags memory (some reserved)) memblockFuel 0

/-- `for_each_free_mem_range_reverse`. -/
def forEachFreeMemRangeReverse (memory reserved : MemblockType) (nid : ℤ)
    (flags : MemblockFlags) : Option (List MemRange) :=
  forEachRange (nextMemRangeRev w nid flags memory (some reserved)) memblockFuel ullongMax

/-! ## Searching -/

/-- `PAGE_SIZE`. -/
def pageSize : ℕ := 2 ^ 12

/-- `SMP_CACHE_BYTES`. -/
def smpCacheBytes : ℕ := 2 ^ 5

/-- `clamp`. -/
def clampAddr (val lo hi : ℕ) : ℕ := min (max val lo) hi

/-- `__round_mask`. -/
def roundMask (w y : ℕ) : ℕ := physSub w y 1

/-- `round_down` : `x & ~mask`. -/
def roundDown (w x y : ℕ) : ℕ := Nat.ldiff x (roundMask w y)

/-- `round_up`. -/
def roundUp (w x y : ℕ) : ℕ := physAdd w (physSub w x 1 ||| roundMask w y) 1

/-- The body of `__memblock_find_range_bottom_up`. -/
def bottomUpCand (w start stop size align : ℕ) (range : MemRange) : Option ℕ :=
  let thisStart := clampAddr range.start start stop
  let thisEnd := clampAddr range.stop start stop
  let cand := roundUp w thisStart align
  if cand < thisEnd ∧ physSub w thisEnd cand ≥ size then some cand else none

/-- The body of `__memblock_find_range_top_down`. -/
def topDownCand (w start stop size align : ℕ) (range : MemRange) : Option ℕ :=
  let thisStart := clampAddr range.start start stop
  let thisEnd := clampAddr range.stop start stop
  if thisEnd < size then none
  else
    let cand := roundDown w (physSub w thisEnd size) align
    if cand ≥ thisStart then some cand else none

variable (mb : Memblock)

/-- `__memblock_find_range_bottom_up`. -/
def memblockFindRangeBottomUp (start stop size align : ℕ) (nid : ℤ)
    (flags : MemblockFlags) : Option ℕ :=
  (forEachFreeMemRange w mb.memory mb.reserved nid flags).map fun ranges =>
    (ranges.findSome? (bottomUpCand w start stop size align)).getD 0

/-- `__memblock_find_range_top_down`. -/
def memblockFindRangeTopDown (start stop size align : ℕ) (nid : ℤ)
    (flags : MemblockFlags) : Option ℕ :=
  (forEachFreeMemRangeReverse w mb.memory mb.reserved nid flags).map fun ranges =>
    (ranges.findSome? (topDownCand w start stop size align)).getD 0

/-- `MEMBLOCK_ALLOC_ACCESSIBLE` and `MEMBLOCK_ALLOC_KASAN` stand for `current_limit`. -/
def allocEnd (stop : ℕ) : ℕ :=
  if stop = 0 ∨ stop = 1 then mb.currentLimit else stop

/-- `memblock_find_in_range_node`. -/
def memblockFindInRangeNode (size align start stop : ℕ) (nid : ℤ)
    (flags : MemblockFlags) : Option ℕ :=
  -- The first page is not allocated.
  let start := max start pageSize
  let stop := max start (allocEnd mb stop)
  let kernelEnd := stop
  let topDown := memblockFindRangeTopDown w mb start stop size align nid flags
  if mb.bottomUp = true ∧ stop > kernelEnd then
    (memblockFindRangeBottomUp w mb (max start kernelEnd) stop size align nid flags).bind fun ret =>
      if ret ≠ 0 then some ret else topDown
  else topDown

/-- `choose_memblock_flags`. -/
def chooseMemblockFlags : MemblockFlags :=
  if mb.systemHasSomeMirror then memblockMirror else 0

/-! ## Allocating -/

/-- Find an address and reserve it. -/
def tryAlloc (size align start stop : ℕ) (nid : ℤ)
    (flags : MemblockFlags) : Option (Memblock × Option ℕ) :=
  (memblockFindInRangeNode w mb size align start stop nid flags).bind fun found =>
    if found ≠ 0 then
      (memblockReserve w mb found size).map fun (mb, ret) =>
        (mb, if ret = 0 then some found else none)
    else some (mb, none)

/-- From `again` on : the node, any node, and if there is none the same without the mirror flag. -/
def allocRound (w size align start stop : ℕ) (nid : ℤ) :
    Memblock × MemblockFlags → Round (Memblock × MemblockFlags) (Option (Memblock × ℕ))
  | (mb, flags) =>
    let retry := fun mb : Memblock =>
      if flags &&& memblockMirror ≠ 0 then .again (mb, flags &&& ~~~memblockMirror)
      else .done (some (mb, 0))
    match tryAlloc w mb size align start stop nid flags with
    | none => .done none
    | some (mb, some found) => .done (some (mb, found))
    | some (mb, none) =>
      if nid ≠ numaNoNode then
        match tryAlloc w mb size align start stop numaNoNode flags with
        | none => .done none
        | some (mb, some found) => .done (some (mb, found))
        | some (mb, none) => retry mb
      else retry mb

/-- `memblock_alloc_range_nid`. -/
def memblockAllocRangeNid (size align start stop : ℕ) (nid : ℤ) : Option (Memblock × ℕ) :=
  let nid := if nid = maxNumnodes then numaNoNode else nid
  let align := if align = 0 then smpCacheBytes else align
  (runLoop (allocRound w size align start stop nid) memblockFuel
    (mb, chooseMemblockFlags mb)).join

/-- The calls that edit an array, the allocation, and the calls that set a field. -/
inductive MemblockCall
  | edit (op : MemblockOp)
  | allocRangeNid (size align start stop : ℕ) (nid : ℤ)
  | setCurrentLimit (limit : ℕ)
  | setBottomUp (enable : Bool)
deriving DecidableEq, Repr

/-- Make a call. The answer of an allocation is the address. -/
def MemblockCall.run : MemblockCall → Option (Memblock × ℤ)
  | .edit op => op.run w mb
  | .allocRangeNid size align start stop nid =>
    (memblockAllocRangeNid w mb size align start stop nid).map fun (mb, found) => (mb, found)
  | .setCurrentLimit limit => some ({ mb with currentLimit := limit }, 0)
  | .setBottomUp enable => some ({ mb with bottomUp := enable }, 0)

end LinuxKernelTest
