import LinuxKernelTest.Loop

/-!
# Memblock : the region arrays and the calls that edit them

`mm/memblock.c` keeps two arrays of regions, `memory` and `reserved`. A region has a base, a
size, flags and a node id. The array of `cnt` regions is a list here; the slots behind `cnt` are
never read. An empty array is an array with one dummy region of size `0`.

`phys_addr_t` is an unsigned type of `w` bits, so all additions and subtractions of addresses are
modulo `2 ^ w` (`physAdd`, `physSub`). `BUG_ON` and a read behind the array are `none`. Resizing is
off (`memblock_can_resize = 0`), so `memblock_double_array` returns `-1` at once and the caller
returns `-ENOMEM`.
-/

namespace LinuxKernelTest

/-! ## Addresses, regions and arrays -/

variable (w : ℕ)

/-- `PHYS_ADDR_MAX`. -/
def physAddrMax : ℕ := 2 ^ w - 1

/-- A sum of type `phys_addr_t`. -/
def physAdd (w a b : ℕ) : ℕ := (a + b) % 2 ^ w

/-- A difference of type `phys_addr_t`. -/
def physSub (w a b : ℕ) : ℕ := (a + 2 ^ w - b) % 2 ^ w

/-- `enum memblock_flags`. -/
abbrev MemblockFlags := BitVec 32

/-- `MEMBLOCK_HOTPLUG`. -/
def memblockHotplug : MemblockFlags := 1

/-- `MEMBLOCK_MIRROR`. -/
def memblockMirror : MemblockFlags := 2

/-- `MEMBLOCK_NOMAP`. -/
def memblockNomap : MemblockFlags := 4

/-- `MAX_NUMNODES`, with `CONFIG_NODES_SHIFT = 2`. -/
def maxNumnodes : ℤ := 4

/-- `ENOMEM`. -/
def enomem : ℤ := 12

/-- `INIT_MEMBLOCK_REGIONS`. -/
def initMemblockRegions : ℕ := 128

/-- A bound on the rounds of the loops, above any the loops need. -/
def memblockFuel : ℕ := 2 ^ 80

/-- `struct memblock_region`. -/
structure MemblockRegion where
  base : ℕ
  size : ℕ
  flags : MemblockFlags
  nid : ℤ
deriving DecidableEq, Repr

/-- `struct memblock_type`. -/
structure MemblockType where
  max : ℕ
  totalSize : ℕ
  regions : List MemblockRegion
deriving DecidableEq, Repr

variable (type : MemblockType)

/-- `cnt`. -/
def MemblockType.cnt : ℕ := type.regions.length

/-- `struct memblock`, with the static flag `system_has_some_mirror`. -/
structure Memblock where
  bottomUp : Bool
  currentLimit : ℕ
  memory : MemblockType
  reserved : MemblockType
  systemHasSomeMirror : Bool
deriving DecidableEq, Repr

/-- An array as it is initialised : one dummy region, all zero. -/
def memblockTypeInit : MemblockType := ⟨initMemblockRegions, 0, [⟨0, 0, 0, 0⟩]⟩

/-- The static initialiser of `memblock`; `MEMBLOCK_ALLOC_ANYWHERE` is `PHYS_ADDR_MAX`. -/
def memblockInit : Memblock :=
  ⟨false, physAddrMax w, memblockTypeInit, memblockTypeInit, false⟩

/-- `memblock_is_nomap`. -/
def memblockIsNomap (m : MemblockRegion) : Bool := m.flags &&& memblockNomap ≠ 0

/-- `memblock_cap_size`. -/
def memblockCapSize (w base size : ℕ) : ℕ := min size (physSub w (physAddrMax w) base)

/-! ## Editing an array -/

/-- `memblock_remove_region`. -/
def memblockRemoveRegion (r : ℕ) : Option MemblockType :=
  type.regions[r]?.map fun rgn =>
    let type := { type with
      totalSize := physSub w type.totalSize rgn.size
      regions := type.regions.eraseIdx r }
    -- Special case for empty arrays.
    if type.cnt = 0 then { type with regions := [⟨0, 0, 0, maxNumnodes⟩] } else type

/-- `memblock_insert_region`. -/
def memblockInsertRegion (idx base size : ℕ) (nid : ℤ)
    (flags : MemblockFlags) : Option MemblockType :=
  if type.cnt ≥ type.max then none
  else some { type with
    regions := type.regions.insertIdx idx ⟨base, size, flags, nid⟩
    totalSize := physAdd w type.totalSize size }

/-- A round of the loop of `memblock_merge_regions`. -/
def mergeRound : ℕ × MemblockType → Round (ℕ × MemblockType) (Option MemblockType)
  | (i, type) =>
    if i < type.cnt - 1 then
      match type.regions[i]?, type.regions[i + 1]? with
      | some this, some next =>
        if physAdd w this.base this.size ≠ next.base ∨ this.nid ≠ next.nid ∨
            this.flags ≠ next.flags then
          if physAdd w this.base this.size > next.base then .done none
          else .again (i + 1, type)
        else
          let regions := type.regions.set i { this with size := physAdd w this.size next.size }
          .again (i, { type with regions := regions.eraseIdx (i + 1) })
      | _, _ => .done none
    else .done (some type)

/-- `memblock_merge_regions`. -/
def memblockMergeRegions (type : MemblockType) : Option MemblockType :=
  (runLoop (mergeRound w) memblockFuel (0, type)).join

/-! ## Adding a range -/

/-- The variables of the loop of `memblock_add_range`. -/
structure AddState where
  idx : ℕ
  base : ℕ
  nrNew : ℕ
  type : MemblockType

/-- A round of the loop over the regions. -/
def addRound (insert : Bool) (stop : ℕ) (nid : ℤ) (flags : MemblockFlags)
    (s : AddState) : Round AddState (Option AddState) :=
  match s.type.regions[s.idx]? with
  | none => .done (some s)
  | some rgn =>
    let rbase := rgn.base
    let rend := physAdd w rbase rgn.size
    if rbase ≥ stop then .done (some s)
    else if rend ≤ s.base then .again { s with idx := s.idx + 1 }
    else if rbase > s.base then
      if insert then
        -- The new region takes the place of `rgn`, so `idx` is stepped once more.
        match memblockInsertRegion w s.type s.idx s.base (physSub w rbase s.base) nid flags with
        | none => .done none
        | some type => .again ⟨s.idx + 1 + 1, min rend stop, s.nrNew + 1, type⟩
      else .again { s with idx := s.idx + 1, base := min rend stop, nrNew := s.nrNew + 1 }
    else .again { s with idx := s.idx + 1, base := min rend stop }

/-- One pass of `memblock_add_range`, from `repeat` to the test of `nr_new`. -/
def addPass (insert : Bool) (obase stop : ℕ) (nid : ℤ) (flags : MemblockFlags)
    (type : MemblockType) : Option AddState :=
  (runLoop (addRound w insert stop nid flags) memblockFuel ⟨0, obase, 0, type⟩).join.bind fun s =>
    if s.base < stop then
      if insert then
        (memblockInsertRegion w s.type s.idx s.base (physSub w stop s.base) nid flags).map
          fun type => { s with nrNew := s.nrNew + 1, type := type }
      else some { s with nrNew := s.nrNew + 1 }
    else some s

/-- `memblock_add_range`. -/
def memblockAddRange (type : MemblockType) (base size : ℕ) (nid : ℤ)
    (flags : MemblockFlags) : Option (MemblockType × ℤ) :=
  let size := memblockCapSize w base size
  let stop := physAdd w base size
  if size = 0 then some (type, 0)
  else
    type.regions[0]?.bind fun rgn =>
      -- Special case for empty array.
      if rgn.size = 0 then
        some ({ type with
          regions := type.regions.set 0 ⟨base, size, flags, nid⟩
          totalSize := size }, 0)
      else
        (addPass w false base stop nid flags type).bind fun s =>
          if s.nrNew = 0 then some (s.type, 0)
          else if s.type.cnt + s.nrNew > s.type.max then some (s.type, -enomem)
          else
            (addPass w true base stop nid flags s.type).bind fun s =>
              if s.nrNew = 0 then some (s.type, 0)
              else (memblockMergeRegions w s.type).map fun type => (type, 0)

/-! ## Isolating and removing a range -/

/-- The variables of the loop of `memblock_isolate_range`. -/
structure IsolateState where
  idx : ℕ
  startRgn : ℕ
  endRgn : ℕ
  type : MemblockType

/-- A round of the loop of `memblock_isolate_range`. -/
def isolateRound (w base stop : ℕ) (s : IsolateState) : Round IsolateState (Option IsolateState) :=
  match s.type.regions[s.idx]? with
  | none => .done (some s)
  | some rgn =>
    let rbase := rgn.base
    let rend := physAdd w rbase rgn.size
    if rbase ≥ stop then .done (some s)
    else if rend ≤ base then .again { s with idx := s.idx + 1 }
    else if rbase < base then
      -- `rgn` intersects from below : go on with the new top half.
      let size := physSub w base rbase
      let top := { rgn with base := base, size := physSub w rgn.size size }
      match memblockInsertRegion w { s.type with
          regions := s.type.regions.set s.idx top
          totalSize := physSub w s.type.totalSize size } s.idx rbase size top.nid top.flags with
      | none => .done none
      | some type => .again { s with idx := s.idx + 1, type := type }
    else if rend > stop then
      -- `rgn` intersects from above : `idx--` and `idx++` redo the new bottom half.
      let size := physSub w stop rbase
      let top := { rgn with base := stop, size := physSub w rgn.size size }
      match memblockInsertRegion w { s.type with
          regions := s.type.regions.set s.idx top
          totalSize := physSub w s.type.totalSize size } s.idx rbase size top.nid top.flags with
      | none => .done none
      | some type => .again { s with type := type }
    else
      .again { s with
        idx := s.idx + 1
        startRgn := if s.endRgn = 0 then s.idx else s.startRgn
        endRgn := s.idx + 1 }

/-- `memblock_isolate_range` : the array, the return value, `*start_rgn` and `*end_rgn`. -/
def memblockIsolateRange (type : MemblockType) (base size : ℕ) :
    Option (MemblockType × ℤ × ℕ × ℕ) :=
  let size := memblockCapSize w base size
  let stop := physAdd w base size
  if size = 0 then some (type, 0, 0, 0)
  else if type.cnt + 2 > type.max then some (type, -enomem, 0, 0)
  else
    (runLoop (isolateRound w base stop) memblockFuel ⟨0, 0, 0, type⟩).join.map fun s =>
      (s.type, 0, s.startRgn, s.endRgn)

/-- `for (i = n - 1; i >= start; i--)`, removing the regions that are not to be kept. -/
def removeDown (w : ℕ) (keep : MemblockRegion → Bool) (start : ℕ) :
    ℕ → MemblockType → Option MemblockType
  | 0, type => some type
  | i + 1, type =>
    if i < start then some type
    else
      type.regions[i]?.bind fun rgn =>
        if keep rgn then removeDown w keep start i type
        else (memblockRemoveRegion w type i).bind (removeDown w keep start i)

/-- `memblock_remove_range`. -/
def memblockRemoveRange (type : MemblockType) (base size : ℕ) : Option (MemblockType × ℤ) :=
  (memblockIsolateRange w type base size).bind fun (type, ret, startRgn, endRgn) =>
    if ret ≠ 0 then some (type, ret)
    else (removeDown w (fun _ => false) startRgn endRgn type).map fun type => (type, 0)

variable (f : MemblockRegion → MemblockRegion)

/-- `for (i = start; i < end; i++)`, changing a region. -/
def changeRegions (start stop : ℕ) (type : MemblockType) :
    MemblockType :=
  { type with
    regions := (List.range' start (stop - start)).foldl (fun l i => l.modify i f) type.regions }

/-- Isolate a range, change the regions in it, and merge. -/
def changeRange (type : MemblockType)
    (base size : ℕ) : Option (MemblockType × ℤ) :=
  (memblockIsolateRange w type base size).bind fun (type, ret, startRgn, endRgn) =>
    if ret ≠ 0 then some (type, ret)
    else
      (memblockMergeRegions w (changeRegions f startRgn endRgn type)).map fun type => (type, 0)

/-! ## The calls -/

variable (mb : Memblock)

variable (r : Option (MemblockType × ℤ))

/-- A call that edits one array. -/
def Memblock.onMemory : Option (Memblock × ℤ) :=
  r.map fun (type, ret) => ({ mb with memory := type }, ret)

/-- The same for the other array. -/
def Memblock.onReserved : Option (Memblock × ℤ) :=
  r.map fun (type, ret) => ({ mb with reserved := type }, ret)

variable (base size : ℕ)

/-- `memblock_add_node`. -/
def memblockAddNode (nid : ℤ) : Option (Memblock × ℤ) :=
  mb.onMemory (memblockAddRange w mb.memory base size nid 0)

/-- `memblock_add`. -/
def memblockAdd : Option (Memblock × ℤ) :=
  mb.onMemory (memblockAddRange w mb.memory base size maxNumnodes 0)

/-- `memblock_remove`. -/
def memblockRemove : Option (Memblock × ℤ) :=
  mb.onMemory (memblockRemoveRange w mb.memory base size)

/-- `memblock_free`. -/
def memblockFree : Option (Memblock × ℤ) :=
  mb.onReserved (memblockRemoveRange w mb.reserved base size)

/-- `memblock_reserve`. -/
def memblockReserve : Option (Memblock × ℤ) :=
  mb.onReserved (memblockAddRange w mb.reserved base size maxNumnodes 0)

/-- What `memblock_setclr_flag` does to a region. -/
def setclrFlag (set : Bool) (flag : MemblockFlags) (r : MemblockRegion) : MemblockRegion :=
  { r with flags := if set then r.flags ||| flag else r.flags &&& ~~~flag }

/-- `memblock_setclr_flag`. -/
def memblockSetclrFlag (set : Bool)
    (flag : MemblockFlags) : Option (Memblock × ℤ) :=
  mb.onMemory (changeRange w (setclrFlag set flag) mb.memory base size)

/-- `memblock_mark_hotplug`. -/
def memblockMarkHotplug : Option (Memblock × ℤ) :=
  memblockSetclrFlag w mb base size true memblockHotplug

/-- `memblock_clear_hotplug`. -/
def memblockClearHotplug : Option (Memblock × ℤ) :=
  memblockSetclrFlag w mb base size false memblockHotplug

/-- `memblock_mark_mirror` notes that there is mirrored memory before it tries. -/
def memblockMarkMirror : Option (Memblock × ℤ) :=
  memblockSetclrFlag w { mb with systemHasSomeMirror := true } base size true memblockMirror

/-- `memblock_mark_nomap`. -/
def memblockMarkNomap : Option (Memblock × ℤ) :=
  memblockSetclrFlag w mb base size true memblockNomap

/-- `memblock_clear_nomap`. -/
def memblockClearNomap : Option (Memblock × ℤ) :=
  memblockSetclrFlag w mb base size false memblockNomap

/-- `memblock_set_node` on one array. -/
def memblockSetNode (type : MemblockType) (base size : ℕ) (nid : ℤ) : Option (MemblockType × ℤ) :=
  changeRange w (fun r => { r with nid := nid }) type base size

/-- `__find_max_addr`. -/
def findMaxAddr (w limit : ℕ) : List MemblockRegion → ℕ
  | [] => physAddrMax w
  | r :: l => if limit ≤ r.size then physAdd w r.base limit else findMaxAddr w (limit - r.size) l

/-- `memblock_enforce_memory_limit`. -/
def memblockEnforceMemoryLimit (limit : ℕ) : Option Memblock :=
  if limit = 0 then some mb
  else
    let maxAddr := findMaxAddr w limit mb.memory.regions
    if maxAddr = physAddrMax w then some mb
    else
      (memblockRemoveRange w mb.memory maxAddr (physAddrMax w)).bind fun (memory, _) =>
        (memblockRemoveRange w mb.reserved maxAddr (physAddrMax w)).map fun (reserved, _) =>
          { mb with memory := memory, reserved := reserved }

/-- `memblock_cap_memory_range`. -/
def memblockCapMemoryRange : Option Memblock :=
  if size = 0 then some mb
  else
    (memblockIsolateRange w mb.memory base size).bind fun (memory, ret, startRgn, endRgn) =>
      if ret ≠ 0 then some { mb with memory := memory }
      else
        (removeDown w memblockIsNomap endRgn memory.cnt memory).bind fun memory =>
          (removeDown w memblockIsNomap 0 startRgn memory).bind fun memory =>
            (memblockRemoveRange w mb.reserved 0 base).bind fun (reserved, _) =>
              (memblockRemoveRange w reserved (physAdd w base size) (physAddrMax w)).map
                fun (reserved, _) => { mb with memory := memory, reserved := reserved }

/-- The two arrays. -/
inductive MemblockArray
  | memory
  | reserved
deriving DecidableEq, Repr

/-- The calls. -/
inductive MemblockOp
  | add (base size : ℕ)
  | addNode (base size : ℕ) (nid : ℤ)
  | remove (base size : ℕ)
  | reserve (base size : ℕ)
  | free (base size : ℕ)
  | markHotplug (base size : ℕ)
  | clearHotplug (base size : ℕ)
  | markMirror (base size : ℕ)
  | markNomap (base size : ℕ)
  | clearNomap (base size : ℕ)
  | setNode (base size : ℕ) (array : MemblockArray) (nid : ℤ)
  | capMemoryRange (base size : ℕ)
  | enforceMemoryLimit (limit : ℕ)
deriving DecidableEq, Repr

/-- Make a call. A call without a return value answers `0`. -/
def MemblockOp.run : MemblockOp → Option (Memblock × ℤ)
  | .add base size => memblockAdd w mb base size
  | .addNode base size nid => memblockAddNode w mb base size nid
  | .remove base size => memblockRemove w mb base size
  | .reserve base size => memblockReserve w mb base size
  | .free base size => memblockFree w mb base size
  | .markHotplug base size => memblockMarkHotplug w mb base size
  | .clearHotplug base size => memblockClearHotplug w mb base size
  | .markMirror base size => memblockMarkMirror w mb base size
  | .markNomap base size => memblockMarkNomap w mb base size
  | .clearNomap base size => memblockClearNomap w mb base size
  | .setNode base size .memory nid => mb.onMemory (memblockSetNode w mb.memory base size nid)
  | .setNode base size .reserved nid => mb.onReserved (memblockSetNode w mb.reserved base size nid)
  | .capMemoryRange base size => (memblockCapMemoryRange w mb base size).map fun mb => (mb, 0)
  | .enforceMemoryLimit limit => (memblockEnforceMemoryLimit w mb limit).map fun mb => (mb, 0)

end LinuxKernelTest
