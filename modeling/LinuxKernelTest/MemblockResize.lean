import LinuxKernelTest.MemblockAlloc

/-!
# Memblock : growing an array

With `memblock_can_resize` set, `memblock_add_range` and `memblock_isolate_range` call
`memblock_double_array` while the array is too small. It looks for memory for the new array above
the range that is about to be edited, then below it, moves the array, frees the old one and
reserves the new one, and so calls back into the functions that called it. The recursion is cut by
a bound on its depth.

The search below the range `[s, s + n)` is for an `end` of `min(s, current_limit)`. For an `s` of
`0` or `1` that is `MEMBLOCK_ALLOC_ACCESSIBLE` or `MEMBLOCK_ALLOC_KASAN`, and the search is for an
`end` of `current_limit` : it can find memory inside the range.
-/

namespace LinuxKernelTest

open Option Prod

/-! ## The state -/

/-- `memblock` with the static variables of resizing. Where an array lives is `none` for the static
one (`memblock_memory_init_regions`, `memblock_reserved_init_regions`), or a physical address. -/
structure MemblockResize where
  mb : Memblock
  canResize : Bool
  inSlab : MemblockArray → Bool
  regionsAt : MemblockArray → Option ℕ

/-- Write the array of a name. -/
def Memblock.setArray (mb : Memblock) : MemblockArray → MemblockType → Memblock
  | .memory, t => { mb with memory := t }
  | .reserved, t => { mb with reserved := t }

/-- Write one array. -/
def MemblockResize.setType (s : MemblockResize) (array : MemblockArray) (t : MemblockType) :
    MemblockResize :=
  { s with mb := s.mb.setArray array t }

/-- `sizeof(struct memblock_region)`. -/
def sizeofRegion (w : ℕ) : ℕ := w / 8 + w / 8 + 4 + 4

/-- `PAGE_ALIGN`. -/
def pageAlign (w x : ℕ) : ℕ := Nat.ldiff (physAdd w x (pageSize - 1)) (pageSize - 1)

/-- `new_alloc_size`. -/
def newAllocSize (w : ℕ) (type : MemblockType) : ℕ :=
  pageAlign w (type.max * sizeofRegion w % 2 ^ w * 2 % 2 ^ w)

/-- `old_alloc_size`. -/
def oldAllocSize (w : ℕ) (type : MemblockType) : ℕ :=
  pageAlign w (type.max * sizeofRegion w % 2 ^ w)

/-! ## Searching -/

/-- From `again` on. -/
def findInRangeRound (w : ℕ) (mb : Memblock) (start stop size align : ℕ) (flags : MemblockFlags) :
    Round MemblockFlags (Option ℕ) :=
  match memblockFindInRangeNode w mb size align start stop numaNoNode flags with
  | none => .done none
  | some ret =>
    if ret = 0 ∧ flags &&& memblockMirror ≠ 0 then .again (flags &&& ~~~memblockMirror)
    else .done (some ret)

/-- `memblock_find_in_range`. -/
def memblockFindInRange (w : ℕ) (mb : Memblock) (start stop size align : ℕ) : Option ℕ :=
  (runLoop (findInRangeRound w mb start stop size align) memblockFuel (chooseMemblockFlags mb)).join

/-- The address `memblock_double_array` picks. Only a range to be reserved is avoided. -/
def doubleArrayAddr (w : ℕ) (mb : Memblock) (array : MemblockArray) (newAreaStart newAreaSize : ℕ) :
    Option ℕ :=
  let size := newAllocSize w (mb.array array)
  let newAreaStart := if array ≠ .reserved then 0 else newAreaStart
  let newAreaSize := if array ≠ .reserved then 0 else newAreaSize
  (memblockFindInRange w mb (physAdd w newAreaStart newAreaSize) mb.currentLimit size
      pageSize).bind fun addr =>
    if addr = 0 ∧ newAreaSize ≠ 0 then
      memblockFindInRange w mb 0 (min newAreaStart mb.currentLimit) size pageSize
    else some addr

/-! ## The functions that edit an array, with resizing -/

/-- A function that doubles an array. -/
abbrev DoubleArray := MemblockResize → MemblockArray → ℕ → ℕ → Option (MemblockResize × ℤ)

/-- `while (type->cnt + nr > type->max) if (memblock_double_array(..) < 0) return -ENOMEM`. -/
def growRound (double : DoubleArray) (array : MemblockArray) (base size nr : ℕ)
    (s : MemblockResize) : Round MemblockResize (Option (MemblockResize × ℤ)) :=
  if (s.mb.array array).cnt + nr > (s.mb.array array).max then
    match double s array base size with
    | none => .done none
    | some (s, ret) => if ret < 0 then .done (some (s, -enomem)) else .again s
  else .done (some (s, 0))

/-- The loop that makes room for `nr` regions. -/
def growArray (double : DoubleArray) (array : MemblockArray) (base size nr : ℕ)
    (s : MemblockResize) : Option (MemblockResize × ℤ) :=
  (runLoop (growRound double array base size nr) memblockFuel s).join

/-- `memblock_add_range`. -/
def addRangeResize (double : DoubleArray) (w : ℕ) (s : MemblockResize) (array : MemblockArray)
    (base size : ℕ) (nid : ℤ) (flags : MemblockFlags) : Option (MemblockResize × ℤ) :=
  let size := memblockCapSize w base size
  let stop := physAdd w base size
  if size = 0 then some (s, 0)
  else
    (s.mb.array array).regions[0]?.bind fun rgn =>
      if rgn.size = 0 then
        some (s.setType array { s.mb.array array with
          regions := (s.mb.array array).regions.set 0 ⟨base, size, flags, nid⟩
          totalSize := size }, 0)
      else
        (addPass w false base stop nid flags (s.mb.array array)).bind fun pass =>
          if pass.nrNew = 0 then some (s, 0)
          else
            (growArray double array base size pass.nrNew s).bind fun (s, ret) =>
              if ret ≠ 0 then some (s, ret)
              else
                (addPass w true base stop nid flags (s.mb.array array)).bind fun pass =>
                  if pass.nrNew = 0 then some (s.setType array pass.type, 0)
                  else
                    (memblockMergeRegions w pass.type).map fun type => (s.setType array type, 0)

/-- `memblock_remove_range`. With room in the array `memblock_isolate_range` is the function
without resizing. -/
def removeRangeResize (double : DoubleArray) (w : ℕ) (s : MemblockResize) (array : MemblockArray)
    (base size : ℕ) : Option (MemblockResize × ℤ) :=
  if memblockCapSize w base size = 0 then some (s, 0)
  else
    (growArray double array base (memblockCapSize w base size) 2 s).bind fun (s, ret) =>
      if ret ≠ 0 then some (s, ret)
      else
        (memblockRemoveRange w (s.mb.array array) base size).map fun (type, ret) =>
          (s.setType array type, ret)

/-- The array is copied to the new one, which has twice the slots. -/
def MemblockResize.moveArray (s : MemblockResize) (array : MemblockArray) (addr : ℕ) :
    MemblockResize :=
  { s.setType array { s.mb.array array with max := (s.mb.array array).max * 2 % 2 ^ 64 } with
    regionsAt := fun a => if a = array then some addr else s.regionsAt a }

/-- The old array of `s` is freed in the state `moved`, unless it is the static one. -/
def freeOldArray (double : DoubleArray) (w : ℕ) (s moved : MemblockResize)
    (array : MemblockArray) : Option MemblockResize :=
  match s.inSlab array, s.regionsAt array with
  | false, some old =>
    (removeRangeResize double w moved .reserved old (oldAllocSize w (s.mb.array array))).map
      Prod.fst
  | _, _ => some moved

/-- `memblock_double_array`, at most `depth` calls deep. -/
def memblockDoubleArray (w : ℕ) : ℕ → DoubleArray
  | 0, _, _, _, _ => none
  | depth + 1, s, array, newAreaStart, newAreaSize =>
    if s.canResize = false then some (s, -1)
    else
      (doubleArrayAddr w s.mb array newAreaStart newAreaSize).bind fun addr =>
        if addr = 0 then some (s, -1)
        else
          (freeOldArray (memblockDoubleArray w depth) w s (s.moveArray array addr) array).bind
            fun freed =>
              (addRangeResize (memblockDoubleArray w depth) w freed .reserved addr
                  (newAllocSize w (s.mb.array array)) maxNumnodes 0).bind fun (s, ret) =>
                if ret ≠ 0 then none
                else some ({ s with inSlab := fun a => if a = array then false else s.inSlab a }, 0)

section

variable {w n start stop size base newStart newSize depth : ℕ} {mb : Memblock} {s : MemblockResize}
  {t : MemblockType} {l : List (Seg MemblockAttr)} {array : MemblockArray} {f : DoubleArray}

/-! ## The searches -/

/-- One of the passes has a feasible address for a page-aligned block. -/
def SomeFeasible (mb : Memblock) (size start stop : ℕ) : Prop :=
  ∃ p ∈ allocPasses mb numaNoNode, ∃ a, Feasible mb size pageSize start stop p a

/-- `memblock_find_in_range` finds a feasible address, or `0` if no pass has one. -/
theorem memblockFindInRange_spec (hw : pageSize < 2 ^ w) (hmem : mb.memory.RepInv w)
    (hres : mb.reserved.RepInv w) (hlimit : mb.currentLimit < 2 ^ w) (hsize : 0 < size)
    (hstart : start < 2 ^ w) (hstop : stop < 2 ^ w) :
    ∃ addr, memblockFindInRange w mb start stop size pageSize = some addr ∧
      (addr ≠ 0 ∧ (∃ p ∈ allocPasses mb numaNoNode, Feasible mb size pageSize start stop p addr) ∨
        addr = 0 ∧ ¬SomeFeasible mb size start stop) := by
  have hpass := memblockFindInRangeNode_spec (k := 12) hw hmem hres hlimit hw hsize hstart hstop
    numaNoNode
  have hpasses : allocPasses mb numaNoNode = (numaNoNode, chooseMemblockFlags mb) ::
      if chooseMemblockFlags mb &&& memblockMirror ≠ 0 then
        [(numaNoNode, chooseMemblockFlags mb &&& ~~~memblockMirror)] else [] := rfl
  obtain ⟨o, hfind, hfirst, hpos⟩ := hpass (chooseMemblockFlags mb)
  rw [SomeFeasible, hpasses]
  rcases o with _ | a
  case some =>
    have hround : findInRangeRound w mb start stop size pageSize (chooseMemblockFlags mb) =
        .done (some a) := by
      rw [findInRangeRound, pageSize, hfind]
      exact if_neg fun h => hpos a rfl h.1
    refine ⟨a, ?_, .inl ⟨hpos a rfl, _, List.mem_cons_self, hfirst.1⟩⟩
    rw [memblockFindInRange, runLoop_of_done hround memblockFuel_pos, join_some]
  by_cases hmirror : chooseMemblockFlags mb &&& memblockMirror ≠ 0
  case neg =>
    have hround : findInRangeRound w mb start stop size pageSize (chooseMemblockFlags mb) =
        .done (some 0) := by
      rw [findInRangeRound, pageSize, hfind]
      exact if_neg fun h => hmirror h.2
    refine ⟨0, ?_, .inr ⟨rfl, ?_⟩⟩
    · rw [memblockFindInRange, runLoop_of_done hround memblockFuel_pos, join_some]
    · rw [if_neg hmirror]
      rintro ⟨p, hp, a, ha⟩
      rw [List.mem_singleton.mp hp] at ha
      exact hfirst a ha
  -- Again without the mirror flag.
  obtain ⟨o', hfind', hfirst', hpos'⟩ := hpass (chooseMemblockFlags mb &&& ~~~memblockMirror)
  have hround : findInRangeRound w mb start stop size pageSize (chooseMemblockFlags mb) =
      .again (chooseMemblockFlags mb &&& ~~~memblockMirror) := by
    rw [findInRangeRound, pageSize, hfind]
    exact if_pos ⟨rfl, hmirror⟩
  have hround' : findInRangeRound w mb start stop size pageSize
      (chooseMemblockFlags mb &&& ~~~memblockMirror) = .done (some (o'.getD 0)) := by
    rw [findInRangeRound, pageSize, hfind']
    refine if_neg fun h => h.2 ?_
    rw [BitVec.and_assoc, BitVec.and_comm (~~~memblockMirror)]
    simp
  refine ⟨o'.getD 0, ?_, ?_⟩
  · rw [memblockFindInRange, show memblockFuel = memblockFuel - 2 + 1 + 1 from rfl,
      runLoop_again hround, runLoop_done hround', join_some]
  rw [if_pos hmirror]
  rcases o' with _ | a
  · refine .inr ⟨rfl, ?_⟩
    rintro ⟨p, hp, a, ha⟩
    rcases List.mem_cons.mp hp with rfl | hp
    · exact hfirst a ha
    · rw [List.mem_singleton.mp hp] at ha
      exact hfirst' a ha
  · exact .inl ⟨hpos' a rfl, _, List.mem_cons_of_mem _ List.mem_cons_self, hfirst'.1⟩

/-! ## Editing with room in the array -/

theorem MemblockResize.setType_self (s : MemblockResize) (array : MemblockArray) :
    s.setType array (s.mb.array array) = s := by
  rcases array with _ | _ <;> rfl

theorem growArray_of_le {nr : ℕ} (h : (s.mb.array array).cnt + nr ≤ (s.mb.array array).max)
    (base size : ℕ) : growArray f array base size nr s = some (s, 0) := by
  have hround : growRound f array base size nr s = .done (some (s, 0)) := if_neg (Nat.not_lt.mpr h)
  rw [growArray, runLoop_of_done hround memblockFuel_pos, join_some]

/-- Where `memblock_add_range` succeeds without resizing, it does the same with resizing. -/
theorem addRangeResize_of_zero (array : MemblockArray) (hl : (s.mb.array array).Holds w n l)
    (hbase : base < 2 ^ w) {nid : ℤ} {flags : MemblockFlags}
    (h : memblockAddRange w (s.mb.array array) base size nid flags = some (t, 0)) :
    addRangeResize f w s array base size nid flags = some (s.setType array t, 0) := by
  unfold memblockAddRange at h
  unfold addRangeResize
  dsimp only at h ⊢
  by_cases hzero : memblockCapSize w base size = 0
  · rw [if_pos hzero] at h ⊢
    obtain ⟨rfl, -⟩ := mk.inj (some.inj h)
    rw [MemblockResize.setType_self]
  rw [if_neg hzero] at h ⊢
  obtain ⟨rgn, hrgn, h⟩ := bind_eq_some_iff.mp h
  rw [hrgn, bind_some]
  by_cases hdummy : rgn.size = 0
  · rw [if_pos hdummy] at h ⊢
    obtain ⟨rfl, -⟩ := mk.inj (some.inj h)
    rfl
  rw [if_neg hdummy] at h ⊢
  have hne : l ≠ [] := fun hnil => by
    obtain ⟨nid', hregions⟩ := hl.dummy hnil
    rw [hregions] at hrgn
    exact hdummy (by rw [← some.inj hrgn])
  obtain rfl := hl.regions hne
  rw [memblockCapSize_capEnd hbase, physAdd_capEnd hbase] at h ⊢
  obtain ⟨pass, hpass, -, hkept, -⟩ := addPass_spec false nid flags (le_capEnd w base size)
    (capEnd_le hbase size) hl.within hl.totalSize hl.length_lt fun h => absurd h Bool.false_ne_true
  rw [hpass, bind_some, hkept rfl] at h
  rw [hpass, bind_some]
  by_cases hnew : pass.nrNew = 0
  · rw [if_pos hnew] at h ⊢
    obtain ⟨rfl, -⟩ := mk.inj (some.inj h)
    rw [MemblockResize.setType_self]
  rw [if_neg hnew] at h ⊢
  by_cases hroom : (s.mb.array array).cnt + pass.nrNew > (s.mb.array array).max
  · rw [if_pos hroom] at h
    exact absurd (mk.inj (some.inj h)).2 (by decide)
  rw [if_neg hroom] at h
  rw [growArray_of_le (Nat.not_lt.mp hroom), bind_some]
  obtain ⟨pass', hpass', h⟩ := bind_eq_some_iff.mp h
  simp only [ne_eq, not_true_eq_false, if_false, hpass', bind_some]
  by_cases hnew' : pass'.nrNew = 0
  · rw [if_pos hnew'] at h ⊢
    obtain ⟨rfl, -⟩ := mk.inj (some.inj h)
    rfl
  rw [if_neg hnew'] at h ⊢
  obtain ⟨t', hmerge, ht'⟩ := map_eq_some_iff.mp h
  obtain ⟨rfl, -⟩ := mk.inj ht'
  rw [hmerge]
  rfl

/-- With room in the array, removing a range leaves an array with at most two more regions and
nothing new in it. -/
theorem removeRangeResize_spec (array : MemblockArray) (hl : (s.mb.array array).Holds w n l)
    (hbase : base < 2 ^ w) (hroom : (s.mb.array array).cnt + 2 ≤ (s.mb.array array).max)
    (size : ℕ) :
    ∃ t ret, removeRangeResize f w s array base size = some (s.setType array t, ret) ∧
      ∃ l', t.Holds w n l' ∧ l'.length ≤ l.length + 2 ∧
        ∀ x, t.Contains x → (s.mb.array array).Contains x := by
  unfold removeRangeResize
  by_cases hzero : memblockCapSize w base size = 0
  · rw [if_pos hzero]
    exact ⟨s.mb.array array, 0, by rw [MemblockResize.setType_self], l, hl, by omega, fun _ h => h⟩
  rw [if_neg hzero, growArray_of_le hroom, bind_some]
  obtain ⟨t, ret, hrun, hcase⟩ := memblockRemoveRange_spec hl hbase size
  refine ⟨t, ret, by simp only [ne_eq, not_true_eq_false, if_false, hrun, map_some], ?_⟩
  rcases hcase with ⟨-, l', hl', hlen, -, hlookup⟩ | ⟨-, -, rfl⟩
  · refine ⟨l', hl', hlen, fun x hx => ?_⟩
    rw [MemblockType.contains_iff, hl'.addrMap, hlookup] at hx
    rw [MemblockType.contains_iff, hl.addrMap]
    split_ifs at hx with hin
    · exact absurd rfl hx
    · exact hx
  · exact ⟨l, hl, by omega, fun _ h => h⟩

/-! ## Doubling the reserved array -/

/-- A state with resizing enabled. -/
structure MemblockResize.Ok (w n : ℕ) (s : MemblockResize) : Prop where
  canResize : s.canResize = true
  memory : s.mb.memory.RepInv w
  reserved : ∃ l, s.mb.reserved.Holds w n l
  max_lt : n < 2 ^ 31
  limit : s.mb.currentLimit < 2 ^ w
  regionsAt : ∀ a, s.regionsAt .reserved = some a → a < 2 ^ w

theorem MemblockType.Holds.double (h : t.Holds w n l) (hn : n < 2 ^ 31) :
    MemblockType.Holds w (2 * n) { t with max := t.max * 2 % 2 ^ 64 } l := by
  have hmax : t.max * 2 % 2 ^ 64 = 2 * n := by
    rw [h.max, Nat.mod_eq_of_lt (by omega), Nat.mul_comm]
  have hlen := h.length_le
  have hle := h.le_max
  rw [h.max] at hlen
  exact ⟨h.regions, h.dummy, h.within, h.totalSize, hmax,
    show l.length ≤ t.max * 2 % 2 ^ 64 by rw [hmax]; omega, by omega, by omega⟩

/-- Freeing the old array leaves room in the new one, and nothing new in it. -/
theorem freeOldArray_spec (h : s.Ok w n) (hl : s.mb.reserved.Holds w n l) (addr : ℕ) :
    ∃ freed, freeOldArray f w s (s.moveArray .reserved addr) .reserved = some freed ∧
      freed.regionsAt .reserved = some addr ∧ ∃ l', freed.mb.reserved.Holds w (2 * n) l' ∧
        l'.length < 2 * n ∧ ∀ x, freed.mb.reserved.Contains x → s.mb.reserved.Contains x := by
  have hlen := hl.length_le
  have hslots := hl.le_max
  have hcnt := (hl.repInv h.max_lt).cnt_le_max
  rw [hl.max] at hlen hcnt
  unfold initMemblockRegions at hslots
  have hdouble := hl.double h.max_lt
  have hkept : ∃ l', (s.moveArray .reserved addr).mb.reserved.Holds w (2 * n) l' ∧
      l'.length < 2 * n ∧
        ∀ x, (s.moveArray .reserved addr).mb.reserved.Contains x → s.mb.reserved.Contains x :=
    ⟨l, hdouble, by omega, fun _ hx => hx⟩
  unfold freeOldArray
  rcases s.inSlab .reserved with _ | _
  · rcases hold : s.regionsAt .reserved with _ | old
    · exact ⟨_, rfl, rfl, hkept⟩
    · have hroom : ((s.moveArray .reserved addr).mb.array .reserved).cnt + 2 ≤
          ((s.moveArray .reserved addr).mb.array .reserved).max := by
        have hmax : ((s.moveArray .reserved addr).mb.array .reserved).max = 2 * n := hdouble.max
        rw [hmax]
        show s.mb.reserved.cnt + 2 ≤ 2 * n
        omega
      obtain ⟨t, ret, hrun, l', hl', hlen', hsub⟩ := removeRangeResize_spec (f := f)
        (s := s.moveArray .reserved addr) .reserved hdouble (h.regionsAt old hold) hroom
        (oldAllocSize w (s.mb.array .reserved))
      exact ⟨(s.moveArray .reserved addr).setType .reserved t, congrArg (Option.map fst) hrun,
        rfl, l', hl', by omega, hsub⟩
  · exact ⟨_, rfl, rfl, hkept⟩

/-- With a free block for the new array, doubling the reserved array succeeds. -/
theorem memblockDoubleArray_reserved (h : s.Ok w n) {addr : ℕ}
    (haddr : doubleArrayAddr w s.mb .reserved newStart newSize = some addr) (hne : addr ≠ 0)
    (hsize : 0 < newAllocSize w s.mb.reserved)
    (hmax : addr + newAllocSize w s.mb.reserved ≤ physAddrMax w)
    (hfree : ∀ x, addr ≤ x → x < addr + newAllocSize w s.mb.reserved → ¬s.mb.reserved.Contains x)
    (depth : ℕ) :
    ∃ s', memblockDoubleArray w (depth + 1) s .reserved newStart newSize = some (s', 0) ∧
      s'.regionsAt .reserved = some addr := by
  obtain ⟨l, hl⟩ := h.reserved
  have hlt : addr < 2 ^ w := by
    unfold physAddrMax at hmax
    omega
  obtain ⟨freed, hfreed, hat, l', hl', hroom, hsub⟩ :=
    freeOldArray_spec (f := memblockDoubleArray w depth) h hl addr
  obtain ⟨t, ret, hadd, ⟨rfl, -⟩ | ⟨-, hfull, -⟩⟩ := memblockAddRange_block hl' hsize hmax
    (fun x hle hlt hx => hfree x hle hlt (hsub x hx)) maxNumnodes 0
  case inr => omega
  have hreserve := addRangeResize_of_zero (f := memblockDoubleArray w depth) (s := freed)
    .reserved hl' hlt hadd
  refine ⟨{ freed.setType .reserved t with
    inSlab := fun a => if a = .reserved then false else freed.inSlab a }, ?_, hat⟩
  rw [memblockDoubleArray, if_neg (by rw [h.canResize]; exact Bool.false_ne_true.symm), haddr,
    bind_some, if_neg hne, hfreed, bind_some]
  exact (congrArg (bind · _) hreserve).trans rfl

/-- When the new array is apart from the range : the range does not start at `0` or `1`, there is
memory for the array above the range, or there is no memory for it at all. -/
def DoubleApart (w : ℕ) (mb : Memblock) (newStart newSize : ℕ) : Prop :=
  2 ≤ newStart ∨ newAllocSize w mb.reserved = 0 ∨
    SomeFeasible mb (newAllocSize w mb.reserved) (newStart + newSize) mb.currentLimit ∨
    ¬SomeFeasible mb (newAllocSize w mb.reserved) 0 mb.currentLimit

theorem allocEnd_limit (mb : Memblock) : allocEnd mb mb.currentLimit = mb.currentLimit := by
  unfold allocEnd
  split_ifs <;> rfl

/-- An `end` of `0` or `1` is an `end` of `current_limit`. -/
theorem feasible_of_lt_two {a align : ℕ} {p : ℤ × MemblockFlags} (h : newStart < 2) :
    Feasible mb size align start (min newStart mb.currentLimit) p a ↔
      Feasible mb size align start mb.currentLimit p a := by
  have hend : allocEnd mb (min newStart mb.currentLimit) = allocEnd mb mb.currentLimit := by
    rw [allocEnd_limit]
    exact if_pos (by omega)
  exact ⟨fun h => ⟨h.dvd, h.start_le, hend ▸ h.le_stop, h.block⟩,
    fun h => ⟨h.dvd, h.start_le, hend.symm ▸ h.le_stop, h.block⟩⟩

/-- The two searches of `memblock_double_array`. -/
theorem doubleArrayAddr_spec (hw : pageSize < 2 ^ w) (h : s.Ok w n)
    (hsize : 0 < newAllocSize w s.mb.reserved) (hnew : 0 < newSize)
    (hend : newStart + newSize ≤ physAddrMax w) :
    ∃ addr, doubleArrayAddr w s.mb .reserved newStart newSize = some addr ∧
      (addr ≠ 0 ∧ (∃ p ∈ allocPasses s.mb numaNoNode, Feasible s.mb
            (newAllocSize w s.mb.reserved) pageSize (newStart + newSize) s.mb.currentLimit p addr) ∨
        ¬SomeFeasible s.mb (newAllocSize w s.mb.reserved) (newStart + newSize) s.mb.currentLimit ∧
          (addr ≠ 0 ∧ (∃ p ∈ allocPasses s.mb numaNoNode, Feasible s.mb
              (newAllocSize w s.mb.reserved) pageSize 0 (min newStart s.mb.currentLimit) p addr) ∨
            addr = 0 ∧ ¬SomeFeasible s.mb (newAllocSize w s.mb.reserved) 0
              (min newStart s.mb.currentLimit))) := by
  obtain ⟨l, hl⟩ := h.reserved
  have hres := hl.repInv h.max_lt
  have hlt : newStart + newSize < 2 ^ w := by
    unfold physAddrMax at hend
    omega
  have hlimit := h.limit
  obtain ⟨addr, hfind, hcase⟩ := memblockFindInRange_spec hw h.memory hres hlimit hsize hlt hlimit
  obtain ⟨addr', hfind', hcase'⟩ := memblockFindInRange_spec hw h.memory hres hlimit hsize
    (Nat.two_pow_pos w) (show min newStart s.mb.currentLimit < 2 ^ w by omega)
  have hadd := physAdd_of_lt hend
  have hrun : doubleArrayAddr w s.mb .reserved newStart newSize =
      if addr = 0 ∧ newSize ≠ 0 then some addr' else some addr := by
    simp only [doubleArrayAddr, ne_eq, not_true_eq_false, if_false, hadd]
    exact (congrArg (bind · _) hfind).trans (if_congr Iff.rfl hfind' rfl)
  rcases hcase with ⟨hne, hfeasible⟩ | ⟨rfl, hnone⟩
  · exact ⟨addr, by rw [hrun, if_neg fun h => hne h.1], .inl ⟨hne, hfeasible⟩⟩
  · exact ⟨addr', by rw [hrun, if_pos ⟨rfl, hnew.ne'⟩], .inr ⟨hnone, hcase'⟩⟩

/-- Whenever doubling the reserved array succeeds, the memory for the new array is apart from the
range that is about to be edited and from everything that is reserved, if and only if the range
does not start at `0` or `1`, or there is memory for the array above it, or none at all. -/
theorem memblockDoubleArray_apart (hw : pageSize < 2 ^ w) (h : s.Ok w n) (hnew : 0 < newSize)
    (hend : newStart + newSize ≤ physAddrMax w) (depth : ℕ) :
    (∀ s' addr, memblockDoubleArray w (depth + 1) s .reserved newStart newSize = some (s', 0) →
      s'.regionsAt .reserved = some addr → ∀ x, addr ≤ x → x < addr + newAllocSize w s.mb.reserved →
          ¬(newStart ≤ x ∧ x < newStart + newSize) ∧ ¬s.mb.reserved.Contains x) ↔
      DoubleApart w s.mb newStart newSize := by
  rcases Nat.eq_zero_or_pos (newAllocSize w s.mb.reserved) with hzero | hsize
  · refine iff_of_true (fun s' addr _ _ x hle hlt => ?_) (.inr (.inl hzero))
    omega
  obtain ⟨addr, haddr, hcase⟩ := doubleArrayAddr_spec hw h hsize hnew hend
  -- A feasible address makes the call succeed with that address.
  have hsuccess : ∀ {start stop p}, addr ≠ 0 →
      Feasible s.mb (newAllocSize w s.mb.reserved) pageSize start stop p addr →
      ∃ s', memblockDoubleArray w (depth + 1) s .reserved newStart newSize = some (s', 0) ∧
        s'.regionsAt .reserved = some addr := by
    intro start stop p hne hfeasible
    obtain ⟨m, hm, -, -, hle⟩ := hfeasible.block.memory
    exact memblockDoubleArray_reserved h haddr hne hsize (hle.trans (h.memory.no_wrap m hm))
      hfeasible.block.free depth
  -- A feasible address is all there is to check.
  have hcheck : ∀ {start stop p}, addr ≠ 0 →
      Feasible s.mb (newAllocSize w s.mb.reserved) pageSize start stop p addr →
      (newStart + newSize ≤ addr ∨ addr + newAllocSize w s.mb.reserved ≤ newStart) →
      ∀ s' addr', memblockDoubleArray w (depth + 1) s .reserved newStart newSize = some (s', 0) →
        s'.regionsAt .reserved = some addr' →
          ∀ x, addr' ≤ x → x < addr' + newAllocSize w s.mb.reserved →
            ¬(newStart ≤ x ∧ x < newStart + newSize) ∧ ¬s.mb.reserved.Contains x := by
    intro start stop p hne hfeasible hapart s' addr' hrun hat x hle hlt
    obtain ⟨s'', hrun', hat'⟩ := hsuccess hne hfeasible
    obtain ⟨rfl, -⟩ := mk.inj (some.inj (hrun.symm.trans hrun'))
    obtain rfl := some.inj (hat.symm.trans hat')
    exact ⟨by omega, hfeasible.block.free x hle hlt⟩
  rcases hcase with ⟨hne, p, hp, hfeasible⟩ | ⟨hnone, hcase⟩
  · -- Memory above the range.
    have habove := (le_max_left _ _).trans hfeasible.start_le
    exact iff_of_true (hcheck hne hfeasible (.inl habove))
      (.inr (.inr (.inl ⟨p, hp, addr, hfeasible⟩)))
  rcases hcase with ⟨hne, p, hp, hfeasible⟩ | ⟨rfl, hnone'⟩
  · rcases Nat.lt_or_ge newStart 2 with hlow | hlow
    · -- Memory below `current_limit`, and as there is none above the range it is inside.
      have hfeasible' := (feasible_of_lt_two hlow).mp hfeasible
      refine iff_of_false (fun hall => ?_) ?_
      · obtain ⟨s', hrun, hat⟩ := hsuccess hne hfeasible
        refine (hall s' addr hrun hat addr le_rfl (by omega)).1 ?_
        have hpage := (le_max_right 0 pageSize).trans hfeasible.start_le
        have hpos : 2 ≤ pageSize := by decide
        refine ⟨by omega, Nat.lt_of_not_le fun habove => hnone ⟨p, hp, addr, ?_⟩⟩
        exact ⟨hfeasible'.dvd, max_le habove hpage, hfeasible'.le_stop, hfeasible'.block⟩
      · rintro (hge | hzero | hsome | hnone')
        · omega
        · omega
        · exact hnone hsome
        · exact hnone' ⟨p, hp, addr, hfeasible'⟩
    · refine iff_of_true (hcheck hne hfeasible (.inr ?_)) (.inl hlow)
      -- An `end` of at least `2` is taken as it is.
      have hstop := hfeasible.le_stop
      have hpage := (le_max_right 0 pageSize).trans hfeasible.start_le
      have hpos : 2 ≤ pageSize := by decide
      unfold allocEnd at hstop
      split_ifs at hstop <;> omega
  · -- There is no memory for the array, and the call fails.
    refine iff_of_true (fun s' addr hrun _ => ?_) ?_
    · rw [memblockDoubleArray, if_neg (by rw [h.canResize]; exact Bool.false_ne_true.symm), haddr,
        bind_some, if_pos rfl] at hrun
      exact absurd (mk.inj (some.inj hrun)).2 (by decide)
    · rcases Nat.lt_or_ge newStart 2 with hlow | hlow
      · refine .inr (.inr (.inr ?_))
        rintro ⟨p, hp, a, ha⟩
        exact hnone' ⟨p, hp, a, (feasible_of_lt_two hlow).mpr ha⟩
      · exact .inl hlow

/-- One region of memory, and nothing reserved. -/
def oneRegion : MemblockResize where
  mb := ⟨false, physAddrMax 64, ⟨128, 2 ^ 16, [⟨0, 2 ^ 16, 0, 0⟩]⟩, memblockTypeInit, false⟩
  canResize := true
  inSlab _ := false
  regionsAt _ := none

/-- The same memory, with two reserved regions. -/
def twoReserved : MemblockResize :=
  { oneRegion with mb := { oneRegion.mb with
    reserved := ⟨128, 12288, [⟨4096, 4096, 0, 4⟩, ⟨40960, 8192, 0, 4⟩]⟩ } }

theorem memblockDoubleArray_apart_twoReserved :
    (∀ s' addr, memblockDoubleArray 64 1 twoReserved .reserved 8192 4096 = some (s', 0) →
      s'.regionsAt .reserved = some addr →
        ∀ x, addr ≤ x → x < addr + newAllocSize 64 twoReserved.mb.reserved →
          ¬(8192 ≤ x ∧ x < 8192 + 4096) ∧ ¬twoReserved.mb.reserved.Contains x) ↔
      DoubleApart 64 twoReserved.mb 8192 4096 := by
  have hok : twoReserved.Ok 64 initMemblockRegions :=
    ⟨rfl, ⟨by decide, by decide, by decide, by decide, by decide, by decide, by decide, by decide⟩,
      ⟨[⟨4096, 4096, 4, 0⟩, ⟨40960, 8192, 4, 0⟩], fun _ => rfl, nofun,
        by simp [Seg.Within, Seg.stop, physAddrMax], rfl, rfl, by decide, by decide, by decide⟩,
      by decide, by decide, fun _ h => absurd h.symm (some_ne_none _)⟩
  exact memblockDoubleArray_apart (by decide) hok (by decide) (by decide) 0

/-- The reserved array is full, and all memory is inside the range that is to be reserved : the new
array is put inside that range. -/
theorem memblockDoubleArray_inside :
    let s : MemblockResize := { oneRegion with mb := { oneRegion.mb with
      reserved := ⟨128, 128, (List.range 128).map fun i => ⟨2 ^ 20 + 2 * i, 1, 0, 4⟩⟩ } }
    newAllocSize 64 s.mb.reserved = 8192 ∧ (memblockDoubleArray 64 1 s .reserved 0 (2 ^ 16)).map
        (fun r => (r.2, r.1.regionsAt .reserved)) = some (0, some (2 ^ 16 - 8192)) ∧
      (addRangeResize (memblockDoubleArray 64 1) 64 s .reserved 0 (2 ^ 16) maxNumnodes 0).map
        (fun r => (r.2, r.1.regionsAt .reserved)) = some (0, some (2 ^ 16 - 8192)) := by
  refine ⟨by decide +kernel, by decide +kernel, by decide +kernel⟩

end

end LinuxKernelTest
