import Mathlib.Tactic
import Mathlib.Order.CompletePartialOrder
import LinuxKernelTest.MemblockFree

/-!
# Memblock : allocations

An address is feasible for an allocation if it is aligned, the block lies inside the bounds and
inside one region that is not skipped, and no address of the block is reserved (`Feasible`). The
search from the top finds the greatest feasible address, or none if there is none
(`memblockFindInRangeNode_spec`) : the free ranges are disjoint, so a block of free addresses lies
inside one of them, and in each range the search tries the greatest address.

`memblock_alloc_range_nid` makes up to four passes over nodes and flags (`allocPasses`) and
reserves what the first successful one finds. What has been allocated and not been freed stays
disjoint along every run (`memblockCallRun_alloc`).
-/

namespace LinuxKernelTest

open Nat MemblockType MemblockCall

open List hiding Disjoint

section

variable {w k size start stop a x : ℕ} {memory reserved : MemblockType} {nid : ℤ}
  {flags : MemblockFlags} {range : MemRange} {align : ℕ}

/-! ## One range -/

/-- Rounding down to a power of two. -/
theorem roundDown_two_pow (hk : 2 ^ k < 2 ^ w) (x : ℕ) :
    roundDown w x (2 ^ k) = x / 2 ^ k * 2 ^ k := by
  have hmask : roundMask w (2 ^ k) = 2 ^ k - 1 :=
    physSub_of_le Nat.one_le_two_pow (by unfold physAddrMax; omega)
  rw [roundDown, hmask]
  refine eq_of_testBit_eq fun i => ?_
  rw [testBit_ldiff, testBit_two_pow_sub_one, testBit_mul_two_pow]
  rcases lt_or_ge i k with hi | hi
  · simp [hi, not_le.mpr hi]
  · rw [Nat.testBit_div_two_pow, Nat.sub_add_cancel hi]
    simp [hi, Nat.not_lt.mpr hi]

/-- The block at `a` is aligned and lies inside the bounds and inside the range. -/
structure CandAt (start stop size align : ℕ) (range : MemRange) (a : ℕ) : Prop where
  dvd : align ∣ a
  start_le : start ≤ a
  le_stop : a + size ≤ stop
  range_le : range.start ≤ a
  le_range : a + size ≤ range.stop

/-- With the range clamped to the bounds. -/
theorem candAt_iff (hsize : 0 < size) :
    CandAt start stop size align range a ↔ align ∣ a ∧ clampAddr range.start start stop ≤ a ∧
      a + size ≤ clampAddr range.stop start stop := by
  unfold clampAddr
  refine ⟨fun h => ⟨h.dvd, ?_, ?_⟩, fun ⟨hdvd, hlo, hhi⟩ => ⟨hdvd, ?_, ?_, ?_, ?_⟩⟩
  · exact (min_le_left _ _).trans (max_le h.range_le h.start_le)
  · exact le_min (h.le_range.trans (le_max_left _ _)) h.le_stop
  all_goals omega

/-- The body of the search finds the greatest block in the range. -/
theorem topDownCand_spec (hk : 2 ^ k < 2 ^ w) (hsize : 0 < size) (hstop : stop < 2 ^ w)
    (start : ℕ) (range : MemRange) :
    IsFirst (· ≥ ·) (CandAt start stop size (2 ^ k) range)
      (topDownCand w start stop size (2 ^ k) range) := by
  have hend : clampAddr range.stop start stop ≤ stop := min_le_right _ _
  refine IsFirst.congr ?_ fun a => (candAt_iff hsize).symm
  rw [topDownCand]
  by_cases hfit : clampAddr range.stop start stop < size
  · rw [if_pos hfit]
    rintro a' ⟨-, -, hle⟩
    omega
  have hsub : physSub w (clampAddr range.stop start stop) size =
      clampAddr range.stop start stop - size :=
    physSub_of_le (by omega) (by unfold physAddrMax; omega)
  simp only [if_neg hfit, hsub, roundDown_two_pow hk]
  -- The greatest multiple that leaves room for the block.
  have hdvd : 2 ^ k ∣ (clampAddr range.stop start stop - size) / 2 ^ k * 2 ^ k := dvd_mul_left _ _
  have hle := div_mul_le_self (clampAddr range.stop start stop - size) (2 ^ k)
  have hgreatest : ∀ a', 2 ^ k ∣ a' → a' + size ≤ clampAddr range.stop start stop →
      a' ≤ (clampAddr range.stop start stop - size) / 2 ^ k * 2 ^ k := by
    rintro _ ⟨c, rfl⟩ hroom
    rw [mul_comm]
    refine Nat.mul_le_mul_right _ ((Nat.le_div_iff_mul_le (Nat.two_pow_pos k)).mpr ?_)
    rw [Nat.mul_comm]
    omega
  by_cases hcand : (clampAddr range.stop start stop - size) / 2 ^ k * 2 ^ k ≥
      clampAddr range.start start stop
  · rw [if_pos hcand]
    exact ⟨⟨hdvd, hcand, by omega⟩, fun a' ha' => .inr (hgreatest a' ha'.1 ha'.2.2)⟩
  rw [if_neg hcand]
  rintro a' ⟨hdvd', hlo, hhi⟩
  have := hgreatest a' hdvd' hhi
  omega

/-! ## All ranges -/

/-- Going down disjoint ranges, the first block found is the greatest one. -/
theorem findSome_topDownCand (hk : 2 ^ k < 2 ^ w) (hsize : 0 < size) (hstop : stop < 2 ^ w)
    (start : ℕ) {ranges : List MemRange} (hsorted : ranges.Pairwise fun r r' => r'.stop ≤ r.start) :
    IsFirst (· ≥ ·) (fun a => ∃ r ∈ ranges, CandAt start stop size (2 ^ k) r a)
      (ranges.findSome? (topDownCand w start stop size (2 ^ k))) := by
  induction ranges with
  | nil => simp [IsFirst]
  | cons r ranges ih =>
    obtain ⟨hfirst, hrest⟩ := pairwise_cons.mp hsorted
    have hcand := topDownCand_spec hk hsize hstop start r
    rw [List.findSome?_cons]
    rcases hr : topDownCand w start stop size (2 ^ k) r with _ | a
    · rw [hr] at hcand
      refine (ih hrest).congr fun a' => ?_
      rw [exists_mem_cons_iff, or_iff_right (hcand a')]
    rw [hr] at hcand
    refine ⟨⟨r, mem_cons_self, hcand.1⟩, ?_⟩
    rintro a' ⟨r', hr', ha'⟩
    rcases mem_cons.mp hr' with rfl | hr'
    · exact hcand.2 a' ha'
    -- A lower range holds lower blocks.
    have hapart := hfirst r' hr'
    have hle := ha'.le_range
    have hge := hcand.1.range_le
    exact .inr (by omega)

variable {t : MemblockType}

/-- A block of free addresses lies inside one area. -/
theorem MemblockType.RepInv.exists_area_block_iff (ht : t.RepInv w)
    (hsize : 0 < size) (hmax : a + size ≤ physAddrMax w) :
    (∃ b, b < t.cnt + 1 ∧ colStart t b ≤ a ∧ a + size ≤ colStop w t b) ↔
      ∀ x, a ≤ x → x < a + size → ¬t.Contains x := by
  refine ⟨?_, fun hfree => ?_⟩
  · rintro ⟨b, hb, hstart, hstop⟩ x hle hlt
    exact (ht.exists_area_iff (by omega)).mp ⟨b, hb, by omega, by omega⟩
  obtain ⟨b, hb, hstart, hstop⟩ := (ht.exists_area_iff (by omega)).mpr (hfree a le_rfl (by omega))
  refine ⟨b, hb, hstart, Nat.le_of_not_lt fun hlt => ?_⟩
  have hbcnt : b < t.cnt := by
    by_contra hge
    rw [colStop, if_neg hge] at hlt
    omega
  -- The region behind the area starts inside the block.
  obtain ⟨r, hr, hmem⟩ := t.exists_region hbcnt
  rw [colStop, if_pos hbcnt, rowLo_eq hr] at hstop hlt
  rcases ht.size_pos with hpos | ⟨-, hdummy⟩
  · exact hfree r.base (by omega) hlt ⟨r, hmem, le_rfl, Nat.lt_add_of_pos_right (hpos r hmem)⟩
  · have := (hdummy r hmem).1
    omega

/-- The block of `size` at `a` is free memory for a pass. -/
structure FreeBlock (mb : Memblock) (pass : ℤ × MemblockFlags) (size a : ℕ) : Prop where
  memory : ∃ m ∈ mb.memory.regions, shouldSkipRegion m pass.1 pass.2 = false ∧ m.base ≤ a ∧
    a + size ≤ m.base + m.size
  free : ∀ x, a ≤ x → x < a + size → ¬mb.reserved.Contains x

variable {mb : Memblock} {n : ℕ}

/-- The ranges of an iteration hold the free blocks. -/
theorem forEachFreeMemRangeReverse_blocks (hmem : mb.memory.RepInv w) (hres : mb.reserved.RepInv w)
    (hsize : 0 < size) (nid : ℤ) (flags : MemblockFlags) :
    ∃ ranges, forEachFreeMemRangeReverse w mb.memory mb.reserved nid flags = some ranges ∧
      ranges.Pairwise (fun r r' => r'.stop ≤ r.start) ∧
      ∀ a, (∃ r ∈ ranges, r.start ≤ a ∧ a + size ≤ r.stop) ↔
        FreeBlock mb (anyNode nid, flags) size a := by
  obtain ⟨l, -, hreverse, hlists⟩ := forEachFreeMemRange_lists hmem hres nid flags
  refine ⟨_, hreverse, ?_, fun a => ?_⟩
  · rw [pairwise_reverse, pairwise_map]
    exact hlists.sorted.imp_of_mem fun _ hy h => ((hlists.mem _).mp hy).apart h
  refine ⟨?_, fun h => ?_⟩
  · rintro ⟨r, hr, hstart, hstop⟩
    obtain ⟨p, hp, rfl⟩ := mem_map.mp (mem_reverse.mp hr)
    obtain ⟨hrow, hcol, ⟨m, hm, hskip⟩, -, -⟩ := (hlists.mem p).mp hp
    obtain ⟨hlo, hstart⟩ := Nat.max_le.mp hstart
    obtain ⟨hhi, hstop⟩ := Nat.le_min.mp hstop
    rw [rowLo_eq hm] at hlo
    rw [rowHi_eq hm] at hhi
    have hmax := hmem.no_wrap m (mem_of_getElem? hm)
    exact ⟨⟨m, mem_of_getElem? hm, hskip, hlo, hhi⟩,
      (hres.exists_area_block_iff hsize (hhi.trans hmax)).mp ⟨p.2, hcol, hstart, hstop⟩⟩
  · obtain ⟨m, hm, hskip, hlo, hhi⟩ := h.memory
    obtain ⟨i, hi, rfl⟩ := mem_iff_getElem.mp hm
    have hget := List.getElem?_eq_getElem hi
    obtain ⟨b, hb, hstart, hstop⟩ :=
      (hres.exists_area_block_iff hsize (hhi.trans (hmem.no_wrap _ hm))).mpr h.free
    rw [← rowLo_eq hget] at hlo
    rw [← rowHi_eq hget] at hhi
    have hhit : (freeWalk hmem hres (anyNode nid) flags).Hit (i, b) :=
      ⟨hi, hb, ⟨_, hget, hskip⟩, show colStart mb.reserved b < rowHi mb.memory i by omega,
        show rowLo mb.memory i < colStop w mb.reserved b by omega⟩
    exact ⟨_, mem_reverse.mpr (mem_map_of_mem ((hlists.mem _).mpr hhit)),
      max_le hlo hstart, le_min hhi hstop⟩

/-! ## One search -/

theorem MemblockType.Ok.repInv (h : t.Ok w) : t.RepInv w := by
  obtain ⟨l, hl⟩ := h
  exact hl.repInv (by decide)

/-- The address `a` is feasible for a pass. -/
structure Feasible (mb : Memblock) (size align start stop : ℕ) (pass : ℤ × MemblockFlags)
    (a : ℕ) : Prop where
  dvd : align ∣ a
  start_le : max start pageSize ≤ a
  le_stop : a + size ≤ allocEnd mb stop
  block : FreeBlock mb pass size a

/-- `memblock_find_in_range_node` finds the greatest feasible address, and `0` if there is none. -/
theorem memblockFindInRangeNode_spec (hw : pageSize < 2 ^ w) (hmem : mb.memory.RepInv w)
    (hres : mb.reserved.RepInv w) (hlimit : mb.currentLimit < 2 ^ w) (hk : 2 ^ k < 2 ^ w)
    (hsize : 0 < size) (hstart : start < 2 ^ w) (hstop : stop < 2 ^ w) (nid : ℤ)
    (flags : MemblockFlags) :
    ∃ o, memblockFindInRangeNode w mb size (2 ^ k) start stop nid flags = some (o.getD 0) ∧
      IsFirst (· ≥ ·) (Feasible mb size (2 ^ k) start stop (anyNode nid, flags)) o ∧
      ∀ a, o = some a → a ≠ 0 := by
  obtain ⟨ranges, hrun, hsorted, hblocks⟩ :=
    forEachFreeMemRangeReverse_blocks hmem hres hsize nid flags
  have hend : max (max start pageSize) (allocEnd mb stop) < 2 ^ w := by
    refine max_lt (max_lt hstart hw) ?_
    unfold allocEnd
    split_ifs
    exacts [hlimit, hstop]
  have hfirst := findSome_topDownCand hk hsize hend (max start pageSize) hsorted
  have hiff : ∀ a, (∃ r ∈ ranges, CandAt (max start pageSize)
      (max (max start pageSize) (allocEnd mb stop)) size (2 ^ k) r a) ↔
        Feasible mb size (2 ^ k) start stop (anyNode nid, flags) a := fun a => by
    refine ⟨?_, fun h => ?_⟩
    · rintro ⟨r, hr, h⟩
      have hle := h.start_le
      have hroom := h.le_stop
      exact ⟨h.dvd, hle, by omega, (hblocks a).mp ⟨r, hr, h.range_le, h.le_range⟩⟩
    · obtain ⟨r, hr, hlo, hhi⟩ := (hblocks a).mpr h.block
      exact ⟨r, hr, h.dvd, h.start_le, h.le_stop.trans (le_max_right _ _), hlo, hhi⟩
  refine ⟨_, ?_, hfirst.congr hiff, fun a ha => ?_⟩
  · -- `end` is never above `kernel_end`.
    rw [memblockFindInRangeNode, if_neg fun h => lt_irrefl _ h.2, memblockFindRangeTopDown, hrun]
    rfl
  · have hfound := hfirst.congr hiff
    rw [ha] at hfound
    have hpage := (le_max_right _ _).trans hfound.1.start_le
    have hpos : 0 < pageSize := Nat.two_pow_pos 12
    omega

/-- In bottom-up mode too the search is from the top, since `kernel_end` is `end` : it finds the
lowest feasible address only if there is no other one. -/
theorem memblockFindInRangeNode_lowest_iff (hw : pageSize < 2 ^ w) (hmem : mb.memory.RepInv w)
    (hres : mb.reserved.RepInv w) (hlimit : mb.currentLimit < 2 ^ w) (_ : mb.bottomUp = true)
    (hk : 2 ^ k < 2 ^ w) (hsize : 0 < size) (hstart : start < 2 ^ w) (hstop : stop < 2 ^ w)
    (nid : ℤ) (flags : MemblockFlags)
    (ha : IsLeast {a | Feasible mb size (2 ^ k) start stop (anyNode nid, flags) a} a) :
    memblockFindInRangeNode w mb size (2 ^ k) start stop nid flags = some a ↔
      ∀ a', Feasible mb size (2 ^ k) start stop (anyNode nid, flags) a' → a' = a := by
  obtain ⟨_ | b, hfind, hfirst, -⟩ :=
    memblockFindInRangeNode_spec hw hmem hres hlimit hk hsize hstart hstop nid flags
  · exact absurd ha.1 (hfirst a)
  rw [hfind, Option.getD_some, Option.some_inj]
  refine ⟨?_, fun honly => honly b hfirst.1⟩
  rintro rfl a' ha'
  exact (hfirst.2 a' ha').elim id fun hle => le_antisymm hle (ha.2 ha')

/-- Bottom-up mode, and nothing is reserved. -/
def memblockPageUp : Memblock :=
  { memblockPage with bottomUp := true, reserved := memblockTypeInit }

theorem memblockPageUp_feasible (hsize : size ≤ 61440) :
    Feasible memblockPageUp size 4096 0 65536 (anyNode 0, 0) 4096 := by
  refine ⟨dvd_rfl, le_rfl, show 4096 + size ≤ 65536 by omega, ⟨_, .head _, by decide, by decide,
    show 4096 + size ≤ 0 + 65536 by omega⟩, ?_⟩
  rintro x - - ⟨r, hr, -, hlt⟩
  obtain rfl := List.mem_singleton.mp hr
  exact absurd hlt (not_lt_zero x)

/-- All of the memory but the first page. -/
theorem memblockFindInRangeNode_lowest_page :
    memblockFindInRangeNode 64 memblockPageUp 61440 (2 ^ 12) 0 65536 0 0 = some 4096 := by
  have honly : ∀ a, Feasible memblockPageUp 61440 (2 ^ 12) 0 65536 (anyNode 0, 0) a → a = 4096 :=
    fun a h => by
      have hstop : a + 61440 ≤ 65536 := h.le_stop
      exact le_antisymm (by omega) ((le_max_right _ _).trans h.start_le)
  refine Iff.mpr (memblockFindInRangeNode_lowest_iff (by decide) ?_ ?_ ?_ rfl (by decide)
    (by decide) (by decide) (by decide) 0 0
    ⟨memblockPageUp_feasible le_rfl, fun a h => (honly a h).ge⟩) honly
  exacts [memblockPage_memory.repInv (by decide), MemblockType.Ok.repInv (ok_memblockTypeInit 64),
    show 2 ^ 64 - 1 < 2 ^ 64 by decide]

/-- The page at `4096` is lower. -/
theorem memblockFindInRangeNode_topDown :
    memblockFindInRangeNode 64 memblockPageUp 4096 (2 ^ 12) 0 65536 0 0 = some 61440 ∧
      Feasible memblockPageUp 4096 (2 ^ 12) 0 65536 (anyNode 0, 0) 4096 :=
  ⟨by decide +kernel, memblockPageUp_feasible (by decide)⟩

/-! ## Reserving a free block -/

theorem MemblockType.contains_iff (t : MemblockType) (x : ℕ) :
    t.Contains x ↔ t.addrMap x ≠ none := by
  rw [addrMap, Ne, Seg.lookup_eq_none_iff]
  simp only [forall_mem_map, not_forall, not_not, MemblockType.Contains, exists_prop]
  rfl

/-- Adding a free block succeeds if there is a slot left. -/
theorem memblockAddRange_block {l : List (Seg MemblockAttr)}
    (hl : t.Holds w n l) (hsize : 0 < size) (hmax : a + size ≤ physAddrMax w)
    (hfree : ∀ x, a ≤ x → x < a + size → ¬t.Contains x) (nid : ℤ) (flags : MemblockFlags) :
    ∃ t' ret, memblockAddRange w t a size nid flags = some (t', ret) ∧
      (ret = 0 ∧ l.length < n ∧ (∃ l', t'.Holds w n l') ∧
          (∀ x, t'.Contains x ↔ t.Contains x ∨ a ≤ x ∧ x < a + size) ∨
        ret ≠ 0 ∧ l.length = n ∧ t' = t) := by
  have hcap := capEnd_of_le hmax
  have hout : ∀ s ∈ l, s.stop ≤ a ∨ a + size ≤ s.base := by
    intro s hs
    by_contra hmeet
    push Not at hmeet
    have hpos : 0 < s.size := (hl.within.bounds hs).2.1
    have hx : t.Contains (max a s.base) := by
      rw [contains_iff, hl.addrMap, Ne, Seg.lookup_eq_none_iff]
      exact fun hnone =>
        hnone s hs ⟨le_max_right _ _, max_lt hmeet.1 (Nat.lt_add_of_pos_right hpos)⟩
    exact hfree _ (le_max_left _ _) (max_lt (by omega) hmeet.2) hx
  have hlen := Seg.length_fill_of_outside (x := (nid, flags)) hout (by omega)
  have hle := hl.length_le
  rw [hl.max] at hle
  have hlt : a < 2 ^ w := by
    unfold physAddrMax at hmax
    omega
  obtain ⟨t', ret, hrun, hcase⟩ := memblockAddRange_spec hl hlt size nid flags
  rw [hcap, hlen] at hcase
  refine ⟨t', ret, hrun, ?_⟩
  rcases hcase with ⟨rfl, hroom, l', hl', hlookup⟩ | ⟨rfl, hroom, rfl⟩
  · refine .inl ⟨rfl, by omega, ⟨l', hl'⟩, fun x => ?_⟩
    rw [contains_iff, contains_iff, hl'.addrMap, hl.addrMap, hlookup]
    by_cases hx : a ≤ x ∧ x < a + size
    · rw [if_pos hx]
      exact iff_of_true (by simp) (.inr hx)
    · rw [if_neg hx, Option.or_none, or_iff_left hx]
  · exact .inr ⟨by decide, by omega, rfl⟩

/-- Reserving a free block succeeds if there is a slot left. -/
theorem memblockReserve_block (h : mb.Ok w) (hsize : 0 < size) (hmax : a + size ≤ physAddrMax w)
    (hfree : ∀ x, a ≤ x → x < a + size → ¬mb.reserved.Contains x) :
    ∃ t ret, memblockReserve w mb a size = some ({ mb with reserved := t }, ret) ∧
      (ret = 0 ∧ mb.reserved.cnt < mb.reserved.max ∧ t.Ok w ∧
          (∀ x, t.Contains x ↔ mb.reserved.Contains x ∨ a ≤ x ∧ x < a + size) ∨
        ret ≠ 0 ∧ mb.reserved.cnt = mb.reserved.max ∧ t = mb.reserved) := by
  obtain ⟨l, hl⟩ := h.reserved
  have hcnt : l ≠ [] → mb.reserved.cnt = l.length := fun hne => by
    rw [← hl.regions hne, length_map, cnt]
  obtain ⟨t, ret, hrun, hcase⟩ := memblockAddRange_block hl hsize hmax hfree maxNumnodes 0
  refine ⟨t, ret, by rw [memblockReserve, hrun]; rfl, ?_⟩
  rw [hl.max]
  rcases hcase with ⟨hret, hroom, hok, hcontains⟩ | ⟨hret, hfull, hsame⟩
  · refine .inl ⟨hret, ?_, hok, hcontains⟩
    by_cases hnil : l = []
    · obtain ⟨nid, hregions⟩ := hl.dummy hnil
      rw [cnt, hregions]
      exact show 1 < initMemblockRegions by decide
    · rwa [hcnt hnil]
  · refine .inr ⟨hret, ?_, hsame⟩
    have hne : l ≠ [] := fun hnil => by
      rw [hnil, length_nil] at hfull
      exact absurd hfull (by decide)
    rw [hcnt hne, hfull]

/-! ## The passes -/

/-- The passes with one choice of flags : the node, then any node. -/
def nodePasses (nid : ℤ) (flags : MemblockFlags) : List (ℤ × MemblockFlags) :=
  (nid, flags) :: if nid ≠ numaNoNode then [(numaNoNode, flags)] else []

/-- The passes of `memblock_alloc_range_nid`. -/
def allocPasses (mb : Memblock) (nid : ℤ) : List (ℤ × MemblockFlags) :=
  nodePasses (anyNode nid) (chooseMemblockFlags mb) ++
    if chooseMemblockFlags mb &&& memblockMirror ≠ 0 then
      nodePasses (anyNode nid) (chooseMemblockFlags mb &&& ~~~memblockMirror)
    else []

/-- Make the passes one after the other until one succeeds. -/
def tryPasses (w size align start stop : ℕ) :
    Memblock → List (ℤ × MemblockFlags) → Option (Memblock × ℕ)
  | mb, [] => some (mb, 0)
  | mb, p :: ps =>
    (tryAlloc w mb size align start stop p.1 p.2).bind fun r =>
      match r.2 with
      | some found => some (r.1, found)
      | none => tryPasses w size align start stop r.1 ps

variable {p : ℤ × MemblockFlags}

variable {ps : List (ℤ × MemblockFlags)}

theorem tryPasses_cons :
    tryPasses w size align start stop mb (p :: ps) =
      match tryAlloc w mb size align start stop p.1 p.2 with
      | none => none
      | some (mb, some found) => some (mb, found)
      | some (mb, none) => tryPasses w size align start stop mb ps := by
  rw [tryPasses]
  rcases tryAlloc w mb size align start stop p.1 p.2 with _ | ⟨mb', _ | found⟩ <;> rfl

/-- A round makes the passes for its flags, and what is left are the passes without the mirror
flag. -/
theorem runLoop_allocRound {rest : List (ℤ × MemblockFlags)}
    (hrest : ∀ mb, (if flags &&& memblockMirror ≠ 0 then
        (runLoop (allocRound w size align start stop nid) n (mb, flags &&& ~~~memblockMirror)).join
      else some (mb, 0)) = tryPasses w size align start stop mb rest) (mb : Memblock) :
    (runLoop (allocRound w size align start stop nid) (n + 1) (mb, flags)).join =
      tryPasses w size align start stop mb (nodePasses nid flags ++ rest) := by
  have hretry : ∀ {s mb}, allocRound w size align start stop nid s =
      (if flags &&& memblockMirror ≠ 0 then .again (mb, flags &&& ~~~memblockMirror)
      else .done (some (mb, 0))) →
      (runLoop (allocRound w size align start stop nid) (n + 1) s).join =
        tryPasses w size align start stop mb rest := fun {s mb} hround => by
    rw [← hrest mb]
    split_ifs at hround ⊢
    · rw [runLoop_again hround]
    · rw [runLoop_done hround, Option.join_some]
  rw [nodePasses, cons_append, tryPasses_cons]
  rcases hfirst : tryAlloc w mb size align start stop nid flags with _ | ⟨mb', _ | found⟩
  · rw [runLoop_done (b := none) (by simp only [allocRound, hfirst])]
    rfl
  · by_cases hnid : nid = numaNoNode
    · rw [if_neg (not_not.mpr hnid), nil_append]
      exact hretry (by simp only [allocRound, hfirst, if_neg (not_not.mpr hnid)])
    · rw [if_pos hnid, singleton_append]
      dsimp only
      rw [tryPasses_cons]
      rcases hsecond : tryAlloc w mb' size align start stop numaNoNode flags with
        _ | ⟨mb'', _ | found⟩
      · rw [runLoop_done (b := none) (by simp only [allocRound, hfirst, if_pos hnid, hsecond])]
        rfl
      · exact hretry (by simp only [allocRound, hfirst, if_pos hnid, hsecond])
      · rw [runLoop_done (b := some (mb'', found))
          (by simp only [allocRound, hfirst, if_pos hnid, hsecond])]
        rfl
  · rw [runLoop_done (b := some (mb', found)) (by simp only [allocRound, hfirst])]
    rfl

/-- `memblock_alloc_range_nid` makes the passes one after the other. -/
theorem memblockAllocRangeNid_eq (halign : align ≠ 0) (mb : Memblock) (nid : ℤ) :
    memblockAllocRangeNid w mb size align start stop nid =
      tryPasses w size align start stop mb (allocPasses mb nid) := by
  have hdrop : ∀ flags : MemblockFlags, (flags &&& ~~~memblockMirror) &&& memblockMirror = 0 :=
    fun flags => by rw [BitVec.and_assoc, BitVec.and_comm (~~~memblockMirror)]; simp
  rw [memblockAllocRangeNid, if_neg halign, allocPasses]
  change (runLoop (allocRound w size align start stop (anyNode nid)) (memblockFuel - 2 + 1 + 1)
    (mb, chooseMemblockFlags mb)).join = _
  refine runLoop_allocRound (fun mb' => ?_) mb
  by_cases hmirror : chooseMemblockFlags mb &&& memblockMirror ≠ 0
  · rw [if_pos hmirror, if_pos hmirror, ← append_nil (nodePasses _ _)]
    refine runLoop_allocRound (fun mb'' => ?_) mb'
    rw [hdrop, if_neg (not_not.mpr rfl)]
    rfl
  · rw [if_neg hmirror, if_neg hmirror]
    rfl

/-- What a pass at `mb` does. -/
structure PassAnswer (w : ℕ) (mb : Memblock) (size align start stop : ℕ) (p : ℤ × MemblockFlags)
    (mb' : Memblock) (a : ℕ) : Prop where
  ne_zero : a ≠ 0
  feasible : Feasible mb size align start stop p a
  greatest : ∀ a', Feasible mb size align start stop p a' → a' ≤ a
  room : mb.reserved.cnt < mb.reserved.max
  ok : mb'.reserved.Ok w
  others : mb' = { mb with reserved := mb'.reserved }
  reserved : ∀ x, mb'.reserved.Contains x ↔ mb.reserved.Contains x ∨ a ≤ x ∧ x < a + size

/-- The arguments of an allocation. -/
structure AllocValid (w size align start stop : ℕ) : Prop where
  size_pos : 0 < size
  align : ∃ k, align = 2 ^ k ∧ 2 ^ k < 2 ^ w
  start_lt : start < 2 ^ w
  stop_lt : stop < 2 ^ w

/-- The arrays are in order and `current_limit` is an address. -/
structure Memblock.AllocOk (w : ℕ) (mb : Memblock) : Prop where
  ok : mb.Ok w
  limit : mb.currentLimit < 2 ^ w

/-- A pass finds the greatest feasible address and reserves the block, or changes nothing. -/
theorem tryAlloc_spec (hw : pageSize < 2 ^ w) (h : mb.AllocOk w)
    (hargs : AllocValid w size align start stop) (hnid : anyNode nid = nid)
    (flags : MemblockFlags) :
    (∃ mb' a, tryAlloc w mb size align start stop nid flags = some (mb', some a) ∧
        PassAnswer w mb size align start stop (nid, flags) mb' a) ∨
      tryAlloc w mb size align start stop nid flags = some (mb, none) ∧
        ((∀ a, ¬Feasible mb size align start stop (nid, flags) a) ∨
          mb.reserved.cnt = mb.reserved.max) := by
  obtain ⟨hsize, ⟨k, rfl, hk⟩, hstart, hstop⟩ := hargs
  obtain ⟨o, hfind, hfirst, hpos⟩ := memblockFindInRangeNode_spec hw h.ok.memory.repInv
    h.ok.reserved.repInv h.limit hk hsize hstart hstop nid flags
  rw [tryAlloc, hfind, Option.bind_some]
  rw [hnid] at hfirst
  rcases o with _ | a
  · exact .inr ⟨rfl, .inl hfirst⟩
  have hne : a ≠ 0 := hpos a rfl
  obtain ⟨hfeasible, hgreatest⟩ := hfirst
  obtain ⟨m, hm, -, -, hend⟩ := hfeasible.block.memory
  have hmax := hend.trans (h.ok.memory.repInv.no_wrap m hm)
  obtain ⟨t, ret, hreserve, ⟨rfl, hroom, hok, hcontains⟩ | ⟨hret, hfull, rfl⟩⟩ :=
    memblockReserve_block h.ok hsize hmax hfeasible.block.free
  · refine .inl ⟨{ mb with reserved := t }, a, ?_, hne, hfeasible, fun a' ha' => ?_, hroom, hok,
      rfl, hcontains⟩
    · rw [Option.getD_some, if_pos hne, hreserve]
      rfl
    · rcases hgreatest a' ha' with rfl | hle
      exacts [le_rfl, hle]
  · refine .inr ⟨?_, .inr hfull⟩
    simp [hreserve, if_neg hret]

/-- The passes reserve what the first one with a feasible address finds. -/
theorem tryPasses_spec (hw : pageSize < 2 ^ w) (h : mb.AllocOk w)
    (hargs : AllocValid w size align start stop)
    (hps : ∀ p ∈ ps, anyNode p.1 = p.1) :
    (∃ mb' a before p after, tryPasses w size align start stop mb ps = some (mb', a) ∧
        ps = before ++ p :: after ∧ PassAnswer w mb size align start stop p mb' a ∧
        ∀ q ∈ before, ∀ a', ¬Feasible mb size align start stop q a') ∨
      tryPasses w size align start stop mb ps = some (mb, 0) ∧
        ((∀ p ∈ ps, ∀ a, ¬Feasible mb size align start stop p a) ∨
          mb.reserved.cnt = mb.reserved.max) := by
  induction ps with
  | nil => exact .inr ⟨rfl, .inl fun p hp => absurd hp not_mem_nil⟩
  | cons p ps ih =>
    obtain ⟨hp, hps⟩ := forall_mem_cons.mp hps
    rw [tryPasses_cons]
    rcases tryAlloc_spec hw h hargs hp p.2 with ⟨mb', a, htry, hanswer⟩ | ⟨htry, hcase⟩
    · exact .inl ⟨mb', a, [], p, ps, by rw [htry], rfl, hanswer, fun q hq => absurd hq not_mem_nil⟩
    rw [htry]
    rcases ih hps with ⟨mb', a, before, p', after, hrun, rfl, hanswer, hbefore⟩ | ⟨hrun, hnone⟩
    · -- A pass has succeeded, so there was a slot left.
      refine .inl ⟨mb', a, p :: before, p', after, hrun, rfl, hanswer, ?_⟩
      have hinfeasible := hcase.resolve_right hanswer.room.ne
      exact forall_mem_cons.mpr ⟨hinfeasible, hbefore⟩
    · refine .inr ⟨hrun, ?_⟩
      rcases hcase with hinfeasible | hfull
      · exact hnone.imp_left fun hnone => forall_mem_cons.mpr ⟨hinfeasible, hnone⟩
      · exact .inr hfull

/-! ## Allocations -/

/-- What `memblock_alloc_range_nid` is to answer at `mb`. -/
structure AllocAnswer (mb : Memblock) (size align start stop : ℕ) (nid : ℤ) (mb' : Memblock)
    (a : ℕ) : Prop where
  dvd : a ≠ 0 → align ∣ a
  bounds : a ≠ 0 → max start pageSize ≤ a ∧ a + size ≤ allocEnd mb stop
  region : a ≠ 0 → ∃ m ∈ mb.memory.regions, memblockIsNomap m = false ∧ m.base ≤ a ∧
    a + size ≤ m.base + m.size
  free : a ≠ 0 → ∀ x, a ≤ x → x < a + size → ¬mb.reserved.Contains x
  reserved : a ≠ 0 → ∀ x, mb'.reserved.Contains x ↔
    mb.reserved.Contains x ∨ a ≤ x ∧ x < a + size
  others : mb' = { mb with reserved := mb'.reserved }
  greatest : a ≠ 0 → ∃ before p after, allocPasses mb nid = before ++ p :: after ∧
    (∀ q ∈ before, ∀ a', ¬Feasible mb size align start stop q a') ∧
    Feasible mb size align start stop p a ∧
    ∀ a', Feasible mb size align start stop p a' → a' ≤ a
  zero : a = 0 → mb' = mb ∧
    ((∀ p ∈ allocPasses mb nid, ∀ a', ¬Feasible mb size align start stop p a') ∨
      mb.reserved.cnt = mb.reserved.max)

theorem mem_nodePasses (hp : p ∈ nodePasses nid flags) :
    (p.1 = nid ∨ p.1 = numaNoNode) ∧ p.2 = flags := by
  rcases mem_cons.mp hp with rfl | hp
  · exact ⟨.inl rfl, rfl⟩
  split_ifs at hp
  · rw [mem_singleton.mp hp]
    exact ⟨.inr rfl, rfl⟩
  · exact absurd hp not_mem_nil

/-- No pass is for `MAX_NUMNODES`, or asks for regions that are not mapped. -/
theorem of_mem_allocPasses (mb : Memblock) (nid : ℤ)
    (hp : p ∈ allocPasses mb nid) : anyNode p.1 = p.1 ∧ p.2 &&& memblockNomap = 0 := by
  have hnode : anyNode (anyNode nid) = anyNode nid := by
    by_cases hmax : nid = maxNumnodes
    · rw [show anyNode nid = numaNoNode from if_pos hmax]
      rfl
    · rw [show anyNode nid = nid from if_neg hmax]
      exact if_neg hmax
  have hchoose : chooseMemblockFlags mb = memblockMirror ∨ chooseMemblockFlags mb = 0 := by
    unfold chooseMemblockFlags
    split_ifs
    exacts [.inl rfl, .inr rfl]
  have hpass : ∀ {flags}, flags &&& memblockNomap = 0 → p ∈ nodePasses (anyNode nid) flags →
      anyNode p.1 = p.1 ∧ p.2 &&& memblockNomap = 0 := by
    intro flags hflags hp
    obtain ⟨hnid, rfl⟩ := mem_nodePasses hp
    rcases hnid with hnid | hnid
    · exact ⟨by rw [hnid, hnode], hflags⟩
    · exact ⟨by rw [hnid]; rfl, hflags⟩
  rcases mem_append.mp hp with hp | hp
  · refine hpass ?_ hp
    rcases hchoose with h | h <;> rw [h] <;> decide
  split_ifs at hp
  · refine hpass ?_ hp
    rcases hchoose with h | h <;> rw [h] <;> decide
  · exact absurd hp not_mem_nil

theorem memblockIsNomap_of_not_skip {m : MemblockRegion} (hflags : flags &&& memblockNomap = 0)
    (h : shouldSkipRegion m nid flags = false) : memblockIsNomap m = false := by
  unfold shouldSkipRegion at h
  split_ifs at h with hnid hmirror hnomap
  exact Bool.eq_false_iff.mpr fun htrue => hnomap ⟨hflags, htrue⟩

/-- An allocation answers as it is to, and leaves arrays the calls can work with. -/
theorem memblockAllocRangeNid_spec (hw : pageSize < 2 ^ w) (h : mb.AllocOk w)
    (hargs : AllocValid w size align start stop) (nid : ℤ) :
    ∃ mb' a, memblockAllocRangeNid w mb size align start stop nid = some (mb', a) ∧
      mb'.AllocOk w ∧ AllocAnswer mb size align start stop nid mb' a := by
  have halign : align ≠ 0 := by
    obtain ⟨k, rfl, -⟩ := hargs.align
    exact (Nat.two_pow_pos k).ne'
  rw [memblockAllocRangeNid_eq halign]
  rcases tryPasses_spec hw h hargs fun p hp => (of_mem_allocPasses mb nid hp).1 with
    ⟨mb', a, before, p, after, hrun, hps, hanswer, hbefore⟩ | ⟨hrun, hnone⟩
  · obtain ⟨m, hm, hskip, hlo, hhi⟩ := hanswer.feasible.block.memory
    have hnomap := (of_mem_allocPasses mb nid (hps ▸ mem_append_right before mem_cons_self)).2
    refine ⟨mb', a, hrun, ⟨⟨?_, hanswer.ok⟩, ?_⟩, {
      dvd := fun _ => hanswer.feasible.dvd
      bounds := fun _ => ⟨hanswer.feasible.start_le, hanswer.feasible.le_stop⟩
      region := fun _ => ⟨m, hm, memblockIsNomap_of_not_skip hnomap hskip, hlo, hhi⟩
      free := fun _ => hanswer.feasible.block.free
      reserved := fun _ => hanswer.reserved
      others := hanswer.others
      greatest := fun _ => ⟨before, p, after, hps, hbefore, hanswer.feasible, hanswer.greatest⟩
      zero := fun hzero => absurd hzero hanswer.ne_zero }⟩
    · rw [hanswer.others]
      exact h.ok.memory
    · rw [hanswer.others]
      exact h.limit
  · exact ⟨mb, 0, hrun, h, {
      dvd := fun hne => absurd rfl hne
      bounds := fun hne => absurd rfl hne
      region := fun hne => absurd rfl hne
      free := fun hne => absurd rfl hne
      reserved := fun hne => absurd rfl hne
      others := rfl
      greatest := fun hne => absurd rfl hne
      zero := fun _ => ⟨rfl, hnone⟩ }⟩

/-! ## Runs -/

/-- A state and the live allocations : of each one, the addresses that have stayed reserved since
it was made. -/
structure Tracked where
  mb : Memblock
  live : List (Set ℕ)

/-- The addresses a call has allocated. -/
def MemblockCall.allocated : MemblockCall → ℤ → List (Set ℕ)
  | .allocRangeNid size _ _ _ _, a =>
    if a = 0 then [] else [{x | a.toNat ≤ x ∧ x < a.toNat + size}]
  | _, _ => []

/-- Make a call and keep track of the allocations. -/
def MemblockCall.track (w : ℕ) (s : Tracked) (c : MemblockCall) : Option (Tracked × ℤ) :=
  (c.run w s.mb).map fun r =>
    (⟨r.1, (c.allocated r.2 ++ s.live).map fun S => S ∩ {x | r.1.reserved.Contains x}⟩, r.2)

/-- The calls from the static initial state. -/
def memblockCallRun (w : ℕ) (calls : List MemblockCall) : Option (Tracked × List ℤ) :=
  runCalls (fun s c => c.track w s) ⟨memblockInit w, []⟩ calls

/-- The arguments are addresses, and allocations are of a positive size and aligned to a power of
two. -/
def MemblockCall.Valid (w : ℕ) : MemblockCall → Prop
  | .edit op => op.Valid w
  | .allocRangeNid size align start stop _ => AllocValid w size align start stop
  | .setCurrentLimit limit => limit < 2 ^ w
  | .setBottomUp _ => True

/-- The live allocations are reserved and disjoint. -/
structure Tracked.Ok (w : ℕ) (s : Tracked) : Prop where
  ok : s.mb.AllocOk w
  disjoint : s.live.Pairwise Disjoint
  reserved : ∀ S ∈ s.live, ∀ x ∈ S, s.mb.reserved.Contains x

variable {r : Option (MemblockType × ℤ)} {q : Memblock × ℤ} {c : MemblockCall} {mb' : Memblock}

theorem onMemory_limit
    (h : mb.onMemory r = some q) : q.1.currentLimit = mb.currentLimit := by
  obtain ⟨_, -, rfl⟩ := Option.map_eq_some_iff.mp h
  rfl

theorem onReserved_limit
    (h : mb.onReserved r = some q) : q.1.currentLimit = mb.currentLimit := by
  obtain ⟨_, -, rfl⟩ := Option.map_eq_some_iff.mp h
  rfl

theorem memblockEnforceMemoryLimit_limit {limit : ℕ}
    (h : memblockEnforceMemoryLimit w mb limit = some mb') :
    mb'.currentLimit = mb.currentLimit := by
  unfold memblockEnforceMemoryLimit at h
  dsimp only at h
  split_ifs at h
  · rw [← Option.some.inj h]
  · rw [← Option.some.inj h]
  · obtain ⟨_, -, h⟩ := Option.bind_eq_some_iff.mp h
    obtain ⟨_, -, rfl⟩ := Option.map_eq_some_iff.mp h
    rfl

theorem memblockCapMemoryRange_limit {base : ℕ}
    (h : memblockCapMemoryRange w mb base size = some mb') :
    mb'.currentLimit = mb.currentLimit := by
  unfold memblockCapMemoryRange at h
  split_ifs at h
  · rw [← Option.some.inj h]
  obtain ⟨⟨memory, ret, startRgn, endRgn⟩, -, h⟩ := Option.bind_eq_some_iff.mp h
  dsimp only at h
  split_ifs at h
  · rw [← Option.some.inj h]
  · obtain ⟨_, -, h⟩ := Option.bind_eq_some_iff.mp h
    obtain ⟨_, -, h⟩ := Option.bind_eq_some_iff.mp h
    obtain ⟨_, -, h⟩ := Option.bind_eq_some_iff.mp h
    obtain ⟨_, -, rfl⟩ := Option.map_eq_some_iff.mp h
    rfl

/-- The calls that edit an array leave `current_limit` alone. -/
theorem MemblockOp.run_limit {o : MemblockOp} {r : Memblock × ℤ} (h : o.run w mb = some r) :
    r.1.currentLimit = mb.currentLimit := by
  cases o
  case reserve | free => exact onReserved_limit h
  case setNode base size array nid =>
    rcases array with _ | _
    exacts [onMemory_limit h, onReserved_limit h]
  case capMemoryRange =>
    obtain ⟨mb', hrun, rfl⟩ := Option.map_eq_some_iff.mp h
    exact memblockCapMemoryRange_limit hrun
  case enforceMemoryLimit =>
    obtain ⟨mb', hrun, rfl⟩ := Option.map_eq_some_iff.mp h
    exact memblockEnforceMemoryLimit_limit hrun
  case markMirror =>
    exact (onMemory_limit h : _ = Memblock.currentLimit { mb with systemHasSomeMirror := true })
  all_goals exact onMemory_limit h

/-- A call never goes wrong. What it allocates was not reserved before. -/
theorem MemblockCall.run_spec (hw : pageSize < 2 ^ w) (h : mb.AllocOk w)
    (hc : c.Valid w) :
    ∃ r, c.run w mb = some r ∧ r.1.AllocOk w ∧
      ((c.allocated r.2 = []) ∨ ∃ S, c.allocated r.2 = [S] ∧ ∀ x ∈ S, ¬mb.reserved.Contains x) := by
  rcases c with op | ⟨size, align, start, stop, nid⟩ | limit | enable
  · obtain ⟨r, hrun, hok⟩ := MemblockOp.run_ok h.ok hc
    exact ⟨r, hrun, ⟨hok, (MemblockOp.run_limit hrun).trans_lt h.limit⟩, .inl rfl⟩
  · obtain ⟨mb', a, hrun, hok, hanswer⟩ := memblockAllocRangeNid_spec hw h hc nid
    refine ⟨(mb', a), by rw [run, hrun]; rfl, hok, ?_⟩
    by_cases hzero : a = 0
    · exact .inl (if_pos (congrArg Nat.cast hzero))
    · exact .inr ⟨_, if_neg fun h => hzero (Int.natCast_eq_zero.mp h),
        fun x hx => hanswer.free hzero x hx.1 hx.2⟩
  · exact ⟨_, rfl, ⟨⟨h.ok.memory, h.ok.reserved⟩, hc⟩, .inl rfl⟩
  · exact ⟨_, rfl, ⟨⟨h.ok.memory, h.ok.reserved⟩, h.limit⟩, .inl rfl⟩

/-- Every call keeps the live allocations disjoint. -/
theorem MemblockCall.track_ok (hw : pageSize < 2 ^ w) {s : Tracked} (h : s.Ok w)
    (hc : c.Valid w) : ∃ r, c.track w s = some r ∧ r.1.Ok w := by
  obtain ⟨⟨mb', ret⟩, hrun, hok, hallocated⟩ := run_spec hw h.ok hc
  refine ⟨_, by rw [track, hrun]; rfl, hok, ?_, ?_⟩
  · rw [pairwise_map]
    -- Cutting down sets keeps them disjoint.
    refine List.Pairwise.imp (R := Disjoint) (fun hST => hST.mono Set.inter_subset_left
      Set.inter_subset_left) ?_
    rcases hallocated with hnil | ⟨S, hS, hfresh⟩
    · rw [hnil]
      exact h.disjoint
    · rw [hS]
      refine pairwise_cons.mpr ⟨fun T hT => ?_, h.disjoint⟩
      exact Set.disjoint_left.mpr fun x hx hx' => hfresh x hx (h.reserved T hT x hx')
  · intro S hS x hx
    obtain ⟨T, -, rfl⟩ := mem_map.mp hS
    exact hx.2

/-- Along every run no call goes wrong and the live allocations are disjoint, and in the state a
run reaches an allocation answers as it is to : a block inside the bounds and inside one mapped
region, disjoint from everything reserved, at the greatest feasible address of the first pass that
has one, and `0` only where no pass has one or the array is full. -/
theorem memblockCallRun_alloc (hw : pageSize < 2 ^ w) {calls : List MemblockCall}
    (hcalls : ∀ c ∈ calls, c.Valid w) {align : ℕ} (hargs : AllocValid w size align start stop)
    (nid : ℤ) :
    ∃ s answers mb' a, memblockCallRun w calls = some (s, answers) ∧ s.live.Pairwise Disjoint ∧
      memblockAllocRangeNid w s.mb size align start stop nid = some (mb', a) ∧
      AllocAnswer s.mb size align start stop nid mb' a := by
  have hinit : Tracked.Ok w ⟨memblockInit w, []⟩ :=
    ⟨⟨⟨ok_memblockTypeInit w, ok_memblockTypeInit w⟩, Nat.sub_lt (Nat.two_pow_pos w) Nat.one_pos⟩,
      .nil, fun _ hS => absurd hS not_mem_nil⟩
  obtain ⟨⟨s, answers⟩, hrun, hok⟩ := runCalls_invariant (Tracked.Ok w)
    (fun _ c => MemblockCall.Valid w c) (fun _ _ h hc => track_ok hw h hc) hinit
    (callsMeet_of_forall hcalls)
  obtain ⟨mb', a, halloc, -, hanswer⟩ := memblockAllocRangeNid_spec hw hok.ok hargs nid
  exact ⟨s, answers, mb', a, hrun, hok.disjoint, halloc, hanswer⟩

/-- Two regions, one of them not mapped, two allocations, of which the first is freed, and a third
one. -/
theorem memblockCallRun_alloc_reuse :
    let calls : List MemblockCall := [.edit (.add 0 (2 ^ 20)), .edit (.markNomap (2 ^ 19) (2 ^ 19)),
      .allocRangeNid 4096 4096 0 0 numaNoNode, .allocRangeNid 100 64 0 0 2,
      .edit (.free (2 ^ 19 - 4096) 4096)]
    pageSize < 2 ^ 32 ∧ (∀ c ∈ calls, c.Valid 32) ∧ AllocValid 32 4096 4096 0 0 ∧
      (memblockCallRun 32 calls).map Prod.snd = some [0, 0, 2 ^ 19 - 4096, 2 ^ 19 - 4096 - 128, 0] ∧
      ∃ s answers mb' a, memblockCallRun 32 calls = some (s, answers) ∧ s.live.Pairwise Disjoint ∧
        memblockAllocRangeNid 32 s.mb 4096 4096 0 0 numaNoNode = some (mb', a) ∧
        AllocAnswer s.mb 4096 4096 0 0 numaNoNode mb' a := by
  have hargs : AllocValid 32 4096 4096 0 0 :=
    ⟨by decide, ⟨12, by decide, by decide⟩, by decide, by decide⟩
  have hcalls : ∀ c ∈ [edit (.add 0 (2 ^ 20)), .edit (.markNomap (2 ^ 19) (2 ^ 19)),
      .allocRangeNid 4096 4096 0 0 numaNoNode, .allocRangeNid 100 64 0 0 2,
      .edit (.free (2 ^ 19 - 4096) 4096)], c.Valid 32 := by
    simp only [forall_mem_cons, MemblockCall.Valid, MemblockOp.Valid]
    exact ⟨by decide, by decide, hargs, ⟨by decide, ⟨6, by decide, by decide⟩, by decide,
      by decide⟩, by decide, fun _ hc => absurd hc not_mem_nil⟩
  exact ⟨by decide, hcalls, hargs, by decide +kernel,
    memblockCallRun_alloc (by decide) hcalls hargs numaNoNode⟩

end

end LinuxKernelTest
