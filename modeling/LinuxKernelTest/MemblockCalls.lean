import LinuxKernelTest.MemblockIsolate
import LinuxKernelTest.Machine

/-!
# Memblock : the calls refine an address map

The array of regions stands for a partial map from addresses to a node and flags
(`MemblockType.addrMap`). Each call that edits an array does one thing to its map
(`MemblockOp.edit`) : it adds a range, erases a range, or changes the attributes in a range.

`memblockRun_repInv` is the representation invariant of the arrays (`MemblockType.RepInv`). That
a run has a result at all says that no `BUG_ON` is reached.
-/

namespace LinuxKernelTest

open List Seg MemblockType MemblockOp

/-! ## The map of an array -/

/-- A partial map from addresses to a node and flags. -/
abbrev AddrMap := ℕ → Option MemblockAttr

/-- The map an array stands for. -/
def MemblockType.addrMap (t : MemblockType) : AddrMap := lookup (t.regions.map seg)

/-- The array of a name. -/
def Memblock.array (mb : Memblock) : MemblockArray → MemblockType
  | .memory => mb.memory
  | .reserved => mb.reserved

/-- Give the attribute `x` to the addresses of `[b, e)` that have none. -/
def AddrMap.add (x : MemblockAttr) (b e : ℕ) (m : AddrMap) : AddrMap := fun a =>
  (m a).or (if b ≤ a ∧ a < e then some x else none)

/-- Erase `[b, e)`. -/
def AddrMap.erase (b e : ℕ) (m : AddrMap) : AddrMap := fun a =>
  if b ≤ a ∧ a < e then none else m a

/-- Change the attributes in `[b, e)`. -/
def AddrMap.change (g : MemblockAttr → MemblockAttr) (b e : ℕ) (m : AddrMap) : AddrMap := fun a =>
  if b ≤ a ∧ a < e then (m a).map g else m a

/-- The array a call edits and what the call is to do to its map. `memblock_cap_memory_range` and
`memblock_enforce_memory_limit` edit both arrays and are not among these calls. -/
def MemblockOp.edit (w : ℕ) : MemblockOp → Option (MemblockArray × (AddrMap → AddrMap))
  | .add base size => some (.memory, AddrMap.add (maxNumnodes, 0) base (capEnd w base size))
  | .addNode base size nid => some (.memory, AddrMap.add (nid, 0) base (capEnd w base size))
  | .remove base size => some (.memory, AddrMap.erase base (capEnd w base size))
  | .reserve base size => some (.reserved, AddrMap.add (maxNumnodes, 0) base (capEnd w base size))
  | .free base size => some (.reserved, AddrMap.erase base (capEnd w base size))
  | .markHotplug base size =>
    some (.memory, AddrMap.change (fun x => (x.1, x.2 ||| memblockHotplug)) base
      (capEnd w base size))
  | .clearHotplug base size =>
    some (.memory, AddrMap.change (fun x => (x.1, x.2 &&& ~~~memblockHotplug)) base
      (capEnd w base size))
  | .markMirror base size =>
    some (.memory, AddrMap.change (fun x => (x.1, x.2 ||| memblockMirror)) base
      (capEnd w base size))
  | .markNomap base size =>
    some (.memory, AddrMap.change (fun x => (x.1, x.2 ||| memblockNomap)) base
      (capEnd w base size))
  | .clearNomap base size =>
    some (.memory, AddrMap.change (fun x => (x.1, x.2 &&& ~~~memblockNomap)) base
      (capEnd w base size))
  | .setNode base size array nid =>
    some (array, AddrMap.change (fun x => (nid, x.2)) base (capEnd w base size))
  | .capMemoryRange _ _ => none
  | .enforceMemoryLimit _ => none

/-- The arguments are addresses of `w` bits. -/
def MemblockOp.Valid (w : ℕ) : MemblockOp → Prop
  | .add base size | .addNode base size _ | .remove base size | .reserve base size
  | .free base size | .markHotplug base size | .clearHotplug base size | .markMirror base size
  | .markNomap base size | .clearNomap base size | .setNode base size _ _
  | .capMemoryRange base size => base < 2 ^ w ∧ size < 2 ^ w
  | .enforceMemoryLimit limit => limit < 2 ^ w

section

variable {w n : ℕ} {t t' : MemblockType} {mb : Memblock} {l : List (Seg MemblockAttr)}
  {r : Option (MemblockType × ℤ)} {f : AddrMap → AddrMap} {o : MemblockOp} {base : ℕ}
  {ops : List MemblockOp}

theorem MemblockType.Holds.addrMap (h : t.Holds w n l) : t.addrMap = lookup l := by
  by_cases hl : l = []
  · obtain ⟨nid, hregions⟩ := h.dummy hl
    rw [hl, MemblockType.addrMap, hregions]
    funext a
    exact if_neg fun ha => absurd ha.2 (Nat.not_lt_zero a)
  · rw [MemblockType.addrMap, h.regions hl]

/-- An array the calls can work with. -/
def MemblockType.Ok (w : ℕ) (t : MemblockType) : Prop :=
  ∃ l, t.Holds w initMemblockRegions l

theorem ok_memblockTypeInit (w : ℕ) : memblockTypeInit.Ok w :=
  ⟨[], fun h => absurd rfl h, fun _ => ⟨0, rfl⟩, Nat.zero_le _, rfl, rfl, Nat.zero_le _, le_rfl,
    by decide⟩

/-! ## Single calls -/

/-- What a call that edits the array `t` by `f` may answer. -/
def Edits (w : ℕ) (t : MemblockType) (f : AddrMap → AddrMap) (r : Option (MemblockType × ℤ)) :
    Prop :=
  ∃ t' ret, r = some (t', ret) ∧ t'.Ok w ∧
    (ret = 0 ∧ t'.addrMap = f t.addrMap ∨ ret = -enomem ∧ t' = t)

/-- What a call on a representation does, in terms of the maps. -/
theorem MemblockType.Holds.edits {ret : ℤ} (hl : t.Holds w initMemblockRegions l)
    (hrun : r = some (t', ret))
    (h : ret = 0 ∧ (∃ l', t'.Holds w initMemblockRegions l' ∧
      ∀ a, lookup l' a = f (lookup l) a) ∨ ret = -enomem ∧ t' = t) : Edits w t f r := by
  rcases h with ⟨rfl, l', hl', hlookup⟩ | ⟨rfl, rfl⟩
  · refine ⟨t', 0, hrun, ⟨l', hl'⟩, .inl ⟨rfl, ?_⟩⟩
    rw [hl'.addrMap, hl.addrMap]
    exact funext hlookup
  · exact ⟨t', -enomem, hrun, ⟨l, hl⟩, .inr ⟨rfl, rfl⟩⟩

theorem memblockAddRange_edits (h : t.Ok w) (hbase : base < 2 ^ w) (size : ℕ) (nid : ℤ)
    (flags : MemblockFlags) : Edits w t (AddrMap.add (nid, flags) base (capEnd w base size))
      (memblockAddRange w t base size nid flags) := by
  obtain ⟨l, hl⟩ := h
  obtain ⟨t', ret, hrun, hcase⟩ := memblockAddRange_spec hl hbase size nid flags
  exact hl.edits hrun (hcase.imp (And.imp_right And.right) (And.imp_right And.right))

theorem memblockRemoveRange_edits (h : t.Ok w) (hbase : base < 2 ^ w) (size : ℕ) :
    Edits w t (AddrMap.erase base (capEnd w base size)) (memblockRemoveRange w t base size) := by
  obtain ⟨l, hl⟩ := h
  obtain ⟨t', ret, hrun, hcase⟩ := memblockRemoveRange_spec hl hbase size
  refine hl.edits hrun (hcase.imp (And.imp_right ?_) (And.imp_right And.right))
  exact fun ⟨l', hl', _, _, hlookup⟩ => ⟨l', hl', hlookup⟩

theorem changeRange_edits {f : MemblockRegion → MemblockRegion} {g : MemblockAttr → MemblockAttr}
    (hf : ∀ r, seg (f r) = (seg r).mapAttr g) (h : t.Ok w) (hbase : base < 2 ^ w) (size : ℕ) :
    Edits w t (AddrMap.change g base (capEnd w base size)) (changeRange w f t base size) := by
  obtain ⟨l, hl⟩ := h
  obtain ⟨t', ret, hrun, hcase⟩ := changeRange_spec hf hl hbase size
  exact hl.edits hrun hcase

/-- Both arrays are ones the calls can work with. -/
structure Memblock.Ok (w : ℕ) (mb : Memblock) : Prop where
  memory : mb.memory.Ok w
  reserved : mb.reserved.Ok w

/-- What a call that edits one array of `mb` by `f` may answer. -/
def CallEdits (w : ℕ) (mb : Memblock) (array : MemblockArray) (f : AddrMap → AddrMap)
    (r : Option (Memblock × ℤ)) : Prop :=
  ∃ mb' ret, r = some (mb', ret) ∧ mb'.Ok w ∧
    (ret = 0 ∧ (mb'.array array).addrMap = f (mb.array array).addrMap ∧
        (∀ other, other ≠ array → mb'.array other = mb.array other) ∨
      ret = -enomem ∧ mb'.memory = mb.memory ∧ mb'.reserved = mb.reserved)

theorem Edits.onMemory (h : Edits w mb.memory f r) (hmb : mb.Ok w) :
    CallEdits w mb .memory f (mb.onMemory r) := by
  obtain ⟨t', ret, rfl, hok, hcase⟩ := h
  refine ⟨{ mb with memory := t' }, ret, rfl, ⟨hok, hmb.reserved⟩, ?_⟩
  rcases hcase with ⟨hret, hmap⟩ | ⟨hret, rfl⟩
  · refine .inl ⟨hret, hmap, fun other hother => ?_⟩
    rcases other with _ | _
    exacts [absurd rfl hother, rfl]
  · exact .inr ⟨hret, rfl, rfl⟩

theorem Edits.onReserved (h : Edits w mb.reserved f r) (hmb : mb.Ok w) :
    CallEdits w mb .reserved f (mb.onReserved r) := by
  obtain ⟨t', ret, rfl, hok, hcase⟩ := h
  refine ⟨{ mb with reserved := t' }, ret, rfl, ⟨hmb.memory, hok⟩, ?_⟩
  rcases hcase with ⟨hret, hmap⟩ | ⟨hret, rfl⟩
  · refine .inl ⟨hret, hmap, fun other hother => ?_⟩
    rcases other with _ | _
    exacts [rfl, absurd rfl hother]
  · exact .inr ⟨hret, rfl, rfl⟩

theorem memblockSetclrFlag_edits (h : mb.Ok w) (hbase : base < 2 ^ w) (size : ℕ)
    (set : Bool) (flag : MemblockFlags) : CallEdits w mb .memory (AddrMap.change
        (fun x => (x.1, if set then x.2 ||| flag else x.2 &&& ~~~flag)) base (capEnd w base size))
      (memblockSetclrFlag w mb base size set flag) :=
  (changeRange_edits (fun _ => rfl) h.memory hbase size).onMemory h

/-- Every call that edits an array does to its map what it is to do. -/
theorem MemblockOp.run_edits (h : mb.Ok w) (ho : o.Valid w) {array : MemblockArray}
    (hedit : o.edit w = some (array, f)) : CallEdits w mb array f (o.run w mb) := by
  cases o
  case capMemoryRange | enforceMemoryLimit => cases hedit
  all_goals obtain ⟨rfl, rfl⟩ := Prod.mk.inj (Option.some.inj hedit)
  case add | addNode => exact (memblockAddRange_edits h.memory ho.1 _ _ _).onMemory h
  case remove => exact (memblockRemoveRange_edits h.memory ho.1 _).onMemory h
  case reserve => exact (memblockAddRange_edits h.reserved ho.1 _ _ _).onReserved h
  case free => exact (memblockRemoveRange_edits h.reserved ho.1 _).onReserved h
  case markHotplug | markNomap => exact memblockSetclrFlag_edits h ho.1 _ true _
  case clearHotplug | clearNomap => exact memblockSetclrFlag_edits h ho.1 _ false _
  case markMirror =>
    -- The flag that is set first does not matter to the arrays.
    have hmirror : Memblock.Ok w { mb with systemHasSomeMirror := true } := ⟨h.memory, h.reserved⟩
    exact memblockSetclrFlag_edits hmirror ho.1 _ true _
  case setNode base size array nid =>
    rcases array with _ | _
    · exact (changeRange_edits (fun _ => rfl) h.memory ho.1 _).onMemory h
    · exact (changeRange_edits (fun _ => rfl) h.reserved ho.1 _).onReserved h

/-! ## The calls that cut both arrays -/

theorem memblockRemoveRange_ok (h : t.Ok w) (hbase : base < 2 ^ w) (size : ℕ) :
    ∃ t' ret, memblockRemoveRange w t base size = some (t', ret) ∧ t'.Ok w := by
  obtain ⟨t', ret, hrun, hok, -⟩ := memblockRemoveRange_edits h hbase size
  exact ⟨t', ret, hrun, hok⟩

/-- Removing the dummy region brings it back. -/
theorem removeDown_dummy (h : t.Holds w n []) :
    ∃ t', removeDown w memblockIsNomap 0 t.cnt t = some t' ∧ t'.Holds w n [] := by
  obtain ⟨nid, hregions⟩ := h.dummy rfl
  have hsub : physSub w t.totalSize 0 = 0 := by
    rw [h.totalSize, total_nil, physSub_of_le le_rfl (Nat.zero_le _)]
  have hremove : memblockRemoveRegion w t 0 =
      some { t with regions := [⟨0, 0, 0, maxNumnodes⟩], totalSize := 0 } := by
    simp [memblockRemoveRegion, hregions, cnt, hsub]
  refine ⟨{ t with regions := [⟨0, 0, 0, maxNumnodes⟩], totalSize := 0 }, ?_, fun h => absurd rfl h,
    fun _ => ⟨maxNumnodes, rfl⟩, h.within, rfl, h.max, h.length_le,
    h.le_max, h.max_lt⟩
  have hcnt : t.cnt = 0 + 1 := by rw [cnt, hregions]; rfl
  have hnomap : memblockIsNomap ⟨0, 0, 0, nid⟩ = false := by simp [memblockIsNomap]
  have hfirst : t.regions[0]? = some ⟨0, 0, 0, nid⟩ := by rw [hregions]; rfl
  rw [hcnt, removeDown, if_neg (Nat.lt_irrefl 0), hfirst, Option.bind_some, hnomap,
    if_neg Bool.false_ne_true, hremove]
  rfl

/-- An address that is not mapped. -/
def isNomap (x : MemblockAttr) : Bool := x.2 &&& memblockNomap ≠ 0

/-- The two loops of `memblock_cap_memory_range` leave what is inside or not mapped. -/
theorem removeDown_outside {A M B : List (Seg MemblockAttr)} (h : t.Holds w n (A ++ M ++ B)) :
    ∃ t1 t2, removeDown w memblockIsNomap (A ++ M).length t.cnt t = some t1 ∧
      removeDown w memblockIsNomap 0 A.length t1 = some t2 ∧
      t2.Holds w n
        (A.filter (fun s => isNomap s.attr) ++ M ++ B.filter fun s => isNomap s.attr) := by
  have hkeep : ∀ r, memblockIsNomap r = isNomap (r.nid, r.flags) := fun _ => rfl
  by_cases hnil : A ++ M ++ B = []
  · obtain ⟨hAM, rfl⟩ := append_eq_nil_iff.mp hnil
    obtain ⟨rfl, rfl⟩ := append_eq_nil_iff.mp hAM
    obtain ⟨t1, ht1, h1⟩ := removeDown_dummy h
    exact ⟨t1, t1, ht1, rfl, h1⟩
  have hcnt : t.cnt = (A ++ M ++ B).length := by
    rw [cnt, ← h.regions hnil, length_map]
  obtain ⟨t1, ht1, h1⟩ := removeDown_spec (A := A ++ M) (M := B) (B := []) isNomap hkeep
    (by rwa [append_nil])
  rw [append_nil, append_assoc] at h1
  obtain ⟨t2, ht2, h2⟩ := removeDown_spec (A := []) (M := A) isNomap hkeep h1
  exact ⟨t1, t2, by rw [hcnt, ht1], ht2, by simpa using h2⟩

theorem memblockCapMemoryRange_ok (h : mb.Ok w) (hbase : base < 2 ^ w) (size : ℕ) :
    ∃ mb', memblockCapMemoryRange w mb base size = some mb' ∧ mb'.Ok w := by
  by_cases hsize : size = 0
  · exact ⟨mb, if_pos hsize, h⟩
  obtain ⟨l, hl⟩ := h.memory
  obtain ⟨t, ret, start, stop, hiso, hcase⟩ := memblockIsolateRange_spec hl hbase size
  rw [memblockCapMemoryRange, if_neg hsize, hiso, Option.bind_some]
  rcases hcase with ⟨rfl, A, M, B, hholds, rfl, rfl, -, -⟩ | ⟨rfl, -, rfl⟩
  · obtain ⟨t1, t2, ht1, ht2, h2⟩ := removeDown_outside hholds
    obtain ⟨t3, ret, ht3, h3⟩ := memblockRemoveRange_ok h.reserved (Nat.two_pow_pos w) base
    obtain ⟨t4, ret', ht4, h4⟩ := memblockRemoveRange_ok h3
      (Nat.mod_lt (base + size) (Nat.two_pow_pos w)) (physAddrMax w)
    refine ⟨{ mb with memory := t2, reserved := t4 }, ?_, ⟨_, h2⟩, h4⟩
    simp only [ne_eq, not_true_eq_false, if_false, ht1, ht2, ht3, Option.bind_some]
    rw [physAdd, ht4]
    rfl
  · exact ⟨{ mb with memory := mb.memory }, rfl, ⟨l, hl⟩, h.reserved⟩

/-- What `memblock_cap_memory_range` is to leave of `memory` : `[b, e)` and what is not mapped. -/
def AddrMap.cap (b e : ℕ) (m : AddrMap) : AddrMap := fun a =>
  if b ≤ a ∧ a < e then m a else (m a).filter isNomap

/-- What it is to leave of `reserved` : `[b, e)`. -/
def AddrMap.restrict (b e : ℕ) (m : AddrMap) : AddrMap := fun a =>
  if b ≤ a ∧ a < e then m a else none

theorem cnt_of_holds (h : t.Holds w n l) : t.cnt = max 1 l.length := by
  by_cases hl : l = []
  · obtain ⟨nid, hregions⟩ := h.dummy hl
    rw [hl, cnt, hregions]
    rfl
  · have := length_pos_of_ne_nil hl
    rw [cnt, ← length_map seg, h.regions hl]
    omega

theorem MemblockType.Holds.addrMap_of_le (h : t.Holds w n l) {a : ℕ} (ha : physAddrMax w ≤ a) :
    t.addrMap a = none := by
  rw [h.addrMap, h.within.lookup_of_le ha]

theorem MemblockType.Holds.restrict (h : t.Holds w n l) :
    AddrMap.restrict 0 (physAddrMax w) t.addrMap = t.addrMap := by
  funext a
  rw [AddrMap.restrict]
  split_ifs with ha
  · rfl
  · rw [h.addrMap_of_le (by omega)]

/-- With room for two more regions, everything from `stop` on can be removed. -/
theorem memblockRemoveRange_above (h : t.Holds w n l) (hroom : t.cnt + 2 ≤ n) {stop : ℕ}
    (hstop : stop < 2 ^ w) :
    ∃ t' l' ret, memblockRemoveRange w t stop (physAddrMax w) = some (t', ret) ∧
      t'.Holds w n l' ∧ t'.addrMap = AddrMap.restrict 0 stop t.addrMap := by
  obtain ⟨t', ret, hrun, ⟨rfl, l', h', -, -, hlookup⟩ | ⟨-, hfull, -⟩⟩ :=
    memblockRemoveRange_spec h hstop (physAddrMax w)
  case inr => omega
  refine ⟨t', l', 0, hrun, h', funext fun a => ?_⟩
  have hnone := h.addrMap_of_le (a := a)
  rw [h'.addrMap, AddrMap.restrict, hlookup, ← h.addrMap, capEnd]
  grind

/-- The two calls that truncate `reserved` erase what is before `base` and what is from `stop`
on. The first one makes no region more, so that there is room for the second one. -/
theorem truncateReserved_spec (h : t.Holds w n l) (hroom : t.cnt + 2 ≤ n) (base : ℕ) {stop : ℕ}
    (hstop : stop < 2 ^ w) :
    ∃ t1 t2 ret ret', memblockRemoveRange w t 0 base = some (t1, ret) ∧
      memblockRemoveRange w t1 stop (physAddrMax w) = some (t2, ret') ∧
      ∀ a, t2.addrMap a = if base ≤ a ∧ a < stop then t.addrMap a else none := by
  obtain ⟨t1, ret, ht1, ⟨rfl, l1, h1, -, hlen, hlookup⟩ | ⟨-, hfull, -⟩⟩ :=
    memblockRemoveRange_spec h (Nat.two_pow_pos w) base
  case inr => omega
  have hcnt := cnt_of_holds h
  have hcnt1 := cnt_of_holds h1
  have := hlen rfl
  obtain ⟨t2, -, ret', ht2, -, hmap⟩ := memblockRemoveRange_above h1 (by omega) hstop
  refine ⟨t1, t2, 0, ret', ht1, ht2, fun a => ?_⟩
  have hnone := h.addrMap_of_le (a := a)
  rw [hmap, AddrMap.restrict, h1.addrMap, hlookup, ← h.addrMap, capEnd]
  grind

theorem coveredBelow_restrict {m : AddrMap} {c d : ℕ} (hcd : c ≤ d) :
    coveredBelow (AddrMap.restrict 0 c m) d = coveredBelow m c := by
  simp only [coveredBelow, Nat.count_eq_card_filter_range]
  congr 1
  ext a
  grind [AddrMap.restrict]

theorem findMaxAddr_of_lt {limit : ℕ} {rs : List MemblockRegion} (h : total (rs.map seg) < limit) :
    findMaxAddr w limit rs = physAddrMax w := by
  induction rs generalizing limit with
  | nil => rfl
  | cons r rs ih =>
    have : r.size + total (rs.map seg) < limit := by rwa [map_cons, total_cons] at h
    rw [findMaxAddr, if_neg (by omega), ih (by omega)]

/-- The walk over the regions ends right behind the last of the `limit` lowest addresses. -/
theorem findMaxAddr_eq {lo limit : ℕ} {rs : List MemblockRegion}
    (h : Within lo (physAddrMax w) (rs.map seg)) (hpos : 0 < limit)
    (hle : limit ≤ total (rs.map seg)) :
    ∃ top, findMaxAddr w limit rs = top + 1 ∧ Seg.lookup (rs.map seg) top ≠ none ∧
      coveredBelow (Seg.lookup (rs.map seg)) (top + 1) = limit := by
  induction rs generalizing lo limit with
  | nil => exact absurd hle (Nat.not_le.mpr hpos)
  | cons r rs ih =>
    have hmax := h.2.2.le
    have hcovered := h.coveredBelow_cons
    have hbase : (seg r).base = r.base := rfl
    have hsize : (seg r).size = r.size := rfl
    have hstop := seg_stop r
    rw [map_cons, total_cons] at hle
    by_cases hfit : limit ≤ r.size
    case neg =>
      obtain ⟨top, htop, hlookup, hcount⟩ := ih h.2.2 (show 0 < limit - r.size by omega) (by omega)
      have hge : (seg r).stop ≤ top := Nat.le_of_not_lt fun hlt => hlookup (h.2.2.lookup_of_lt hlt)
      refine ⟨top, by rw [findMaxAddr, if_neg hfit, htop], ?_, ?_⟩
      · rwa [map_cons, Seg.lookup_cons, if_neg (by omega)]
      · rw [map_cons, hcovered, hcount]
        omega
    refine ⟨r.base + limit - 1, ?_, ?_, ?_⟩
    · rw [findMaxAddr, if_pos hfit, physAdd,
        Nat.mod_eq_of_lt (by unfold physAddrMax at hmax; omega)]
      omega
    · rw [map_cons, Seg.lookup_cons, if_pos (by omega)]
      exact Option.some_ne_none _
    · have hnone : coveredBelow (Seg.lookup (rs.map seg)) (r.base + limit - 1 + 1) = 0 :=
        Nat.count_of_forall_not fun a ha => by
          have hlt : a < (seg r).stop := by omega
          simp [h.2.2.lookup_of_lt hlt]
      rw [map_cons, hcovered, hnone]
      omega

section

variable {n' : ℕ} {l' : List (Seg MemblockAttr)} (hm : mb.memory.Holds w n l)
  (hr : mb.reserved.Holds w n' l') (hroom : mb.memory.cnt + 2 ≤ n)
  (hroom' : mb.reserved.cnt + 2 ≤ n')

include hm hr hroom hroom'

/-- With room for two more regions in both arrays, `memblock_cap_memory_range` leaves of `memory`
what it is to leave. The end of the range is not capped before `reserved` is truncated : if it
wraps, nothing is left of `reserved`, and that is right only if nothing is reserved from `base`
on. -/
theorem memblockCapMemoryRange_exact_iff {size : ℕ} (hbase : base < 2 ^ w) (hsize : size < 2 ^ w)
    (hpos : 0 < size) :
    ∃ mb', memblockCapMemoryRange w mb base size = some mb' ∧
      mb'.memory.addrMap = AddrMap.cap base (capEnd w base size) mb.memory.addrMap ∧
      (mb'.reserved.addrMap = AddrMap.restrict base (capEnd w base size) mb.reserved.addrMap ↔
        base + size < 2 ^ w ∨ ∀ a, base ≤ a → mb.reserved.addrMap a = none) := by
  have hmax : physAddrMax w = 2 ^ w - 1 := rfl
  obtain ⟨t, ret, start, stop, hiso,
      ⟨rfl, A, M, B, hholds, rfl, rfl, -, hisolated⟩ | ⟨-, hfull, -⟩⟩ :=
    memblockIsolateRange_spec hm hbase size
  case inr => omega
  obtain ⟨t1, t2, ht1, ht2, h2⟩ := removeDown_outside hholds
  obtain ⟨t3, t4, ret, ret', ht3, ht4, hreserved⟩ := truncateReserved_spec hr hroom' base
    (Nat.mod_lt (base + size) (Nat.two_pow_pos w))
  refine ⟨{ mb with memory := t2, reserved := t4 }, ?_, ?_, ?_⟩
  · rw [memblockCapMemoryRange, if_neg hpos.ne', hiso, Option.bind_some]
    simp only [ne_eq, not_true_eq_false, if_false, ht1, ht2, ht3, Option.bind_some]
    rw [physAdd, ht4]
    rfl
  · funext a
    rw [AddrMap.cap, hm.addrMap, h2.addrMap]
    exact hisolated.lookup_filter hholds.within isNomap a
  by_cases hwrap : base + size < 2 ^ w
  · refine iff_of_true (funext fun a => ?_) (.inl hwrap)
    rw [hreserved, AddrMap.restrict, capEnd_of_le (by omega), Nat.mod_eq_of_lt hwrap]
  -- The sum is smaller than `base`, and both ranges together are everything.
  have hend : capEnd w base size = physAddrMax w := by
    unfold capEnd
    omega
  have hstop : (base + size) % 2 ^ w < base := by
    rw [Nat.mod_eq_sub_mod (by omega), Nat.mod_eq_of_lt (by omega)]
    omega
  have hempty : ∀ a, t4.addrMap a = none := fun a => by rw [hreserved, if_neg (by omega)]
  rw [hend, or_iff_right hwrap]
  refine ⟨fun heq a ha => ?_, fun hfree => funext fun a => ?_⟩
  · by_cases hlt : a < physAddrMax w
    · have := congrFun heq a
      rwa [hempty, AddrMap.restrict, if_pos ⟨ha, hlt⟩, eq_comm] at this
    · exact hr.addrMap_of_le (Nat.le_of_not_lt hlt)
  · rw [hempty, AddrMap.restrict]
    split_ifs with ha
    exacts [(hfree a ha.1).symm, rfl]

/-- A limit that is not `0` and not above the size of `memory` leaves the `limit` lowest addresses
of it, and what is reserved up to the last one of them. -/
theorem memblockEnforceMemoryLimit_exact (limit : ℕ) :
    ∃ mb', memblockEnforceMemoryLimit w mb limit = some mb' ∧
      (limit = 0 ∨ mb.memory.totalSize < limit → mb' = mb) ∧
      (0 < limit → limit ≤ mb.memory.totalSize → mb'.memory.totalSize = limit ∧
        ∃ top, mb.memory.addrMap top ≠ none ∧ coveredBelow mb.memory.addrMap (top + 1) = limit ∧
          mb'.memory.addrMap = AddrMap.restrict 0 (top + 1) mb.memory.addrMap ∧
          mb'.reserved.addrMap = AddrMap.restrict 0 (top + 1) mb.reserved.addrMap) := by
  rw [hm.totalSize, hm.addrMap, memblockEnforceMemoryLimit]
  by_cases hlimit : limit = 0
  · exact ⟨mb, if_pos hlimit, fun _ => rfl, fun hpos => absurd hlimit hpos.ne'⟩
  rw [if_neg hlimit]
  rcases eq_or_ne l [] with rfl | hl
  · obtain ⟨nid, hregions⟩ := hm.dummy rfl
    refine ⟨mb, if_pos ?_, fun _ => rfl, fun hpos hle => absurd hpos (Nat.not_lt.mpr hle)⟩
    rw [hregions, findMaxAddr, if_neg (mt Nat.le_zero.mp hlimit), findMaxAddr]
  obtain rfl := hm.regions hl
  by_cases hle : total (mb.memory.regions.map seg) < limit
  · exact ⟨mb, if_pos (findMaxAddr_of_lt hle), fun _ => rfl,
      fun _ hle' => absurd hle (Nat.not_lt.mpr hle')⟩
  obtain ⟨top, hmax, htop, hcount⟩ :=
    findMaxAddr_eq hm.within (Nat.pos_of_ne_zero hlimit) (Nat.le_of_not_lt hle)
  have hlt : top + 1 ≤ physAddrMax w :=
    Nat.lt_of_not_le fun hge => htop (hm.within.lookup_of_le hge)
  have hpow : top + 1 < 2 ^ w := hlt.trans_lt (Nat.sub_lt (Nat.two_pow_pos w) Nat.one_pos)
  obtain ⟨t1, l1, ret, ht1, h1, hmap⟩ := memblockRemoveRange_above hm hroom hpow
  obtain ⟨t2, -, ret', ht2, -, hmap'⟩ := memblockRemoveRange_above hr hroom' hpow
  rw [hmax]
  by_cases hend : top + 1 = physAddrMax w
  · -- The cut is the marker of a walk that ends nowhere, and there is nothing to cut off.
    refine ⟨mb, if_pos hend, fun _ => rfl, fun _ _ => ⟨?_, top, htop, hcount, ?_, ?_⟩⟩
    · rw [hm.totalSize, hm.within.total_eq, ← hend, hcount]
    · rw [← hm.addrMap, hend, hm.restrict]
    · rw [hend, hr.restrict]
  · refine ⟨{ mb with memory := t1, reserved := t2 }, by simp [hend, ht1, ht2],
      fun h => absurd h (not_or.mpr ⟨hlimit, hle⟩),
      fun _ _ => ⟨?_, top, htop, hcount, by rw [← hm.addrMap, hmap], hmap'⟩⟩
    rw [h1.totalSize, h1.within.total_eq, ← h1.addrMap, hmap, coveredBelow_restrict hlt, hm.addrMap,
      hcount]

end

/-- Memory below 64 KiB, and a page that is reserved. -/
def memblockPage : Memblock where
  bottomUp := false
  currentLimit := physAddrMax 64
  memory := ⟨128, 65536, [⟨0, 65536, 0, 0⟩]⟩
  reserved := ⟨128, 4096, [⟨4096, 4096, 0, 0⟩]⟩
  systemHasSomeMirror := false

theorem memblockPage_memory : memblockPage.memory.Holds 64 128 [⟨0, 65536, (0, 0)⟩] :=
  ⟨fun _ => rfl, by simp, ⟨le_rfl, by decide, show 65536 ≤ 2 ^ 64 - 1 by decide⟩, rfl, rfl,
    by decide, le_rfl, by decide⟩

theorem memblockPage_reserved : memblockPage.reserved.Holds 64 128 [⟨4096, 4096, (0, 0)⟩] :=
  ⟨fun _ => rfl, by simp, ⟨by decide, by decide, show 8192 ≤ 2 ^ 64 - 1 by decide⟩, rfl, rfl,
    by decide, le_rfl, by decide⟩

theorem memblockCapMemoryRange_exact_page :
    ∃ mb', memblockCapMemoryRange 64 memblockPage 4096 8192 = some mb' ∧
      mb'.memory.addrMap = AddrMap.cap 4096 12288 memblockPage.memory.addrMap ∧
      mb'.reserved.addrMap = AddrMap.restrict 4096 12288 memblockPage.reserved.addrMap := by
  obtain ⟨mb', hrun, hmemory, hreserved⟩ := memblockCapMemoryRange_exact_iff memblockPage_memory
    memblockPage_reserved (by decide) (by decide) (show 4096 < 2 ^ 64 by decide)
    (show 8192 < 2 ^ 64 by decide) (by decide)
  exact ⟨mb', hrun, hmemory, hreserved.mpr (.inl (by decide))⟩

/-- The page is inside the range, which is to go up to the end, and is no longer reserved. -/
theorem memblockCapMemoryRange_wraps :
    (memblockCapMemoryRange 64 memblockPage 4096 (2 ^ 64 - 1)).map (fun mb => mb.reserved.regions) =
        some [⟨0, 0, 0, maxNumnodes⟩] ∧
      AddrMap.restrict 4096 (capEnd 64 4096 (2 ^ 64 - 1)) memblockPage.reserved.addrMap 4096 =
        some (0, 0) := by
  decide +kernel

theorem memblockEnforceMemoryLimit_exact_page :
    ∃ mb', memblockEnforceMemoryLimit 64 memblockPage 6000 = some mb' ∧
      mb'.memory.totalSize = 6000 := by
  obtain ⟨mb', hrun, -, hcut⟩ := memblockEnforceMemoryLimit_exact memblockPage_memory
    memblockPage_reserved (by decide) (by decide) 6000
  exact ⟨mb', hrun, (hcut (by decide) (by decide)).1⟩

theorem findMaxAddr_lt (w limit : ℕ) (l : List MemblockRegion) : findMaxAddr w limit l < 2 ^ w := by
  induction l generalizing limit with
  | nil => exact Nat.sub_lt (Nat.two_pow_pos w) Nat.one_pos
  | cons r l ih =>
    rw [findMaxAddr]
    split_ifs
    · exact Nat.mod_lt _ (Nat.two_pow_pos w)
    · exact ih _

theorem memblockEnforceMemoryLimit_ok (h : mb.Ok w) (limit : ℕ) :
    ∃ mb', memblockEnforceMemoryLimit w mb limit = some mb' ∧ mb'.Ok w := by
  by_cases hlimit : limit = 0
  · exact ⟨mb, if_pos hlimit, h⟩
  have hlt := findMaxAddr_lt w limit mb.memory.regions
  obtain ⟨t1, ret, ht1, h1⟩ := memblockRemoveRange_ok h.memory hlt (physAddrMax w)
  obtain ⟨t2, ret', ht2, h2⟩ := memblockRemoveRange_ok h.reserved hlt (physAddrMax w)
  rw [memblockEnforceMemoryLimit, if_neg hlimit]
  by_cases hmax : findMaxAddr w limit mb.memory.regions = physAddrMax w
  · exact ⟨mb, if_pos hmax, h⟩
  · exact ⟨{ mb with memory := t1, reserved := t2 }, by simp [hmax, ht1, ht2], h1, h2⟩

/-! ## Runs -/

/-- The calls `ops` from the static initial state. -/
def memblockRun (w : ℕ) (ops : List MemblockOp) : Option (Memblock × List ℤ) :=
  runCalls (fun mb o => o.run w mb) (memblockInit w) ops

/-- Every call succeeds, or fails, without reaching a `BUG_ON`, and leaves arrays the calls can
work with. -/
theorem MemblockOp.run_ok (h : mb.Ok w) (ho : o.Valid w) :
    ∃ r, o.run w mb = some r ∧ r.1.Ok w := by
  rcases hedit : o.edit w with _ | ⟨array, f⟩
  · cases o
    case capMemoryRange =>
      obtain ⟨mb', hrun, hok⟩ := memblockCapMemoryRange_ok h ho.1 _
      exact ⟨(mb', 0), by rw [run, hrun]; rfl, hok⟩
    case enforceMemoryLimit =>
      obtain ⟨mb', hrun, hok⟩ := memblockEnforceMemoryLimit_ok h _
      exact ⟨(mb', 0), by rw [run, hrun]; rfl, hok⟩
    all_goals cases hedit
  · obtain ⟨mb', ret, hrun, hok, -⟩ := run_edits h ho hedit
    exact ⟨(mb', ret), hrun, hok⟩

theorem memblockRun_ok (hops : ∀ o ∈ ops, o.Valid w) :
    ∃ mb answers, memblockRun w ops = some (mb, answers) ∧ mb.Ok w := by
  obtain ⟨⟨mb, answers⟩, hrun, hok⟩ := runCalls_invariant (Memblock.Ok w)
    (fun _ o => MemblockOp.Valid w o)
    (fun _ _ h ho => run_ok h ho)
    (show (memblockInit w).Ok w from ⟨ok_memblockTypeInit w, ok_memblockTypeInit w⟩)
    (callsMeet_of_forall hops)
  exact ⟨mb, answers, hrun, hok⟩

/-- In every state a run reaches, a call that edits an array edits its map as it is to and leaves
the other array alone, or it returns `-ENOMEM` and leaves both arrays as they were. -/
theorem memblockRun_edits (hops : ∀ o ∈ ops, o.Valid w) (o : MemblockOp)
    (ho : o.Valid w) (array : MemblockArray) (f : AddrMap → AddrMap)
    (hedit : o.edit w = some (array, f)) :
    ∃ mb answers mb' ret, memblockRun w ops = some (mb, answers) ∧ o.run w mb = some (mb', ret) ∧
      (ret = 0 ∧ (mb'.array array).addrMap = f (mb.array array).addrMap ∧
          (∀ other, other ≠ array → mb'.array other = mb.array other) ∨
        ret = -enomem ∧ mb'.memory = mb.memory ∧ mb'.reserved = mb.reserved) := by
  obtain ⟨mb, answers, hrun, hok⟩ := memblockRun_ok hops
  obtain ⟨mb', ret, hcall, -, hcase⟩ := run_edits hok ho hedit
  exact ⟨mb, answers, mb', ret, hrun, hcall, hcase⟩

/-- Removing the middle of a region that was added with 64-bit addresses. -/
theorem memblockRun_edits_hole :
    ∃ mb answers mb' ret, memblockRun 64 [.add 0 (2 ^ 64 - 1)] = some (mb, answers) ∧
      (MemblockOp.remove 4096 8192).run 64 mb = some (mb', ret) ∧
      (ret = 0 ∧ mb'.memory.addrMap = AddrMap.erase 4096 12288 mb.memory.addrMap ∨
        ret = -enomem ∧ mb'.memory = mb.memory ∧ mb'.reserved = mb.reserved) := by
  have hops : ∀ o ∈ [add 0 (2 ^ 64 - 1)], o.Valid 64 := by
    simp [MemblockOp.Valid]
  obtain ⟨mb, answers, mb', ret, hrun, hcall, hcase⟩ := memblockRun_edits hops (.remove 4096 8192)
    ⟨by omega, by omega⟩ .memory (AddrMap.erase 4096 12288) rfl
  refine ⟨mb, answers, mb', ret, hrun, hcall, ?_⟩
  rcases hcase with ⟨hret, hmap, -⟩ | hfail
  exacts [.inl ⟨hret, hmap⟩, .inr hfail]

/-! ## The representation invariant -/

/-- The representation invariant of an array. The indices of the loops are of type `int`, so an
array has fewer than `2 ^ 31` slots. -/
structure MemblockType.RepInv (w : ℕ) (t : MemblockType) : Prop where
  one_le_cnt : 1 ≤ t.cnt
  cnt_le_max : t.cnt ≤ t.max
  max_lt : t.max < 2 ^ 31
  sorted : t.regions.Pairwise fun r s => r.base < s.base
  disjoint : t.regions.Pairwise fun r s => r.base + r.size ≤ s.base
  size_pos : (∀ r ∈ t.regions, 0 < r.size) ∨ t.cnt = 1 ∧ ∀ r ∈ t.regions, r.base = 0 ∧ r.size = 0
  no_wrap : ∀ r ∈ t.regions, r.base + r.size ≤ physAddrMax w
  totalSize : t.totalSize = (t.regions.map MemblockRegion.size).sum

theorem MemblockType.Holds.repInv (h : t.Holds w n l) (hn : n < 2 ^ 31) : t.RepInv w := by
  have hmax : t.max < 2 ^ 31 := h.max.trans_lt hn
  by_cases hl : l = []
  · obtain ⟨nid, hregions⟩ := h.dummy hl
    have hcnt : t.cnt = 1 := by rw [cnt, hregions]; rfl
    refine ⟨hcnt.ge, ?_, hmax, ?_, ?_, .inr ⟨hcnt, ?_⟩, ?_, ?_⟩
    · have hle := h.le_max
      rw [initMemblockRegions] at hle
      rw [hcnt, h.max]
      omega
    · rw [hregions]
      exact pairwise_singleton _ _
    · rw [hregions]
      exact pairwise_singleton _ _
    · simp [hregions]
    · simp [hregions]
    · rw [h.totalSize, hl, hregions]
      rfl
  · obtain rfl := h.regions hl
    have hpair := pairwise_map.mp h.within.pairwise
    have hbounds := fun r (hr : r ∈ t.regions) => h.within.bounds (mem_map_of_mem (f := seg) hr)
    refine ⟨?_, ?_, hmax, ?_, hpair, .inl fun r hr => (hbounds r hr).2.1,
      fun r hr => (hbounds r hr).2.2, ?_⟩
    · exact length_pos_of_ne_nil fun hnil => hl (by rw [hnil]; rfl)
    · have := h.length_le
      rwa [length_map] at this
    · refine hpair.imp_of_mem fun {r s} hr _ hrs => ?_
      have hsize : 0 < r.size := (hbounds r hr).2.1
      rw [seg_stop] at hrs
      exact lt_of_lt_of_le (by omega) hrs
    · rw [h.totalSize, total, map_map]
      rfl

/-- In every state a run reaches both arrays keep the representation invariant, and the run
reaches no `BUG_ON`. -/
theorem memblockRun_repInv (hops : ∀ o ∈ ops, o.Valid w) :
    ∃ mb answers, memblockRun w ops = some (mb, answers) ∧ mb.memory.RepInv w ∧
      mb.reserved.RepInv w := by
  obtain ⟨mb, answers, hrun, ⟨l, hmemory⟩, l', hreserved⟩ := memblockRun_ok hops
  exact ⟨mb, answers, hrun, hmemory.repInv (by decide), hreserved.repInv (by decide)⟩

/-- The invariant after a run that reaches both ends of the address space. -/
theorem memblockRun_repInv_ends :
    (∀ o ∈ [MemblockOp.add 0 (2 ^ 64 - 1), .reserve (2 ^ 64 - 1) 5,
        .capMemoryRange 16 (2 ^ 64 - 1)],
      o.Valid 64) ∧
    ∃ mb answers, memblockRun 64 [.add 0 (2 ^ 64 - 1), .reserve (2 ^ 64 - 1) 5,
        .capMemoryRange 16 (2 ^ 64 - 1)] = some (mb, answers) ∧ mb.memory.RepInv 64 ∧
      mb.reserved.RepInv 64 := by
  have hops : ∀ o ∈ [add 0 (2 ^ 64 - 1), .reserve (2 ^ 64 - 1) 5,
      .capMemoryRange 16 (2 ^ 64 - 1)], o.Valid 64 := by
    simp [MemblockOp.Valid]
  exact ⟨hops, memblockRun_repInv hops⟩

end

end LinuxKernelTest
