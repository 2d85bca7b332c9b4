import LinuxKernelTest.Memblock
import LinuxKernelTest.Segments

/-!
# Memblock : the loops that edit an array

The regions of an array are segments with the node and the flags as their attribute (`seg`).
`MemblockType.Holds w n t l` says that the array `t` of `n` slots holds the segments `l` : they are
in order below `PHYS_ADDR_MAX`, `total_size` is their size, they fit into the array, and an array
without segments is the dummy region.

The loops walk along the array by index and insert and remove regions as they go. Each is
followed by splitting the array at the index : what is before it is done, what is from it on is
to come. For `memblock_add_range` and `memblock_isolate_range` what is done together with the
edit of what is to come (`fill`, `cut`) stays the same list all along, so the loop ends
with that list (`addPass_spec`, `memblockIsolateRange_spec`).
-/

namespace LinuxKernelTest

open List Option Seg Nat MemblockType

/-! ## Addresses that do not wrap -/

section

variable {w a b : ℕ}

theorem physAdd_of_lt (h : a + b ≤ physAddrMax w) : physAdd w a b = a + b := by
  have := Nat.two_pow_pos w
  exact Nat.mod_eq_of_lt (by unfold physAddrMax at h; omega)

theorem physSub_of_le (h : b ≤ a) (ha : a ≤ physAddrMax w) : physSub w a b = a - b := by
  have := Nat.two_pow_pos w
  unfold physAddrMax at ha
  rw [physSub, show a + 2 ^ w - b = (a - b) + 2 ^ w by omega, add_mod_right]
  exact mod_eq_of_lt (by omega)

theorem memblockCapSize_eq {base : ℕ} (hbase : base < 2 ^ w) (size : ℕ) :
    memblockCapSize w base size = min size (physAddrMax w - base) := by
  rw [memblockCapSize, physSub_of_le (by unfold physAddrMax; omega) le_rfl]

end

/-! ## Regions as segments -/

/-- The node and the flags of a region. -/
abbrev MemblockAttr := ℤ × MemblockFlags

/-- A region as a segment. -/
def seg (r : MemblockRegion) : Seg MemblockAttr := ⟨r.base, r.size, (r.nid, r.flags)⟩

theorem seg_stop (r : MemblockRegion) : (seg r).stop = r.base + r.size := rfl

/-- The array `t` of `n` slots holds the segments `l`. -/
structure MemblockType.Holds (w n : ℕ) (t : MemblockType) (l : List (Seg MemblockAttr)) : Prop where
  regions : l ≠ [] → t.regions.map seg = l
  dummy : l = [] → ∃ nid, t.regions = [⟨0, 0, 0, nid⟩]
  within : Within 0 (physAddrMax w) l
  totalSize : t.totalSize = total l
  max : t.max = n
  length_le : l.length ≤ t.max
  le_max : initMemblockRegions ≤ n
  max_lt : n < 2 ^ 64

section

variable {w i n b stop : ℕ} {α : Type*} {A B : List α} {x y : α} {t : MemblockType}
  {l : List (Seg MemblockAttr)} {r : MemblockRegion}

theorem insertIdx_length_append (A B : List α) (x : α) :
    (A ++ B).insertIdx A.length x = A ++ x :: B := by
  induction A with
  | nil => rfl
  | cons y A ih => simpa using ih

theorem eraseIdx_length_append (A B : List α) (x : α) :
    (A ++ x :: B).eraseIdx A.length = A ++ B := by
  rw [eraseIdx_append_of_length_le le_rfl, Nat.sub_self, eraseIdx_cons_zero]

theorem modify_length_append (A B : List α) (x : α) (f : α → α) :
    (A ++ x :: B).modify A.length f = A ++ f x :: B := by
  induction A with
  | nil => rfl
  | cons y A ih => simpa using ih

theorem memblockFuel_pos : 0 < memblockFuel := Nat.two_pow_pos 80

/-- The array with other regions, and `total_size` as it belongs to them. -/
def MemblockType.withRegions (t : MemblockType) (l : List MemblockRegion) : MemblockType :=
  { t with regions := l, totalSize := total (l.map seg) }

variable {A B : List MemblockRegion} {q : MemblockRegion}

/-- A region is inserted before the rest of the array. -/
theorem memblockInsertRegion_at
    (hregions : t.regions = A ++ B) (htotal : t.totalSize = total (t.regions.map seg))
    (hroom : t.cnt < t.max) (hmax : total ((A ++ q :: B).map seg) ≤ physAddrMax w) :
    memblockInsertRegion w t A.length q.base q.size q.nid q.flags =
      some (t.withRegions (A ++ q :: B)) := by
  have hsum : total ((A ++ q :: B).map seg) = t.totalSize + q.size := by
    rw [htotal, hregions]
    simp only [map_append, map_cons, total_append, total_cons, seg]
    omega
  rw [memblockInsertRegion, if_neg (not_le.mpr hroom), hregions, insertIdx_length_append,
    physAdd_of_lt (hsum ▸ hmax), ← hsum]
  rfl

/-! ## `memblock_merge_regions` -/

/-- What merging keeps. -/
structure Merged (t t' : MemblockType) (l l' : List (Seg MemblockAttr)) : Prop where
  lookup : ∀ a, lookup l' a = lookup l a
  total : total l' = total l
  length_le : l'.length ≤ l.length
  totalSize : t'.totalSize = t.totalSize
  max : t'.max = t.max

/-- Two neighbours that touch become one. -/
theorem Merged.join {t' : MemblockType} {r s : MemblockRegion}
    (h : Merged t t' l ((A ++ r :: s :: B).map seg)) (hstop : r.base + r.size = s.base)
    (hnid : r.nid = s.nid) (hflags : r.flags = s.flags) :
    Merged t { t' with regions := A ++ { r with size := r.size + s.size } :: B } l
      ((A ++ { r with size := r.size + s.size } :: B).map seg) where
  lookup a := by
    rw [← h.lookup a, map_append, map_append]
    exact lookup_join (s := seg r) (t := seg s) hstop (Prod.ext hnid hflags) _ _ a
  total := by
    rw [← h.total]
    simp only [map_append, map_cons, total_append, total_cons, seg]
    omega
  length_le := by
    have := h.length_le
    simp only [length_map, length_append, length_cons] at this ⊢
    omega
  totalSize := h.totalSize
  max := h.max

/-- The state of `memblock_merge_regions` at the region `r` behind `A`. -/
def MergeAt (w : ℕ) (t : MemblockType) (l : List (Seg MemblockAttr)) (v : ℕ)
    (s : ℕ × MemblockType) : Prop :=
  ∃ A r B, s.2.regions = A ++ r :: B ∧ s.1 = A.length ∧ v = B.length ∧
    Within 0 (physAddrMax w) (s.2.regions.map seg) ∧ Merged t s.2 l (s.2.regions.map seg)

theorem mergeRound_step :
    RoundKeeps (mergeRound w) (MergeAt w t l)
      fun b => ∃ t', b = some t' ∧ t'.regions ≠ [] ∧
        Within 0 (physAddrMax w) (t'.regions.map seg) ∧ Merged t t' l (t'.regions.map seg) := by
  intro v s hs
  obtain ⟨i, t'⟩ := s
  obtain ⟨A, r, B, hregions, rfl, rfl, hwithin, hmerged⟩ := hs
  dsimp only at hregions hwithin hmerged
  rcases B with _ | ⟨s, B⟩
  · -- The last region.
    refine .inr ⟨_, by simp [mergeRound, cnt, hregions], t', rfl, ?_, hwithin, hmerged⟩
    simp [hregions]
  rw [hregions] at hwithin hmerged
  have hw := hwithin
  rw [map_append] at hw
  obtain ⟨m, -, -, -, hnext, hsize, hB⟩ := within_append.mp hw
  have hstop : r.base + r.size ≤ s.base := hnext
  have hmax : r.base + r.size + s.size ≤ physAddrMax w := by
    have := hB.le
    rw [seg_stop] at this
    omega
  have hadd : physAdd w r.base r.size = r.base + r.size := physAdd_of_lt (by omega)
  have hround : mergeRound w (A.length, t') =
      if r.base + r.size ≠ s.base ∨ r.nid ≠ s.nid ∨ r.flags ≠ s.flags then
        .again (A.length + 1, t')
      else
        .again (A.length, { t' with regions := A ++ { r with size := r.size + s.size } :: B }) := by
    have hlt : A.length < t'.cnt - 1 := by
      rw [cnt, hregions]
      simp
    have hthis : t'.regions[A.length]? = some r := by simp [hregions]
    have hnext' : t'.regions[A.length + 1]? = some s := by simp [hregions]
    have hedit : (t'.regions.set A.length { r with size := r.size + s.size }).eraseIdx
        (A.length + 1) = A ++ { r with size := r.size + s.size } :: B := by
      rw [hregions, set_append_right _ _ le_rfl, Nat.sub_self, set_cons_zero,
        eraseIdx_append_of_length_le (Nat.le_succ _)]
      simp
    simp [mergeRound, if_pos hlt, hthis, hnext', hadd, not_lt.mpr hstop,
      physAdd_of_lt (show r.size + s.size ≤ physAddrMax w by omega), hedit]
  rw [hround]
  by_cases hapart : r.base + r.size ≠ s.base ∨ r.nid ≠ s.nid ∨ r.flags ≠ s.flags
  · rw [if_pos hapart]
    refine .inl ⟨_, B.length, rfl, lt_succ_self _, A ++ [r], s, B, ?_, ?_, rfl, ?_, ?_⟩
    · simp [hregions]
    · simp
    · rwa [hregions]
    · rwa [hregions]
  rw [if_neg hapart]
  push Not at hapart
  obtain ⟨htouch, hnid, hflags⟩ := hapart
  refine .inl ⟨_, B.length, rfl, lt_succ_self _, A, _, B, rfl, rfl, rfl, ?_,
    hmerged.join htouch hnid hflags⟩
  rw [map_append] at hwithin ⊢
  exact Within.join (s := seg r) (t := seg s) htouch hwithin _

/-- `memblock_merge_regions` keeps the map, and never meets its `BUG_ON`. -/
theorem memblockMergeRegions_spec (hne : t.regions ≠ [])
    (hwithin : Within 0 (physAddrMax w) (t.regions.map seg))
    (hlen : t.regions.length < memblockFuel) :
    ∃ t', memblockMergeRegions w t = some t' ∧ t'.regions ≠ [] ∧
      Within 0 (physAddrMax w) (t'.regions.map seg) ∧
        Merged t t' (t.regions.map seg) (t'.regions.map seg) := by
  obtain ⟨r, B, hregions⟩ := exists_cons_of_ne_nil hne
  obtain ⟨b, hrun, t', rfl, hpost⟩ := runLoop_of_rank mergeRound_step
    (⟨[], r, B, hregions, rfl, rfl, hwithin, fun _ => rfl, rfl, le_rfl, rfl, rfl⟩ :
      MergeAt w t (t.regions.map seg) B.length (0, t)) (n := memblockFuel) (by
        rw [hregions, length_cons] at hlen
        omega)
  exact ⟨t', by rw [memblockMergeRegions, hrun]; rfl, hpost⟩

/-- There is nothing to merge in an array of one region. -/
theorem memblockMergeRegions_single (h : t.regions = [r]) : memblockMergeRegions w t = some t := by
  have hround : mergeRound w (0, t) = .done (some t) := by
    simp [mergeRound, cnt, h]
  rw [memblockMergeRegions, runLoop_of_done hround memblockFuel_pos]
  rfl

/-! ## `memblock_add_range` -/

section

variable {insert : Bool} {nid : ℤ} {flags : MemblockFlags} {t₀ : MemblockType} {N obase : ℕ}
  {target : List (Seg MemblockAttr)} {s : AddState}

/-- The state of a pass of `memblock_add_range` between `A` and `B` : `A` with the rest filled
is the list to reach, and `nr_new` lacks what the rest is still to get. -/
structure AddAt (w : ℕ) (insert : Bool) (stop : ℕ) (x : MemblockAttr) (t₀ : MemblockType)
    (target : List (Seg MemblockAttr)) (N : ℕ) (A B : List MemblockRegion) (s : AddState) :
    Prop where
  regions : s.type.regions = A ++ B
  idx : s.idx = A.length
  base_le : s.base ≤ stop
  within : ∃ m, Within m (physAddrMax w) (B.map seg)
  count : s.nrNew + (fill x stop s.base (B.map seg)).length = N + B.length
  kept : insert = false → s.type = t₀
  edit : insert = true → A.map seg ++ fill x stop s.base (B.map seg) = target
  totalSize : s.type.totalSize = total (s.type.regions.map seg)
  max : s.type.max = t₀.max

/-- What the inserting pass may rely on : the list to reach fits. -/
structure Fits (w : ℕ) (t₀ : MemblockType) (target : List (Seg MemblockAttr)) : Prop where
  within : Within 0 (physAddrMax w) target
  length_le : target.length ≤ t₀.max

/-- Inserting a region of the list to reach succeeds. -/
theorem Fits.insertRegion (h : Fits w t₀ target)
    (hsub : ((A ++ q :: B).map seg).Sublist target) (hregions : t.regions = A ++ B)
    (htotal : t.totalSize = total (t.regions.map seg)) (hmax : t.max = t₀.max) :
    memblockInsertRegion w t A.length q.base q.size q.nid q.flags =
      some (t.withRegions (A ++ q :: B)) := by
  refine memblockInsertRegion_at hregions htotal ?_ ?_
  · have hlen := hsub.length_le.trans h.length_le
    rw [cnt, hregions, hmax]
    simp only [length_map, length_append, length_cons] at hlen ⊢
    omega
  · have := h.within.total_le
    have := total_le_of_sublist hsub
    omega

/-- One round of a pass. -/
theorem addRound_step (hstop : stop ≤ physAddrMax w) (hfits : insert = true → Fits w t₀ target) :
    RoundKeeps (addRound w insert stop nid flags)
      (fun v s => ∃ A B, AddAt w insert stop (nid, flags) t₀ target N A B s ∧ v = B.length)
      fun b => ∃ s', b = some s' ∧
        ∃ A B, AddAt w insert stop (nid, flags) t₀ target N A B s' ∧
          fill (nid, flags) stop s'.base (B.map seg) =
            gap (nid, flags) s'.base stop ++ B.map seg := by
  intro v s hs
  obtain ⟨A, B, hat, rfl⟩ := hs
  rcases B with _ | ⟨r, B⟩
  · have hnone : s.type.regions[s.idx]? = none := by simp [hat.regions, hat.idx]
    exact .inr ⟨_, by rw [addRound, hnone], s, rfl, A, [], hat, by simp [fill]⟩
  have hrgn : s.type.regions[s.idx]? = some r := by simp [hat.regions, hat.idx]
  obtain ⟨m, -, hsize, hB⟩ := hat.within
  have hrend : physAdd w r.base r.size = r.base + r.size := physAdd_of_lt hB.le
  have hbase := hat.base_le
  have hcount := hat.count
  have hedit := hat.edit
  rw [map_cons, length_cons] at hcount
  rw [map_cons] at hedit
  rcases lt_or_ge r.base stop with hbefore | hbehind
  case inr =>
    refine .inr ⟨_, by simp only [addRound, hrgn, ge_iff_le, if_pos hbehind], s, rfl, A, r :: B,
      hat, ?_⟩
    rw [map_cons]
    exact fill_cons_before (s := seg r) hbehind _ _ _
  have hnext : A ++ r :: B = (A ++ [r]) ++ B := by simp
  rcases lt_or_ge s.base (r.base + r.size) with hover | hbelow
  case inr =>
    -- The region is below the range.
    have hfill := fill_cons_behind (s := seg r) hbefore hbelow (nid, flags) (B.map seg)
    rw [hfill] at hcount hedit
    refine .inl ⟨{ s with idx := s.idx + 1 }, B.length, ?_, lt_succ_self _, A ++ [r], B,
      { regions := hat.regions.trans hnext, idx := by simp [hat.idx], base_le := hbase,
        within := ⟨_, hB⟩, count := by rw [length_cons] at hcount; dsimp only; omega,
        kept := hat.kept, edit := fun h => by simpa using hedit h, totalSize := hat.totalSize,
        max := hat.max }, rfl⟩
    simp [addRound, hrgn, hrend, if_neg (not_le.mpr hbefore), if_pos hbelow]
  have hfill := fill_cons_overlap (s := seg r) hbefore hover (nid, flags) (B.map seg)
  rw [hfill] at hcount hedit
  rw [seg_stop] at hcount hedit
  rcases lt_or_ge s.base r.base with hlow | hhigh
  case inr =>
    -- Nothing of the range lies before the region.
    rw [gap, if_neg (not_lt.mpr (show (seg r).base ≤ s.base from hhigh)), nil_append]
      at hcount hedit
    refine .inl ⟨{ s with idx := s.idx + 1, base := min (r.base + r.size) stop }, B.length, ?_,
      lt_succ_self _, A ++ [r], B,
      { regions := hat.regions.trans hnext, idx := by simp [hat.idx],
        base_le := min_le_right _ _, within := ⟨_, hB⟩,
        count := by rw [length_cons] at hcount; dsimp only; omega,
        kept := hat.kept, edit := fun h => by simpa using hedit h, totalSize := hat.totalSize,
        max := hat.max }, rfl⟩
    simp [addRound, hrgn, hrend, if_neg (not_le.mpr hbefore), if_neg (not_le.mpr hover),
      if_neg (not_lt.mpr hhigh)]
  rw [gap, if_pos (show s.base < (seg r).base from hlow), singleton_append] at hcount hedit
  simp only [length_cons] at hcount
  rcases insert with _ | _
  · refine .inl ⟨{ s with
        idx := s.idx + 1, base := min (r.base + r.size) stop, nrNew := s.nrNew + 1 }, B.length, ?_,
      lt_succ_self _, A ++ [r], B,
      { regions := hat.regions.trans hnext, idx := by simp [hat.idx],
        base_le := min_le_right _ _, within := ⟨_, hB⟩, count := by dsimp only; omega,
        kept := hat.kept, edit := fun h => absurd h Bool.false_ne_true, totalSize := hat.totalSize,
        max := hat.max }, rfl⟩
    simp [addRound, hrgn, hrend, if_neg (not_le.mpr hbefore), if_neg (not_le.mpr hover),
      if_pos hlow]
  have hsub : ((A ++ ⟨s.base, r.base - s.base, flags, nid⟩ :: r :: B).map seg).Sublist target := by
    rw [← hedit rfl, map_append]
    refine (List.Sublist.refl _).append (.cons_cons _ (.cons_cons _ ?_))
    exact sublist_fill _ _ _ _
  have hinsert := (hfits rfl).insertRegion hsub hat.regions hat.totalSize hat.max
  rw [← hat.idx] at hinsert
  refine .inl ⟨⟨s.idx + 1 + 1, min (r.base + r.size) stop, s.nrNew + 1, s.type.withRegions
      (A ++ ⟨s.base, r.base - s.base, flags, nid⟩ :: r :: B)⟩, B.length, ?_,
    lt_succ_self _, A ++ [⟨s.base, r.base - s.base, flags, nid⟩, r], B,
    { regions := by simp [withRegions], idx := by simp [hat.idx], base_le := min_le_right _ _,
      within := ⟨_, hB⟩, count := by dsimp only; omega,
      kept := fun h => absurd h.symm Bool.false_ne_true, edit := fun h => ?_, totalSize := rfl,
      max := hat.max }, rfl⟩
  · have hbase' : r.base ≤ physAddrMax w := by omega
    simp [addRound, hrgn, hrend, if_neg (not_le.mpr hbefore), if_neg (not_le.mpr hover),
      if_pos hlow, physSub_of_le hlow.le hbase', hinsert]
  · rw [← hedit rfl]
    simp [seg]

/-- A pass counts the regions that are to come, and inserts them if it is asked to. -/
theorem addPass_spec (insert : Bool) (nid : ℤ) (flags : MemblockFlags) (hobase : obase ≤ stop)
    (hstop : stop ≤ physAddrMax w)
    (hwithin : Within 0 (physAddrMax w) (t.regions.map seg))
    (htotal : t.totalSize = total (t.regions.map seg))
    (hlen : t.regions.length < memblockFuel)
    (hfits : insert = true → Fits w t (fill (nid, flags) stop obase (t.regions.map seg))) :
    ∃ s, addPass w insert obase stop nid flags t = some s ∧ s.nrNew + t.regions.length =
        (fill (nid, flags) stop obase (t.regions.map seg)).length ∧
      (insert = false → s.type = t) ∧
      (insert = true → s.type.regions.map seg = fill (nid, flags) stop obase (t.regions.map seg) ∧
          s.type.totalSize = total (s.type.regions.map seg) ∧ s.type.max = t.max) := by
  have hgrow := (sublist_fill (nid, flags) stop obase (t.regions.map seg)).length_le
  rw [length_map] at hgrow
  obtain ⟨b, hrun, s, rfl, A, B, hat, hfill⟩ := runLoop_of_rank
    (addRound_step (N := (fill (nid, flags) stop obase (t.regions.map seg)).length -
      t.regions.length) hstop hfits)
    (s := ⟨0, obase, 0, t⟩) (v := t.regions.length)
    ⟨[], t.regions, ⟨rfl, rfl, hobase, ⟨_, hwithin⟩, by dsimp only; omega, fun _ => rfl,
      fun _ => rfl, htotal, rfl⟩, rfl⟩ hlen
  have hcount := hat.count
  have hedit := hat.edit
  rw [hfill] at hcount hedit
  rw [addPass, hrun, join_some, bind_some]
  rcases lt_or_ge s.base stop with hlt | hge
  case inr =>
    rw [gap, if_neg (not_lt.mpr hge), nil_append] at hcount hedit
    rw [length_map] at hcount
    refine ⟨s, if_neg (not_lt.mpr hge), by omega, hat.kept, fun h => ⟨?_, hat.totalSize, hat.max⟩⟩
    rw [hat.regions, map_append]
    exact hedit h
  -- The remaining portion.
  rw [gap, if_pos hlt, singleton_append] at hcount hedit
  rw [length_cons, length_map] at hcount
  rw [if_pos hlt]
  rcases insert with _ | _
  · exact ⟨{ s with nrNew := s.nrNew + 1 }, rfl, by dsimp only; omega, hat.kept,
      fun h => absurd h Bool.false_ne_true⟩
  have hmap : (A ++ ⟨s.base, stop - s.base, flags, nid⟩ :: B).map seg =
      fill (nid, flags) stop obase (t.regions.map seg) := by
    rw [← hedit rfl, map_append]
    rfl
  have hsub : ((A ++ ⟨s.base, stop - s.base, flags, nid⟩ :: B).map seg).Sublist
      (fill (nid, flags) stop obase (t.regions.map seg)) := by
    rw [hmap]
  have hinsert := (hfits rfl).insertRegion hsub hat.regions hat.totalSize hat.max
  refine ⟨⟨s.idx, s.base, s.nrNew + 1, s.type.withRegions
      (A ++ ⟨s.base, stop - s.base, flags, nid⟩ :: B)⟩, ?_, by dsimp only; omega,
    fun h => absurd h.symm Bool.false_ne_true, fun _ => ⟨hmap, rfl, hat.max⟩⟩
  rw [if_pos rfl, hat.idx, physSub_of_le hlt.le hstop, hinsert]
  rfl

end

end

/-! ## Adding a range -/

section

variable {w n base : ℕ} {t : MemblockType} {l : List (Seg MemblockAttr)} {size : ℕ}

/-- The end of a range, as it is capped. -/
def capEnd (w base size : ℕ) : ℕ := base + min size (physAddrMax w - base)

theorem le_capEnd (w base size : ℕ) : base ≤ capEnd w base size := le_add_right _ _

theorem capEnd_le (hbase : base < 2 ^ w) (size : ℕ) : capEnd w base size ≤ physAddrMax w := by
  unfold capEnd physAddrMax
  omega

theorem capEnd_of_le (h : base + size ≤ physAddrMax w) :
    capEnd w base size = base + size := by
  unfold capEnd
  omega

theorem memblockCapSize_capEnd (hbase : base < 2 ^ w) (size : ℕ) :
    memblockCapSize w base size = capEnd w base size - base := by
  rw [memblockCapSize_eq hbase, capEnd, Nat.add_sub_cancel_left]

theorem physAdd_capEnd (hbase : base < 2 ^ w) (size : ℕ) :
    physAdd w base (capEnd w base size - base) = capEnd w base size := by
  have hend := capEnd_le hbase size
  have hle := le_capEnd w base size
  rw [physAdd_of_lt (by omega), Nat.add_sub_cancel' hle]

theorem MemblockType.Holds.lt_fuel (h : t.Holds w n l) {k : ℕ} (hk : k ≤ n) : k < memblockFuel := by
  have hmax := h.max_lt
  unfold memblockFuel
  omega

theorem MemblockType.Holds.length_lt (h : t.Holds w n (t.regions.map seg)) :
    t.regions.length < memblockFuel := by
  have hlen := h.length_le
  rw [length_map, h.max] at hlen
  exact h.lt_fuel hlen

/-- The second pass inserts the segments, and the array is merged. -/
theorem addPass_insert (h : t.Holds w n (t.regions.map seg)) {stop : ℕ}
    (hle : base ≤ stop) (hstop : stop ≤ physAddrMax w) (nid : ℤ) (flags : MemblockFlags)
    (hroom : (fill (nid, flags) stop base (t.regions.map seg)).length ≤ n)
    (hnew : (fill (nid, flags) stop base (t.regions.map seg)).length ≠ t.regions.length) :
    ∃ t', ((addPass w true base stop nid flags t).bind fun s =>
        if s.nrNew = 0 then some (s.type, 0)
        else (memblockMergeRegions w s.type).map fun type => (type, (0 : ℤ))) = some (t', 0) ∧
      ∃ l', t'.Holds w n l' ∧
        ∀ a, lookup l' a = lookup (fill (nid, flags) stop base (t.regions.map seg)) a := by
  have hin := within_fill (x := (nid, flags)) h.within (zero_le base) hle hstop
  obtain ⟨s, hpass, hcount, -, hedit⟩ := addPass_spec true nid flags hle hstop h.within h.totalSize
    h.length_lt fun _ => ⟨hin, h.max.symm ▸ hroom⟩
  obtain ⟨hregions, htotal, hmax⟩ := hedit rfl
  have hlen : s.type.regions.length ≤ n := by
    rw [← length_map seg, hregions]
    exact hroom
  have hne' : s.type.regions ≠ [] := fun hnil => by
    have hzero := congrArg List.length hregions
    rw [hnil, ← hcount] at hzero
    simp only [map_nil, length_nil] at hzero
    omega
  obtain ⟨t', hmerge, hne'', hwithin', hmerged⟩ := memblockMergeRegions_spec hne'
    (hregions.symm ▸ hin) (h.lt_fuel hlen)
  refine ⟨t', ?_, t'.regions.map seg, ⟨fun _ => rfl,
    fun hnil => absurd (map_eq_nil_iff.mp hnil) hne'', hwithin', ?_, ?_, ?_, h.le_max,
    h.max_lt⟩, fun a => ?_⟩
  · rw [hpass, bind_some, if_neg (by omega), hmerge]
    rfl
  · rw [hmerged.totalSize, hmerged.total, htotal]
  · rw [hmerged.max, hmax, h.max]
  · rw [hmerged.max, hmax, h.max]
    exact (hmerged.length_le.trans (by rw [length_map])).trans hlen
  · rw [hmerged.lookup, hregions]

/-- The dummy region is replaced. -/
theorem memblockAddRange_dummy (h : t.Holds w n []) (hbase : base < 2 ^ w)
    (hsize : capEnd w base size - base ≠ 0) (nid : ℤ) (flags : MemblockFlags) :
    ∃ t', memblockAddRange w t base size nid flags = some (t', 0) ∧
      t'.Holds w n [⟨base, capEnd w base size - base, (nid, flags)⟩] := by
  obtain ⟨nid', hregions⟩ := h.dummy rfl
  have hend := capEnd_le hbase size
  refine ⟨{ t with
    regions := [⟨base, capEnd w base size - base, flags, nid⟩]
    totalSize := capEnd w base size - base }, ?_, fun _ => rfl, by simp, ?_, by simp, h.max, ?_,
    h.le_max, h.max_lt⟩
  · simp only [memblockAddRange, memblockCapSize_capEnd hbase, physAdd_capEnd hbase, if_neg hsize,
      hregions]
    rfl
  · exact ⟨zero_le _, by dsimp only; omega, by rw [stop_mk]; show _ ≤ _; omega⟩
  · have hmax := h.le_max
    rw [← h.max, initMemblockRegions] at hmax
    show 1 ≤ t.max
    omega

/-- `memblock_add_range` gives the attributes to the addresses of the range that have none, or
fails for want of slots and changes nothing. -/
theorem memblockAddRange_spec (h : t.Holds w n l) (hbase : base < 2 ^ w) (size : ℕ) (nid : ℤ)
    (flags : MemblockFlags) :
    ∃ t' ret, memblockAddRange w t base size nid flags = some (t', ret) ∧
      (ret = 0 ∧ (fill (nid, flags) (capEnd w base size) base l).length ≤ n ∧
          (∃ l', t'.Holds w n l' ∧ ∀ a, lookup l' a = (lookup l a).or
            (if base ≤ a ∧ a < capEnd w base size then some (nid, flags) else none)) ∨
        ret = -enomem ∧ n < (fill (nid, flags) (capEnd w base size) base l).length ∧ t' = t) := by
  have hend := capEnd_le hbase size
  have hle := le_capEnd w base size
  have hfilled := lookup_fill (x := (nid, flags)) h.within hle
  have hlen := h.length_le
  rw [h.max] at hlen
  by_cases hzero : capEnd w base size - base = 0
  · have hsame : capEnd w base size = base := by omega
    refine ⟨t, 0, ?_, .inl ⟨rfl, ?_, l, h, fun a => ?_⟩⟩
    · simp only [memblockAddRange, memblockCapSize_capEnd hbase, if_pos hzero]
    · rwa [hsame, fill_self]
    · rw [if_neg (by omega), or_none]
  by_cases hl : l = []
  · subst hl
    obtain ⟨t', hrun, hholds⟩ := memblockAddRange_dummy h hbase hzero nid flags
    have hfill : fill (nid, flags) (capEnd w base size) base [] =
        [⟨base, capEnd w base size - base, (nid, flags)⟩] := by
      rw [fill, gap, if_pos (by omega)]
    refine ⟨t', 0, hrun, .inl ⟨rfl, ?_, _, hholds, fun a => ?_⟩⟩
    · have hlen' := hholds.length_le
      rw [hholds.max] at hlen'
      rwa [hfill]
    · rw [← hfilled a, hfill]
  obtain rfl := h.regions hl
  have hne : t.regions ≠ [] := fun hnil => hl (by rw [hnil]; rfl)
  obtain ⟨r, B, hcons⟩ := exists_cons_of_ne_nil hne
  have hsize : r.size ≠ 0 := by
    have hw := h.within
    rw [hcons] at hw
    exact pos_iff_ne_zero.mp hw.2.1
  have hfirst : t.regions[0]? = some r := by simp [hcons]
  obtain ⟨s, hpass, hcount, hkept, -⟩ := addPass_spec false nid flags hle hend h.within h.totalSize
    h.length_lt fun h => absurd h Bool.false_ne_true
  obtain rfl := (hkept rfl).symm
  simp only [memblockAddRange, memblockCapSize_capEnd hbase, physAdd_capEnd hbase, if_neg hzero,
    hfirst, bind_some, if_neg hsize, hpass]
  by_cases hnew : s.nrNew = 0
  · -- There is nothing to add.
    have hsame : s.type.regions.map seg =
        fill (nid, flags) (capEnd w base size) base (s.type.regions.map seg) := by
      refine (sublist_fill _ _ _ _).eq_of_length ?_
      rw [← hcount, hnew, zero_add, length_map]
    refine ⟨s.type, 0, if_pos hnew, .inl ⟨rfl, hsame ▸ hlen, _, h, fun a => ?_⟩⟩
    rw [← hfilled a, ← hsame]
  rw [if_neg hnew]
  have hcnt : s.type.cnt = s.type.regions.length := rfl
  by_cases hroom : s.type.cnt + s.nrNew > s.type.max
  · refine ⟨s.type, -enomem, if_pos hroom, .inr ⟨rfl, ?_, rfl⟩⟩
    rw [h.max] at hroom
    omega
  rw [if_neg hroom]
  rw [h.max] at hroom
  obtain ⟨t', hrun, l', hholds, hlookup⟩ := addPass_insert h hle hend nid flags (by omega)
    (by omega)
  exact ⟨t', 0, hrun, .inl ⟨rfl, by omega, l', hholds, fun a => (hlookup a).trans (hfilled a)⟩⟩

end

end LinuxKernelTest
