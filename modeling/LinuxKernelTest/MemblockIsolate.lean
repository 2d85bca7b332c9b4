import LinuxKernelTest.MemblockEdit

/-!
# Memblock : isolating, removing and changing a range

`memblock_isolate_range` cuts the regions that cross the ends of a range and says which regions
lie inside (`memblockIsolateRange_spec`). What the callers do to these regions, they do to the
addresses of the range : remove them (`memblockRemoveRange_spec`), or change their attributes
(`changeRange_spec`).
-/

namespace LinuxKernelTest

open List Seg Nat MemblockType
open Option (bind_some map_some none_or or_eq_none_iff or_none)

section

variable {w b c e n : ℕ} {t t₀ : MemblockType} {l target : List (Seg MemblockAttr)}
  {r : MemblockRegion} {base : ℕ}

/-! ## `memblock_isolate_range` -/

/-- The part of a region below `c`. -/
abbrev MemblockRegion.lower (r : MemblockRegion) (c : ℕ) : MemblockRegion :=
  ⟨r.base, c - r.base, r.flags, r.nid⟩

/-- The part from `c` on. -/
abbrev MemblockRegion.upper (r : MemblockRegion) (c : ℕ) : MemblockRegion :=
  ⟨c, r.base + r.size - c, r.flags, r.nid⟩

/-- A region is split in two at `c`. -/
theorem memblockInsertRegion_split {A B : List MemblockRegion} (hregions : t.regions = A ++ r :: B)
    (hwithin : Within 0 (physAddrMax w) (t.regions.map seg))
    (htotal : t.totalSize = total (t.regions.map seg)) (hroom : t.cnt < t.max)
    (hlow : r.base < c) (hhigh : c < r.base + r.size) :
    memblockInsertRegion w { t with
        regions := t.regions.set A.length
          { r with base := c, size := physSub w r.size (physSub w c r.base) }
        totalSize := physSub w t.totalSize (physSub w c r.base) }
      A.length r.base (physSub w c r.base) r.nid r.flags =
      some (t.withRegions (A ++ r.lower c :: r.upper c :: B)) := by
  have hsum := hwithin.total_le
  have hstop : r.base + r.size ≤ physAddrMax w :=
    (hwithin.bounds (mem_map_of_mem (by simp [hregions]))).2.2
  rw [hregions] at htotal hsum
  simp only [map_append, map_cons, total_append, total_cons, seg, zero_add]
    at htotal hsum
  have hsub : physSub w c r.base = c - r.base := physSub_of_le hlow.le (by omega)
  have hsub' : physSub w r.size (c - r.base) = r.base + r.size - c := by
    rw [physSub_of_le (by omega) (by omega)]
    omega
  have hsub'' : physSub w t.totalSize (c - r.base) = total ((A ++ r.upper c :: B).map seg) := by
    rw [physSub_of_le (by omega) (by omega), htotal]
    simp only [map_append, map_cons, total_append, total_cons, seg]
    omega
  rw [hsub, hsub', hsub'', hregions, set_append_right _ _ le_rfl, Nat.sub_self, set_cons_zero]
  refine memblockInsertRegion_at (q := r.lower c) rfl rfl ?_ ?_
  · rw [cnt, hregions] at hroom
    simpa [cnt] using hroom
  · simp only [map_append, map_cons, total_append, total_cons, seg]
    omega

/-- The state of `memblock_isolate_range` : `A` lies below the range, `M` inside, and `B` with
its cuts is still to come. -/
structure IsolateAt (w b e : ℕ) (t₀ : MemblockType) (target : List (Seg MemblockAttr))
    (A M B : List MemblockRegion) (s : IsolateState) : Prop where
  regions : s.type.regions = A ++ M ++ B
  idx : s.idx = (A ++ M).length
  below : ∀ r ∈ A, r.base + r.size ≤ b
  inside : ∀ r ∈ M, b ≤ r.base ∧ r.base + r.size ≤ e
  rgns : M = [] ∧ s.startRgn = 0 ∧ s.endRgn = 0 ∨
    M ≠ [] ∧ s.startRgn = A.length ∧ s.endRgn = (A ++ M).length
  within : Within 0 (physAddrMax w) (s.type.regions.map seg)
  edit : (A ++ M).map seg ++ cut e (cut b (B.map seg)) = target
  totalSize : s.type.totalSize = total (s.type.regions.map seg)
  max : s.type.max = t₀.max

/-- The rank : a region to come counts, and a cut to come counts twice. -/
def isolateRank (b e : ℕ) (B : List MemblockRegion) : ℕ :=
  2 * (cut e (cut b (B.map seg))).length - B.length

theorem isolateRank_pass {B : List MemblockRegion}
    (hcut : cut e (cut b ((r :: B).map seg)) = seg r :: cut e (cut b (B.map seg))) :
    isolateRank b e B < isolateRank b e (r :: B) := by
  have hlen := (length_le_cut b (B.map seg)).trans (length_le_cut e _)
  rw [length_map] at hlen
  rw [isolateRank, isolateRank, hcut, length_cons, length_cons]
  omega

namespace IsolateAt

variable {A M B : List MemblockRegion} {s : IsolateState}

section

variable (h : IsolateAt w b e t₀ target A M (r :: B) s)
include h

/-- Behind a region inside the range no region lies below it. -/
theorem eq_nil_of_lt (hr : r.base < b) : M = [] := by
  rcases M with _ | ⟨m, M⟩
  · rfl
  have hm := h.inside m mem_cons_self
  have hpair := h.within.pairwise
  rw [h.regions, append_assoc, map_append, pairwise_append] at hpair
  have hstop := (pairwise_cons.mp hpair.2.1).1 (seg r)
    (mem_map_of_mem (mem_append_right _ mem_cons_self))
  rw [seg_stop] at hstop
  have : (seg r).base = r.base := rfl
  omega

theorem within_rest :
    0 < r.size ∧ Within (r.base + r.size) (physAddrMax w) (B.map seg) := by
  have hw := h.within
  rw [h.regions, map_append] at hw
  obtain ⟨m, -, -, hsize, hB⟩ := within_append.mp hw
  exact ⟨hsize, hB⟩

/-- Nothing that lies behind `r` is cut at an address before its end. -/
theorem cut_rest (hc : c ≤ r.base + r.size) :
    cut c (B.map seg) = B.map seg :=
  cut_of_le fun _ hs => hc.trans (h.within_rest.2.bounds hs).1

theorem within_split (hlow : r.base < c) (hhigh : c < r.base + r.size) :
    Within 0 (physAddrMax w) ((A ++ M ++ r.lower c :: r.upper c :: B).map seg) := by
  have hw := h.within
  rw [h.regions, map_append] at hw
  rw [map_append]
  exact Within.split (s := seg r) hw hlow hhigh _ _

/-- A region below the range is passed. -/
theorem pass_below (hbe : b ≤ e)
    (hr : r.base + r.size ≤ b) :
    IsolateAt w b e t₀ target (A ++ [r]) [] B { s with idx := s.idx + 1 } ∧
      isolateRank b e B < isolateRank b e (r :: B) := by
  have hsize := h.within_rest.1
  obtain rfl := h.eq_nil_of_lt (by omega)
  have hcut : cut e (cut b ((r :: B).map seg)) = seg r :: cut e (cut b (B.map seg)) := by
    rw [map_cons, cut_cons_of_not (by rw [seg_stop]; omega),
      cut_cons_of_not (by rw [seg_stop]; omega)]
  have hedit := h.edit
  rw [hcut] at hedit
  refine ⟨⟨by simp [h.regions], by simp [h.idx], fun q hq => ?_, by simp, ?_, h.within,
    by simpa using hedit, h.totalSize, h.max⟩, ?_⟩
  · rcases mem_append.mp hq with hq | hq
    · exact h.below q hq
    · rwa [mem_singleton.mp hq]
  · rcases h.rgns with ⟨-, hrgns⟩ | ⟨hne, -⟩
    exacts [.inl ⟨rfl, hrgns⟩, absurd rfl hne]
  · exact isolateRank_pass hcut

/-- A region inside the range is passed, and recorded. -/
theorem pass_inside (hlow : b ≤ r.base)
    (hhigh : r.base + r.size ≤ e) :
    IsolateAt w b e t₀ target A (M ++ [r]) B { s with
        idx := s.idx + 1
        startRgn := if s.endRgn = 0 then s.idx else s.startRgn
        endRgn := s.idx + 1 } ∧
      isolateRank b e B < isolateRank b e (r :: B) := by
  have hcut : cut e (cut b ((r :: B).map seg)) = seg r :: cut e (cut b (B.map seg)) := by
    have hbase : b ≤ (seg r).base := hlow
    rw [map_cons, cut_cons_of_not (by rw [seg_stop]; omega),
      cut_cons_of_not (by rw [seg_stop]; omega)]
  have hedit := h.edit
  rw [hcut] at hedit
  refine ⟨⟨by simp [h.regions], by simp [h.idx]; omega, h.below, fun q hq => ?_, .inr ⟨by simp, ?_,
    by simp [h.idx]; omega⟩, h.within, by simpa using hedit, h.totalSize, h.max⟩, ?_⟩
  · rcases mem_append.mp hq with hq | hq
    · exact h.inside q hq
    · rw [mem_singleton.mp hq]
      exact ⟨hlow, hhigh⟩
  · -- `*end_rgn` is `0` until the first region is recorded.
    rcases h.rgns with ⟨rfl, hstart, hend⟩ | ⟨hne, hstart, hend⟩
    · rw [if_pos hend, h.idx, append_nil]
    · have := length_pos_of_ne_nil hne
      rw [length_append] at hend
      rw [if_neg (by omega), hstart]
  · exact isolateRank_pass hcut

/-- The array has room for a cut that is still to come. -/
theorem room (hfits : Fits w t₀ target)
    (hlen : B.length + 1 < (cut e (cut b ((r :: B).map seg))).length) :
    s.type.cnt < s.type.max := by
  have hmax := hfits.length_le
  rw [← h.edit, length_append, length_map, ← h.max] at hmax
  rw [cnt, h.regions, length_append, length_cons]
  omega

/-- A region that crosses the start of the range is split, and its lower half passed. -/
theorem split_below (hfits : Fits w t₀ target)
    (hbe : b ≤ e) (hlow : r.base < b) (hhigh : b < r.base + r.size) :
    s.type.cnt < s.type.max ∧
    IsolateAt w b e t₀ target (A ++ [r.lower b]) [] (r.upper b :: B) { s with
          idx := s.idx + 1
          type := s.type.withRegions (A ++ M ++ r.lower b :: r.upper b :: B) } ∧
      isolateRank b e (r.upper b :: B) < isolateRank b e (r :: B) := by
  obtain rfl := h.eq_nil_of_lt hlow
  have hcut : cut e (cut b ((r :: B).map seg)) =
      seg (r.lower b) :: cut e (cut b ((r.upper b :: B).map seg)) := by
    rw [map_cons, map_cons, cut_cons_of_lt (show (seg r).base < b from hlow) hhigh,
      cut_cons_of_not (s := seg (r.upper b)) (fun h => absurd h.1 (lt_irrefl b)),
      h.cut_rest hhigh.le, cut_cons_of_not]
    · rfl
    · rw [stop_mk]
      have : (seg r).base = r.base := rfl
      omega
  have hlen := (length_le_cut b ((r.upper b :: B).map seg)).trans (length_le_cut e _)
  rw [length_map, length_cons] at hlen
  have hedit := h.edit
  rw [hcut] at hedit
  refine ⟨h.room hfits (by rw [hcut, length_cons]; omega), ⟨by simp [withRegions],
    by simp [h.idx], fun q hq => ?_, by simp, ?_, ?_, by simpa using hedit, rfl, h.max⟩, ?_⟩
  · rcases mem_append.mp hq with hq | hq
    · exact h.below q hq
    · rw [mem_singleton.mp hq]
      dsimp only
      omega
  · rcases h.rgns with ⟨-, hrgns⟩ | ⟨hne, -⟩
    exacts [.inl ⟨rfl, hrgns⟩, absurd rfl hne]
  · exact h.within_split hlow hhigh
  · rw [isolateRank, isolateRank, hcut, length_cons, length_cons, length_cons]
    omega

/-- A region that crosses the end of the range is split. -/
theorem split_above (hfits : Fits w t₀ target)
    (hb : b ≤ r.base) (hlow : r.base < e) (hhigh : e < r.base + r.size) :
    s.type.cnt < s.type.max ∧
    IsolateAt w b e t₀ target A M (r.lower e :: r.upper e :: B) { s with
        type := s.type.withRegions (A ++ M ++ r.lower e :: r.upper e :: B) } ∧
      isolateRank b e (r.lower e :: r.upper e :: B) < isolateRank b e (r :: B) := by
  have hbelow : cut b ((r :: B).map seg) = seg r :: B.map seg := by
    rw [map_cons, cut_cons_of_not fun h => absurd hb (not_le.mpr h.1), h.cut_rest (by omega)]
  have hcut : cut e (cut b ((r :: B).map seg)) =
      seg (r.lower e) :: seg (r.upper e) :: B.map seg := by
    rw [hbelow, cut_cons_of_lt (show (seg r).base < e from hlow) hhigh]
    rfl
  have hcut' : cut e (cut b ((r.lower e :: r.upper e :: B).map seg)) =
      cut e (cut b ((r :: B).map seg)) := by
    have hsame : ∀ {c}, c ≤ e → cut c (seg (r.upper e) :: B.map seg) =
        seg (r.upper e) :: B.map seg := fun hc => by
      rw [cut_cons_of_not fun h => absurd hc (not_le.mpr h.1), h.cut_rest (by omega)]
    rw [hcut, map_cons, map_cons, cut_cons_of_not fun h => absurd hb (not_le.mpr h.1),
      hsame (by omega), cut_cons_of_not, hsame le_rfl]
    rw [seg_stop]
    dsimp only
    omega
  refine ⟨h.room hfits (by rw [hcut]; simp), ⟨by simp [withRegions], h.idx, h.below,
    h.inside, h.rgns, ?_, by rw [hcut']; exact h.edit, rfl, h.max⟩, ?_⟩
  · exact h.within_split hlow hhigh
  · rw [isolateRank, isolateRank, hcut', hcut]
    simp only [length_cons, length_map]
    omega

end

end IsolateAt

/-- One round of `memblock_isolate_range`. -/
theorem isolateRound_step (hbe : b < e) (hfits : Fits w t₀ target) :
    RoundKeeps (isolateRound w b e)
      (fun v s => ∃ A M B, IsolateAt w b e t₀ target A M B s ∧ v = isolateRank b e B)
      fun o => ∃ s', o = some s' ∧ ∃ A M B, IsolateAt w b e t₀ target A M B s' ∧
        ∀ q ∈ B.map seg, e ≤ q.base := by
  intro v s hs
  obtain ⟨A, M, B, hat, rfl⟩ := hs
  rcases B with _ | ⟨r, B⟩
  · have hnone : s.type.regions[s.idx]? = none := by simp [hat.regions, hat.idx]
    exact .inr ⟨_, by rw [isolateRound, hnone], s, rfl, A, M, [], hat, by simp⟩
  have hrgn : s.type.regions[s.idx]? = some r := by
    rw [hat.regions, hat.idx]
    simp
  obtain ⟨hsize, hB⟩ := hat.within_rest
  have hrend := physAdd_of_lt hB.le
  have hsplit := memblockInsertRegion_split (c := b) hat.regions hat.within hat.totalSize
  have hsplit' := memblockInsertRegion_split (c := e) hat.regions hat.within hat.totalSize
  rw [← hat.idx] at hsplit hsplit'
  rcases lt_or_ge r.base e with hbefore | hbehind
  case inr =>
    refine .inr ⟨_, by simp only [isolateRound, hrgn, ge_iff_le, if_pos hbehind], s, rfl, A, M,
      r :: B, hat, fun q hq => ?_⟩
    rcases mem_cons.mp hq with rfl | hq
    · exact hbehind
    · have := (hB.bounds hq).1
      omega
  rcases lt_or_ge b (r.base + r.size) with hover | hbelow
  case inr =>
    obtain ⟨hat', hrank⟩ := hat.pass_below hbe.le hbelow
    refine .inl ⟨_, _, ?_, hrank, _, _, _, hat', rfl⟩
    simp [isolateRound, hrgn, hrend, if_neg (not_le.mpr hbefore), if_pos hbelow]
  rcases lt_or_ge r.base b with hlow | hhigh
  · obtain ⟨hroom, hat', hrank⟩ := hat.split_below hfits hbe.le hlow hover
    refine .inl ⟨_, _, ?_, hrank, _, _, _, hat', rfl⟩
    simp [isolateRound, hrgn, hrend, if_neg (not_le.mpr hbefore), if_neg (not_le.mpr hover),
      if_pos hlow, hsplit hroom hlow hover]
  rcases lt_or_ge e (r.base + r.size) with hcross | hin
  · obtain ⟨hroom, hat', hrank⟩ := hat.split_above hfits hhigh hbefore hcross
    refine .inl ⟨_, _, ?_, hrank, _, _, _, hat', rfl⟩
    simp [isolateRound, hrgn, hrend, if_neg (not_le.mpr hbefore), if_neg (not_le.mpr hover),
      if_neg (not_lt.mpr hhigh), if_pos hcross, hsplit' hroom hbefore hcross]
  · obtain ⟨hat', hrank⟩ := hat.pass_inside hhigh hin
    refine .inl ⟨_, _, ?_, hrank, _, _, _, hat', rfl⟩
    simp [isolateRound, hrgn, hrend, if_neg (not_le.mpr hbefore), if_neg (not_le.mpr hover),
      if_neg (not_lt.mpr hhigh), if_neg (not_lt.mpr hin)]

/-- What `memblock_isolate_range` tells about the segments of an array that held `l` : those of
`M` are the ones in the range, and the map is what it was. -/
structure Isolated (b e : ℕ) (l A M B : List (Seg MemblockAttr)) : Prop where
  outside : ∀ a, b ≤ a → a < e → lookup (A ++ B) a = none
  inside : ∀ a, ¬(b ≤ a ∧ a < e) → lookup M a = none
  lookup : ∀ a, lookup (A ++ M ++ B) a = lookup l a
  length_le : b = 0 → (A ++ B).length ≤ l.length

theorem isolated_nil (h : l = [] ∨ ¬b < e) : Isolated b e l [] [] l where
  outside a hb he := by
    rcases h with rfl | h
    · rfl
    · omega
  inside _ _ := rfl
  lookup _ := rfl
  length_le _ := le_rfl

/-- `memblock_isolate_range` on the dummy region. -/
theorem isolateLoop_dummy {nid : ℤ} (hregions : t.regions = [⟨0, 0, 0, nid⟩]) (hbe : b < e) :
    runLoop (isolateRound w b e) memblockFuel ⟨0, 0, 0, t⟩ = some (some ⟨1, 0, 0, t⟩) := by
  have hfirst : isolateRound w b e ⟨0, 0, 0, t⟩ = .again ⟨1, 0, 0, t⟩ := by
    have hzero : physAdd w 0 0 = 0 := zero_mod _
    simp [isolateRound, hregions, hzero, show e ≠ 0 by omega]
  have hsecond : isolateRound w b e ⟨1, 0, 0, t⟩ = .done (some ⟨1, 0, 0, t⟩) := by
    simp [isolateRound, hregions]
  rw [show memblockFuel = (memblockFuel - 2) + 1 + 1 from rfl, runLoop_again hfirst,
    runLoop_done hsecond]

/-- `memblock_isolate_range` splits the array into what is below, inside and above the range, or
fails and changes nothing. -/
theorem memblockIsolateRange_spec (h : t.Holds w n l) (hbase : base < 2 ^ w) (size : ℕ) :
    ∃ t' ret start stop, memblockIsolateRange w t base size = some (t', ret, start, stop) ∧
      (ret = 0 ∧ (∃ A M B, t'.Holds w n (A ++ M ++ B) ∧ start = A.length ∧
          stop = (A ++ M).length ∧ (A ++ M ++ B).length ≤ l.length + 2 ∧
          Isolated base (capEnd w base size) l A M B) ∨
        ret = -enomem ∧ n < t.cnt + 2 ∧ t' = t) := by
  have hle := le_capEnd w base size
  simp only [memblockIsolateRange, memblockCapSize_capEnd hbase, physAdd_capEnd hbase]
  by_cases hzero : capEnd w base size - base = 0
  · rw [if_pos hzero]
    exact ⟨t, 0, 0, 0, rfl, .inl ⟨rfl, [], [], l, h, rfl, rfl, le_add_right _ _,
      isolated_nil (.inr (by omega))⟩⟩
  rw [if_neg hzero]
  by_cases hroom : t.cnt + 2 > t.max
  · exact ⟨t, -enomem, 0, 0, if_pos hroom, .inr ⟨rfl, h.max ▸ hroom, rfl⟩⟩
  rw [if_neg hroom]
  by_cases hl : l = []
  · obtain ⟨nid, hregions⟩ := h.dummy hl
    rw [isolateLoop_dummy hregions (by omega)]
    exact ⟨t, 0, 0, 0, rfl, .inl ⟨rfl, [], [], l, h, rfl, rfl, le_add_right _ _,
      isolated_nil (.inl hl)⟩⟩
  obtain rfl := h.regions hl
  have hlen := (length_cut_le (capEnd w base size) (cut base (t.regions.map seg))).trans
    (succ_le_succ (length_cut_le base (t.regions.map seg)))
  rw [length_map] at hlen
  have hcnt : t.cnt = t.regions.length := rfl
  have hfits : Fits w t (cut (capEnd w base size) (cut base (t.regions.map seg))) :=
    ⟨(h.within.cut _).cut _, by omega⟩
  obtain ⟨o, hrun, s, rfl, A, M, B, hat, hbehind⟩ := runLoop_of_rank
    (isolateRound_step (by omega) hfits) (s := ⟨0, 0, 0, t⟩)
    ⟨[], [], t.regions, ⟨rfl, rfl, by simp, by simp, .inl ⟨rfl, rfl, rfl⟩, h.within, rfl,
      h.totalSize, rfl⟩, rfl⟩ (n := memblockFuel) (by
        have hmax := h.max_lt
        rw [← h.max] at hmax
        unfold isolateRank memblockFuel
        omega)
  rw [hrun]
  have hedit := hat.edit
  rw [cut_of_le fun q hq => hle.trans (hbehind q hq), cut_of_le hbehind, ← map_append,
    ← hat.regions] at hedit
  have hholds : s.type.Holds w n (A.map seg ++ M.map seg ++ B.map seg) := by
    rw [← map_append, ← map_append, ← hat.regions]
    refine ⟨fun _ => rfl, fun hnil => ?_, hat.within, hat.totalSize, hat.max.trans h.max, ?_,
      h.le_max, h.max_lt⟩
    · have hlen' := (length_le_cut base (t.regions.map seg)).trans
        (length_le_cut (capEnd w base size) _)
      rw [← hedit, hnil] at hlen'
      exact absurd (length_eq_zero_iff.mp (le_zero.mp hlen')) hl
    · rw [hedit, hat.max]
      omega
  have hlookup : ∀ a, lookup (A.map seg ++ M.map seg ++ B.map seg) a =
      lookup (t.regions.map seg) a := fun a => by
    rw [← map_append, ← map_append, ← hat.regions, hedit, lookup_cut, lookup_cut]
  have hgrow : (A.map seg ++ M.map seg ++ B.map seg).length ≤ (t.regions.map seg).length + 2 := by
    rw [← map_append, ← map_append, ← hat.regions, hedit, length_map]
    omega
  have hout : ∀ q ∈ A.map seg ++ B.map seg, q.stop ≤ base ∨ capEnd w base size ≤ q.base := by
    intro q hq
    rcases mem_append.mp hq with hq | hq
    · obtain ⟨r, hr, rfl⟩ := mem_map.mp hq
      exact .inl (hat.below r hr)
    · exact .inr (hbehind q hq)
  have houtside := fun a hb he => lookup_outside (a := a) hout hb he
  have hzero : base = 0 → (A.map seg ++ B.map seg).length ≤ (t.regions.map seg).length := by
    rintro rfl
    have hcut := congrArg List.length hedit
    rw [cut_of_le (c := 0) fun _ _ => zero_le _, hat.regions] at hcut
    rcases M with _ | ⟨m, M⟩
    · -- Nothing lies inside, so nothing crosses the end.
      rw [cut_of_le fun q hq => ?_] at hcut
      · simpa using hcut.le
      by_contra hlt
      have hnone := (hlookup q.base).symm.trans
        (by simpa using houtside q.base (Nat.zero_le _) (Nat.lt_of_not_le hlt))
      have := lookup_eq_none_iff.mp hnone q hq
      have := (h.within.bounds hq).2.1
      unfold stop at *
      omega
    · have := length_cut_le (capEnd w 0 size) (t.regions.map seg)
      simp only [length_append, length_map, length_cons] at *
      omega
  rcases hat.rgns with ⟨rfl, hstart, hstop⟩ | ⟨-, hstart, hstop⟩
  · -- Nothing lies inside, and both indices are `0`.
    refine ⟨s.type, 0, s.startRgn, s.endRgn, rfl, .inl ⟨rfl, [], [], A.map seg ++ B.map seg,
      by simpa using hholds, hstart, hstop, by simpa using hgrow,
      houtside, fun _ _ => rfl, fun a => by simpa using hlookup a, hzero⟩⟩
  refine ⟨s.type, 0, s.startRgn, s.endRgn, rfl, .inl ⟨rfl, A.map seg, M.map seg, B.map seg,
    hholds, by simpa using hstart, by simpa using hstop, hgrow,
    houtside, fun a ha => lookup_inside (fun q hq => ?_) ha, hlookup, hzero⟩⟩
  obtain ⟨r, hr, rfl⟩ := mem_map.mp hq
  exact hat.inside r hr

variable {A M B : List (Seg MemblockAttr)}

theorem Isolated.lookup_remove (h : Isolated b e l A M B)
    (a : ℕ) : Seg.lookup (A ++ B) a = if b ≤ a ∧ a < e then none else Seg.lookup l a := by
  by_cases ha : b ≤ a ∧ a < e
  · rw [if_pos ha, h.outside a ha.1 ha.2]
  · rw [if_neg ha, ← h.lookup, lookup_append, lookup_append, lookup_append, h.inside a ha, or_none]

theorem Isolated.lookup_change (h : Isolated b e l A M B)
    (g : MemblockAttr → MemblockAttr) (a : ℕ) :
    Seg.lookup (A ++ M.map (mapAttr g) ++ B) a =
      if b ≤ a ∧ a < e then (Seg.lookup l a).map g else Seg.lookup l a := by
  rw [← h.lookup, lookup_append, lookup_append, lookup_append, lookup_append, lookup_mapAttr]
  by_cases ha : b ≤ a ∧ a < e
  · have hnone := h.outside a ha.1 ha.2
    rw [lookup_append, or_eq_none_iff] at hnone
    rw [if_pos ha, hnone.1, hnone.2, none_or, none_or, or_none, or_none]
  · rw [if_neg ha, h.inside a ha, Option.map_none]

/-- What is outside and not to be kept is dropped. -/
theorem Isolated.lookup_filter (h : Isolated b e l A M B)
    {lo hi : ℕ} (hwithin : Within lo hi (A ++ M ++ B)) (keep : MemblockAttr → Bool) (a : ℕ) :
    Seg.lookup (A.filter (fun s => keep s.attr) ++ M ++ B.filter fun s => keep s.attr) a =
      if b ≤ a ∧ a < e then Seg.lookup l a else (Seg.lookup l a).filter keep := by
  have hsub : (A ++ B).Sublist (A ++ M ++ B) := (sublist_append_left A M).append_right B
  have hfilter := (hwithin.sublist hsub).lookup_filter keep a
  have hlookup := h.lookup a
  rw [h.lookup_remove, filter_append, lookup_append] at hfilter
  rw [lookup_append, lookup_append] at hlookup ⊢
  by_cases ha : b ≤ a ∧ a < e
  · have hnone := h.outside a ha.1 ha.2
    rw [lookup_append, or_eq_none_iff] at hnone
    rw [if_pos ha, Option.filter_none, or_eq_none_iff] at hfilter
    rw [hnone.1, hnone.2] at hlookup
    rw [if_pos ha, hfilter.1, hfilter.2, hlookup]
  · rw [if_neg ha] at hfilter ⊢
    rw [h.inside a ha, or_none, hfilter]

/-! ## Removing regions -/

variable {A B : List (Seg MemblockAttr)}

/-- Where a list of segments is cut, the regions can be cut. -/
theorem MemblockType.Holds.regions_eq (h : t.Holds w n (A ++ B))
    (hne : A ++ B ≠ []) :
    ∃ A' B', t.regions = A' ++ B' ∧ A'.map seg = A ∧ B'.map seg = B :=
  map_eq_append_iff.mp (h.regions hne)

theorem memblockRemoveRegion_spec {s : Seg MemblockAttr}
    (h : t.Holds w n (A ++ s :: B)) :
    ∃ t', memblockRemoveRegion w t A.length = some t' ∧ t'.Holds w n (A ++ B) := by
  obtain ⟨A', B', hregions, rfl, hB⟩ := h.regions_eq (by simp)
  obtain ⟨r, B', rfl, rfl, rfl⟩ := map_eq_cons_iff.mp hB
  have hrgn : t.regions[(A'.map seg).length]? = some r := by simp [hregions]
  have herase : t.regions.eraseIdx (A'.map seg).length = A' ++ B' := by
    rw [hregions, length_map, eraseIdx_length_append]
  have htotal := h.totalSize
  have hmax := h.within.total_le
  have hlen := h.length_le
  rw [total_append, total_cons] at htotal hmax
  rw [length_append, length_cons] at hlen
  have hsub : physSub w t.totalSize r.size = total (A'.map seg ++ B'.map seg) := by
    have hsize : (seg r).size = r.size := rfl
    rw [physSub_of_le (by omega) (by omega), htotal, total_append]
    omega
  have hwithin := h.within.sublist ((sublist_cons_self _ _).append_left _)
  have hlen' : (A'.map seg ++ B'.map seg).length ≤ t.max := by
    rw [length_append]
    omega
  rw [memblockRemoveRegion, hrgn, map_some, herase, hsub]
  by_cases hnil : A' ++ B' = []
  · -- The dummy region comes back.
    refine ⟨_, congrArg some (if_pos (congrArg List.length hnil)), ?_⟩
    rw [← map_append, hnil] at hwithin hlen' ⊢
    exact ⟨fun hne => absurd rfl hne, fun _ => ⟨maxNumnodes, rfl⟩, hwithin, rfl, h.max, hlen',
      h.le_max, h.max_lt⟩
  · refine ⟨_, congrArg some (if_neg (mt length_eq_zero_iff.mp hnil)), fun _ => map_append,
      fun hnil' => ?_, hwithin, rfl, h.max, hlen',
      h.le_max, h.max_lt⟩
    rw [← map_append, map_eq_nil_iff] at hnil'
    exact absurd hnil' hnil

theorem removeDown_self (keep : MemblockRegion → Bool) (n : ℕ) (t : MemblockType) :
    removeDown w keep n n t = some t := by
  rcases n with _ | n
  · rfl
  · rw [removeDown, if_pos (lt_succ_self n)]

/-- Going down, the segments of `M` that are not to be kept are removed. -/
theorem removeDown_spec {keep : MemblockRegion → Bool} (keep' : MemblockAttr → Bool)
    (hkeep : ∀ r, keep r = keep' (r.nid, r.flags))
    (h : t.Holds w n (A ++ M ++ B)) :
    ∃ t', removeDown w keep A.length (A ++ M).length t = some t' ∧
      t'.Holds w n (A ++ M.filter (fun s => keep' s.attr) ++ B) := by
  induction M using List.reverseRecOn generalizing t B with
  | nil => exact ⟨t, by rw [append_nil, removeDown_self], h⟩
  | append_singleton M s ih =>
    have hlist : A ++ (M ++ [s]) ++ B = (A ++ M) ++ s :: B := by simp
    rw [hlist] at h
    obtain ⟨A', B', hregions, hA, hB⟩ := h.regions_eq (by simp)
    obtain ⟨r, B', rfl, rfl, rfl⟩ := map_eq_cons_iff.mp hB
    have hlen : (A ++ M).length = A'.length := by rw [← hA, length_map]
    have hrgn : t.regions[(A ++ M).length]? = some r := by simp [hregions, hlen]
    rw [← append_assoc, length_append, length_singleton, removeDown,
      if_neg (by simp), hrgn, bind_some, filter_append]
    by_cases hk : keep r = true
    · rw [if_pos hk]
      obtain ⟨t', ht', hholds⟩ := ih h
      refine ⟨t', ht', ?_⟩
      rw [filter_singleton, show keep' (seg r).attr = true from (hkeep r).symm.trans hk]
      simpa using hholds
    rw [if_neg hk]
    obtain ⟨t1, ht1, h1⟩ := memblockRemoveRegion_spec h
    obtain ⟨t', ht', hholds⟩ := ih h1
    refine ⟨t', by rw [ht1, bind_some, ht'], ?_⟩
    rw [filter_singleton, show keep' (seg r).attr = false from
      (hkeep r).symm.trans (Bool.eq_false_iff.mpr hk)]
    simpa using hholds

/-- `memblock_remove_range` erases the range, or fails and changes nothing. -/
theorem memblockRemoveRange_spec (h : t.Holds w n l) (hbase : base < 2 ^ w) (size : ℕ) :
    ∃ t' ret, memblockRemoveRange w t base size = some (t', ret) ∧
      (ret = 0 ∧ (∃ l', t'.Holds w n l' ∧ l'.length ≤ l.length + 2 ∧
          (base = 0 → l'.length ≤ l.length) ∧ ∀ a, lookup l' a =
            if base ≤ a ∧ a < capEnd w base size then none else lookup l a) ∨
        ret = -enomem ∧ n < t.cnt + 2 ∧ t' = t) := by
  obtain ⟨t1, ret, start, stop, hiso, hcase⟩ := memblockIsolateRange_spec h hbase size
  rw [memblockRemoveRange, hiso, bind_some]
  rcases hcase with ⟨rfl, A, M, B, hholds, rfl, rfl, hlen, hisolated⟩ | ⟨rfl, hroom, rfl⟩
  · obtain ⟨t', ht', hholds'⟩ := removeDown_spec (fun _ => false) (fun _ => rfl) hholds
    refine ⟨t', 0, ?_, .inl ⟨rfl, A ++ B, by simpa using hholds', ?_, hisolated.length_le,
      hisolated.lookup_remove⟩⟩
    case refine_2 =>
      simp only [length_append] at hlen ⊢
      omega
    simp only [ne_eq, not_true_eq_false, if_false, ht', map_some]
  · exact ⟨t1, -enomem, rfl, .inr ⟨rfl, hroom, rfl⟩⟩

/-! ## Changing regions -/

theorem foldl_modify_range' (f : MemblockRegion → MemblockRegion) (A M B : List MemblockRegion) :
    (List.range' A.length M.length).foldl (fun l i => l.modify i f) (A ++ M ++ B) =
      A ++ M.map f ++ B := by
  induction M generalizing A with
  | nil => simp
  | cons r M ih =>
    have hfirst : (A ++ r :: M ++ B).modify A.length f = (A ++ [f r]) ++ M ++ B := by
      rw [append_assoc, cons_append, modify_length_append]
      simp
    rw [length_cons, List.range'_succ, foldl_cons, hfirst]
    simpa using ih (A ++ [f r])

/-- Changing the attributes of a range, or failing and changing nothing. -/
theorem changeRange_spec {f : MemblockRegion → MemblockRegion} {g : MemblockAttr → MemblockAttr}
    (hf : ∀ r, seg (f r) = (seg r).mapAttr g) (h : t.Holds w n l) (hbase : base < 2 ^ w)
    (size : ℕ) :
    ∃ t' ret, changeRange w f t base size = some (t', ret) ∧
      (ret = 0 ∧ (∃ l', t'.Holds w n l' ∧ ∀ a, lookup l' a =
          if base ≤ a ∧ a < capEnd w base size then (lookup l a).map g else lookup l a) ∨
        ret = -enomem ∧ t' = t) := by
  obtain ⟨t1, ret, start, stop, hiso, hcase⟩ := memblockIsolateRange_spec h hbase size
  rw [changeRange, hiso, bind_some]
  rcases hcase with ⟨rfl, A, M, B, hholds, rfl, rfl, -, hisolated⟩ | ⟨rfl, -, rfl⟩
  case inr => exact ⟨t1, -enomem, rfl, .inr ⟨rfl, rfl⟩⟩
  have hchange := hisolated.lookup_change g
  by_cases hnil : A ++ M ++ B = []
  · -- The dummy region stays as it is.
    obtain ⟨nid, hregions⟩ := hholds.dummy hnil
    obtain ⟨hAM, rfl⟩ := append_eq_nil_iff.mp hnil
    obtain ⟨rfl, rfl⟩ := append_eq_nil_iff.mp hAM
    have hmerge : memblockMergeRegions w (changeRegions f 0 0 t1) = some t1 :=
      memblockMergeRegions_single hregions
    refine ⟨t1, 0, ?_, .inl ⟨rfl, [], hholds, hchange⟩⟩
    simp [hmerge, map_some]
  obtain ⟨AM, B', hregions, hAM, rfl⟩ := hholds.regions_eq hnil
  obtain ⟨A', M', rfl, rfl, rfl⟩ := map_eq_append_iff.mp hAM
  have hnew : (changeRegions f (A'.map seg).length (A'.map seg ++ M'.map seg).length t1).regions =
      A' ++ M'.map f ++ B' := by
    rw [changeRegions, hregions, length_append, Nat.add_sub_cancel_left, length_map, length_map]
    exact foldl_modify_range' f A' M' B'
  have hmap : (A' ++ M'.map f ++ B').map seg =
      A'.map seg ++ (M'.map seg).map (mapAttr g) ++ B'.map seg := by
    rw [map_append, map_append, map_map, map_map]
    congr 2
    exact map_congr_left fun r _ => hf r
  have hwithin : Within 0 (physAddrMax w) ((A' ++ M'.map f ++ B').map seg) := by
    obtain ⟨m, hAM, hB⟩ := within_append.mp hholds.within
    obtain ⟨m', hA, hM⟩ := within_append.mp hAM
    rw [hmap]
    exact within_append.mpr ⟨m, within_append.mpr ⟨m', hA, hM.mapAttr g⟩, hB⟩
  have htotal : t1.totalSize = total ((A' ++ M'.map f ++ B').map seg) := by
    rw [hholds.totalSize, hmap]
    simp only [total_append, total_mapAttr]
  have hlen : (A' ++ M'.map f ++ B').length ≤ t1.max := by
    have := hholds.length_le
    simpa using this
  have hne : A' ++ M'.map f ++ B' ≠ [] := by simpa using hnil
  obtain ⟨t', hmerge, hne', hwithin', hmerged⟩ := memblockMergeRegions_spec (hnew ▸ hne)
    (hnew ▸ hwithin) (hnew ▸ hholds.lt_fuel (hholds.max ▸ hlen))
  rw [hnew] at hmerged
  refine ⟨t', 0, ?_, .inl ⟨rfl, t'.regions.map seg, ⟨fun _ => rfl,
    fun hnil => absurd (map_eq_nil_iff.mp hnil) hne', hwithin', ?_, hmerged.max.trans hholds.max,
    ?_, h.le_max, h.max_lt⟩, fun a => ?_⟩⟩
  · simp only [ne_eq, not_true_eq_false, if_false, hmerge, map_some]
  · rw [hmerged.totalSize, hmerged.total]
    exact htotal
  · rw [hmerged.max]
    exact (hmerged.length_le.trans (by rw [length_map])).trans hlen
  · rw [hmerged.lookup, hmap, hchange]

end

end LinuxKernelTest
