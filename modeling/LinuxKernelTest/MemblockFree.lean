import LinuxKernelTest.MemblockCalls
import LinuxKernelTest.MemblockRange
import LinuxKernelTest.Lockstep

/-!
# Memblock : the free ranges

The regions of `memory` and the areas between the regions of `reserved` are two ascending sequences
of intervals (`freeWalk`), and both iterators are walks along them in lockstep. A call of
`__next_mem_range` finds the first hit from its indices on (`nextMemRange_spec`), a call of
`__next_mem_range_rev` the last one below (`nextMemRangeRev_spec`).
-/

namespace LinuxKernelTest

open List Lockstep Nat

/-! ## Packed indices -/

section

variable {a b : ℤ}

theorem lowIdx_packIdx (h : -2 ^ 31 ≤ a) (h' : a < 2 ^ 31) : lowIdx (packIdx a b) = a := by
  have hlow : (packIdx a b).extractLsb' 0 32 = BitVec.ofInt 32 a := by
    rw [packIdx, BitVec.extractLsb'_append_eq_right]
  rw [lowIdx, hlow]
  exact BitVec.toInt_ofInt_eq_self (by decide) h h'

theorem highIdx_packIdx (h : -2 ^ 31 ≤ b) (h' : b < 2 ^ 31) : highIdx (packIdx a b) = b := by
  have hhigh : (packIdx a b).extractLsb' 32 32 = BitVec.ofInt 32 b := by
    rw [packIdx, BitVec.extractLsb'_append_eq_left]
  rw [highIdx, hhigh]
  exact BitVec.toInt_ofInt_eq_self (by decide) h h'

theorem packIdx_ne_ullongMax (ha : -2 ^ 31 ≤ a) (ha' : a < 2 ^ 31) (hb : -2 ^ 31 ≤ b)
    (hb' : b < 2 ^ 31) (h : 0 ≤ a ∨ 0 ≤ b) : packIdx a b ≠ ullongMax := by
  intro heq
  have hlow := lowIdx_packIdx (b := b) ha ha'
  have hhigh := highIdx_packIdx (a := a) hb hb'
  rw [heq] at hlow hhigh
  have hlow' : lowIdx ullongMax = -1 := by decide
  have hhigh' : highIdx ullongMax = -1 := by decide
  omega

end

/-! ## Rows and columns -/

/-- The base of region `i`. -/
def rowLo (t : MemblockType) (i : ℕ) : ℕ := (t.regions[i]?.map MemblockRegion.base).getD 0

/-- The end of region `i`. -/
def rowHi (t : MemblockType) (i : ℕ) : ℕ := (t.regions[i]?.map fun r => r.base + r.size).getD 0

/-- The start of the area before region `i`. -/
def colStart (t : MemblockType) (i : ℕ) : ℕ := if i = 0 then 0 else rowHi t (i - 1)

/-- The end of the area before region `i`. -/
def colStop (w : ℕ) (t : MemblockType) (i : ℕ) : ℕ := if i < t.cnt then rowLo t i else physAddrMax w

section

variable {w a b : ℕ} {t : MemblockType} {r : MemblockRegion}

theorem rowLo_eq (h : t.regions[a]? = some r) : rowLo t a = r.base := by
  rw [rowLo, h]
  rfl

theorem rowHi_eq (h : t.regions[a]? = some r) : rowHi t a = r.base + r.size := by
  rw [rowHi, h]
  rfl

theorem MemblockType.exists_region (h : a < t.cnt) : ∃ r, t.regions[a]? = some r ∧ r ∈ t.regions :=
  ⟨t.regions[a], List.getElem?_eq_getElem h, getElem_mem h⟩

namespace MemblockType.RepInv

theorem rowLo_le_rowHi (h : a < t.cnt) : rowLo t a ≤ rowHi t a := by
  obtain ⟨r, hr, -⟩ := t.exists_region h
  rw [rowLo_eq hr, rowHi_eq hr]
  exact le_add_right _ _

theorem rowHi_le_rowLo (ht : t.RepInv w) (h : a < b) (hb : b < t.cnt) : rowHi t a ≤ rowLo t b := by
  have ha : a < t.regions.length := h.trans hb
  have hapart := pairwise_iff_getElem.mp ht.disjoint a b ha hb h
  rwa [rowHi_eq (List.getElem?_eq_getElem ha), rowLo_eq (List.getElem?_eq_getElem hb)]

theorem rowHi_le_max (ht : t.RepInv w) (h : a < t.cnt) : rowHi t a ≤ physAddrMax w := by
  obtain ⟨r, hr, hmem⟩ := t.exists_region h
  rw [rowHi_eq hr]
  exact ht.no_wrap r hmem

theorem colStart_le_colStop (ht : t.RepInv w) (h : b < t.cnt + 1) :
    colStart t b ≤ colStop w t b := by
  unfold colStart colStop
  split_ifs with hzero hcnt hcnt
  · exact zero_le _
  · exact zero_le _
  · exact ht.rowHi_le_rowLo (by omega) hcnt
  · exact ht.rowHi_le_max (by omega)

theorem colStop_le_colStart (ht : t.RepInv w) (h : a < b) (hb : b < t.cnt + 1) :
    colStop w t a ≤ colStart t b := by
  rw [colStop, if_pos (by omega), colStart, if_neg (by omega)]
  have hhi : rowLo t a ≤ rowHi t a := rowLo_le_rowHi (by omega)
  rcases lt_or_ge a (b - 1) with hlt | hge
  · exact (hhi.trans (ht.rowHi_le_rowLo hlt (by omega))).trans (rowLo_le_rowHi (by omega))
  · rwa [show b - 1 = a by omega]

end MemblockType.RepInv

end

/-- The regions of `memory` that are not skipped, against the areas between those of `reserved`. -/
def freeWalk {w : ℕ} {memory reserved : MemblockType} (hmem : memory.RepInv w)
    (hres : reserved.RepInv w) (nid : ℤ) (flags : MemblockFlags) : Lockstep where
  n := memory.cnt
  m := reserved.cnt + 1
  accept a := ∃ r, memory.regions[a]? = some r ∧ shouldSkipRegion r nid flags = false
  lo := rowLo memory
  hi := rowHi memory
  start := colStart reserved
  stop := colStop w reserved
  lo_le_hi := MemblockType.RepInv.rowLo_le_rowHi
  hi_le_lo := hmem.rowHi_le_rowLo
  start_le_stop := hres.colStart_le_colStop
  stop_le_start := hres.colStop_le_colStart

/-- The range of a pair. -/
def rangeAt (w : ℕ) (memory reserved : MemblockType) (x : ℕ × ℕ) : MemRange :=
  ⟨max (rowLo memory x.1) (colStart reserved x.2), min (rowHi memory x.1) (colStop w reserved x.2),
    (memory.regions[x.1]?.map MemblockRegion.nid).getD 0⟩

section

variable {w a b : ℕ} {memory reserved : MemblockType} {r : MemblockRegion}

theorem areaStart_eq (hres : reserved.RepInv w) (h : b < reserved.cnt + 1) :
    areaStart w reserved b = some (colStart reserved b) := by
  rcases b with _ | b
  · rfl
  obtain ⟨r, hr, hmem⟩ := reserved.exists_region (show b < reserved.cnt by omega)
  have hidx : ((b + 1 : ℕ) : ℤ) - 1 = b := by omega
  rw [areaStart, if_neg (by omega), hidx, Int.toNat_natCast, hr, colStart, if_neg (by omega),
    Nat.add_sub_cancel, rowHi_eq hr, Option.map_some, physAdd_of_lt (hres.no_wrap r hmem)]

theorem areaEnd_eq (w : ℕ) (reserved : MemblockType) (b : ℕ) :
    areaEnd w reserved b = some (colStop w reserved b) := by
  by_cases h : b < reserved.cnt
  · obtain ⟨r, hr, -⟩ := reserved.exists_region h
    rw [areaEnd, if_pos (by omega), Int.toNat_natCast, hr, colStop, if_pos h, rowLo_eq hr,
      Option.map_some]
  · rw [areaEnd, if_neg (by omega), colStop, if_neg h]

theorem rangeAt_eq (hr : memory.regions[a]? = some r) :
    rangeAt w memory reserved (a, b) =
      ⟨max r.base (colStart reserved b), min (r.base + r.size) (colStop w reserved b), r.nid⟩ := by
  rw [rangeAt, rowLo_eq hr, rowHi_eq hr, hr]
  rfl

/-! ## Forwards -/

variable (s : Lockstep)

/-- How the scan of the areas for row `a` ends, from column `b`. -/
def ScanEnd (range : ℕ × ℕ → MemRange) (a b : ℕ) : AreaScan → Prop
  | .passed idxB => ∃ b' : ℕ, idxB = b' ∧ b' ≤ s.m ∧ b ≤ b' ∧
      ∀ x, s.From a b x ↔ s.From (a + 1) b' x
  | .found idxA idxB rg => ∃ (x : ℕ × ℕ) (a' b' : ℕ), idxA = a' ∧ idxB = b' ∧ rg = range x ∧
      IsFirst Before (s.From a b) (some x) ∧ a' ≤ s.n ∧ b' < s.m ∧ a + b < a' + b' ∧
        ∀ y, s.From a b y ∧ Before x y ↔ s.From a' b' y

variable {nid : ℤ} {flags : MemblockFlags} (hmem : memory.RepInv w) (hres : reserved.RepInv w)

/-- The scan of the areas for row `a` is at an area from column `b₀` on, and the hits from there on
are the ones it started with. -/
def AreaAt (a b₀ v : ℕ) (idxB : ℤ) : Prop :=
  ∃ b : ℕ, idxB = b ∧ b ≤ s.m ∧ b₀ ≤ b ∧ v = s.m - b ∧ ∀ x, s.From a b₀ x ↔ s.From a b x

/-- A round of the scan. -/
theorem areaRound_step (hr : memory.regions[a]? = some r)
    (hskip : shouldSkipRegion r nid flags = false) (b0 : ℕ) :
    RoundKeeps (areaRound w reserved r a) (AreaAt (freeWalk hmem hres nid flags) a b0)
      fun o => ∃ e, o = some e ∧
        ScanEnd (freeWalk hmem hres nid flags) (rangeAt w memory reserved) a b0 e := by
  rintro v _ ⟨b, rfl, hb, hb0, rfl, hfrom⟩
  change b ≤ reserved.cnt + 1 at hb
  have ha : a < memory.cnt := (List.getElem?_eq_some_iff.mp hr).1
  have hend := physAdd_of_lt (hmem.no_wrap r (mem_of_getElem? hr))
  rcases hb.eq_or_lt with rfl | hlt
  · -- All areas are passed.
    refine .inr ⟨_, by rw [areaRound, if_neg (by omega)], .passed _, rfl, reserved.cnt + 1, rfl,
      le_rfl, hb0, fun x => (hfrom x).trans (from_row fun y hy _ hle => ?_)⟩
    exact absurd hy.col (not_lt.mpr hle)
  have hround : areaRound w reserved r a b =
      if colStart reserved b ≥ rowHi memory a then .done (some (.passed b))
      else if rowLo memory a < colStop w reserved b then
        if rowHi memory a ≤ colStop w reserved b then
          .done (some (.found (a + 1) b (rangeAt w memory reserved (a, b))))
        else .done (some (.found a (b + 1) (rangeAt w memory reserved (a, b))))
      else .again (b + 1) := by
    simp only [areaRound, areaStart_eq hres hlt, areaEnd_eq, hend, rangeAt_eq hr, rowLo_eq hr,
      rowHi_eq hr, if_pos (show (0 : ℤ) ≤ b ∧ (b : ℤ) < reserved.cnt + 1 by omega)]
  have hfirst : (freeWalk hmem hres nid flags).Hit (a, b) →
      IsFirst Before ((freeWalk hmem hres nid flags).From a b0) (some (a, b)) := fun h =>
    (isFirst_from h).congr fun x => (hfrom x).symm
  rw [hround]
  split_ifs with hpassed hmeet hle
  · exact .inr ⟨_, rfl, _, rfl, b, rfl, hb, hb0, fun x => (hfrom x).trans (from_row_of_le hpassed)⟩
  · refine .inr ⟨_, rfl, _, rfl, (a, b), a + 1, b, rfl, rfl, rfl,
      hfirst ⟨ha, hlt, ⟨r, hr, hskip⟩, Nat.lt_of_not_le hpassed, hmeet⟩, ha, hlt, by omega,
      fun y => ?_⟩
    rw [hfrom y]
    exact from_next_row hle
  · -- The last area goes up to the end, so this is not the last one.
    have hlast : b + 1 < reserved.cnt + 1 := by
      by_contra hge
      rw [colStop, if_neg (by omega)] at hle
      exact hle (hmem.rowHi_le_max ha)
    refine .inr ⟨_, rfl, _, rfl, (a, b), a, b + 1, rfl, rfl, rfl,
      hfirst ⟨ha, hlt, ⟨r, hr, hskip⟩, Nat.lt_of_not_le hpassed, hmeet⟩, ha.le, hlast, by omega,
      fun y => ?_⟩
    rw [hfrom y]
    exact from_next_col (Nat.le_of_not_le hle)
  · exact .inl ⟨_, reserved.cnt + 1 - (b + 1), rfl, by change _ < reserved.cnt + 1 - b; omega,
      b + 1, rfl, hlt, by omega, rfl,
      fun x => (hfrom x).trans (from_col_of_le (Nat.le_of_not_lt hmeet))⟩

theorem MemblockType.RepInv.cnt_lt (h : memory.RepInv w) : memory.cnt < 2 ^ 31 :=
  lt_of_le_of_lt h.cnt_le_max h.max_lt

/-- The scan of the areas for a region that is not skipped. -/
theorem areaScan_spec (hr : memory.regions[a]? = some r)
    (hskip : shouldSkipRegion r nid flags = false) (hb : b ≤ reserved.cnt + 1) :
    ∃ e, (runLoop (areaRound w reserved r a) memblockFuel b).join = some e ∧
      ScanEnd (freeWalk hmem hres nid flags) (rangeAt w memory reserved) a b e := by
  have hcnt := hres.cnt_lt
  obtain ⟨o, hrun, e, rfl, hend⟩ := runLoop_of_rank (areaRound_step hmem hres hr hskip b)
    ⟨b, rfl, hb, le_rfl, rfl, fun _ => Iff.rfl⟩ (n := memblockFuel)
    (by change reserved.cnt + 1 - b < _; unfold memblockFuel; omega)
  exact ⟨e, by rw [hrun]; rfl, hend⟩

/-- What a call answers that is to find the first element of `P` in the order `r` : it is at an
end, or it gives the range of that element and an index for the rest, at a lower rank. -/
def NextAnswer (r : ℕ × ℕ → ℕ × ℕ → Prop) (range : ℕ × ℕ → MemRange) (P : ℕ × ℕ → Prop) (k : ℕ)
    (Q : BitVec 64 → (ℕ × ℕ → Prop) → ℕ → Prop) (q : BitVec 64 × Option MemRange) : Prop :=
  q = (ullongMax, none) ∧ IsFirst r P none ∨
    ∃ x idx P' k', q = (idx, some (range x)) ∧ IsFirst r P (some x) ∧ idx ≠ ullongMax ∧ k' < k ∧
      Q idx P' k' ∧ ∀ y, P y ∧ r x y ↔ P' y

/-- An index of the forward iteration, and the hits still to come. -/
def ForwardAt (idx : BitVec 64) (P : ℕ × ℕ → Prop) (k : ℕ) : Prop :=
  ∃ a b : ℕ, idx = packIdx a b ∧ a ≤ s.n ∧ b < s.m ∧ P = s.From a b ∧ k = s.n + s.m - (a + b)

/-- A row that is skipped. -/
theorem freeWalk_not_accept (hr : memory.regions[a]? = some r)
    (hskip : shouldSkipRegion r nid flags = true) : ¬(freeWalk hmem hres nid flags).accept a := by
  rintro ⟨r', hr', hskip'⟩
  rw [hr, Option.some_inj] at hr'
  rw [← hr', hskip] at hskip'
  exact Bool.false_ne_true hskip'.symm

/-- The loop over the regions is at indices from which on the hits are the ones it started with. -/
def RangeAt (a₀ b₀ v : ℕ) (st : ℤ × ℤ) : Prop :=
  ∃ a b : ℕ, st = ((a : ℤ), (b : ℤ)) ∧ a ≤ s.n ∧ b ≤ s.m ∧ a₀ + b₀ ≤ a + b ∧ v = s.n - a ∧
    ∀ x, s.From a₀ b₀ x ↔ s.From a b x

/-- A round of the loop over the regions. -/
theorem rangeRound_step (a0 b0 : ℕ) :
    RoundKeeps (rangeRound w nid flags memory (some reserved))
      (RangeAt (freeWalk hmem hres nid flags) a0 b0)
      fun o => ∃ q, o = some q ∧
        NextAnswer Before (rangeAt w memory reserved) ((freeWalk hmem hres nid flags).From a0 b0)
          (memory.cnt + (reserved.cnt + 1) - (a0 + b0))
          (ForwardAt (freeWalk hmem hres nid flags)) q := by
  have hcnt := hmem.cnt_lt
  have hcnt' := hres.cnt_lt
  rintro v _ ⟨a, b, rfl, ha, hb, hle, rfl, hfrom⟩
  change a ≤ memory.cnt at ha
  rcases ha.eq_or_lt with rfl | hlt
  · refine .inr ⟨_, by rw [rangeRound, if_neg (by omega)], _, rfl, .inl ⟨rfl, fun x hx => ?_⟩⟩
    exact from_nil_of_row le_rfl ((hfrom x).mp hx)
  have hv : memory.cnt - (a + 1) < memory.cnt - a := by omega
  obtain ⟨r, hr, -⟩ := memory.exists_region hlt
  by_cases hskip : shouldSkipRegion r nid flags = true
  · refine .inl ⟨((a : ℤ) + 1, b), memory.cnt - (a + 1), ?_, hv, a + 1, b, rfl, hlt, hb,
      by omega, rfl, fun x => (hfrom x).trans (from_row_of_not_accept ?_)⟩
    · simp only [rangeRound, Int.toNat_natCast, hr, hskip, if_true,
        if_pos (show (0 : ℤ) ≤ a ∧ (a : ℤ) < memory.cnt by omega)]
    · exact freeWalk_not_accept hmem hres hr hskip
  have hskip' := Bool.eq_false_iff.mpr hskip
  obtain ⟨e, hscan, hend⟩ := areaScan_spec hmem hres hr hskip' hb
  have hrun : rangeRound w nid flags memory (some reserved) (a, b) =
      match e with
      | .passed idxB => .again ((a : ℤ) + 1, idxB)
      | .found idxA idxB range => .done (some (packIdx idxA idxB, some range)) := by
    simp only [rangeRound, Int.toNat_natCast, hr, hskip', hscan, Bool.false_eq_true, if_false,
      if_pos (show (0 : ℤ) ≤ a ∧ (a : ℤ) < memory.cnt by omega)]
    rcases e with _ | _ <;> rfl
  rw [hrun]
  rcases e with idxB | ⟨idxA, idxB, range⟩
  · obtain ⟨b', rfl, hb', hbb', hfrom'⟩ := hend
    exact .inl ⟨_, memory.cnt - (a + 1), rfl, hv, a + 1, b', rfl, hlt, hb', by omega, rfl,
      fun x => (hfrom x).trans (hfrom' x)⟩
  obtain ⟨x, a', b', rfl, rfl, rfl, hfirst, ha', hb', hlt', hnext⟩ := hend
  change a' ≤ memory.cnt at ha'
  change b' < reserved.cnt + 1 at hb'
  refine .inr ⟨_, rfl, _, rfl, .inr ⟨x, _, _, memory.cnt + (reserved.cnt + 1) - (a' + b'), rfl,
    hfirst.congr fun y => (hfrom y).symm, packIdx_ne_ullongMax (by omega) (by omega) (by omega)
    (by omega) (by omega), by omega, ⟨a', b', rfl, ha', hb', rfl, rfl⟩, fun y => ?_⟩⟩
  rw [hfrom y]
  exact hnext y

/-- `__next_mem_range` finds the first hit from its indices on. -/
theorem nextMemRange_spec (nid : ℤ) (flags : MemblockFlags) {idx : BitVec 64} {P : ℕ × ℕ → Prop}
    {k : ℕ}
    (h : ForwardAt (freeWalk hmem hres (anyNode nid) flags) idx P k) :
    ∃ q, nextMemRange w nid flags memory (some reserved) idx = some q ∧
      NextAnswer Before (rangeAt w memory reserved) P k
        (ForwardAt (freeWalk hmem hres (anyNode nid) flags)) q := by
  obtain ⟨a, b, rfl, ha, hb, rfl, rfl⟩ := h
  have hcnt := hmem.cnt_lt
  have hcnt' := hres.cnt_lt
  change a ≤ memory.cnt at ha
  change b < reserved.cnt + 1 at hb
  obtain ⟨o, hrun, q, rfl, hq⟩ := runLoop_of_rank (rangeRound_step hmem hres a b)
    ⟨a, b, rfl, ha, hb.le, le_rfl, rfl, fun _ => Iff.rfl⟩ (n := memblockFuel)
    (by change memory.cnt - a < _; unfold memblockFuel; omega)
  refine ⟨q, ?_, hq⟩
  rw [nextMemRange, lowIdx_packIdx (by omega) (by omega), highIdx_packIdx (by omega) (by omega),
    hrun]
  rfl

/-! ## Backwards -/

/-- How the backward scan of the areas for row `a` ends, below column `b`. -/
def ScanEndRev (range : ℕ × ℕ → MemRange) (a b : ℕ) : AreaScan → Prop
  | .passed idxB => ∃ b' : ℕ, idxB = b' - 1 ∧ b' ≤ b ∧ ∀ x, s.Below (a + 1) b x ↔ s.Below a b' x
  | .found idxA idxB rg => ∃ (x : ℕ × ℕ) (a' b' : ℕ), idxA = a' - 1 ∧ idxB = b' - 1 ∧ rg = range x ∧
      IsFirst (fun x y => Before y x) (s.Below (a + 1) b) (some x) ∧ a' ≤ a + 1 ∧ 1 ≤ b' ∧
        b' ≤ b ∧ a' + b' < a + 1 + b ∧ ∀ y, s.Below (a + 1) b y ∧ Before y x ↔ s.Below a' b' y

/-- The backward scan is below an area, and the hits there are the ones it started with. -/
def AreaBelow (a b₀ v : ℕ) (idxB : ℤ) : Prop :=
  ∃ b : ℕ, idxB = b - 1 ∧ b ≤ b₀ ∧ b = v ∧ ∀ x, s.Below (a + 1) b₀ x ↔ s.Below (a + 1) b x

/-- A round of the backward scan. -/
theorem areaRoundRev_step (hr : memory.regions[a]? = some r)
    (hskip : shouldSkipRegion r nid flags = false) {b0 : ℕ} (hb0 : b0 ≤ reserved.cnt + 1) :
    RoundKeeps (areaRoundRev w reserved r a) (AreaBelow (freeWalk hmem hres nid flags) a b0)
      fun o => ∃ e, o = some e ∧
        ScanEndRev (freeWalk hmem hres nid flags) (rangeAt w memory reserved) a b0 e := by
  rintro v _ ⟨b, rfl, hb, rfl, hbelow⟩
  have ha : a < memory.cnt := (List.getElem?_eq_some_iff.mp hr).1
  have hend := physAdd_of_lt (hmem.no_wrap r (mem_of_getElem? hr))
  rcases b with _ | b
  · -- All areas are passed.
    refine .inr ⟨_, by rw [areaRoundRev, if_neg (by omega)], .passed _, rfl, 0, rfl, hb,
      fun x => (hbelow x).trans (iff_of_false below_nil_col below_nil_col)⟩
  have hidx : ((b + 1 : ℕ) : ℤ) - 1 = b := by omega
  have hlt : b < reserved.cnt + 1 := by omega
  have hround : areaRoundRev w reserved r a b =
      if colStop w reserved b ≤ rowLo memory a then .done (some (.passed b))
      else if rowHi memory a > colStart reserved b then
        if rowLo memory a ≥ colStart reserved b then
          .done (some (.found ((a : ℤ) - 1) b (rangeAt w memory reserved (a, b))))
        else .done (some (.found a ((b : ℤ) - 1) (rangeAt w memory reserved (a, b))))
      else .again ((b : ℤ) - 1) := by
    simp only [areaRoundRev, areaStart_eq hres hlt, areaEnd_eq, hend, rangeAt_eq hr, rowLo_eq hr,
      rowHi_eq hr, if_pos (show (0 : ℤ) ≤ b by omega)]
  have hfirst : (freeWalk hmem hres nid flags).Hit (a, b) → IsFirst (fun x y => Before y x)
      ((freeWalk hmem hres nid flags).Below (a + 1) b0) (some (a, b)) := fun h =>
    (isFirst_below h).congr fun x => (hbelow x).symm
  rw [hidx, hround]
  split_ifs with hpassed hmeet hle
  · exact .inr ⟨_, rfl, .passed _, rfl, b + 1, hidx.symm, hb,
      fun x => (hbelow x).trans (below_row_of_le hlt hpassed)⟩
  · have h : (freeWalk hmem hres nid flags).Hit (a, b) :=
      ⟨ha, hlt, ⟨r, hr, hskip⟩, hmeet, Nat.lt_of_not_le hpassed⟩
    refine .inr ⟨_, rfl, .found _ _ _, rfl, (a, b), a, b + 1, rfl, hidx.symm, rfl, hfirst h,
      by omega, by omega, hb, by omega, fun y => ?_⟩
    rw [hbelow y]
    exact below_next_row h hle
  · -- The first area starts at `0`, so this is not the first one.
    have hzero : b ≠ 0 := fun hzero => hle (by rw [hzero]; exact zero_le _)
    have h : (freeWalk hmem hres nid flags).Hit (a, b) :=
      ⟨ha, hlt, ⟨r, hr, hskip⟩, hmeet, Nat.lt_of_not_le hpassed⟩
    refine .inr ⟨_, rfl, .found _ _ _, rfl, (a, b), a + 1, b, by omega, rfl, rfl, hfirst h, le_rfl,
      by omega, by omega, by omega, fun y => ?_⟩
    rw [hbelow y]
    exact below_next_col h (Nat.le_of_not_le hle)
  · exact .inl ⟨_, b, rfl, Nat.lt_succ_self b, b, rfl, by omega, rfl,
      fun x => (hbelow x).trans (below_col_of_le ha (Nat.le_of_not_lt hmeet))⟩

theorem areaScanRev_spec (hr : memory.regions[a]? = some r)
    (hskip : shouldSkipRegion r nid flags = false) (hb : b ≤ reserved.cnt + 1) :
    ∃ e, (runLoop (areaRoundRev w reserved r a) memblockFuel ((b : ℤ) - 1)).join = some e ∧
      ScanEndRev (freeWalk hmem hres nid flags) (rangeAt w memory reserved) a b e := by
  have hcnt := hres.cnt_lt
  obtain ⟨o, hrun, e, rfl, hend⟩ := runLoop_of_rank (areaRoundRev_step hmem hres hr hskip hb)
    ⟨b, rfl, le_rfl, rfl, fun _ => Iff.rfl⟩ (n := memblockFuel) (by unfold memblockFuel; omega)
  exact ⟨e, by rw [hrun]; rfl, hend⟩

/-- An index of the backward iteration, and the hits still to come. -/
def BackwardAt (idx : BitVec 64) (P : ℕ × ℕ → Prop) (k : ℕ) : Prop :=
  idx = ullongMax ∧ P = s.Below s.n s.m ∧ k = s.n + s.m ∨
    ∃ a b : ℕ, idx = packIdx (a - 1) (b - 1) ∧ a ≤ s.n ∧ 1 ≤ b ∧ b ≤ s.m ∧ P = s.Below a b ∧
      k = a + b

/-- The backward loop over the regions finds the last hit below its indices. -/
theorem rangeLoopRev_spec {a0 b0 : ℕ} (ha0 : a0 ≤ memory.cnt) (hb0 : b0 ≤ reserved.cnt + 1) :
    ∃ q, (runLoop (rangeRoundRev w nid flags memory (some reserved)) memblockFuel
        ((a0 : ℤ) - 1, (b0 : ℤ) - 1)).join = some q ∧
      NextAnswer (fun x y => Before y x) (rangeAt w memory reserved)
        ((freeWalk hmem hres nid flags).Below a0 b0) (a0 + b0)
        (BackwardAt (freeWalk hmem hres nid flags)) q := by
  have hcnt := hmem.cnt_lt
  have hcnt' := hres.cnt_lt
  have hround : RoundKeeps (rangeRoundRev w nid flags memory (some reserved))
      (fun v st => ∃ a b : ℕ, st = ((a : ℤ) - 1, (b : ℤ) - 1) ∧ a ≤ a0 ∧ b ≤ b0 ∧ a = v ∧
        ∀ x, (freeWalk hmem hres nid flags).Below a0 b0 x ↔
          (freeWalk hmem hres nid flags).Below a b x)
      fun o => ∃ q, o = some q ∧
        NextAnswer (fun x y => Before y x) (rangeAt w memory reserved)
          ((freeWalk hmem hres nid flags).Below a0 b0) (a0 + b0)
          (BackwardAt (freeWalk hmem hres nid flags)) q := by
    rintro v st ⟨a, b, rfl, ha, hb, rfl, hbelow⟩
    rcases a with _ | a
    · refine .inr ⟨_, by rw [rangeRoundRev, if_neg (by omega)], _, rfl,
        .inl ⟨rfl, fun x hx => below_nil_row ((hbelow x).mp hx)⟩⟩
    have hidx : ((a + 1 : ℕ) : ℤ) - 1 = a := by omega
    obtain ⟨r, hr, -⟩ := memory.exists_region (show a < memory.cnt by omega)
    rw [hidx]
    by_cases hskip : shouldSkipRegion r nid flags = true
    · refine .inl ⟨((a : ℤ) - 1, (b : ℤ) - 1), a, ?_, lt_succ_self a, a, b, rfl, by omega, hb,
        rfl, fun x => (hbelow x).trans (below_row_of_not_accept ?_)⟩
      · simp [rangeRoundRev, Int.toNat_natCast, hr, hskip]
      · exact freeWalk_not_accept hmem hres hr hskip
    have hskip' := Bool.eq_false_iff.mpr hskip
    obtain ⟨e, hscan, hend⟩ := areaScanRev_spec hmem hres hr hskip' (hb.trans hb0)
    have hrun : rangeRoundRev w nid flags memory (some reserved) (a, (b : ℤ) - 1) =
        match e with
        | .passed idxB => .again ((a : ℤ) - 1, idxB)
        | .found idxA idxB range => .done (some (packIdx idxA idxB, some range)) := by
      simp only [rangeRoundRev, Int.toNat_natCast, hr, hskip', hscan, Bool.false_eq_true, if_false,
        if_pos (show (0 : ℤ) ≤ a by omega)]
      rcases e with _ | _ <;> rfl
    rw [hrun]
    rcases e with idxB | ⟨idxA, idxB, range⟩
    · obtain ⟨b', rfl, hb', hbelow'⟩ := hend
      exact .inl ⟨_, a, rfl, lt_succ_self a, a, b', rfl, by omega, hb'.trans hb, rfl,
        fun x => (hbelow x).trans (hbelow' x)⟩
    obtain ⟨x, a', b', rfl, rfl, rfl, hfirst, ha', hb', hb'', hlt', hnext⟩ := hend
    refine .inr ⟨_, rfl, _, rfl, .inr ⟨x, _, _, a' + b', rfl,
      hfirst.congr fun y => (hbelow y).symm, packIdx_ne_ullongMax (by omega) (by omega) (by omega)
      (by omega) (by omega), by omega, .inr ⟨a', b', rfl, ?_, hb', ?_, rfl, rfl⟩, fun y => ?_⟩⟩
    · show a' ≤ memory.cnt
      omega
    · show b' ≤ reserved.cnt + 1
      omega
    · rw [hbelow y]
      exact hnext y
  obtain ⟨o, hrun, q, rfl, hq⟩ := runLoop_of_rank hround
    ⟨a0, b0, rfl, le_rfl, le_rfl, rfl, fun _ => Iff.rfl⟩ (n := memblockFuel)
    (by unfold memblockFuel; omega)
  exact ⟨q, by rw [hrun]; rfl, hq⟩

/-- `__next_mem_range_rev` finds the last hit below its indices. -/
theorem nextMemRangeRev_spec (nid : ℤ) (flags : MemblockFlags) {idx : BitVec 64} {P : ℕ × ℕ → Prop}
    {k : ℕ}
    (h : BackwardAt (freeWalk hmem hres (anyNode nid) flags) idx P k) :
    ∃ q, nextMemRangeRev w nid flags memory (some reserved) idx = some q ∧
      NextAnswer (fun x y => Before y x) (rangeAt w memory reserved) P k
        (BackwardAt (freeWalk hmem hres (anyNode nid) flags)) q := by
  have hcnt := hmem.cnt_lt
  have hcnt' := hres.cnt_lt
  rcases h with ⟨rfl, rfl, rfl⟩ | ⟨a, b, rfl, ha, hb, hb', rfl, rfl⟩
  · obtain ⟨q, hrun, hq⟩ := rangeLoopRev_spec hmem hres le_rfl
      le_rfl
    refine ⟨q, ?_, hq⟩
    rw [nextMemRangeRev, if_pos rfl]
    rwa [show ((reserved.cnt + 1 : ℕ) : ℤ) - 1 = reserved.cnt by omega] at hrun
  change a ≤ memory.cnt at ha
  change b ≤ reserved.cnt + 1 at hb'
  obtain ⟨q, hrun, hq⟩ := rangeLoopRev_spec hmem hres ha hb'
  refine ⟨q, ?_, hq⟩
  rw [nextMemRangeRev, if_neg (packIdx_ne_ullongMax (by omega) (by omega) (by omega) (by omega)
    (by omega)), lowIdx_packIdx (by omega) (by omega), highIdx_packIdx (by omega) (by omega)]
  exact hrun

/-! ## Both iterations -/

/-- An iteration whose calls find the first elements lists them. -/
theorem forEachRange_lists {next : BitVec 64 → Option (BitVec 64 × Option MemRange)}
    {order : ℕ × ℕ → ℕ × ℕ → Prop} {range : ℕ × ℕ → MemRange}
    {Q : BitVec 64 → (ℕ × ℕ → Prop) → ℕ → Prop}
    (hnext : ∀ idx P k, Q idx P k → ∃ q, next idx = some q ∧ NextAnswer order range P k Q q) :
    ∀ {fuel : ℕ} {idx : BitVec 64} {P : ℕ × ℕ → Prop} {k : ℕ}, Q idx P k → k < fuel →
      ∃ l, forEachRange next fuel idx = some (l.map range) ∧ Lists order P l
  | 0, _, _, _, _, hk => absurd hk (not_lt_zero _)
  | fuel + 1, idx, P, k, hQ, hk => by
    obtain ⟨q, hq, ⟨rfl, hnone⟩ | ⟨x, idx', P', k', rfl, hfirst, hne, hk', hQ', hrest⟩⟩ :=
      hnext idx P k hQ
    · exact ⟨[], by rw [forEachRange, hq]; rfl, lists_nil hnone⟩
    obtain ⟨l, hl, hlists⟩ := forEachRange_lists hnext hQ' (show k' < fuel by omega)
    refine ⟨x :: l, ?_, Lists.cons hfirst (hlists.congr fun y => (hrest y).symm)⟩
    rw [forEachRange, hq, Option.bind_some]
    simp [if_neg hne, hl]

theorem Lists.reverse {κ : Type*} {r : κ → κ → Prop} {P : κ → Prop} {l : List κ}
    (h : Lists (fun x y => r y x) P l) : Lists r P l.reverse :=
  ⟨pairwise_reverse.mpr h.sorted, fun x => mem_reverse.trans (h.mem x)⟩

/-- Both iterations list the hits. -/
theorem forEachFreeMemRange_lists (nid : ℤ) (flags : MemblockFlags) :
    ∃ l, forEachFreeMemRange w memory reserved nid flags =
        some (l.map (rangeAt w memory reserved)) ∧
      forEachFreeMemRangeReverse w memory reserved nid flags =
        some (l.map (rangeAt w memory reserved)).reverse ∧
      Lists Before (freeWalk hmem hres (anyNode nid) flags).Hit l := by
  have hcnt := hmem.cnt_lt
  have hcnt' := hres.cnt_lt
  have hfuel : memory.cnt + (reserved.cnt + 1) < memblockFuel := by unfold memblockFuel; omega
  obtain ⟨l, hl, hlists⟩ := forEachRange_lists
    (Q := ForwardAt (freeWalk hmem hres (anyNode nid) flags))
    (fun idx P k => nextMemRange_spec hmem hres nid flags)
    ⟨0, 0, rfl, zero_le _, succ_pos _, rfl, rfl⟩ hfuel
  obtain ⟨l', hl', hlists'⟩ := forEachRange_lists
    (Q := BackwardAt (freeWalk hmem hres (anyNode nid) flags))
    (fun idx P k => nextMemRangeRev_spec hmem hres nid flags)
    (.inl ⟨rfl, rfl, rfl⟩) hfuel
  have hsame : l'.reverse = l := (hlists'.reverse.congr fun x => below_all _).unique
      (hlists.congr fun x => from_zero _)
  refine ⟨l, hl, ?_, hlists.congr fun x => from_zero _⟩
  rw [forEachFreeMemRangeReverse, hl', ← hsame, map_reverse, reverse_reverse]

/-- The areas cover what is not in a region. -/
theorem MemblockType.RepInv.exists_area_iff {t : MemblockType} (ht : t.RepInv w) {x : ℕ}
    (hx : x < physAddrMax w) :
    (∃ b, b < t.cnt + 1 ∧ colStart t b ≤ x ∧ x < colStop w t b) ↔ ¬t.Contains x := by
  refine ⟨?_, fun hfree => ?_⟩
  · rintro ⟨b, hb, hstart, hstop⟩ ⟨r, hr, hle, hlt⟩
    obtain ⟨i, hi, rfl⟩ := mem_iff_getElem.mp hr
    have hlo := rowLo_eq (List.getElem?_eq_getElem hi)
    have hhi := rowHi_eq (List.getElem?_eq_getElem hi)
    rcases lt_or_ge i b with hib | hib
    · -- Region `i` ends where area `b` starts, or before.
      have hend : rowHi t i ≤ colStart t b := by
        rw [colStart, if_neg (by omega)]
        rcases lt_or_ge i (b - 1) with hlt' | hge
        · exact (ht.rowHi_le_rowLo hlt' (by omega)).trans (rowLo_le_rowHi (by omega))
        · rw [show b - 1 = i by omega]
      omega
    · have hi' : i < t.cnt := hi
      have hbase : colStop w t b ≤ rowLo t i := by
        rw [colStop, if_pos (lt_of_le_of_lt hib hi')]
        rcases hib.lt_or_eq with hlt' | rfl
        · exact (rowLo_le_rowHi (by omega)).trans (ht.rowHi_le_rowLo hlt' hi')
        · exact le_rfl
      omega
  · -- The first area that ends behind `x`.
    have hex : ∃ b, x < colStop w t b := ⟨t.cnt, by rwa [colStop, if_neg (lt_irrefl _)]⟩
    classical
    refine ⟨Nat.find hex, ?_, ?_, Nat.find_spec hex⟩
    · have hle : Nat.find hex ≤ t.cnt := Nat.find_min' hex (by rwa [colStop, if_neg (lt_irrefl _)])
      omega
    rcases hb : Nat.find hex with _ | b
    · exact Nat.zero_le _
    have hmin : ¬x < colStop w t b := Nat.find_min hex (by omega)
    have hlt : b < t.cnt := by
      by_contra hge
      rw [colStop, if_neg hge] at hmin
      exact hmin hx
    obtain ⟨r, hr, hmem⟩ := t.exists_region hlt
    rw [colStop, if_pos hlt, rowLo_eq hr, not_lt] at hmin
    rw [colStart, if_neg (Nat.succ_ne_zero b), Nat.add_sub_cancel, rowHi_eq hr]
    exact Nat.le_of_not_lt fun hend => hfree ⟨r, hmem, hmin, hend⟩

/-- The hits cover the addresses that are in a region that is not skipped and not reserved. -/
theorem exists_rangeAt_iff (x : ℕ) :
    (∃ p, (freeWalk hmem hres nid flags).Hit p ∧ (rangeAt w memory reserved p).Contains x) ↔
      (∃ m ∈ memory.regions, shouldSkipRegion m nid flags = false ∧ m.Contains x) ∧
        ¬reserved.Contains x := by
  have hrow : (∃ a, a < memory.cnt ∧ (∃ r, memory.regions[a]? = some r ∧
        shouldSkipRegion r nid flags = false) ∧ rowLo memory a ≤ x ∧ x < rowHi memory a) ↔
      ∃ m ∈ memory.regions, shouldSkipRegion m nid flags = false ∧ m.Contains x := by
    refine ⟨?_, ?_⟩
    · rintro ⟨a, -, ⟨r, hr, hskip⟩, hlo, hhi⟩
      rw [rowLo_eq hr] at hlo
      rw [rowHi_eq hr] at hhi
      exact ⟨r, mem_of_getElem? hr, hskip, hlo, hhi⟩
    · rintro ⟨r, hr, hskip, hlo, hhi⟩
      obtain ⟨a, ha, rfl⟩ := mem_iff_getElem.mp hr
      have hget := List.getElem?_eq_getElem ha
      exact ⟨a, ha, ⟨_, hget, hskip⟩, (rowLo_eq hget).trans_le hlo,
        hhi.trans_eq (rowHi_eq hget).symm⟩
  refine ((freeWalk hmem hres nid flags).exists_hit_iff x).trans ?_
  refine (and_congr_left' hrow).trans (and_congr_right ?_)
  rintro ⟨m, hm, -, -, hlt⟩
  exact hres.exists_area_iff (hlt.trans_le (hmem.no_wrap m hm))

/-- Both iterations end. The forward one yields ascending ranges that cover exactly the addresses
that are in a region that is not skipped and not reserved, and the backward one yields the same
ranges in the opposite order. -/
theorem forEachFreeMemRange_exact (hmem : memory.RepInv w) (hres : reserved.RepInv w) (nid : ℤ)
    (flags : MemblockFlags) :
    ∃ ranges, forEachFreeMemRange w memory reserved nid flags = some ranges ∧
      forEachFreeMemRangeReverse w memory reserved nid flags = some ranges.reverse ∧
      (∀ range ∈ ranges, range.start ≤ range.stop) ∧
      ranges.Pairwise (fun range range' => range.stop ≤ range'.start) ∧
      ∀ x, (∃ range ∈ ranges, range.Contains x) ↔
        (∃ m ∈ memory.regions, shouldSkipRegion m (anyNode nid) flags = false ∧ m.Contains x) ∧
          ¬reserved.Contains x := by
  obtain ⟨l, hforward, hbackward, hlists⟩ := forEachFreeMemRange_lists hmem hres nid flags
  refine ⟨_, hforward, hbackward, ?_, ?_, fun x => ?_⟩
  · rintro _ hrange
    obtain ⟨p, hp, rfl⟩ := mem_map.mp hrange
    exact ((hlists.mem p).mp hp).start_le_stop
  · rw [pairwise_map]
    exact hlists.sorted.imp_of_mem fun _ hy h => ((hlists.mem _).mp hy).apart h
  · rw [← exists_rangeAt_iff hmem hres]
    refine ⟨?_, ?_⟩
    · rintro ⟨_, hrange, hx⟩
      obtain ⟨p, hp, rfl⟩ := mem_map.mp hrange
      exact ⟨p, (hlists.mem p).mp hp, hx⟩
    · rintro ⟨p, hp, hx⟩
      exact ⟨_, mem_map_of_mem ((hlists.mem p).mpr hp), hx⟩

/-- Two regions, the second one on node `1`, and two reserved regions that meet : the iterations
see an empty range between them. -/
theorem forEachFreeMemRange_exact_adjacent :
    let memory : MemblockType := ⟨128, 192, [⟨0, 128, 0, 0⟩, ⟨128, 64, 0, 1⟩]⟩
    let reserved : MemblockType := ⟨128, 64, [⟨32, 32, 0, 0⟩, ⟨64, 32, 0, 1⟩]⟩
    forEachFreeMemRange 64 memory reserved numaNoNode 0 =
      some [⟨0, 32, 0⟩, ⟨64, 64, 0⟩, ⟨96, 128, 0⟩, ⟨128, 192, 1⟩] ∧
    ∃ ranges, forEachFreeMemRange 64 memory reserved numaNoNode 0 = some ranges ∧
      forEachFreeMemRangeReverse 64 memory reserved numaNoNode 0 = some ranges.reverse ∧
      (∀ range ∈ ranges, range.start ≤ range.stop) ∧
      ranges.Pairwise (fun range range' => range.stop ≤ range'.start) ∧
      ∀ x, (∃ range ∈ ranges, range.Contains x) ↔
        (∃ m ∈ memory.regions, shouldSkipRegion m (anyNode numaNoNode) 0 = false ∧ m.Contains x) ∧
          ¬reserved.Contains x := by
  refine ⟨by decide +kernel, forEachFreeMemRange_exact ?_ ?_ numaNoNode 0⟩
  · exact ⟨by decide, by decide, by decide, by decide, by decide, by decide, by decide, by decide⟩
  · exact ⟨by decide, by decide, by decide, by decide, by decide, by decide, by decide, by decide⟩

end

end LinuxKernelTest
