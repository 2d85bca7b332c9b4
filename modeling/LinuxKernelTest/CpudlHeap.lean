import LinuxKernelTest.Cpudl

/-!
# The heap of CPU deadlines is a heap

The positions of the heap are the pairs of `cpu` and `dl` (`cell`), and the index is `idx`
(`slot`). A sift is in a state where one element is kept aside : with that element put into the
hole, and its position into the index, the array is linked and ordered but for the hole
(`cpudlHeapifyUp_spec`, `cpudlHeapifyDown_spec`).

Deadlines are compared by the sign of their difference. Less than `2 ^ 63` apart, this is the
order of the numbers (`dlTimeBefore_iff`).
-/

namespace LinuxKernelTest

open Function List Option Nat CpudlOp BitVec Prod

/-! ## Deadlines -/

/-- All deadlines of the map are less than `2 ^ 63` apart. -/
def Close (m : ℕ → Option (BitVec 64)) : Prop :=
  ∀ c c' d d', m c = some d → m c' = some d' → d.toNat < d'.toNat + 2 ^ 63

section

variable {nr n i size : ℕ} {e e' : ℕ → CpudlItem} {V : ℕ → Prop} {m : ℕ → Option (BitVec 64)}
  {c c' : ℕ}

theorem dlTimeBefore_iff {a b : BitVec 64} (h : a.toNat < b.toNat + 2 ^ 63)
    (h' : b.toNat < a.toNat + 2 ^ 63) : dlTimeBefore a b = true ↔ a.toNat < b.toNat := by
  have ha := a.isLt
  have hb := b.isLt
  rw [dlTimeBefore, decide_eq_true_iff, toInt_eq_toNat_cond, toNat_sub]
  split_ifs with hlt <;> omega

theorem Close.before_iff (hm : Close m) {d d' : BitVec 64} (h : m c = some d)
    (h' : m c' = some d') : dlTimeBefore d d' = true ↔ d.toNat < d'.toNat :=
  dlTimeBefore_iff (hm c c' d d' h h') (hm c' c d' d h' h)

/-! ## The array -/

/-- Position `i` of the heap. -/
def heapCell (e : ℕ → CpudlItem) (i : ℕ) : ℕ × BitVec 64 := ((e i).cpu, (e i).dl)

/-- The index. -/
def heapSlot (e : ℕ → CpudlItem) (c : ℕ) : ℤ := (e c).idx

/-- The keys of the heap. -/
def heapKey (g : ℕ → ℕ × BitVec 64) (i : ℕ) : ℕ := (g i).2.toNat

theorem itemAt_of_lt (h : i < nr) : itemAt nr e i = some (e i) := if_pos h

theorem heapCell_update (e : ℕ → CpudlItem) (i : ℕ) (x : CpudlItem) :
    heapCell (update e i x) = update (heapCell e) i (x.cpu, x.dl) :=
  comp_update (fun x : CpudlItem => (x.cpu, x.dl)) e i x

theorem heapSlot_update (e : ℕ → CpudlItem) (i : ℕ) (x : CpudlItem) :
    heapSlot (update e i x) = update (heapSlot e) i x.idx :=
  comp_update CpudlItem.idx e i x

/-- Writing an element sets a position and the index, and nothing else. -/
theorem placeAt_spec {c : ℕ} (hi : i < nr) (hc : c < nr) (d : BitVec 64) :
    ∃ e', placeAt nr e i c d = some e' ∧ heapCell e' = update (heapCell e) i (c, d) ∧
      heapSlot e' = update (heapSlot e) c i := by
  refine ⟨_, if_pos ⟨hi, hc⟩, ?_, ?_⟩
  · rw [heapCell_update]
    exact (update_eq_self c (heapCell _)).trans (heapCell_update e i _)
  · rw [heapSlot_update, heapSlot_update]
    congr 1
    exact update_eq_self i (heapSlot e)

theorem pullTo_spec {j : ℕ} (hi : i < nr) (hj : j < nr) (hc : (heapCell e j).1 < nr) :
    ∃ e', pullTo nr e i j = some e' ∧ heapCell e' = update (heapCell e) i (heapCell e j) ∧
      heapSlot e' = update (heapSlot e) (heapCell e j).1 i := by
  rw [pullTo, itemAt_of_lt hj, bind_some]
  exact placeAt_spec hi hc _

/-! ## Sifting -/

/-- The array with the element `x` put into the hole at `i`. -/
structure Sifting (V : ℕ → Prop) (n : ℕ) (m : ℕ → Option (BitVec 64)) (x : ℕ × BitVec 64)
    (i : ℕ) (e : ℕ → CpudlItem) (g : ℕ → ℕ × BitVec 64) : Prop where
  cells : g = update (heapCell e) i x
  indexed : Indexed V n g (update (heapSlot e) x.1 i) m
  lt : i < n

namespace Sifting

variable {x : ℕ × BitVec 64} {g : ℕ → ℕ × BitVec 64} {j : ℕ}

theorem start (h : Indexed V n (heapCell e) (heapSlot e) m) (hi : i < n) :
    Sifting V n m (heapCell e i) i e (heapCell e) where
  cells := (update_eq_self i _).symm
  indexed := by
    have hslot : update (heapSlot e) (heapCell e i).1 i = heapSlot e := by
      rw [← h.pos_eq i hi]
      exact update_eq_self _ _
    rwa [hslot]
  lt := hi

variable (h : Sifting V n m x i e g)
include h

theorem hole : g i = x := by
  rw [h.cells, update_self]

theorem cell_of_ne (hne : j ≠ i) : g j = heapCell e j := by
  rw [h.cells, update_of_ne hne]

/-- The element at `j` is pulled onto the hole. -/
theorem pull (hV : ∀ c, V c → c < nr) (hn : n ≤ nr) (hj : j < n)
    (hne : i ≠ j) :
    ∃ e', pullTo nr e i j = some e' ∧ Sifting V n m x j e' (g ∘ Equiv.swap i j) := by
  have hcell := h.cell_of_ne hne.symm
  have hc : (heapCell e j).1 < nr := hcell ▸ hV _ (h.indexed.valid hj)
  obtain ⟨e', hpull, hcells, hslots⟩ := pullTo_spec (h.lt.trans_le hn) (hj.trans_le hn) hc
  refine ⟨e', hpull, ?_, ?_, hj⟩
  · rw [hcells, h.cells]
    funext k
    by_cases hkj : k = j
    · subst hkj
      rw [comp_apply, Equiv.swap_apply_right, update_self, update_self]
    by_cases hki : k = i
    · subst hki
      rw [comp_apply, Equiv.swap_apply_left, update_of_ne hne.symm, update_of_ne hne, update_self]
    · rw [comp_apply, Equiv.swap_apply_of_ne_of_ne hki hkj, update_of_ne hki,
        update_of_ne hkj, update_of_ne hki]
  · have hswap := h.indexed.swap h.lt hj hne
    rw [h.hole, hcell] at hswap
    rw [hslots]
    convert hswap using 1
    -- The position of `x` is written last.
    funext c
    by_cases hcx : c = x.1
    · rw [hcx, update_self, update_self]
    rw [update_of_ne hcx, update_of_ne hcx]
    by_cases hcj : c = (heapCell e j).1
    · rw [hcj, update_self, update_self]
    · rw [update_of_ne hcj, update_of_ne hcj, update_of_ne hcx]

/-- The element is written back. -/
theorem place (hV : ∀ c, V c → c < nr) (hn : n ≤ nr) :
    ∃ e', placeAt nr e i x.1 x.2 = some e' ∧ heapCell e' = g ∧
      Indexed V n (heapCell e') (heapSlot e') m := by
  have hc : x.1 < nr := by
    have := hV _ (h.indexed.valid h.lt)
    rwa [h.hole] at this
  obtain ⟨e', hplace, hcells, hslots⟩ := placeAt_spec (h.lt.trans_le hn) hc x.2
  have hg : heapCell e' = g := by rw [hcells, h.cells]
  refine ⟨e', hplace, hg, ?_⟩
  rw [hg, hslots]
  exact h.indexed

theorem dl_of_ne (hne : j ≠ i) : (e j).dl = (g j).2 := by
  rw [h.cell_of_ne hne]
  rfl

theorem before_iff (hm : Close m) {k : ℕ} (hj : j < n) (hk : k < n) :
    dlTimeBefore (g j).2 (g k).2 = true ↔ heapKey g j < heapKey g k :=
  hm.before_iff (h.indexed.mem j hj) (h.indexed.mem k hk)

omit h

end Sifting

variable {x : ℕ × BitVec 64}

variable (hV : ∀ c, V c → c < nr)
include hV

/-- A round of the sift towards the root. -/
theorem upRound_step (hn : n ≤ nr) (hm : Close m) :
    RoundKeeps (upRound nr x.2)
      (fun v st => st.1 = v ∧ 0 < v ∧ ∃ g, Sifting V n m x v st.2 g ∧ SiftUp n (heapKey g) v)
      fun o => ∃ st', o = some st' ∧ ∃ g, Sifting V n m x st'.1 st'.2 g ∧
        IsHeap n (heapKey g) := by
  intro v st hs
  obtain ⟨idx, e⟩ := st
  obtain ⟨rfl, hpos, g, hsift, hup⟩ := hs
  dsimp only at hpos hsift hup ⊢
  have hlt := heapParent_lt hpos
  have hp : heapParent idx < n := hlt.trans hsift.lt
  have hitem : itemAt nr e (heapParent idx) = some (e (heapParent idx)) :=
    itemAt_of_lt (hp.trans_le hn)
  have hbefore : dlTimeBefore x.2 (e (heapParent idx)).dl = true ↔
      heapKey g idx < heapKey g (heapParent idx) := by
    rw [hsift.dl_of_ne hlt.ne, ← hsift.hole]
    exact hsift.before_iff hm hsift.lt hp
  by_cases hstop : dlTimeBefore x.2 (e (heapParent idx)).dl = true
  · refine .inr ⟨some (idx, e), by simp only [upRound, hitem, if_pos hstop], _, rfl, g, hsift, ?_⟩
    exact hup.isHeap fun _ => (hbefore.mp hstop).le
  have hle : heapKey g (heapParent idx) ≤ heapKey g idx :=
    Nat.le_of_not_lt fun h => hstop (hbefore.mpr h)
  obtain ⟨e', hpull, hsift'⟩ := hsift.pull hV hn hp hlt.ne'
  have hup' : SiftUp n (heapKey (g ∘ Equiv.swap idx (heapParent idx))) (heapParent idx) :=
    hup.swap hpos hsift.lt hle
  rcases Nat.eq_zero_or_pos (heapParent idx) with hzero | hpos'
  · refine .inr ⟨some (heapParent idx, e'), ?_, _, rfl, _, hsift', hup'.isHeap fun h => ?_⟩
    · simp only [upRound, hitem, if_neg hstop, hpull, if_neg (not_not.mpr hzero)]
    · exact absurd h (by rw [hzero]; exact lt_irrefl 0)
  · refine .inl ⟨(heapParent idx, e'), heapParent idx, ?_, hlt, rfl, hpos', _, hsift', hup'⟩
    simp only [upRound, hitem, if_neg hstop, hpull, if_pos hpos'.ne']

/-- `cpudl_heapify_up` makes a heap again. -/
theorem cpudlHeapifyUp_spec (hn : n ≤ nr) (hm : Close m) (hi : i < n)
    (hindexed : Indexed V n (heapCell e) (heapSlot e) m)
    (hup : SiftUp n (heapKey (heapCell e)) i) :
    ∃ e', cpudlHeapifyUp nr e i = some e' ∧ Indexed V n (heapCell e') (heapSlot e') m ∧
      IsHeap n (heapKey (heapCell e')) := by
  rw [cpudlHeapifyUp, itemAt_of_lt (hi.trans_le hn), bind_some]
  by_cases hzero : i = 0
  · rw [if_pos hzero]
    exact ⟨e, rfl, hindexed, hup.isHeap fun h => absurd hzero h.ne'⟩
  rw [if_neg hzero]
  obtain ⟨o, hrun, ⟨idx, e'⟩, rfl, g, hsift, hheap⟩ := runLoop_of_rank
    (upRound_step hV hn hm (x := heapCell e i)) (s := (i, e))
    ⟨rfl, pos_of_ne_zero hzero, heapCell e, Sifting.start hindexed hi, hup⟩
    (n := nr + 1) (by omega)
  obtain ⟨e'', hplace, hcells, hindexed'⟩ := hsift.place hV hn
  refine ⟨e'', ?_, hindexed', by rwa [hcells]⟩
  exact (congrArg (fun o => bind (join o) _) hrun).trans hplace

omit hV in
/-- The greatest of an element and its children. -/
theorem largestOf_spec (hn : n ≤ nr) (hm : Close m) {g : ℕ → ℕ × BitVec 64}
    (h : Sifting V n m x i e g) : ∃ largest, largestOf nr n x.2 i e = some largest ∧ largest < n ∧
      (largest = i ∨ 0 < largest ∧ heapParent largest = i) ∧ heapKey g i ≤ heapKey g largest ∧
        ∀ c, 0 < c → c < n → heapParent c = i → heapKey g c ≤ heapKey g largest := by
  have hi := h.lt
  -- The greater of the element and its left child.
  obtain ⟨k, hfirst, hk, hkcase, hik, hleft⟩ : ∃ k, (if 2 * i + 1 < n then
        (itemAt nr e (2 * i + 1)).map fun y =>
          if dlTimeBefore x.2 y.dl then (2 * i + 1, y.dl) else (i, x.2)
      else some (i, x.2)) = some (k, (g k).2) ∧ k < n ∧ (k = i ∨ k = 2 * i + 1) ∧
        heapKey g i ≤ heapKey g k ∧ (2 * i + 1 < n → heapKey g (2 * i + 1) ≤ heapKey g k) := by
    by_cases hl : 2 * i + 1 < n
    case neg =>
      refine ⟨i, ?_, hi, .inl rfl, le_rfl, fun hl' => absurd hl' hl⟩
      rw [if_neg hl, h.hole]
    have hdl : (e (2 * i + 1)).dl = (g (2 * i + 1)).2 := h.dl_of_ne (by omega)
    have hbefore := h.before_iff hm hi hl
    rw [h.hole] at hbefore
    rw [if_pos hl, itemAt_of_lt (hl.trans_le hn), map_some, hdl]
    by_cases hlt : dlTimeBefore x.2 (g (2 * i + 1)).2 = true
    · exact ⟨2 * i + 1, by rw [if_pos hlt], hl, .inr rfl, (hbefore.mp hlt).le, fun _ => le_rfl⟩
    · refine ⟨i, by rw [if_neg hlt, h.hole], hi, .inl rfl, le_rfl, fun _ => ?_⟩
      exact Nat.le_of_not_lt fun h' => hlt (hbefore.mpr h')
  have hchild : ∀ {c}, 0 < c → heapParent c = i → c = 2 * i + 1 ∨ c = 2 * i + 2 :=
    fun hc => (heapParent_eq_iff hc).mp
  have hkpar : k = i ∨ 0 < k ∧ heapParent k = i := by
    rcases hkcase with hk | hk
    · exact .inl hk
    · exact .inr ⟨by omega, by unfold heapParent; omega⟩
  simp only [largestOf, hfirst, bind_some]
  by_cases hr : 2 * i + 2 < n
  case neg =>
    refine ⟨k, if_neg hr, hk, hkpar, hik, fun c hc hcn hpar => ?_⟩
    rcases hchild hc hpar with rfl | rfl
    · exact hleft hcn
    · exact absurd hcn hr
  have hdl : (e (2 * i + 2)).dl = (g (2 * i + 2)).2 := h.dl_of_ne (by omega)
  have hbefore := h.before_iff hm hk hr
  rw [if_pos hr, itemAt_of_lt (hr.trans_le hn), map_some, hdl]
  by_cases hlt : dlTimeBefore (g k).2 (g (2 * i + 2)).2 = true
  · have hkr := (hbefore.mp hlt).le
    refine ⟨2 * i + 2, by rw [if_pos hlt], hr, .inr ⟨by omega, by unfold heapParent; omega⟩,
      hik.trans hkr, fun c hc hcn hpar => ?_⟩
    rcases hchild hc hpar with rfl | rfl
    · exact (hleft hcn).trans hkr
    · exact le_rfl
  · refine ⟨k, by rw [if_neg hlt], hk, hkpar, hik, fun c hc hcn hpar => ?_⟩
    rcases hchild hc hpar with rfl | rfl
    · exact hleft hcn
    · exact Nat.le_of_not_lt fun h' => hlt (hbefore.mpr h')

/-- A round of the sift towards the leaves. -/
theorem downRound_step (hn : n ≤ nr) (hm : Close m) :
    RoundKeeps (downRound nr n x.2)
      (fun v st => v = n - st.1 ∧ ∃ g, Sifting V n m x st.1 st.2 g ∧
        SiftDown n (heapKey g) st.1)
      fun o => ∃ st', o = some st' ∧ ∃ g, Sifting V n m x st'.1 st'.2 g ∧
        IsHeap n (heapKey g) := by
  intro v st hs
  obtain ⟨idx, e⟩ := st
  obtain ⟨rfl, g, hsift, hdown⟩ := hs
  dsimp only at hsift hdown ⊢
  obtain ⟨largest, hlargest, hlt, hcase, hle, hgreatest⟩ := largestOf_spec hn hm hsift
  rcases hcase with rfl | ⟨hpos, hpar⟩
  · refine .inr ⟨some (largest, e), ?_, _, rfl, g, hsift, hdown.isHeap hgreatest⟩
    simp [downRound, hlargest]
  have hltp : idx < largest := hpar ▸ heapParent_lt hpos
  obtain ⟨e', hpull, hsift'⟩ := hsift.pull hV hn hlt hltp.ne
  refine .inl ⟨(largest, e'), n - largest, ?_, by omega, rfl, _, hsift',
    hdown.swap hpos hlt hpar hle hgreatest⟩
  simp only [downRound, hlargest, if_neg hltp.ne', hpull]

/-- `cpudl_heapify_down` makes a heap again. -/
theorem cpudlHeapifyDown_spec (hn : n ≤ nr) (hm : Close m) (hi : i < n)
    (hindexed : Indexed V n (heapCell e) (heapSlot e) m)
    (hdown : SiftDown n (heapKey (heapCell e)) i) :
    ∃ e', cpudlHeapifyDown nr n e i = some e' ∧ Indexed V n (heapCell e') (heapSlot e') m ∧
      IsHeap n (heapKey (heapCell e')) := by
  rw [cpudlHeapifyDown, itemAt_of_lt (hi.trans_le hn), bind_some]
  by_cases hleaf : 2 * i + 1 ≥ n
  · rw [if_pos hleaf]
    refine ⟨e, rfl, hindexed, hdown.isHeap fun c hc hcn hpar => ?_⟩
    rcases (heapParent_eq_iff hc).mp hpar with rfl | rfl <;> omega
  rw [if_neg hleaf]
  obtain ⟨o, hrun, ⟨idx, e'⟩, rfl, g, hsift, hheap⟩ := runLoop_of_rank
    (downRound_step hV hn hm (x := heapCell e i)) (s := (i, e))
    ⟨rfl, heapCell e, Sifting.start hindexed hi, hdown⟩ (n := nr + 1) (by omega)
  obtain ⟨e'', hplace, hcells, hindexed'⟩ := hsift.place hV hn
  refine ⟨e'', ?_, hindexed', by rwa [hcells]⟩
  exact (congrArg (fun o => bind (join o) _) hrun).trans hplace

/-- `cpudl_heapify` repairs the heap after a change at one position. -/
theorem cpudlHeapify_spec (hn : n ≤ nr) (hm : Close m) (hi : i < n)
    (hindexed : Indexed V n (heapCell e) (heapSlot e) m)
    (hexcept : HeapExcept n (heapKey (heapCell e)) i) :
    ∃ e', cpudlHeapify nr n e i = some e' ∧ Indexed V n (heapCell e') (heapSlot e') m ∧
      IsHeap n (heapKey (heapCell e')) := by
  rw [cpudlHeapify]
  rcases Nat.eq_zero_or_pos i with rfl | hpos
  · rw [if_neg (lt_irrefl 0)]
    exact cpudlHeapifyDown_spec hV hn hm hi hindexed ⟨hexcept, fun h => absurd h (lt_irrefl 0)⟩
  have hlt := heapParent_lt hpos
  have hp : heapParent i < n := hlt.trans hi
  have hbefore := hm.before_iff (hindexed.mem _ hp) (hindexed.mem i hi)
  rw [if_pos hpos, itemAt_of_lt (hp.trans_le hn), bind_some, itemAt_of_lt (hi.trans_le hn),
    bind_some]
  by_cases hup : dlTimeBefore (e (heapParent i)).dl (e i).dl = true
  · rw [if_pos hup]
    exact cpudlHeapifyUp_spec hV hn hm hi hindexed (hexcept.siftUp hpos (hbefore.mp hup).le)
  · rw [if_neg hup]
    exact cpudlHeapifyDown_spec hV hn hm hi hindexed ⟨hexcept, fun _ _ =>
      Nat.le_of_not_lt fun h => hup (hbefore.mpr h)⟩

omit hV

/-! ## The calls -/

/-- The heap of `cp` holds the map `m` from CPUs to deadlines. -/
structure Cpudl.Holds (V : ℕ → Prop) (cp : Cpudl nr) (m : ℕ → Option (BitVec 64)) : Prop where
  indexed : Indexed V cp.size (heapCell cp.elements) (heapSlot cp.elements) m
  isHeap : IsHeap cp.size (heapKey (heapCell cp.elements))
  size_le : cp.size ≤ nr

variable {cp : Cpudl nr} {cpu : ℕ}

theorem cpudlSet_spec (hV : ∀ c, V c → c < nr) (h : cp.Holds V m) (hcpu : V cpu) (dl : BitVec 64)
    (hm : Close (update m cpu (some dl))) :
    ∃ cp', cpudlSet cp cpu dl = some cp' ∧ cp'.Holds V (update m cpu (some dl)) := by
  rw [cpudlSet, itemAt_of_lt (hV cpu hcpu), bind_some]
  rcases hc : m cpu with _ | d
  · -- A new element at the end goes up.
    have hinvalid : (cp.elements cpu).idx = idxInvalid := h.indexed.absent cpu hcpu hc
    have hlt := h.indexed.lt_of_absent hV (hV cpu hcpu) hc
    obtain ⟨e, hplace, hcells, hslots⟩ := placeAt_spec (e := cp.elements) hlt (hV cpu hcpu) dl
    have hindexed := h.indexed.push hcpu hc dl
    rw [← hcells, ← hslots] at hindexed
    have hkey : ∀ j, j ≠ cp.size → heapKey (heapCell e) j = heapKey (heapCell cp.elements) j :=
      fun j hj => by rw [heapKey, heapKey, hcells, update_of_ne hj]
    have hup : SiftUp (cp.size + 1) (heapKey (heapCell e)) cp.size := by
      refine ⟨⟨fun j hpos hj hne hpne => ?_, fun _ c hc hcn hpar => ?_⟩, fun c hc hcn hpar => ?_⟩
      · rw [hkey j hne, hkey _ hpne]
        exact h.isHeap j hpos (by omega)
      all_goals
        have := heapParent_lt hc
        omega
    obtain ⟨e', hrun, hindexed', hheap⟩ :=
      cpudlHeapifyUp_spec hV hlt hm (lt_succ_self _) hindexed hup
    refine ⟨⟨cp.size + 1, cpumaskClearCpu cpu cp.freeCpus, e'⟩, ?_, hindexed', hheap, hlt⟩
    rw [if_pos hinvalid, hplace, bind_some, hrun, map_some]
  · obtain ⟨i, hi, hpos, hcell⟩ := h.indexed.position hc
    have hidx : (cp.elements cpu).idx = i := hpos
    have hlt := hi.trans_le h.size_le
    have hcpu' : (cp.elements i).cpu = cpu := congrArg fst hcell
    have hcells : heapCell (update cp.elements i { cp.elements i with dl := dl }) =
        update (heapCell cp.elements) i ((heapCell cp.elements i).1, dl) :=
      heapCell_update _ _ _
    have hslots : heapSlot (update cp.elements i { cp.elements i with dl := dl }) =
        heapSlot cp.elements :=
      (heapSlot_update _ _ _).trans (update_eq_self i _)
    have hindexed := h.indexed.set hi dl
    rw [← hcells, ← hslots, show (heapCell cp.elements i).1 = cpu from hcpu'] at hindexed
    have hexcept := h.isHeap.except hi (g := heapKey (heapCell
      (update cp.elements i { cp.elements i with dl := dl }))) fun j hj => by
        rw [heapKey, heapKey, hcells, update_of_ne hj]
    obtain ⟨e', hrun, hindexed', hheap⟩ := cpudlHeapify_spec hV h.size_le hm hi hindexed hexcept
    refine ⟨{ cp with elements := e' }, ?_, hindexed', hheap, h.size_le⟩
    rw [if_neg (by rw [hidx, idxInvalid]; omega), if_neg (by rw [hidx]; omega)]
    simp only [hidx, Int.toNat_natCast, hrun, map_some]

theorem Close.erase (hm : Close m) (c : ℕ) : Close (update m c none) := by
  have hmem : ∀ {c' d}, update m c none c' = some d → m c' = some d := fun {c' d} h => by
    by_cases hcc : c' = c
    · rw [hcc, update_self] at h
      exact absurd h.symm (some_ne_none _)
    · rwa [update_of_ne hcc] at h
  exact fun c1 c2 d1 d2 h1 h2 => hm c1 c2 d1 d2 (hmem h1) (hmem h2)

/-- Behind the heap `cpudl_heapify` does nothing. -/
theorem cpudlHeapify_behind (hn : n < nr)
    (h : 0 < n → dlTimeBefore (e (heapParent n)).dl (e n).dl ≠ true) :
    cpudlHeapify nr n e n = some e := by
  have hdown : cpudlHeapifyDown nr n e n = some e := by
    rw [cpudlHeapifyDown, itemAt_of_lt hn, bind_some, if_pos (by omega)]
  rw [cpudlHeapify]
  rcases Nat.eq_zero_or_pos n with rfl | hpos
  · rw [if_neg (lt_irrefl 0), hdown]
  · rw [if_pos hpos, itemAt_of_lt ((heapParent_lt hpos).trans hn), bind_some,
      itemAt_of_lt hn, bind_some, if_neg (h hpos), hdown]

/-- The last element takes the place of the removed one. -/
theorem clearAt_spec (hV : ∀ c, V c → c < nr)
    (h : Indexed V (n + 1) (heapCell e) (heapSlot e) m) (hle : n + 1 ≤ nr) (hi : i < n + 1) :
    ∃ e', placeAt nr e i (e n).cpu (e n).dl = some e' ∧
      heapCell (update e' (e i).cpu { e' (e i).cpu with idx := idxInvalid }) =
        update (heapCell e) i (heapCell e n) ∧
      Indexed V n
        (heapCell (update e' (e i).cpu { e' (e i).cpu with idx := idxInvalid }))
        (heapSlot (update e' (e i).cpu { e' (e i).cpu with idx := idxInvalid }))
        (update m (e i).cpu none) := by
  obtain ⟨e', hplace, hcells, hslots⟩ := placeAt_spec (hi.trans_le hle)
    (hV _ (h.valid (lt_succ_self n))) (e n).dl
  have hcells' : heapCell (update e' (e i).cpu { e' (e i).cpu with idx := idxInvalid }) =
      update (heapCell e) i (heapCell e n) := by
    rw [heapCell_update]
    exact (update_eq_self (e i).cpu (heapCell e')).trans hcells
  refine ⟨e', hplace, hcells', ?_⟩
  have hremove := h.remove hi
  rw [hcells', heapSlot_update, hslots]
  exact hremove

theorem cpudlClear_spec (hV : ∀ c, V c → c < nr) (h : cp.Holds V m) (hcpu : V cpu)
    (hm : Close m) :
    ∃ cp', cpudlClear cp cpu = some cp' ∧ cp'.Holds V (update m cpu none) := by
  rw [cpudlClear, itemAt_of_lt (hV cpu hcpu), bind_some]
  rcases hc : m cpu with _ | d
  · have hinvalid := h.indexed.absent cpu hcpu hc
    refine ⟨cp, if_pos hinvalid, ?_⟩
    rw [← hc, update_eq_self]
    exact h
  obtain ⟨i, hi, hpos, hcell⟩ := h.indexed.position hc
  obtain ⟨hindexed, hheap, hle⟩ := h
  obtain ⟨n, hn⟩ : ∃ n, cp.size = n + 1 := ⟨cp.size - 1, by omega⟩
  rw [hn] at hi hindexed hheap hle
  have hidx : (cp.elements cpu).idx = i := hpos
  obtain rfl : (cp.elements i).cpu = cpu := congrArg fst hcell
  obtain ⟨e, hplace, hcells, hremove⟩ := clearAt_spec hV hindexed hle hi
  set e' := update e (cp.elements i).cpu
    { e (cp.elements i).cpu with idx := idxInvalid } with he'
  obtain ⟨e'', hrun, hindexed', hheap'⟩ : ∃ e'', cpudlHeapify nr n e' i = some e'' ∧
      Indexed V n (heapCell e'') (heapSlot e'') (update m (cp.elements i).cpu none) ∧
      IsHeap n (heapKey (heapCell e'')) := by
    rcases lt_or_ge i n with hin | hin
    · have hkey : ∀ j, j ≠ i → heapKey (heapCell e') j = heapKey (heapCell cp.elements) j :=
        fun j hj => by rw [heapKey, heapKey, hcells, update_of_ne hj]
      exact cpudlHeapify_spec hV (by omega) (hm.erase _) hin hremove
        ((hheap.except hi hkey).mono (le_succ n))
    -- The last element is removed, and its position is now behind the heap.
    obtain rfl : i = n := by omega
    have hsame := hcells.trans (update_eq_self i _)
    have hdl : ∀ j, (e' j).dl = (cp.elements j).dl := fun j =>
      congrArg snd (congrFun hsame j)
    refine ⟨e', cpudlHeapify_behind (by omega) fun hpos' hlt => ?_, hremove, fun j hjpos hj => ?_⟩
    · have hp := heapParent_lt hpos'
      rw [hdl, hdl] at hlt
      have hbefore := (hm.before_iff (hindexed.mem _ (hp.trans (lt_succ_self i)))
        (hindexed.mem i (lt_succ_self i))).mp hlt
      exact absurd (hheap i hpos' (lt_succ_self i)) (not_le.mpr hbefore)
    · rw [hsame]
      exact hheap j hjpos (by omega)
  refine ⟨⟨n, cpumaskSetCpu (cp.elements i).cpu cp.freeCpus, e''⟩, ?_, hindexed', hheap',
    (le_succ n).trans hle⟩
  rw [if_neg (by rw [hidx, idxInvalid]; omega), if_neg (by rw [hidx]; omega), hn,
    Nat.add_sub_cancel, itemAt_of_lt hle, bind_some, hidx, Int.toNat_natCast, hplace]
  exact congrArg (Option.map _) hrun

/-! ## Runs -/

/-- What a call does to the deadlines. -/
def CpudlOp.effect (m : ℕ → Option (BitVec 64)) : CpudlOp → ℕ → Option (BitVec 64)
  | .set cpu dl => update m cpu (some dl)
  | .clear cpu => update m cpu none
  | .setFreecpu _ => m
  | .clearFreecpu _ => m

/-- The deadlines that are live after the calls `ops` : for each CPU the last one set, unless the
CPU has been cleared since. -/
def liveDeadlines (ops : List CpudlOp) : ℕ → Option (BitVec 64) :=
  ops.foldl CpudlOp.effect fun _ => none

theorem CpudlOp.run_holds (hV : ∀ c, V c → c < nr) (h : cp.Holds V m) {o : CpudlOp}
    (ho : V o.cpu) (hm : Close m) (hm' : Close (o.effect m)) :
    ∃ cp', o.run cp = some cp' ∧ cp'.Holds V (o.effect m) := by
  rcases o with ⟨cpu, dl⟩ | cpu | cpu | cpu
  · exact cpudlSet_spec hV h ho dl hm'
  · exact cpudlClear_spec hV h ho hm
  · exact ⟨_, rfl, h.indexed, h.isHeap, h.size_le⟩
  · exact ⟨_, rfl, h.indexed, h.isHeap, h.size_le⟩

theorem cpudlInit_holds (possible : BitVec nr) :
    (cpudlInit nr possible).Holds (fun c => possible.getLsbD c = true) fun _ => none where
  indexed := ⟨fun _ hj => absurd hj (not_lt_zero _), fun _ hj => absurd hj (not_lt_zero _),
    fun _ _ h => absurd h.symm (some_ne_none _), fun _ hc _ => if_pos hc⟩
  isHeap _ _ hi := absurd hi (not_lt_zero _)
  size_le := zero_le _

variable {ops : List CpudlOp} {possible : BitVec nr}

/-- A run holds the live deadlines. -/
theorem cpudlRun_holds
    (hcpu : ∀ o ∈ ops, possible.getLsbD o.cpu = true)
    (hclose : ∀ ops', ops' <+: ops → Close (liveDeadlines ops')) :
    ∃ cp, cpudlRun nr possible ops = some cp ∧
      cp.Holds (fun c => possible.getLsbD c = true) (liveDeadlines ops) := by
  induction ops using List.reverseRecOn with
  | nil => exact ⟨_, rfl, cpudlInit_holds possible⟩
  | append_singleton ops o ih =>
    obtain ⟨cp, hrun, hholds⟩ := ih (fun o' ho' => hcpu o' (mem_append_left _ ho'))
      fun ops' h => hclose ops' (h.trans (prefix_append _ _))
    have heffect : liveDeadlines (ops ++ [o]) = o.effect (liveDeadlines ops) := by
      rw [liveDeadlines, foldl_append]
      rfl
    have hlast := hclose (ops ++ [o]) prefix_rfl
    rw [heffect] at hlast ⊢
    obtain ⟨cp', hstep, hholds'⟩ := run_holds (fun c hc => lt_of_getLsbD hc) hholds
      (hcpu o (mem_append_right _ mem_cons_self))
      (hclose ops (prefix_append _ _)) hlast
    refine ⟨cp', ?_, hholds'⟩
    rw [cpudlRun, foldlM_append, ← cpudlRun, hrun]
    simp [hstep]

/-- What the heap is to be after the calls `ops`. -/
structure Cpudl.Inv (cp : Cpudl nr) (possible : BitVec nr) (ops : List CpudlOp) : Prop where
  size_le : cp.size ≤ nr
  heap : ∀ i, 0 < i → i < cp.size →
    dlTimeBefore (cp.elements (heapParent i)).dl (cp.elements i).dl = false
  index : ∀ i, i < cp.size → possible.getLsbD (cp.elements i).cpu = true ∧
    (cp.elements (cp.elements i).cpu).idx = i
  invalid : ∀ c, possible.getLsbD c = true → (∀ i, i < cp.size → (cp.elements i).cpu ≠ c) →
    (cp.elements c).idx = idxInvalid
  once : ∀ i j, i < cp.size → j < cp.size → (cp.elements i).cpu = (cp.elements j).cpu → i = j
  last : ∀ c d, liveDeadlines ops c = some d ↔
    ∃ i, i < cp.size ∧ (cp.elements i).cpu = c ∧ (cp.elements i).dl = d
  root : ∀ i, i < cp.size → dlTimeBefore (cp.elements 0).dl (cp.elements i).dl = false

/-- After every sequence of calls on possible CPUs in which the live deadlines are always less
than `2 ^ 63` apart, the array is a max-heap of the live deadlines with an index, and the latest
deadline is at the root. -/
theorem cpudlRun_inv
    (hcpu : ∀ o ∈ ops, possible.getLsbD o.cpu = true)
    (hclose : ∀ ops', ops' <+: ops → Close (liveDeadlines ops')) :
    ∃ cp, cpudlRun nr possible ops = some cp ∧ cp.Inv possible ops := by
  obtain ⟨cp, hrun, hindexed, hheap, hle⟩ := cpudlRun_holds hcpu hclose
  have hm := hclose ops prefix_rfl
  have hmem := hindexed.mem
  have hbefore : ∀ i j, i < cp.size → j < cp.size →
      heapKey (heapCell cp.elements) j ≤ heapKey (heapCell cp.elements) i →
      dlTimeBefore (cp.elements i).dl (cp.elements j).dl = false := fun i j hi hj hle =>
    Bool.eq_false_iff.mpr fun h =>
      not_lt.mpr hle ((hm.before_iff (hmem i hi) (hmem j hj)).mp h)
  refine ⟨cp, hrun, {
    size_le := hle
    heap := fun i hpos hi => hbefore _ i ((heapParent_lt hpos).trans hi) hi (hheap i hpos hi)
    index := fun i hi => ⟨hindexed.valid hi, hindexed.pos_eq i hi⟩
    invalid := fun c hc hout => hindexed.absent c hc ?_
    once := fun i j hi hj heq => hindexed.inj hi hj heq
    last := fun c d => ⟨fun h => ?_, ?_⟩
    root := fun i hi => hbefore 0 i (zero_lt_of_lt hi) hi (hheap.le_root i hi) }⟩
  · refine eq_none_iff_forall_ne_some.mpr fun d hd => ?_
    obtain ⟨-, i, hi, hcell⟩ := hindexed.covers c d hd
    exact hout i hi (congrArg fst hcell)
  · obtain ⟨-, i, hi, hcell⟩ := hindexed.covers c d h
    exact ⟨i, hi, congrArg fst hcell, congrArg snd hcell⟩
  · rintro ⟨i, hi, rfl, rfl⟩
    exact hmem i hi

/-- Deadlines below `2 ^ 63` are close. -/
theorem close_liveDeadlines
    (h : ∀ cpu dl, CpudlOp.set cpu dl ∈ ops → dl.toNat < 2 ^ 63) : Close (liveDeadlines ops) := by
  have hlive : ∀ c d, liveDeadlines ops c = some d → ∃ cpu, set cpu d ∈ ops := by
    clear h
    induction ops using List.reverseRecOn with
    | nil => exact fun _ _ h => absurd h.symm (some_ne_none _)
    | append_singleton ops o ih =>
      intro c d hd
      have hold : liveDeadlines ops c = some d → ∃ cpu, set cpu d ∈ ops ++ [o] :=
        fun h => (ih c d h).imp fun _ => mem_append_left _
      rw [liveDeadlines, foldl_append, ← liveDeadlines] at hd
      rcases o with ⟨cpu, dl⟩ | cpu | cpu | cpu
      · simp only [foldl_cons, foldl_nil, effect, update_apply] at hd
        split_ifs at hd
        · exact ⟨cpu, by simp [some_inj.mp hd]⟩
        · exact hold hd
      · simp only [foldl_cons, foldl_nil, effect, update_apply] at hd
        split_ifs at hd
        exact hold hd
      · exact hold hd
      · exact hold hd
  intro c c' d d' hd hd'
  obtain ⟨cpu, hset⟩ := hlive c d hd
  have := h cpu d hset
  omega

/-- Four CPUs of which one is cleared and one is set again. -/
theorem cpudlRun_inv_four :
    let ops : List CpudlOp := [.set 0 10, .set 1 30, .set 2 20, .set 3 25, .clear 1, .set 0 40]
    (∀ o ∈ ops, (15#4).getLsbD o.cpu = true) ∧ (∀ ops', ops' <+: ops → Close (liveDeadlines ops')) ∧
      ∃ cp, cpudlRun 4 15#4 ops = some cp ∧ cp.Inv 15#4 ops := by
  intro ops
  have hcpu : ∀ o ∈ ops, (15#4).getLsbD o.cpu = true := by decide
  have hclose : ∀ ops', ops' <+: ops → Close (liveDeadlines ops') := by
    intro ops' hprefix
    refine close_liveDeadlines fun cpu dl hset => ?_
    have hmem := hprefix.subset hset
    simp only [ops, mem_cons, set.injEq, not_mem_nil, reduceCtorEq, or_false, false_or] at hmem
    rcases hmem with ⟨-, rfl⟩ | ⟨-, rfl⟩ | ⟨-, rfl⟩ | ⟨-, rfl⟩ | ⟨-, rfl⟩ <;> decide
  exact ⟨hcpu, hclose, cpudlRun_inv hcpu hclose⟩

/-! ## Finding a CPU -/

/-- The CPU `c` is free, or in the heap with a deadline behind that of the task. -/
def Cpudl.LaterCpu (cp : Cpudl nr) (p : DlTask nr) (c : ℕ) : Prop :=
  cp.freeCpus.getLsbD c = true ∨
    ∃ i, i < cp.size ∧ (cp.elements i).cpu = c ∧ dlTimeBefore p.deadline (cp.elements i).dl = true

/-- The root is not looked at, or it is an element of the heap, or it does not pass the tests. -/
def Cpudl.FindRight (cp : Cpudl nr) (p : DlTask nr) : Prop :=
  0 < cp.size ∨ cp.freeCpus &&& p.cpus ≠ 0 ∨ p.cpus.getLsbD (cp.elements 0).cpu = false ∨
    dlTimeBefore p.deadline (cp.elements 0).dl = false

theorem getLsbD_and_eq_true {a b : BitVec nr} {c : ℕ} :
    (a &&& b).getLsbD c = true ↔ a.getLsbD c = true ∧ b.getLsbD c = true := by
  rw [getLsbD_and, Bool.and_eq_true]

theorem getLsbD_cpumaskSetCpu_zero :
    (cpumaskSetCpu c (0 : BitVec nr)).getLsbD c' = true ↔ c' < nr ∧ c' = c := by
  have hzero : (0 : BitVec nr).getLsbD c' = false := getLsbD_zero
  rw [cpumaskSetCpu, getLsbD_or, getLsbD_twoPow, hzero, Bool.false_or,
    Bool.and_eq_true, decide_eq_true_eq, decide_eq_true_eq]
  exact ⟨fun h => ⟨by omega, h.2.symm⟩, fun h => ⟨by omega, h.2.symm⟩⟩

/-- In every state, every CPU that `cpudl_find` puts into the mask when it returns `1` is allowed
for the task, and free or in the heap with a later deadline, if and only if the root it falls back
to is in the heap or is not taken. -/
theorem cpudlFind_sound (cp : Cpudl nr) (p : DlTask nr) (mask : BitVec nr) :
    (∀ laterMask, cpudlFind cp p (some mask) = some (1, some laterMask) →
      ∀ c, laterMask.getLsbD c = true → p.cpus.getLsbD c = true ∧ cp.LaterCpu p c) ↔
      cp.FindRight p := by
  by_cases hfree : cp.freeCpus &&& p.cpus ≠ 0
  · -- Free CPUs are found.
    refine iff_of_true (fun laterMask hfind c hc => ?_) (.inr (.inl hfree))
    rw [cpudlFind, if_pos (by simpa using hfree)] at hfind
    obtain rfl := some.inj (mk.inj (some.inj hfind)).2
    obtain ⟨hfree', hallowed⟩ := getLsbD_and_eq_true.mp hc
    exact ⟨hallowed, .inl hfree'⟩
  have hzero : cp.freeCpus &&& p.cpus = 0 := not_not.mp hfree
  have hrun : cpudlFind cp p (some mask) = (itemAt nr cp.elements 0).map fun root =>
      if p.cpus.getLsbD root.cpu ∧ dlTimeBefore p.deadline root.dl then
        (1, some (cpumaskSetCpu root.cpu 0)) else (0, some 0) := by
    rw [cpudlFind, if_neg (by simpa using hzero), map_some, hzero]
    rfl
  rw [hrun]
  rcases Nat.eq_zero_or_pos nr with hnr | hnr
  · -- There is no root.
    subst hnr
    refine iff_of_true (fun laterMask hfind => ?_) (.inr (.inr (.inl ?_)))
    · exact absurd hfind.symm (some_ne_none _)
    · exact getLsbD_of_ge _ _ (Nat.zero_le _)
  rw [itemAt_of_lt hnr, map_some]
  by_cases htaken : p.cpus.getLsbD (cp.elements 0).cpu = true ∧
      dlTimeBefore p.deadline (cp.elements 0).dl = true
  case neg =>
    rw [if_neg htaken]
    refine iff_of_true (fun laterMask hfind => ?_) (.inr (.inr ?_))
    · exact absurd (mk.inj (some.inj hfind)).1 (by decide)
    · rw [← Bool.not_eq_true, ← Bool.not_eq_true]
      exact not_and_or.mp htaken
  rw [if_pos htaken]
  rcases Nat.eq_zero_or_pos cp.size with hempty | hpos
  · -- The heap is empty, and the root is left from an earlier state.
    refine iff_of_false (fun hall => ?_) ?_
    · obtain ⟨hallowed, hfree' | ⟨i, hi, -⟩⟩ := hall _ rfl (cp.elements 0).cpu
        (getLsbD_cpumaskSetCpu_zero.mpr ⟨lt_of_getLsbD htaken.1, rfl⟩)
      · have hand := getLsbD_and_eq_true.mpr ⟨hfree', hallowed⟩
        rw [hzero] at hand
        simp at hand
      · omega
    · rintro (hpos | hfree' | hout | hlate)
      · omega
      · exact hfree' hzero
      · exact Bool.false_ne_true (hout.symm.trans htaken.1)
      · exact Bool.false_ne_true (hlate.symm.trans htaken.2)
  · refine iff_of_true (fun laterMask hfind c hc => ?_) (.inl hpos)
    obtain rfl := some.inj (mk.inj (some.inj hfind)).2
    obtain ⟨-, rfl⟩ := getLsbD_cpumaskSetCpu_zero.mp hc
    exact ⟨htaken.1, .inr ⟨0, hpos, rfl, htaken.2⟩⟩

/-- A CPU that was in the heap, has been cleared and has gone offline is still found. -/
theorem cpudlFind_offline :
    ((cpudlRun 4 15#4 [.set 0 100, .clear 0, .clearFreecpu 0]).bind fun cp =>
      (cpudlFind cp ⟨50, 1⟩ (some 0)).map fun r => (r, cp.size, cp.freeCpus)) =
    some ((1, some 1), 0, 0) := by
  decide +kernel

end

end LinuxKernelTest
