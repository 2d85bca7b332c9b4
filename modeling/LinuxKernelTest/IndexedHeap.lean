import Mathlib.Tactic

/-!
# Binary heaps with an index

Position `0` is the root, and the parent of position `i > 0` is `(i - 1) / 2`. `IsHeap n f` says
that no key among the first `n` is above the key of its parent.

A sift moves one element along a path. It is followed here by swaps : the position of the moved
element is the only place where the order may be broken, towards the root (`SiftUp`) or towards
the leaves (`SiftDown`). Each swap moves that place along, and where it ends there is a heap.

An index tells the position of each element by its name. `Indexed n g pos m` says that the first
`n` positions of `g` and the index `pos` hold the map `m` from names to data.
-/

namespace LinuxKernelTest

open Finset Function Option

/-! ## Order -/

/-- The parent of a position. -/
def heapParent (i : ℕ) : ℕ := (i - 1) / 2

theorem heapParent_lt {i : ℕ} (h : 0 < i) : heapParent i < i := by
  unfold heapParent
  omega

theorem heapParent_eq_iff {c i : ℕ} (hc : 0 < c) :
    heapParent c = i ↔ c = 2 * i + 1 ∨ c = 2 * i + 2 := by
  unfold heapParent
  omega

section

variable {κ : Type*} [Preorder κ] {n i c : ℕ} {f : ℕ → κ}

/-- The first `n` keys are a max-heap. -/
def IsHeap (n : ℕ) (f : ℕ → κ) : Prop := ∀ i, 0 < i → i < n → f i ≤ f (heapParent i)

/-- The root has the greatest key. -/
theorem IsHeap.le_root (h : IsHeap n f) : ∀ i, i < n → f i ≤ f 0 := by
  intro i
  induction i using Nat.strongRecOn with
  | ind i ih =>
    intro hi
    rcases Nat.eq_zero_or_pos i with rfl | hpos
    · exact le_rfl
    · have hlt := heapParent_lt hpos
      exact (h i hpos hi).trans (ih _ hlt (hlt.trans hi))

/-- A heap but for the key at `i`. -/
structure HeapExcept (n : ℕ) (f : ℕ → κ) (i : ℕ) : Prop where
  off : ∀ j, 0 < j → j < n → j ≠ i → heapParent j ≠ i → f j ≤ f (heapParent j)
  grand : 0 < i → ∀ c, 0 < c → c < n → heapParent c = i → f c ≤ f (heapParent i)

/-- Only the key at `i` may be above the key of its parent. -/
structure SiftUp (n : ℕ) (f : ℕ → κ) (i : ℕ) : Prop extends HeapExcept n f i where
  below : ∀ c, 0 < c → c < n → heapParent c = i → f c ≤ f i

/-- Only the key at `i` may be below the key of a child. -/
structure SiftDown (n : ℕ) (f : ℕ → κ) (i : ℕ) : Prop extends HeapExcept n f i where
  above : 0 < i → i < n → f i ≤ f (heapParent i)

theorem IsHeap.except (h : IsHeap n f) (hi : i < n) {g : ℕ → κ} (hg : ∀ j, j ≠ i → g j = f j) :
    HeapExcept n g i where
  off j hpos hj hne hpne := by
    rw [hg j hne, hg _ hpne]
    exact h j hpos hj
  grand hpos c hc hcn hpar := by
    have hlt := heapParent_lt hpos
    have hne : c ≠ i := fun heq => by
      have := heapParent_lt hc
      omega
    rw [hg c hne, hg _ hlt.ne]
    have hchild := h c hc hcn
    rw [hpar] at hchild
    exact hchild.trans (h i hpos hi)

theorem HeapExcept.mono {m : ℕ} (h : HeapExcept n f i) (hm : m ≤ n) : HeapExcept m f i :=
  ⟨fun j hpos hj => h.off j hpos (hj.trans_le hm), fun hpos c hc hcm =>
    h.grand hpos c hc (hcm.trans_le hm)⟩

theorem HeapExcept.siftUp (h : HeapExcept n f i) (hpos : 0 < i)
    (hle : f (heapParent i) ≤ f i) : SiftUp n f i :=
  ⟨h, fun c hc hcn hpar => (h.grand hpos c hc hcn hpar).trans hle⟩

theorem SiftUp.isHeap (h : SiftUp n f i) (hi : 0 < i → f i ≤ f (heapParent i)) : IsHeap n f := by
  intro j hpos hj
  by_cases hji : j = i
  · subst hji
    exact hi hpos
  by_cases hpar : heapParent j = i
  · rw [hpar]
    exact h.below j hpos hj hpar
  · exact h.off j hpos hj hji hpar

theorem SiftDown.isHeap (h : SiftDown n f i)
    (hi : ∀ c, 0 < c → c < n → heapParent c = i → f c ≤ f i) : IsHeap n f := by
  intro j hpos hj
  by_cases hji : j = i
  · subst hji
    exact h.above hpos hj
  by_cases hpar : heapParent j = i
  · rw [hpar]
    exact hi j hpos hj hpar
  · exact h.off j hpos hj hji hpar

/-- A swap with the parent. -/
theorem SiftUp.swap (h : SiftUp n f i) (hpos : 0 < i) (hi : i < n)
    (hle : f (heapParent i) ≤ f i) : SiftUp n (f ∘ Equiv.swap i (heapParent i)) (heapParent i) := by
  have hlt := heapParent_lt hpos
  have hup : 0 < heapParent i → f (heapParent i) ≤ f (heapParent (heapParent i)) := fun hpos' => by
    have hlt' := heapParent_lt hpos'
    exact h.off _ hpos' (hlt.trans hi) hlt.ne (by omega)
  -- The other child of the parent is below it.
  have hsibling : ∀ c, 0 < c → c < n → c ≠ i → heapParent c = heapParent i →
      f c ≤ f (heapParent i) := fun c hc hcn hne hpar => by
    have hle' := h.off c hc hcn hne (by omega)
    rwa [hpar] at hle'
  have hsame : ∀ {j}, j ≠ i → j ≠ heapParent i → (f ∘ Equiv.swap i (heapParent i)) j = f j :=
    fun hj hj' => congrArg f (Equiv.swap_apply_of_ne_of_ne hj hj')
  have hfirst : (f ∘ Equiv.swap i (heapParent i)) i = f (heapParent i) :=
    congrArg f (Equiv.swap_apply_left _ _)
  have hsecond : (f ∘ Equiv.swap i (heapParent i)) (heapParent i) = f i :=
    congrArg f (Equiv.swap_apply_right _ _)
  refine ⟨⟨fun j hjpos hj hne hpne => ?_, fun hpos' c hc hcn hpar => ?_⟩, fun c hc hcn hpar => ?_⟩
  · by_cases hji : j = i
    · subst hji
      exact absurd rfl hpne
    by_cases hpar : heapParent j = i
    · rw [hsame hji hne, hpar, hfirst]
      exact h.grand hpos j hjpos hj hpar
    · rw [hsame hji hne, hsame hpar hpne]
      exact h.off j hjpos hj hji hpar
  · have hlt' := heapParent_lt hpos'
    rw [hsame (j := heapParent (heapParent i)) (by omega) hlt'.ne]
    by_cases hci : c = i
    · subst hci
      rw [hfirst]
      exact hup hpos'
    · have hltc := heapParent_lt hc
      rw [hsame hci (by omega)]
      exact (hsibling c hc hcn hci hpar).trans (hup hpos')
  · rw [hsecond]
    by_cases hci : c = i
    · subst hci
      rwa [hfirst]
    · have hltc := heapParent_lt hc
      rw [hsame hci (by omega)]
      exact (hsibling c hc hcn hci hpar).trans hle

/-- A swap with a child that is not below the other one. -/
theorem SiftDown.swap (h : SiftDown n f i) (hc : 0 < c) (hcn : c < n) (hpar : heapParent c = i)
    (hle : f i ≤ f c) (hgreatest : ∀ c', 0 < c' → c' < n → heapParent c' = i → f c' ≤ f c) :
    SiftDown n (f ∘ Equiv.swap i c) c := by
  have hlt : i < c := hpar ▸ heapParent_lt hc
  have hsame : ∀ {j}, j ≠ i → j ≠ c → (f ∘ Equiv.swap i c) j = f j :=
    fun hj hj' => congrArg f (Equiv.swap_apply_of_ne_of_ne hj hj')
  have hfirst : (f ∘ Equiv.swap i c) i = f c := congrArg f (Equiv.swap_apply_left _ _)
  have hsecond : (f ∘ Equiv.swap i c) c = f i := congrArg f (Equiv.swap_apply_right _ _)
  refine ⟨⟨fun j hjpos hj hne hpne => ?_, fun _ c' hc' hcn' hpar' => ?_⟩, fun _ _ => ?_⟩
  · by_cases hji : j = i
    · subst hji
      have hltj := heapParent_lt hjpos
      rw [hfirst, hsame hltj.ne (by omega)]
      exact h.grand hjpos c hc hcn hpar
    · rw [hsame hji hne]
      by_cases hparj : heapParent j = i
      · rw [hparj, hfirst]
        exact hgreatest j hjpos hj hparj
      · rw [hsame hparj hpne]
        exact h.off j hjpos hj hji hparj
  · have hltc := heapParent_lt hc'
    rw [hsame (j := c') (by omega) (by omega), hpar, hfirst]
    have hle' := h.off c' hc' hcn' (by omega) (by omega)
    rwa [hpar'] at hle'
  · rw [hpar, hfirst, hsecond]
    exact hle

end

/-! ## Index -/

section

variable {δ : Type*} {n i p : ℕ} {g : ℕ → ℕ × δ} {pos : ℕ → ℤ} {m : ℕ → Option δ}
  {V : ℕ → Prop}

/-- The first `n` positions and the index hold the map `m`. The index of a name that is not in the
map is `-1`, if it is one of `V`. -/
structure Indexed (V : ℕ → Prop) (n : ℕ) (g : ℕ → ℕ × δ) (pos : ℕ → ℤ) (m : ℕ → Option δ) :
    Prop where
  pos_eq : ∀ j, j < n → pos (g j).1 = j
  mem : ∀ j, j < n → m (g j).1 = some (g j).2
  covers : ∀ c d, m c = some d → V c ∧ ∃ j, j < n ∧ g j = (c, d)
  absent : ∀ c, V c → m c = none → pos c = -1

namespace Indexed

variable (h : Indexed V n g pos m)
include h

theorem inj {j k : ℕ} (hj : j < n) (hk : k < n)
    (heq : (g j).1 = (g k).1) : j = k := by
  have hpos := (h.pos_eq j hj).symm.trans ((congrArg pos heq).trans (h.pos_eq k hk))
  exact Int.natCast_inj.mp hpos

theorem valid {j : ℕ} (hj : j < n) : V (g j).1 :=
  (h.covers _ _ (h.mem j hj)).1

/-- The position of a name in the map. -/
theorem position {c : ℕ} {d : δ} (hc : m c = some d) :
    ∃ j, j < n ∧ pos c = j ∧ g j = (c, d) := by
  obtain ⟨-, j, hj, hgj⟩ := h.covers c d hc
  refine ⟨j, hj, ?_, hgj⟩
  rw [← h.pos_eq j hj, hgj]

/-- Two positions are swapped. -/
theorem swap (hi : i < n) (hp : p < n) (hne : i ≠ p) :
    Indexed V n (g ∘ Equiv.swap i p)
      (update (update pos (g p).1 i) (g i).1 p) m := by
  have hswap : ∀ {j}, j < n → Equiv.swap i p j < n := fun {j} hj => by
    rw [Equiv.swap_apply_def]
    split_ifs <;> assumption
  refine ⟨fun j hj => ?_, fun j hj => h.mem _ (hswap hj), fun c d hc => ?_, fun c hV hc => ?_⟩
  · by_cases hji : j = i
    · subst hji
      have hnames : (g p).1 ≠ (g j).1 := fun heq => hne (h.inj hp hi heq).symm
      rw [comp_apply, Equiv.swap_apply_left, update_of_ne hnames, update_self]
    by_cases hjp : j = p
    · subst hjp
      rw [comp_apply, Equiv.swap_apply_right, update_self]
    rw [comp_apply, Equiv.swap_apply_of_ne_of_ne hji hjp,
      update_of_ne fun heq => hji (h.inj hj hi heq),
      update_of_ne fun heq => hjp (h.inj hj hp heq)]
    exact h.pos_eq j hj
  · obtain ⟨hV, j, hj, hgj⟩ := h.covers c d hc
    exact ⟨hV, Equiv.swap i p j, hswap hj, by
      rw [comp_apply, Equiv.swap_apply_self, hgj]⟩
  · have hname : ∀ {j}, j < n → c ≠ (g j).1 := fun {j} hj heq => by
      rw [heq, h.mem j hj] at hc
      exact some_ne_none _ hc
    rw [update_of_ne (hname hi), update_of_ne (hname hp)]
    exact h.absent c hV hc

/-- A new name at the end. -/
theorem push {c : ℕ} (hV : V c) (hc : m c = none) (d : δ) :
    Indexed V (n + 1) (update g n (c, d)) (update pos c n)
      (update m c (some d)) := by
  have hname : ∀ {j}, j < n → (g j).1 ≠ c := fun {j} hj heq => by
    have := h.mem j hj
    rw [heq, hc] at this
    exact some_ne_none _ this.symm
  refine ⟨fun j hj => ?_, fun j hj => ?_, fun c' d' hc' => ?_, fun c' hV' hc' => ?_⟩
  · rcases Nat.lt_or_ge j n with hjn | hjn
    · rw [update_of_ne hjn.ne, update_of_ne (hname hjn)]
      exact h.pos_eq j hjn
    · obtain rfl : j = n := by omega
      rw [update_self, update_self]
  · rcases Nat.lt_or_ge j n with hjn | hjn
    · rw [update_of_ne hjn.ne, update_of_ne (hname hjn)]
      exact h.mem j hjn
    · obtain rfl : j = n := by omega
      rw [update_self, update_self]
  · by_cases heq : c' = c
    · subst heq
      rw [update_self] at hc'
      exact ⟨hV, n, Nat.lt_succ_self n, by rw [update_self, Option.some.inj hc']⟩
    · rw [update_of_ne heq] at hc'
      obtain ⟨hV', j, hj, hgj⟩ := h.covers c' d' hc'
      exact ⟨hV', j, by omega, by rw [update_of_ne hj.ne, hgj]⟩
  · by_cases heq : c' = c
    · subst heq
      rw [update_self] at hc'
      exact absurd hc' (some_ne_none _)
    · rw [update_of_ne heq] at hc' ⊢
      exact h.absent c' hV' hc'

/-- A new datum for a name. -/
theorem set (hi : i < n) (d : δ) :
    Indexed V n (update g i ((g i).1, d)) pos (update m (g i).1 (some d)) := by
  have hname : ∀ j, (update g i ((g i).1, d) j).1 = (g j).1 := fun j => by
    by_cases hji : j = i
    · subst hji
      rw [update_self]
    · rw [update_of_ne hji]
  refine ⟨fun j hj => ?_, fun j hj => ?_, fun c d' hc => ?_, fun c hV hc => ?_⟩
  · rw [hname]
    exact h.pos_eq j hj
  · rw [hname]
    by_cases hji : j = i
    · subst hji
      rw [update_self, update_self]
    · rw [update_of_ne hji, update_of_ne fun heq => hji (h.inj hj hi heq)]
      exact h.mem j hj
  · by_cases heq : c = (g i).1
    · subst heq
      rw [update_self] at hc
      exact ⟨h.valid hi, i, hi, by rw [update_self, Option.some.inj hc]⟩
    · rw [update_of_ne heq] at hc
      obtain ⟨hV, j, hj, hgj⟩ := h.covers c d' hc
      have hji : j ≠ i := fun hji => heq (by rw [← hji, hgj])
      exact ⟨hV, j, hj, by rw [update_of_ne hji, hgj]⟩
  · by_cases heq : c = (g i).1
    · rw [heq, update_self] at hc
      exact absurd hc (some_ne_none _)
    · rw [update_of_ne heq] at hc
      exact h.absent c hV hc

omit h in
/-- The last element takes the place of a name that is removed. -/
theorem remove (h : Indexed V (n + 1) g pos m) (hi : i < n + 1) :
    Indexed V n (update g i (g n))
      (update (update pos (g n).1 i) (g i).1 (-1))
      (update m (g i).1 none) := by
  have hname : ∀ {j k}, j < n + 1 → k < n + 1 → j ≠ k → (g j).1 ≠ (g k).1 :=
    fun hj hk hne heq => hne (h.inj hj hk heq)
  refine ⟨fun j hj => ?_, fun j hj => ?_, fun c d hc => ?_, fun c hV hc => ?_⟩
  · by_cases hji : j = i
    · subst hji
      rw [update_self, update_of_ne (hname (Nat.lt_succ_self n) hi hj.ne'), update_self]
    · rw [update_of_ne hji, update_of_ne (hname (by omega) hi hji),
        update_of_ne (hname (by omega) (Nat.lt_succ_self n) hj.ne)]
      exact h.pos_eq j (by omega)
  · by_cases hji : j = i
    · subst hji
      rw [update_self, update_of_ne (hname (Nat.lt_succ_self n) hi hj.ne')]
      exact h.mem n (Nat.lt_succ_self n)
    · rw [update_of_ne hji, update_of_ne (hname (by omega) hi hji)]
      exact h.mem j (by omega)
  · have hne : c ≠ (g i).1 := fun heq => by
      rw [heq, update_self] at hc
      exact some_ne_none _ hc.symm
    rw [update_of_ne hne] at hc
    obtain ⟨hV, j, hj, hgj⟩ := h.covers c d hc
    have hji : j ≠ i := fun hji => hne (by rw [← hji, hgj])
    refine ⟨hV, ?_⟩
    -- What was last has moved to `i`.
    rcases Nat.lt_or_ge j n with hjn | hjn
    · exact ⟨j, hjn, by rw [update_of_ne hji, hgj]⟩
    · obtain rfl : j = n := by omega
      exact ⟨i, by omega, by rw [update_self, hgj]⟩
  · by_cases heq : c = (g i).1
    · rw [heq, update_self]
    · rw [update_of_ne heq] at hc ⊢
      have hlast : c ≠ (g n).1 := fun hlast => by
        rw [hlast, h.mem n (Nat.lt_succ_self n)] at hc
        exact some_ne_none _ hc
      rw [update_of_ne hlast]
      exact h.absent c hV hc

/-- There are at most as many positions as names. -/
theorem lt_of_absent {N c : ℕ} (hV : ∀ c, V c → c < N) (hc : c < N)
    (habsent : m c = none) : n < N := by
  have hmaps : Set.MapsTo (fun j => (g j).1) (range n) ((range N).erase c) := by
    intro j hj
    have hj := mem_range.mp (mem_coe.mp hj)
    refine mem_coe.mpr (mem_erase.mpr ⟨fun heq => ?_, mem_range.mpr (hV _ (h.valid hj))⟩)
    have hmem := h.mem j hj
    simp only at heq
    rw [heq, habsent] at hmem
    exact some_ne_none _ hmem.symm
  have hinj : Set.InjOn (fun j => (g j).1) (range n) := fun j hj k hk heq =>
    h.inj (mem_range.mp (mem_coe.mp hj)) (mem_range.mp (mem_coe.mp hk))
      heq
  have hcard := card_le_card_of_injOn _ hmaps hinj
  rw [card_erase_of_mem (mem_range.mpr hc), card_range, card_range]
    at hcard
  omega

omit h

end Indexed

end

end LinuxKernelTest
