import Mathlib.Tactic
import LinuxKernelTest.IndexedHeap

/-!
# Sifting along a path of a heap

The places of an array `ℕ → α` are the nodes of a binary tree by `heapParent`. The part `[a, n)` of
the array is in heap order if no element is above its parent there (`HeapFrom`).

A sift takes the element at `a` to a place `c` below it and moves the elements on the path between
them up by one (`rotate`). The path is the list of places from `c` up to `a` (`ClimbsTo`). If the
path always goes to a greatest child, and the element at `a` is not below the children of `c` and
not above the element at `c`, the part from `a` on is in heap order (`HeapFrom.rotate`).
-/

namespace LinuxKernelTest

open Function List Equiv

variable {α : Type*} {xs : ℕ → α} {a b c n u v : ℕ} {l : List ℕ}

/-! ## Paths -/

/-- The places `c :: l` are a path from `c` up to `a`. -/
structure ClimbsTo (c : ℕ) (l : List ℕ) (a : ℕ) : Prop where
  chain : (c :: l).IsChain fun u v => 0 < u ∧ v = heapParent u
  last : (c :: l).getLast (by simp) = a

theorem climbsTo_nil (a : ℕ) : ClimbsTo a [] a := ⟨isChain_singleton a, rfl⟩

theorem climbsTo_cons : ClimbsTo c (v :: l) a ↔ (0 < c ∧ v = heapParent c) ∧ ClimbsTo v l a := by
  constructor
  · intro h
    obtain ⟨hcv, hl⟩ := isChain_cons_cons.mp h.chain
    exact ⟨hcv, hl, (getLast_cons (by simp)).symm.trans h.last⟩
  · rintro ⟨hcv, h⟩
    exact ⟨isChain_cons_cons.mpr ⟨hcv, h.chain⟩, (getLast_cons (by simp)).trans h.last⟩

theorem climbsTo_nil_iff : ClimbsTo c [] a ↔ c = a :=
  ⟨fun h => h.last, fun h => h ▸ climbsTo_nil c⟩

variable (h : ClimbsTo c l a)
include h

/-- The places of a path are between its ends. -/
theorem ClimbsTo.bounds (hu : u ∈ c :: l) : a ≤ u ∧ u ≤ c := by
  induction l generalizing c u with
  | nil =>
    obtain rfl := climbsTo_nil_iff.mp h
    obtain rfl := mem_singleton.mp hu
    exact ⟨le_rfl, le_rfl⟩
  | cons v l ih =>
    obtain ⟨⟨hc, rfl⟩, h⟩ := climbsTo_cons.mp h
    have hlt := heapParent_lt hc
    have hle := (ih h mem_cons_self).1
    rcases mem_cons.mp hu with rfl | hu
    · exact ⟨by omega, le_rfl⟩
    · have := ih h hu
      exact ⟨by omega, by omega⟩

theorem ClimbsTo.mem_last : a ∈ c :: l := h.last ▸ getLast_mem (by simp)

theorem ClimbsTo.nodup : (c :: l).Nodup := by
  induction l generalizing c with
  | nil => exact nodup_singleton c
  | cons v l ih =>
    obtain ⟨⟨hc, rfl⟩, h⟩ := climbsTo_cons.mp h
    have hlt := heapParent_lt hc
    refine nodup_cons.mpr ⟨fun hmem => ?_, ih h⟩
    have := h.bounds hmem
    omega

/-- A place of a path below the top has its parent on it. -/
theorem ClimbsTo.parent_mem (hu : u ∈ c :: l) (hne : u ≠ a) :
    0 < u ∧ heapParent u ∈ l := by
  induction l generalizing c with
  | nil =>
    obtain rfl := climbsTo_nil_iff.mp h
    exact absurd (mem_singleton.mp hu) hne
  | cons v l ih =>
    obtain ⟨⟨hc, rfl⟩, h⟩ := climbsTo_cons.mp h
    rcases mem_cons.mp hu with rfl | hu
    · exact ⟨hc, mem_cons_self⟩
    · obtain ⟨hu0, hmem⟩ := ih h hu
      exact ⟨hu0, mem_cons_of_mem _ hmem⟩

/-- A place of a path above its lower end has a child on it. -/
theorem ClimbsTo.exists_child (hv : v ∈ l) :
    ∃ u ∈ c :: l, u ≠ a ∧ heapParent u = v := by
  induction l generalizing c with
  | nil => cases hv
  | cons w l ih =>
    obtain ⟨⟨hc, rfl⟩, h⟩ := climbsTo_cons.mp h
    rcases mem_cons.mp hv with rfl | hv
    · have hlt := heapParent_lt hc
      have := (h.bounds mem_cons_self).1
      exact ⟨c, mem_cons_self, by omega, rfl⟩
    · obtain ⟨u, hu, hne, hup⟩ := ih h hv
      exact ⟨u, mem_cons_of_mem _ hu, hne, hup⟩

omit h

/-! ## Rotation -/

/-- Exchange the element at `c` with those at the places `l`, one after the other. -/
def rotate (xs : ℕ → α) (c : ℕ) (l : List ℕ) : ℕ → α :=
  l.foldl (fun xs b => xs ∘ Equiv.swap b c) xs

theorem rotate_cons (xs : ℕ → α) (c b : ℕ) (l : List ℕ) :
    rotate xs c (b :: l) = rotate (xs ∘ Equiv.swap b c) c l := rfl

theorem rotate_of_not_mem (hu : u ∉ c :: l) : rotate xs c l u = xs u := by
  induction l generalizing xs with
  | nil => rfl
  | cons b l ih =>
    obtain ⟨huc, hub, hul⟩ : u ≠ c ∧ u ≠ b ∧ u ∉ l := by simpa using hu
    rw [rotate_cons, ih (by simp [huc, hul]), comp_apply, swap_apply_of_ne_of_ne hub huc]

/-- What exchanges along a path do. The element at `b`, the lower end of the path, may be kept at a
place `c` that is not on the rest of it. -/
theorem ClimbsTo.rotate_spec (xs : ℕ → α) (h : ClimbsTo b l a) (hc : c ∉ l) :
    (∀ v ∈ l.head?, rotate xs c l v = xs c) ∧
      (∀ u ∈ l, u ≠ a → rotate xs c l (heapParent u) = xs u) ∧
      rotate xs c l c = if l = [] then xs c else xs a := by
  induction l generalizing xs b with
  | nil => simp [rotate]
  | cons v l ih =>
    obtain ⟨⟨-, rfl⟩, h⟩ := climbsTo_cons.mp h
    obtain ⟨hcv, hcl⟩ : c ≠ heapParent b ∧ c ∉ l := by simpa using hc
    obtain ⟨v, hv⟩ : ∃ v, v = heapParent b := ⟨_, rfl⟩
    rw [← hv] at h hcv ⊢
    have hvl := (nodup_cons.mp h.nodup).1
    obtain ⟨hfirst, hrest, hlast⟩ := ih (xs ∘ swap v c) h hcl
    have hkeep : ∀ u ∈ l, (xs ∘ swap v c) u = xs u := fun u hu => by
      rw [comp_apply, swap_apply_of_ne_of_ne (ne_of_mem_of_not_mem hu hvl)
        (ne_of_mem_of_not_mem hu hcl)]
    have hxc : (xs ∘ swap v c) c = xs v := by
      rw [comp_apply, swap_apply_right]
    rw [rotate_cons]
    refine ⟨fun w hw => ?_, fun u hu hne => ?_, ?_⟩
    · obtain rfl : v = w := by simpa using hw
      rw [rotate_of_not_mem (by simp [hvl, hcv.symm]), comp_apply, swap_apply_left]
    · rcases mem_cons.mp hu with rfl | hu
      · obtain ⟨-, hmem⟩ := h.parent_mem mem_cons_self hne
        cases l with
        | nil => cases hmem
        | cons w l =>
          rw [← (climbsTo_cons.mp h).1.2, hfirst w rfl, hxc]
      · rw [hrest u hu hne, hkeep u hu]
    · rw [hlast, if_neg (cons_ne_nil v l)]
      by_cases hl : l = []
      · subst hl
        rw [if_pos rfl, hxc, climbsTo_nil_iff.mp h]
      have hmem : a ∈ l := by
        rw [← h.last, getLast_cons hl]
        exact getLast_mem hl
      rw [if_neg hl, hkeep a hmem]

/-- The elements of a path move up by one. -/
theorem ClimbsTo.rotate_parent (h : ClimbsTo c l a) (hu : u ∈ c :: l) (hne : u ≠ a) :
    rotate xs c l (heapParent u) = xs u := by
  obtain ⟨hfirst, hrest, -⟩ := h.rotate_spec xs (nodup_cons.mp h.nodup).1
  rcases mem_cons.mp hu with rfl | hu
  · obtain ⟨-, hmem⟩ := h.parent_mem mem_cons_self hne
    cases l with
    | nil => cases hmem
    | cons v l => rw [← (climbsTo_cons.mp h).1.2, hfirst v rfl]
  · exact hrest u hu hne

/-- The element of the upper end goes to the lower end. -/
theorem ClimbsTo.rotate_self (h : ClimbsTo c l a) : rotate xs c l c = xs a := by
  obtain ⟨-, -, hlast⟩ := h.rotate_spec xs (nodup_cons.mp h.nodup).1
  rw [hlast]
  split_ifs with hl
  · subst hl
    rw [climbsTo_nil_iff.mp h]
  · rfl

/-- Exchanges of places below `n` keep the elements below `n` there. -/
theorem rotate_lt (xs : ℕ → α) (hl : ∀ u ∈ c :: l, u < n) {i : ℕ} (hi : i < n) :
    ∃ j < n, rotate xs c l i = xs j := by
  induction l generalizing xs with
  | nil => exact ⟨i, hi, rfl⟩
  | cons b l ih =>
    obtain ⟨j, hj, heq⟩ := ih (xs ∘ swap b c) fun u hu => hl u (by
      rcases mem_cons.mp hu with rfl | hu
      · exact mem_cons_self
      · exact mem_cons_of_mem _ (mem_cons_of_mem _ hu))
    refine ⟨swap b c j, ?_, heq⟩
    rw [swap_apply_def]
    split_ifs
    · exact hl c mem_cons_self
    · exact hl b (by simp)
    · exact hj

/-- The elements of an array, in their order. -/
def elements (xs : ℕ → α) (n : ℕ) : List α := (List.range n).map xs

theorem elements_swap (xs : ℕ → α) {i j : ℕ} (hi : i < n) (hj : j < n) :
    (elements (xs ∘ Equiv.swap i j) n).Perm (elements xs n) := by
  have hperm : ((List.range n).map (swap i j)).Perm (List.range n) := by
    refine (perm_ext_iff_of_nodup (nodup_range.map (Equiv.injective _)) nodup_range).mpr fun k => ?_
    rw [mem_map, mem_range]
    constructor
    · rintro ⟨k, hk, rfl⟩
      rw [mem_range] at hk
      rw [swap_apply_def]
      split_ifs <;> assumption
    · intro hk
      refine ⟨swap i j k, ?_, swap_apply_self i j k⟩
      rw [mem_range, swap_apply_def]
      split_ifs <;> assumption
  have hmap := hperm.map xs
  rwa [map_map] at hmap

theorem elements_rotate (hl : ∀ u ∈ c :: l, u < n) :
    (elements (rotate xs c l) n).Perm (elements xs n) := by
  induction l generalizing xs with
  | nil => exact List.Perm.refl _
  | cons b l ih =>
    have hb : b < n := hl b (by simp)
    have hc : c < n := hl c mem_cons_self
    refine (ih fun u hu => hl u ?_).trans (elements_swap xs hb hc)
    rcases mem_cons.mp hu with rfl | hu
    · exact mem_cons_self
    · exact mem_cons_of_mem _ (mem_cons_of_mem _ hu)

/-! ## Order -/

section

variable {le : α → α → Prop}

/-- The places of `[a, n)` are in heap order. -/
def HeapFrom (le : α → α → Prop) (xs : ℕ → α) (a n : ℕ) : Prop :=
  ∀ j < n, 0 < j → a ≤ heapParent j → le (xs j) (xs (heapParent j))

/-- The path always goes to a greatest child. -/
def Greatest (le : α → α → Prop) (xs : ℕ → α) (n : ℕ) (c : ℕ) (l : List ℕ) (a : ℕ) : Prop :=
  ∀ u ∈ c :: l, u ≠ a → ∀ k < n, 0 < k → heapParent k = heapParent u → le (xs k) (xs u)

/-- The root of a heap is greatest. -/
theorem HeapFrom.le_root (hrefl : ∀ x, le x x) (htrans : ∀ x y z, le x y → le y z → le x z)
    (h : HeapFrom le xs 0 n) : ∀ j < n, le (xs j) (xs 0) := by
  intro j
  induction j using Nat.strongRecOn with
  | ind j ih =>
    intro hj
    rcases Nat.eq_zero_or_pos j with rfl | hpos
    · exact hrefl _
    · have hlt := heapParent_lt hpos
      exact htrans _ _ _ (h j hj hpos (Nat.zero_le _)) (ih _ hlt (hlt.trans hj))

/-- A sift along a path of greatest children. -/
theorem HeapFrom.rotate (h : HeapFrom le xs (a + 1) n) (hpath : ClimbsTo c l a) (hc : c < n)
    (hgreatest : Greatest le xs n c l a) (htop : c ≠ a → le (xs a) (xs c))
    (hbelow : ∀ k < n, 0 < k → heapParent k = c → le (xs k) (xs a)) :
    HeapFrom le (rotate xs c l) a n := by
  intro j hj hj0 hja
  have hlt := heapParent_lt hj0
  have hup : ∀ u ∈ c :: l, u ≠ a → u < n ∧ a + 1 ≤ u := fun u hu hne => by
    have := hpath.bounds hu
    exact ⟨by omega, by omega⟩
  by_cases hmem : j ∈ c :: l
  · rw [hpath.rotate_parent hmem (by omega)]
    rcases mem_cons.mp hmem with rfl | hmem'
    · rw [hpath.rotate_self]
      exact htop (by omega)
    obtain ⟨u, hu, hne, rfl⟩ := hpath.exists_child hmem'
    rw [hpath.rotate_parent hu hne]
    have hu0 := (hpath.parent_mem hu hne).1
    exact h u (hup u hu hne).1 hu0 (by omega)
  rw [rotate_of_not_mem hmem]
  by_cases hpar : heapParent j ∈ c :: l
  · rcases mem_cons.mp hpar with heq | hpar
    · rw [heq, hpath.rotate_self]
      exact hbelow j hj hj0 heq
    · obtain ⟨u, hu, hne, heq⟩ := hpath.exists_child hpar
      rw [← heq, hpath.rotate_parent hu hne]
      exact hgreatest u hu hne j hj hj0 heq.symm
  · rw [rotate_of_not_mem hpar]
    have hne : heapParent j ≠ a := fun heq => hpar (heq ▸ hpath.mem_last)
    exact h j hj hj0 (by omega)

end

end LinuxKernelTest
