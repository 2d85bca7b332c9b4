import LinuxKernelTest.XArrayWalk

/-!
# XArray : the tree in memory

A node of shift `2 * l` that covers the indices from `p * 4 ^ (l + 1)` up to the next
multiple is at level `l` and prefix `p`. A `Layout` says which node is at which level and
prefix, and `IsTree xa T` says that the memory holds exactly that tree : child pointers,
parents, offsets, shifts and the head agree with the layout. Levels count from the
leaves, so a tree that grows or shrinks at the root keeps the places of its nodes.

`NodeAt xa n b` is the same notion without a layout : `n` is reached from `xa_head`
through slots and covers the indices from `b` on. The two agree (`IsTree.nodeAt_iff`).
-/

namespace LinuxKernelTest

open Function Nat XaEntry Option

/-! ## Digits of an index -/

theorem shiftRight_two_mul (i l : ℕ) : i >>> (2 * l) = i / 4 ^ l := by
  rw [shiftRight_eq_div_pow, pow_mul]
  norm_num

theorem shiftLeft_two_mul (i l : ℕ) : i <<< (2 * l) = i * 4 ^ l := by
  rw [shiftLeft_eq, pow_mul]
  norm_num

theorem and_three (x : ℕ) : x &&& 3 = x % 4 :=
  and_two_pow_sub_one_eq_mod x 2

theorem div_pow_succ (i l : ℕ) : i / 4 ^ (l + 1) = i / 4 ^ l / 4 := by
  rw [pow_succ, Nat.div_div_eq_div_mul]

/-- The prefix of the child that covers `i`. -/
theorem four_mul_div_add_mod (i l : ℕ) :
    4 * (i / 4 ^ (l + 1)) + i / 4 ^ l % 4 = i / 4 ^ l := by
  rw [div_pow_succ]
  exact div_add_mod _ 4

theorem two_pow_64 : (2 : ℕ) ^ 64 = 4 ^ 32 := by norm_num

/-! ## Layouts -/

/-- Which node is at which level and prefix. -/
abbrev Layout := ℕ → ℕ → Option NodeId

/-- The layout without nodes. -/
def Layout.empty : Layout := fun _ _ => none

/-- Put `o` at level `l` and prefix `p`. -/
def Layout.set (T : Layout) (l p : ℕ) (o : Option NodeId) : Layout :=
  update T l (update (T l) p o)

section

variable {T : Layout} {l l' p p' : ℕ} {o : Option NodeId} {n m : NodeId}

@[simp] theorem Layout.set_self : T.set l p o l p = o := by
  simp [set]

theorem Layout.set_of_ne (h : ¬(l' = l ∧ p' = p)) : T.set l p o l' p' = T l' p' := by
  unfold set
  by_cases hl : l' = l
  · subst hl
    rw [update_self, update_of_ne fun hp => h ⟨rfl, hp⟩]
  · rw [update_of_ne hl]

theorem Layout.set_level (T : Layout) (l p : ℕ) (o : Option NodeId) :
    T.set l p o l = update (T l) p o := by
  simp [set]

theorem Layout.set_level_of_ne (h : l' ≠ l) : T.set l p o l' = T l' :=
  update_of_ne h ..

/-- A node of the extended layout is the new one or an old one at its old place. -/
theorem Layout.set_cases (h : T.set l p (some n) l' p' = some m) :
    (l' = l ∧ p' = p) ∧ m = n ∨ ¬(l' = l ∧ p' = p) ∧ T l' p' = some m := by
  by_cases hlp : l' = l ∧ p' = p
  · obtain ⟨rfl, rfl⟩ := hlp
    rw [set_self] at h
    exact .inl ⟨⟨rfl, rfl⟩, (some.inj h).symm⟩
  · rw [set_of_ne hlp] at h
    exact .inr ⟨hlp, h⟩

theorem Layout.set_none_cases (h : T.set l p none l' p' = some n) :
    ¬(l' = l ∧ p' = p) ∧ T l' p' = some n := by
  by_cases hlp : l' = l ∧ p' = p
  · obtain ⟨rfl, rfl⟩ := hlp
    rw [set_self] at h
    cases h
  · rw [set_of_ne hlp] at h
    exact ⟨hlp, h⟩

end

/-! ## Trees -/

open Layout

/-- The nodes of `T` are live nodes of `xa` with the shift of their level. -/
structure HasNodes (xa : XArray) (T : Layout) : Prop where
  lt : ∀ {l p n}, T l p = some n → n < xa.kmemNext
  alive : ∀ {l p n}, T l p = some n → xa.freed n = false
  shift : ∀ {l p n}, T l p = some n → xa.shift n = 2 * l
  bound : ∀ {l p n}, T l p = some n → l < 32 ∧ p < 4 ^ (31 - l)
  inj : ∀ {l p l' p' n}, T l p = some n → T l' p' = some n → l = l' ∧ p = p'

/-- The memory of `xa` holds the tree `T`. -/
structure IsTree (xa : XArray) (T : Layout) : Prop extends HasNodes xa T where
  slot : ∀ {l p n}, T (l + 1) p = some n → ∀ k < 4, ∀ c,
    xa.slots n k = .node c ↔ T l (4 * p + k) = some c
  leaf : ∀ {p n}, T 0 p = some n → ∀ k < 4, ∀ c, xa.slots n k ≠ .node c
  parent : ∀ {l p n}, T l p = some n → xa.parent n = T (l + 1) (p / 4)
  offset : ∀ {l p n q}, T l p = some n → T (l + 1) (p / 4) = some q → xa.offset n = p % 4
  root : ∀ {l p n}, T l p = some n → T (l + 1) (p / 4) = none → p = 0 ∧ xa.xaHead = .node n
  head : ∀ {r}, xa.xaHead = .node r → ∃ l, T l 0 = some r ∧ T (l + 1) 0 = none

/-- What is left when the node `n` is taken out. -/
theorem HasNodes.of_set_none {xa : XArray} {T : Layout} {l p l' p' : ℕ} {n c : NodeId}
    (h : HasNodes xa T) (hn : T l p = some n) (hc : T.set l p none l' p' = some c) :
    T l' p' = some c ∧ c ≠ n := by
  obtain ⟨hlp, ho⟩ := set_none_cases hc
  refine ⟨ho, ?_⟩
  rintro rfl
  exact hlp (h.inj ho hn)

/-- The node `r` at level `L` is the root. -/
structure IsTop (xa : XArray) (T : Layout) (L : ℕ) (r : NodeId) : Prop where
  head : xa.xaHead = .node r
  node : T L 0 = some r
  above : T (L + 1) 0 = none

/-- `n` is reached from `xa_head` and covers the indices from `b` on. -/
inductive NodeAt (xa : XArray) : NodeId → ℕ → Prop
  | root {r : NodeId} : xa.xaHead = .node r → NodeAt xa r 0
  | child {n c : NodeId} {b k : ℕ} : NodeAt xa n b → k < 4 → xa.slots n k = .node c →
      NodeAt xa c (b + k <<< xa.shift n)

namespace IsTree

variable {xa xa' : XArray} {T : Layout} {l p k L : ℕ} {n r c : NodeId}

section

variable (h : IsTree xa T) {b : ℕ}
include h

theorem exists_top (hr : xa.xaHead = .node r) : ∃ L, IsTop xa T L r := by
  obtain ⟨L, hL, habove⟩ := h.head hr
  exact ⟨L, hr, hL, habove⟩

/-- Induction from the root down : the levels are bounded. -/
theorem induct {P : ℕ → ℕ → NodeId → Prop}
    (hroot : ∀ {l n}, T l 0 = some n → xa.xaHead = .node n → P l 0 n)
    (hchild : ∀ {l p n q}, T l p = some n → T (l + 1) (p / 4) = some q → P (l + 1) (p / 4) q →
      P l p n) (hn : T l p = some n) : P l p n := by
  induction hd : 32 - l generalizing l p n with
  | zero =>
    have := (h.bound hn).1
    omega
  | succ d ih =>
    cases hq : T (l + 1) (p / 4) with
    | none =>
      obtain ⟨rfl, hhead⟩ := h.root hn hq
      exact hroot hn hhead
    | some q => exact hchild hn hq (ih hq (by omega))

/-- Every node lies below the root : its ancestors are all there. -/
theorem below_top (htop : IsTop xa T L r) (hn : T l p = some n) :
    l ≤ L ∧ p / 4 ^ (L - l) = 0 ∧ ∀ j ≤ L - l, ∃ q, T (l + j) (p / 4 ^ j) = some q := by
  refine h.induct (P := fun l p _ => l ≤ L ∧ p / 4 ^ (L - l) = 0 ∧ ∀ j ≤ L - l, ∃ q,
    T (l + j) (p / 4 ^ j) = some q) (fun {l n} hn hhead => ?_) (fun {l p n q} hn _ ih => ?_) hn
  · obtain rfl : n = r := node.inj (hhead.symm.trans htop.head)
    obtain ⟨rfl, -⟩ := h.inj hn htop.node
    refine ⟨le_rfl, by simp, fun j hj => ⟨n, ?_⟩⟩
    obtain rfl : j = 0 := by omega
    simpa using hn
  · obtain ⟨hle, hzero, hall⟩ := ih
    refine ⟨by omega, ?_, fun j hj => ?_⟩
    · obtain ⟨d', hd'⟩ : ∃ d', L - l = d' + 1 := ⟨L - l - 1, by omega⟩
      rw [show L - (l + 1) = d' by omega] at hzero
      rw [hd', pow_succ', ← Nat.div_div_eq_div_mul]
      exact hzero
    · cases j with
      | zero => exact ⟨n, by simpa using hn⟩
      | succ j =>
        obtain ⟨q', hq'⟩ := hall j (by omega)
        refine ⟨q', ?_⟩
        rw [pow_succ', ← Nat.div_div_eq_div_mul, show l + (j + 1) = l + 1 + j by omega]
        exact hq'

theorem exists_head (hn : T l p = some n) : ∃ r, xa.xaHead = .node r :=
  h.induct (P := fun _ _ _ => ∃ r, xa.xaHead = .node r) (fun _ hhead => ⟨_, hhead⟩)
    (fun _ _ ih => ih) hn

theorem eq_none_of_head (hhead : ∀ r, xa.xaHead ≠ .node r) :
    T l p = none := by
  cases hn : T l p with
  | none => rfl
  | some n =>
    obtain ⟨r, hr⟩ := h.exists_head hn
    exact absurd hr (hhead r)

theorem slot_child (hn : T (l + 1) p = some n) (hk : k < 4)
    (hc : xa.slots n k = .node c) : T l (4 * p + k) = some c :=
  (h.slot hn k hk c).mp hc

theorem child_slot (hn : T (l + 1) p = some n) (hk : k < 4)
    (hc : T l (4 * p + k) = some c) : xa.slots n k = .node c :=
  (h.slot hn k hk c).mpr hc

theorem parent_slot (hn : T l p = some n) (hq : T (l + 1) (p / 4) = some q) :
    xa.slots q (p % 4) = .node n :=
  h.child_slot hq (by omega) (by rwa [div_add_mod])

theorem pos_of_slot (hn : T l p = some n) (hk : k < 4)
    (hc : xa.slots n k = .node c) : ∃ l', l = l' + 1 ∧ T l' (4 * p + k) = some c := by
  cases l with
  | zero => exact absurd hc (h.leaf hn k hk c)
  | succ l => exact ⟨l, rfl, h.slot_child hn hk hc⟩

theorem ne_some_of_le (hn : xa.kmemNext ≤ n) (l p : ℕ) : T l p ≠ some n :=
  fun hT => absurd (h.lt hT) (not_lt.mpr hn)

/-- The first index of a node and its shift name its place. -/
theorem nodeAt (hn : T l p = some n) : NodeAt xa n (p * 4 ^ (l + 1)) := by
  refine h.induct (P := fun l p n => NodeAt xa n (p * 4 ^ (l + 1)))
    (fun _ hhead => by simpa using NodeAt.root hhead) (fun {l p n q} hn hq ih => ?_) hn
  have := NodeAt.child ih (by omega) (h.parent_slot hn hq)
  rw [h.shift hq, shiftLeft_two_mul] at this
  have hb : p / 4 * 4 ^ (l + 1 + 1) + p % 4 * 4 ^ (l + 1) = p * 4 ^ (l + 1) := by
    conv_rhs => rw [← div_add_mod p 4]
    ring
  rwa [hb] at this

theorem exists_of_nodeAt (hn : NodeAt xa n b) :
    ∃ l p, T l p = some n ∧ b = p * 4 ^ (l + 1) := by
  induction hn with
  | root hr =>
    obtain ⟨L, hL, -⟩ := h.head hr
    exact ⟨L, 0, hL, by simp⟩
  | @child n c b k _ hk hc ih =>
    obtain ⟨l, p, hT, rfl⟩ := ih
    obtain ⟨l, rfl, hc'⟩ := h.pos_of_slot hT hk hc
    refine ⟨l, 4 * p + k, hc', ?_⟩
    rw [h.shift hT, shiftLeft_two_mul]
    ring

/-- The nodes of the layout are those reached from `xa_head`. -/
theorem nodeAt_iff :
    NodeAt xa n b ∧ xa.shift n = 2 * l ↔ ∃ p, T l p = some n ∧ b = p * 4 ^ (l + 1) := by
  constructor
  · rintro ⟨hn, hs⟩
    obtain ⟨l', p, hT, rfl⟩ := h.exists_of_nodeAt hn
    obtain rfl : l' = l := by
      have := h.shift hT
      omega
    exact ⟨p, hT, rfl⟩
  · rintro ⟨p, hT, rfl⟩
    exact ⟨h.nodeAt hT, h.shift hT⟩

/-- Nothing is above the root. -/
theorem none_above (htop : IsTop xa T L r) (hl : L < l) : T l p = none := by
  cases hn : T l p with
  | none => rfl
  | some n =>
    have := (h.below_top htop hn).1
    omega

/-- The only node at the level of the root is the root. -/
theorem eq_zero_of_top (htop : IsTop xa T L r) (hn : T L p = some n) :
    p = 0 := by
  have := (h.below_top htop hn).2.1
  simpa using this

/-- A node other than the root has a parent. -/
theorem exists_parent (htop : IsTop xa T L r) (hn : T l p = some n)
    (hl : l < L) : ∃ q, T (l + 1) (p / 4) = some q := by
  obtain ⟨q, hq⟩ := (h.below_top htop hn).2.2 1 (by omega)
  exact ⟨q, by simpa using hq⟩

end

end IsTree

/-! ## Changes of shape -/

/-- The place of a node and its life are the same in `xa'` as in `xa`. -/
structure KeepsNode (xa xa' : XArray) (m : NodeId) : Prop where
  shift : xa'.shift m = xa.shift m
  parent : xa'.parent m = xa.parent m
  offset : xa'.offset m = xa.offset m
  freed : xa'.freed m = xa.freed m

section

variable {xa xa' : XArray} {T : Layout} {l p k L : ℕ} {n r c q : NodeId}

theorem Layout.ne_of_fresh (hfresh : ∀ l p, T l p ≠ some n) ⦃l p m⦄ (hm : T l p = some m) :
    m ≠ n :=
  fun hmn => hfresh _ _ (hmn ▸ hm)

theorem HasNodes.add (h : HasNodes xa T) (hfresh : ∀ l p, T l p ≠ some n)
    (hkmem : xa.kmemNext ≤ xa'.kmemNext) (hn : n < xa'.kmemNext)
    (hold : ∀ m, m ≠ n → xa'.freed m = xa.freed m ∧ xa'.shift m = xa.shift m)
    (hfreed : xa'.freed n = false) (hshift : xa'.shift n = 2 * l)
    (hbound : l < 32 ∧ p < 4 ^ (31 - l)) : HasNodes xa' (T.set l p (some n)) where
  lt hm := by
    rcases set_cases hm with ⟨-, rfl⟩ | ⟨-, ho⟩
    · exact hn
    · exact (h.lt ho).trans_le hkmem
  alive {l' p' m} hm := by
    rcases set_cases hm with ⟨-, rfl⟩ | ⟨-, ho⟩
    · exact hfreed
    · rw [(hold m (ne_of_fresh hfresh ho)).1, h.alive ho]
  shift {l' p' m} hm := by
    rcases set_cases hm with ⟨⟨rfl, -⟩, rfl⟩ | ⟨-, ho⟩
    · exact hshift
    · rw [(hold m (ne_of_fresh hfresh ho)).2, h.shift ho]
  bound hm := by
    rcases set_cases hm with ⟨⟨rfl, rfl⟩, -⟩ | ⟨-, ho⟩
    · exact hbound
    · exact h.bound ho
  inj hm hm' := by
    rcases set_cases hm with ⟨⟨rfl, rfl⟩, rfl⟩ | ⟨-, ho⟩
    · rcases set_cases hm' with ⟨⟨rfl, rfl⟩, -⟩ | ⟨-, ho'⟩
      · exact ⟨rfl, rfl⟩
      · exact absurd ho' (hfresh _ _)
    · rcases set_cases hm' with ⟨-, rfl⟩ | ⟨-, ho'⟩
      · exact absurd ho (hfresh _ _)
      · exact h.inj ho ho'

theorem HasNodes.remove (h : HasNodes xa T) (hnp : T l p = some n)
    (hkmem : xa.kmemNext ≤ xa'.kmemNext)
    (hold : ∀ m, m ≠ n → xa'.freed m = xa.freed m ∧ xa'.shift m = xa.shift m) :
    HasNodes xa' (T.set l p none) := by
  have hne : ∀ {l' p' m}, T.set l p none l' p' = some m → T l' p' = some m ∧ m ≠ n :=
    h.of_set_none hnp
  exact
    { lt := fun hm => (h.lt (hne hm).1).trans_le hkmem
      alive := fun hm => by rw [(hold _ (hne hm).2).1, h.alive (hne hm).1]
      shift := fun hm => by rw [(hold _ (hne hm).2).2, h.shift (hne hm).1]
      bound := fun hm => h.bound (hne hm).1
      inj := fun hm hm' => h.inj (hne hm).1 (hne hm').1 }

namespace IsTree

/-- The memory agrees with the layout on where `n` hangs. -/
structure Placed (xa : XArray) (T : Layout) (l p : ℕ) (n : NodeId) : Prop where
  parent : xa.parent n = T (l + 1) (p / 4)
  offset : ∀ {q}, T (l + 1) (p / 4) = some q → xa.offset n = p % 4
  root : T (l + 1) (p / 4) = none → p = 0 ∧ xa.xaHead = .node n

theorem placed (h : IsTree xa T) (hn : T l p = some n) : Placed xa T l p n :=
  ⟨h.parent hn, h.offset hn, h.root hn⟩

theorem Placed.congr {T' : Layout} (h : Placed xa T l p n)
    (hT : T' (l + 1) (p / 4) = T (l + 1) (p / 4)) (hkeep : KeepsNode xa xa' n)
    (hhead : xa.xaHead = .node n → xa'.xaHead = .node n) : Placed xa' T' l p n where
  parent := by rw [hkeep.parent, h.parent, hT]
  offset hq := by rw [hkeep.offset, h.offset (hT.symm.trans hq)]
  root hq := (h.root (hT.symm.trans hq)).imp_right hhead

theorem of_placed (h : HasNodes xa T)
    (hslot : ∀ {l p n}, T (l + 1) p = some n → ∀ k < 4, ∀ c,
      xa.slots n k = .node c ↔ T l (4 * p + k) = some c)
    (hleaf : ∀ {p n}, T 0 p = some n → ∀ k < 4, ∀ c, xa.slots n k ≠ .node c)
    (hplaced : ∀ {l p n}, T l p = some n → Placed xa T l p n)
    (hhead : ∀ {r}, xa.xaHead = .node r → ∃ l, T l 0 = some r ∧ T (l + 1) 0 = none) :
    IsTree xa T :=
  { h with
    slot := hslot
    leaf := hleaf
    parent := fun hn => (hplaced hn).parent
    offset := fun hn => (hplaced hn).offset
    root := fun hn => (hplaced hn).root
    head := hhead }

variable (h : IsTree xa T)
include h

/-- A tree stays the same tree under changes that keep its nodes and the child pointers. -/
theorem congr (hkmem : xa.kmemNext ≤ xa'.kmemNext)
    (hhead : ∀ r, xa'.xaHead = .node r ↔ xa.xaHead = .node r)
    (hkeep : ∀ {l p m}, T l p = some m → KeepsNode xa xa' m)
    (hslots : ∀ {l p m}, T l p = some m → ∀ k < 4, ∀ c,
      xa'.slots m k = .node c ↔ xa.slots m k = .node c) : IsTree xa' T where
  lt hn := (h.lt hn).trans_le hkmem
  alive hn := by rw [(hkeep hn).freed, h.alive hn]
  shift hn := by rw [(hkeep hn).shift, h.shift hn]
  bound := h.bound
  inj := h.inj
  slot hn k hk c := by rw [hslots hn k hk c, h.slot hn k hk c]
  leaf hn k hk c hc := h.leaf hn k hk c ((hslots hn k hk c).mp hc)
  parent hn := by rw [(hkeep hn).parent, h.parent hn]
  offset hn hq := by rw [(hkeep hn).offset, h.offset hn hq]
  root hn hq := ⟨(h.root hn hq).1, (hhead _).mpr (h.root hn hq).2⟩
  head hr := h.head ((hhead _).mp hr)

/-- No node is below a place without a node that lies below the root. -/
theorem none_below (htop : IsTop xa T L r) (hl : l < L)
    (hnone : T (l + 1) (p / 4) = none) : T l p = none := by
  cases hn : T l p with
  | none => rfl
  | some n =>
    obtain ⟨q, hq⟩ := h.exists_parent htop hn hl
    rw [hnone] at hq
    cases hq

/-- A new node without children below the node `q`. -/
theorem attach (hq : T (l + 1) p = some q) (hk : k < 4)
    (hnone : T l (4 * p + k) = none) (hfresh : ∀ l p, T l p ≠ some n)
    (hkmem : xa.kmemNext ≤ xa'.kmemNext) (hn : n < xa'.kmemNext)
    (hhead : xa'.xaHead = xa.xaHead) (hkeep : ∀ m, m ≠ n → KeepsNode xa xa' m)
    (hfreed : xa'.freed n = false) (hshift : xa'.shift n = 2 * l)
    (hparent : xa'.parent n = some q) (hoffset : xa'.offset n = k)
    (hnew : ∀ j < 4, ∀ c, xa'.slots n j ≠ .node c) (hlink : xa'.slots q k = .node n)
    (hslots : ∀ m, m ≠ n → ∀ j, ¬(m = q ∧ j = k) → xa'.slots m j = xa.slots m j) :
    IsTree xa' (T.set l (4 * p + k) (some n)) := by
  have hdiv : (4 * p + k) / 4 = p := by omega
  have hmod : (4 * p + k) % 4 = k := by omega
  have hold := ne_of_fresh hfresh
  have hup : T.set l (4 * p + k) (some n) (l + 1) ((4 * p + k) / 4) = some q := by
    rw [hdiv, set_of_ne (by omega)]
    exact hq
  obtain ⟨r, hr⟩ := h.exists_head hq
  obtain ⟨L, htop⟩ := h.exists_top hr
  have hlL : l + 1 ≤ L := (h.below_top htop hq).1
  -- The new node is the parent of no old node.
  have hchild : ∀ {l' p' m}, T l' p' = some m →
      T.set l (4 * p + k) (some n) (l' + 1) (p' / 4) = T (l' + 1) (p' / 4) := by
    intro l' p' m hm
    refine set_of_ne ?_
    rintro ⟨rfl, hp⟩
    rw [h.none_below htop (by omega) (hp ▸ hnone)] at hm
    cases hm
  have hbound : l < 32 ∧ 4 * p + k < 4 ^ (31 - l) := by
    obtain ⟨hl, hp⟩ := h.bound hq
    refine ⟨by omega, ?_⟩
    rw [show 31 - l = (31 - (l + 1)) + 1 by omega, pow_succ]
    omega
  refine of_placed (h.toHasNodes.add hfresh hkmem hn
    (fun m hm => ⟨(hkeep m hm).freed, (hkeep m hm).shift⟩) hfreed hshift hbound)
    (fun {l' p' m} hm j hj c => ?_) (fun {p' m} hm j hj c hc => ?_) (fun {l' p' m} hm => ?_)
    fun {r'} hr' => ?_
  · rcases set_cases hm with ⟨⟨rfl, rfl⟩, rfl⟩ | ⟨-, ho⟩
    · rw [set_of_ne (by omega)]
      refine ⟨fun hc => absurd hc (hnew j hj c), fun hc => ?_⟩
      rw [h.none_below htop (by omega)
        (by rw [show (4 * (4 * p + k) + j) / 4 = 4 * p + k by omega]; exact hnone)] at hc
      cases hc
    · by_cases hmq : m = q ∧ j = k
      · obtain ⟨rfl, rfl⟩ := hmq
        obtain ⟨hl, rfl⟩ := h.inj ho hq
        obtain rfl : l' = l := by omega
        rw [hlink, set_self]
        exact ⟨fun he => by rw [node.inj he], fun he => by rw [some.inj he]⟩
      · rw [hslots m (hold ho) j hmq, h.slot ho j hj c, set_of_ne]
        rintro ⟨rfl, hp⟩
        obtain rfl : p' = p := by omega
        exact hmq ⟨some.inj (ho.symm.trans hq), by omega⟩
  · rcases set_cases hm with ⟨-, rfl⟩ | ⟨-, ho⟩
    · exact hnew j hj c hc
    · have hmq : ¬(m = q ∧ j = k) := by
        rintro ⟨rfl, -⟩
        have := (h.inj ho hq).1
        omega
      rw [hslots m (hold ho) j hmq] at hc
      exact h.leaf ho j hj c hc
  · rcases set_cases hm with ⟨⟨rfl, rfl⟩, rfl⟩ | ⟨-, ho⟩
    · exact ⟨hparent.trans hup.symm, fun _ => by rw [hmod, hoffset],
        fun hnone => absurd (hup.symm.trans hnone) (some_ne_none q)⟩
    · exact (h.placed ho).congr (hchild ho) (hkeep m (hold ho)) hhead.trans
  · obtain rfl : r' = r := by
      rw [hhead, hr] at hr'
      exact (node.inj hr').symm
    exact ⟨L, by rw [set_of_ne (by omega)]; exact htop.node,
      by rw [set_of_ne (by omega)]; exact htop.above⟩

/-- The first node of a tree without nodes, at any level. -/
theorem first (hhead : ∀ r, xa.xaHead ≠ .node r) (hl : l < 32)
    (hn : n < xa'.kmemNext) (hhead' : xa'.xaHead = .node n) (hfreed : xa'.freed n = false)
    (hshift : xa'.shift n = 2 * l) (hparent : xa'.parent n = none)
    (hnew : ∀ j < 4, ∀ c, xa'.slots n j ≠ .node c) : IsTree xa' (T.set l 0 (some n)) := by
  have hempty : ∀ l p, T l p = none := fun l p => h.eq_none_of_head hhead
  have hone : ∀ {l' p' m}, T.set l 0 (some n) l' p' = some m → l' = l ∧ p' = 0 ∧ m = n := by
    intro l' p' m hm
    rcases set_cases hm with ⟨⟨rfl, rfl⟩, rfl⟩ | ⟨-, ho⟩
    · exact ⟨rfl, rfl, rfl⟩
    · rw [hempty] at ho
      cases ho
  have hnone : ∀ {l' p'}, l' ≠ l → T.set l 0 (some n) l' p' = none := by
    intro l' p' hne
    rw [set_of_ne (by omega), hempty]
  exact
    { lt := fun hm => by rw [(hone hm).2.2]; exact hn
      alive := fun hm => by rw [(hone hm).2.2]; exact hfreed
      shift := fun hm => by rw [(hone hm).2.2, (hone hm).1]; exact hshift
      bound := fun hm => by rw [(hone hm).1, (hone hm).2.1]; exact ⟨hl, by positivity⟩
      inj := fun hm hm' => by simp [hone hm, hone hm']
      slot := by
        intro l' p' m hm j hj c
        obtain ⟨rfl, rfl, rfl⟩ := hone hm
        rw [hnone (by omega)]
        exact ⟨fun hc => absurd hc (hnew j hj c), fun hc => by cases hc⟩
      leaf := fun hm => by rw [(hone hm).2.2]; exact hnew
      parent := fun hm => by rw [(hone hm).2.2, hnone (by rw [(hone hm).1]; omega), hparent]
      offset := fun hm hq => by rw [hnone (by rw [(hone hm).1]; omega)] at hq; cases hq
      root := fun hm _ => ⟨(hone hm).2.1, by rw [(hone hm).2.2, hhead']⟩
      head := by
        intro r hr
        obtain rfl : n = r := by
          rw [hhead'] at hr
          exact node.inj hr
        exact ⟨l, set_self, hnone (by omega)⟩ }

omit h

theorem keeps_of_ne (hkeep : ∀ m, m ≠ n → m ≠ r → KeepsNode xa xa' m)
    (hr : xa'.shift r = xa.shift r ∧ xa'.freed r = xa.freed r) (m : NodeId) (hm : m ≠ n) :
    xa'.freed m = xa.freed m ∧ xa'.shift m = xa.shift m := by
  by_cases hmr : m = r
  · rw [hmr]
    exact hr.symm
  · exact ⟨(hkeep m hm hmr).freed, (hkeep m hm hmr).shift⟩

include h

/-- A new root above the root `r`. -/
theorem grow (htop : IsTop xa T L r) (hL : L + 1 < 32)
    (hfresh : ∀ l p, T l p ≠ some n) (hkmem : xa.kmemNext ≤ xa'.kmemNext)
    (hn : n < xa'.kmemNext) (hhead : xa'.xaHead = .node n)
    (hkeep : ∀ m, m ≠ n → m ≠ r → KeepsNode xa xa' m)
    (hr : xa'.shift r = xa.shift r ∧ xa'.freed r = xa.freed r)
    (hrparent : xa'.parent r = some n) (hroffset : xa'.offset r = 0)
    (hfreed : xa'.freed n = false) (hshift : xa'.shift n = 2 * (L + 1))
    (hparent : xa'.parent n = none) (hslot : xa'.slots n 0 = .node r)
    (hnew : ∀ j < 4, j ≠ 0 → ∀ c, xa'.slots n j ≠ .node c)
    (hslots : ∀ m, m ≠ n → ∀ j, xa'.slots m j = xa.slots m j) :
    IsTree xa' (T.set (L + 1) 0 (some n)) := by
  have hold := ne_of_fresh hfresh
  have hroot : ∀ {l p m}, T l p = some m → m = r → l = L ∧ p = 0 := fun hm hmr =>
    h.inj (hmr ▸ hm) htop.node
  -- Below the root the parents are the old ones.
  have hchild : ∀ {l p m}, T l p = some m → m ≠ r →
      T.set (L + 1) 0 (some n) (l + 1) (p / 4) = T (l + 1) (p / 4) := by
    intro l p m hm hmr
    refine set_of_ne ?_
    rintro ⟨hl, -⟩
    obtain rfl : l = L := by omega
    obtain rfl := h.eq_zero_of_top htop hm
    exact hmr (some.inj (hm.symm.trans htop.node))
  have habove : ∀ {l p}, L + 1 < l → T.set (L + 1) 0 (some n) l p = none := fun hl => by
    rw [set_of_ne (by omega), h.none_above htop (by omega)]
  refine of_placed (h.toHasNodes.add hfresh hkmem hn (keeps_of_ne hkeep hr) hfreed hshift
    ⟨hL, by positivity⟩) (fun {l p m} hm j hj c => ?_) (fun {p m} hm j hj c hc => ?_)
    (fun {l p m} hm => ?_) fun {r'} hr' => ?_
  · rcases set_cases hm with ⟨⟨hl, rfl⟩, rfl⟩ | ⟨-, ho⟩
    · obtain rfl : l = L := by omega
      rw [set_of_ne (by omega)]
      by_cases hj0 : j = 0
      · subst hj0
        rw [hslot, show 4 * 0 + 0 = 0 by rfl, htop.node]
        exact ⟨fun he => by rw [node.inj he], fun he => by rw [some.inj he]⟩
      · refine ⟨fun hc => absurd hc (hnew j hj hj0 c), fun hc => ?_⟩
        have := h.eq_zero_of_top htop hc
        omega
    · have := (h.below_top htop ho).1
      rw [hslots m (hold ho), h.slot ho j hj c, set_of_ne (by omega)]
  · rcases set_cases hm with ⟨⟨hl, -⟩, -⟩ | ⟨-, ho⟩
    · omega
    · rw [hslots m (hold ho)] at hc
      exact h.leaf ho j hj c hc
  · rcases set_cases hm with ⟨⟨rfl, rfl⟩, rfl⟩ | ⟨-, ho⟩
    · have hnone := habove (l := L + 1 + 1) (p := 0 / 4) (by omega)
      exact ⟨hparent.trans hnone.symm, fun hq => absurd (hnone.symm.trans hq) (by simp),
        fun _ => ⟨rfl, hhead⟩⟩
    · by_cases hmr : m = r
      · obtain ⟨rfl, rfl⟩ := hroot ho hmr
        subst hmr
        exact ⟨by rw [hrparent, Nat.zero_div, set_self], fun _ => hroffset,
          fun hq => absurd (set_self.symm.trans hq) (some_ne_none n)⟩
      · refine (h.placed ho).congr (hchild ho hmr) (hkeep m (hold ho) hmr) fun hhd => ?_
        rw [htop.head] at hhd
        exact absurd (node.inj hhd).symm hmr
  · obtain rfl : n = r' := by
      rw [hhead] at hr'
      exact node.inj hr'
    exact ⟨L + 1, set_self, habove (lt_succ_self _)⟩

/-- A node without children goes, and the slot of its parent with it. -/
theorem detach (hnp : T l p = some n) (hq : T (l + 1) (p / 4) = some q)
    (hleaf : ∀ k < 4, ∀ c, xa.slots n k ≠ .node c) (hkmem : xa.kmemNext ≤ xa'.kmemNext)
    (hhead : xa'.xaHead = xa.xaHead) (hkeep : ∀ m, m ≠ n → KeepsNode xa xa' m)
    (hslot : ∀ c, xa'.slots q (p % 4) ≠ .node c)
    (hslots : ∀ m, m ≠ n → ∀ j, ¬(m = q ∧ j = p % 4) → xa'.slots m j = xa.slots m j) :
    IsTree xa' (T.set l p none) := by
  have hne : ∀ {l' p' m}, T.set l p none l' p' = some m → T l' p' = some m ∧ m ≠ n :=
    h.of_set_none hnp
  -- The node has no children, so the parents of the others stay.
  have hchild : ∀ {l' p' m}, T l' p' = some m → m ≠ n →
      T.set l p none (l' + 1) (p' / 4) = T (l' + 1) (p' / 4) := by
    intro l' p' m hm hmn
    refine set_of_ne ?_
    rintro ⟨rfl, rfl⟩
    exact hleaf (p' % 4) (by omega) m (h.parent_slot hm hnp)
  refine of_placed (h.toHasNodes.remove hnp hkmem fun m hm =>
    ⟨(hkeep m hm).freed, (hkeep m hm).shift⟩) (fun {l' p' m} hm j hj c => ?_)
    (fun {p' m} hm j hj c hc => ?_) (fun {l' p' m} hm => ?_) fun {r} hr => ?_
  · obtain ⟨ho, hmn⟩ := hne hm
    by_cases hmq : m = q ∧ j = p % 4
    · obtain ⟨rfl, rfl⟩ := hmq
      obtain ⟨hl, rfl⟩ := h.inj ho hq
      obtain rfl : l' = l := by omega
      rw [div_add_mod, set_self]
      exact ⟨fun hc => absurd hc (hslot c), fun hc => by cases hc⟩
    · rw [hslots m hmn j hmq, h.slot ho j hj c, set_of_ne]
      rintro ⟨rfl, hp⟩
      obtain rfl : p' = p / 4 := by omega
      exact hmq ⟨some.inj (ho.symm.trans hq), by omega⟩
  · obtain ⟨ho, hmn⟩ := hne hm
    have hmq : ¬(m = q ∧ j = p % 4) := by
      rintro ⟨rfl, -⟩
      have := (h.inj ho hq).1
      omega
    rw [hslots m hmn j hmq] at hc
    exact h.leaf ho j hj c hc
  · obtain ⟨ho, hmn⟩ := hne hm
    exact (h.placed ho).congr (hchild ho hmn) (hkeep m hmn) hhead.trans
  · rw [hhead] at hr
    obtain ⟨L, htop⟩ := h.exists_top hr
    have := (h.below_top htop hq).1
    exact ⟨L, by rw [set_of_ne (by omega)]; exact htop.node,
      by rw [set_of_ne (by omega)]; exact htop.above⟩

/-- The root goes when it has no child. -/
theorem last (htop : IsTop xa T L r)
    (hleaf : ∀ k < 4, ∀ c, xa.slots r k ≠ .node c) (hhead : ∀ r, xa'.xaHead ≠ .node r) :
    IsTree xa' (T.set L 0 none) := by
  have hempty : ∀ {l p}, T.set L 0 none l p = none := by
    intro l p
    cases hm : T.set L 0 none l p with
    | none => rfl
    | some m =>
      obtain ⟨hlp, ho⟩ := set_none_cases hm
      obtain ⟨hle, hz, hanc⟩ := h.below_top htop ho
      -- The ancestor of the node just below the root would be a child of the root.
      rcases lt_or_ge l L with hlt | hge
      · obtain ⟨c, hc⟩ := hanc (L - l - 1) (by omega)
        obtain ⟨L, rfl⟩ : ∃ L', L = L' + 1 := ⟨L - 1, by omega⟩
        rw [show l + (L + 1 - l - 1) = L by omega] at hc
        have hlt4 : p / 4 ^ (L + 1 - l - 1) < 4 := by
          rw [show L + 1 - l = (L + 1 - l - 1) + 1 by omega, pow_succ,
            ← Nat.div_div_eq_div_mul] at hz
          omega
        refine absurd (h.child_slot htop.node hlt4 ?_) (hleaf _ hlt4 c)
        rw [mul_zero, zero_add]
        exact hc
      · obtain rfl : l = L := by omega
        exact absurd ⟨rfl, h.eq_zero_of_top htop ho⟩ hlp
  have hno : ∀ {l p m}, T.set L 0 none l p ≠ some m := fun hm => by rw [hempty] at hm; cases hm
  exact of_placed ⟨fun hm => absurd hm hno, fun hm => absurd hm hno, fun hm => absurd hm hno,
    fun hm => absurd hm hno, fun hm => absurd hm hno⟩ (fun hm => absurd hm hno)
    (fun hm => absurd hm hno) (fun hm => absurd hm hno) fun hr => absurd hr (hhead _)

/-- The root goes and its only child, in slot `0`, becomes the root. -/
theorem shrink (htop : IsTop xa T (L + 1) r) (hc : xa.slots r 0 = .node c)
    (honly : ∀ k < 4, k ≠ 0 → ∀ d, xa.slots r k ≠ .node d)
    (hkmem : xa.kmemNext ≤ xa'.kmemNext) (hhead : xa'.xaHead = .node c)
    (hkeep : ∀ m, m ≠ r → m ≠ c → KeepsNode xa xa' m)
    (hcs : xa'.shift c = xa.shift c ∧ xa'.freed c = xa.freed c) (hcparent : xa'.parent c = none)
    (hslots : ∀ m, m ≠ r → ∀ j, xa'.slots m j = xa.slots m j) :
    IsTree xa' (T.set (L + 1) 0 none) := by
  have hcT : T L 0 = some c := by
    have := h.slot_child htop.node (by norm_num) hc
    rwa [mul_zero, zero_add] at this
  have hne : ∀ {l' p' m}, T.set (L + 1) 0 none l' p' = some m →
      T l' p' = some m ∧ m ≠ r ∧ l' ≤ L := by
    intro l' p' m hm
    obtain ⟨hlp, ho⟩ := set_none_cases hm
    have hle := (h.below_top htop ho).1
    have hlt : l' ≠ L + 1 := by
      rintro rfl
      exact hlp ⟨rfl, h.eq_zero_of_top htop ho⟩
    refine ⟨ho, ?_, by omega⟩
    rintro rfl
    exact hlt (h.inj ho htop.node).1
  -- Only the child of slot `0` was below the root.
  have honly' : ∀ {p m}, T L p = some m → p = 0 ∧ m = c := by
    intro p m hm
    have hlt : p / 4 = 0 := by
      have := (h.below_top htop hm).2.1
      simpa using this
    have hslot : xa.slots r p = .node m := by
      refine h.child_slot htop.node (by omega) ?_
      rw [mul_zero, zero_add]
      exact hm
    have hp : p = 0 := by
      by_contra hp
      exact honly p (by omega) hp m hslot
    subst hp
    exact ⟨rfl, some.inj (hm.symm.trans hcT)⟩
  have hnec : ∀ {l' p' m}, T l' p' = some m → l' < L → m ≠ c := by
    rintro l' p' m hm hl rfl
    have := (h.inj hm hcT).1
    omega
  refine of_placed (h.toHasNodes.remove htop.node hkmem (keeps_of_ne hkeep hcs))
    (fun {l' p' m} hm j hj c => ?_) (fun {p' m} hm j hj c hc => ?_) (fun {l' p' m} hm => ?_)
    fun {r'} hr' => ?_
  · obtain ⟨ho, hmr, hle⟩ := hne hm
    rw [hslots m hmr, h.slot ho j hj c, set_of_ne (by omega)]
  · obtain ⟨ho, hmr, -⟩ := hne hm
    rw [hslots m hmr] at hc
    exact h.leaf ho j hj c hc
  · obtain ⟨ho, hmr, hle⟩ := hne hm
    rcases hle.lt_or_eq with hlt | rfl
    · refine (h.placed ho).congr (set_of_ne (by omega)) (hkeep m hmr (hnec ho hlt))
        fun hhd => ?_
      rw [htop.head] at hhd
      exact absurd (node.inj hhd).symm hmr
    · obtain ⟨rfl, rfl⟩ := honly' ho
      exact ⟨by rw [hcparent, Nat.zero_div, set_self],
        fun hq => absurd (hne hq).2.2 (Nat.not_succ_le_self l'), fun _ => ⟨rfl, hhead⟩⟩
  · obtain rfl : c = r' := by
      rw [hhead] at hr'
      exact node.inj hr'
    exact ⟨L, by rw [set_of_ne (by omega)]; exact hcT, set_self⟩

omit h

end IsTree

end

end LinuxKernelTest
