import LinuxKernelTest.Rbtree

/-!
# Trees in memory

`Shaped link t` says that the child pointers of the nodes of `t` are those of `t`, and `Tinted pc
par t` that their words hold the color and the pointer to the parent. `Rooted link t` adds the root
: `t` is the tree that a reader finds who follows child pointers. A node can occur twice in such a
tree, while a subtree has two parents; `Holds m t` excludes that.

A store to a child pointer changes the tree a reader finds in one of two ways. At a place in the
tree, the subtree at the place is exchanged (`Rooted.store`). In a node that is not in the tree,
nothing is changed (`Rooted.store_outside`).
-/

namespace LinuxKernelTest

open ColorTree Function RbLink

/-! ## Packed words -/

/-- Bits 0 and 1 of a pointer to a node are clear. -/
def Aligned (p : RbPtr) : Prop := p &&& 3#64 = 0#64

instance (p : RbPtr) : Decidable (Aligned p) := inferInstanceAs (Decidable (_ = _))

/-- `RB_RED` or `RB_BLACK`. -/
def Color.word : Color → RbPtr
  | .red => rbRed
  | .black => rbBlack

theorem aligned_zero : Aligned 0 := by decide

section

variable {p q : RbPtr} (c : Color)

/-- The parent can be read back from `__rb_parent_color`. -/
theorem rbParent_pack (h : Aligned p) : rbParent (p ||| c.word) = p := by
  have hpointer : p &&& ~~~3 = p := by
    calc p &&& ~~~3 = p &&& 3#64 ||| p &&& ~~~3 := by
          rw [show p &&& 3#64 = 0#64 from h, BitVec.zero_or]
      _ = p &&& (3#64 ||| ~~~3) := BitVec.and_or_distrib_left.symm
      _ = p := by rw [show 3#64 ||| ~~~3 = BitVec.allOnes 64 by decide, BitVec.and_allOnes]
  have hcolor : c.word &&& ~~~3 = 0#64 := by cases c <;> decide
  rw [rbParent, BitVec.and_or_distrib_right, hpointer, hcolor, BitVec.or_zero]

/-- The color can be read back from `__rb_parent_color`. -/
theorem rbColor_pack (h : Aligned p) : rbColor (p ||| c.word) = c.word := by
  have hpointer : p &&& 1 = 0#64 := by
    rw [show (1 : RbPtr) = 3#64 &&& 1 by decide, ← BitVec.and_assoc,
      show p &&& 3#64 = 0#64 from h, BitVec.zero_and]
  have hcolor : c.word &&& 1 = c.word := by cases c <;> decide
  rw [rbColor, BitVec.and_or_distrib_right, hpointer, hcolor, BitVec.zero_or]

theorem rbIsBlack_pack (h : Aligned p) : rbIsBlack (p ||| c.word) = true ↔ c = .black := by
  rw [rbIsBlack, rbColor_pack c h]
  cases c <;> decide

theorem rbIsRed_pack (h : Aligned p) : rbIsRed (p ||| c.word) = true ↔ c = .red := by
  rw [rbIsRed, rbColor_pack c h]
  cases c <;> decide

theorem pack_red : p ||| Color.red.word = p := BitVec.or_zero

/-- `rb_set_black` on a packed word. -/
theorem pack_or_black : p ||| c.word ||| rbBlack = p ||| Color.black.word := by
  rw [BitVec.or_assoc]
  cases c <;> rfl

/-- `rb_set_parent` on a packed word : the new parent, the old color. -/
theorem rbColor_pack_or (h : Aligned p) : rbColor (p ||| c.word) ||| q = q ||| c.word := by
  rw [rbColor_pack c h, BitVec.or_comm]

end

/-! ## Child pointers -/

/-- The pointer to a tree. -/
def top : ColorTree RbPtr → RbPtr
  | .nil => 0
  | .node _ _ a _ => a

/-- The child pointers of the nodes of a tree. -/
def Shaped (link : RbLink → RbPtr) : ColorTree RbPtr → Prop
  | .nil => True
  | .node _ l a r => a ≠ 0 ∧ link (.child .left a) = top l ∧ link (.child .right a) = top r ∧
    Shaped link l ∧ Shaped link r

/-- The tree found from the root. -/
def Rooted (link : RbLink → RbPtr) (t : ColorTree RbPtr) : Prop :=
  link .root = top t ∧ Shaped link t

/-- Where the pointer to a subtree is held. -/
def placeOf : List (Frame RbPtr) → RbLink
  | [] => .root
  | f :: _ => .child f.side f.label

/-- The parent of a subtree. -/
def parentOf : List (Frame RbPtr) → RbPtr
  | [] => 0
  | f :: _ => f.label

/-- The parent of a subtree, on a path up to a child of `stop`. -/
def parentFrom (stop : RbPtr) : List (Frame RbPtr) → RbPtr
  | [] => stop
  | f :: _ => f.label

/-- The child pointers on and beside a path up, but the one at its lower end. -/
def ShapedPath (link : RbLink → RbPtr) : List (Frame RbPtr) → Prop
  | [] => True
  | f :: k => f.label ≠ 0 ∧ link (.child f.side.other f.label) = top f.rest ∧ Shaped link f.rest ∧
    link (placeOf k) = f.label ∧ ShapedPath link k

section

variable {link : RbLink → RbPtr} {d e : Side} {c c' : Color} {a p : RbPtr}
  {t t' near far : ColorTree RbPtr} {k : List (Frame RbPtr)} {k' : List (Frame RbPtr)}
  {f : Frame RbPtr}

@[simp] theorem top_join : top (join d c a near far) = a := by cases d <;> rfl

@[simp] theorem top_paint : top (t.paint c) = top t := by cases t <;> rfl

@[simp] theorem shaped_paint : Shaped link (t.paint c) ↔ Shaped link t := by cases t <;> rfl

/-- The links of a tree, whichever side is named first. -/
@[simp] theorem shaped_join : Shaped link (join d c a near far) ↔
    a ≠ 0 ∧ link (.child d a) = top near ∧ link (.child d.other a) = top far ∧
      Shaped link near ∧ Shaped link far := by
  cases d
  · exact Iff.rfl
  · simp only [join, Shaped, Side.other]
    tauto

theorem parentFrom_zero : parentFrom 0 k = parentOf k := by cases k <;> rfl

/-- The parent of a place, with the path up split at the frame `f`. -/
theorem parentOf_append :
    parentOf (k ++ f :: k') = parentFrom f.label k := by cases k <;> rfl

theorem parentFrom_append {stop : RbPtr} :
    parentFrom stop (k ++ f :: k') = parentFrom f.label k := by cases k <;> rfl

theorem top_uncolored : top t.uncolored = top t := by cases t <;> rfl

/-- The links do not depend on the colors. -/
theorem shaped_uncolored : Shaped link t.uncolored ↔ Shaped link t := by
  induction t with
  | nil => rfl
  | node c l a r ihl ihr => simp only [uncolored, Shaped, top_uncolored, ihl, ihr]

variable (h : Shaped link t)
include h

/-- No node of a tree is `NULL`. -/
theorem Shaped.ne_zero (ha : a ∈ t) : a ≠ 0 := by
  induction t with
  | nil => exact absurd ha not_mem_nil
  | node c l b r ihl ihr =>
    obtain ⟨hb, -, -, hl, hr⟩ := h
    rcases mem_node.mp ha with rfl | ha | ha
    · exact hb
    · exact ihl hl ha
    · exact ihr hr ha

/-- There are fewer nodes than words. -/
theorem Shaped.length_lt (hd : t.Distinct) : t.toList.length < rbFuel := by
  have hnodup : ((0 :: t.toList).map BitVec.toNat).Nodup :=
    (List.nodup_cons.mpr ⟨fun h0 => h.ne_zero h0 rfl, hd⟩).map fun _ _ => BitVec.eq_of_toNat_eq
  have hsub : ((0 :: t.toList).map BitVec.toNat).length ≤ (List.range (2 ^ 64)).length :=
    (List.subperm_of_subset hnodup fun x hx => by
      obtain ⟨y, -, rfl⟩ := List.mem_map.mp hx
      exact List.mem_range.mpr y.isLt).length_le
  rw [List.length_map, List.length_cons, List.length_range] at hsub
  exact hsub

omit h in
theorem top_mem (h : top t ≠ 0) : top t ∈ t := by
  cases t with
  | nil => exact absurd rfl h
  | node c l a r => exact mem_node.mpr (.inl rfl)

/-- The root is `NULL` only for the empty tree. -/
theorem Shaped.top_eq_zero : top t = 0 ↔ t = .nil := by
  cases t with
  | nil => exact iff_of_true rfl rfl
  | node c l a r => exact iff_of_false h.1 (by simp)

/-- A store to a node that is not in the tree. -/
theorem Shaped.store_outside (ha : a ∉ t) :
    Shaped (update link (.child d a) p) t := by
  induction t with
  | nil => trivial
  | node c l b r ihl ihr =>
    rw [mem_node] at ha
    obtain ⟨hb, hleft, hright, hl, hr⟩ := h
    have hne : ∀ e, child e b ≠ .child d a := fun e h =>
      ha (.inl (child.inj h).2.symm)
    refine ⟨hb, ?_, ?_, ihl hl fun h => ha (.inr (.inl h)), ihr hr fun h => ha (.inr (.inr h))⟩
    · rwa [update_of_ne (hne _)]
    · rwa [update_of_ne (hne _)]

/-- Writing `root->rb_node` changes no subtree. -/
theorem Shaped.store_root : Shaped (update link .root p) t := by
  induction t with
  | nil => trivial
  | node c l b r ihl ihr =>
    obtain ⟨hb, hleft, hright, hl, hr⟩ := h
    exact ⟨hb, hleft, hright, ihl hl, ihr hr⟩

/-- A store at the lower end of a path, for a tree apart from the path. -/
theorem Shaped.store_place (hout : ∀ x ∈ t, ¬InPath x k) :
    Shaped (update link (placeOf k) p) t := by
  cases k with
  | nil => exact h.store_root
  | cons f k => exact h.store_outside fun hf => hout _ hf (inPath_cons.mpr (.inl rfl))

omit h

theorem placeOf_ne (h : ¬InPath a k) : placeOf k ≠ .child d a := by
  cases k with
  | nil => exact RbLink.noConfusion
  | cons f k =>
    rintro heq
    exact h (inPath_cons.mpr (.inl (child.inj heq).2.symm))

/-- Writing a link outside of the path up leaves the path. -/
theorem ShapedPath.store_outside (h : ShapedPath link k) (ha : ¬InPath a k) :
    ShapedPath (update link (.child d a) p) k := by
  induction k with
  | nil => trivial
  | cons f k ih =>
    obtain ⟨hlabel, hrest, hshaped, hplace, hk⟩ := h
    simp only [inPath_cons, not_or] at ha
    refine ⟨hlabel, ?_, hshaped.store_outside ha.2.1, ?_, ih hk ha.2.2⟩
    · rwa [update_of_ne fun h => ha.1 (child.inj h).2.symm]
    · rwa [update_of_ne (placeOf_ne ha.2.2)]

/-- A store at the lower end of a path. -/
theorem ShapedPath.store_place (h : ShapedPath link k) (hk : DistinctPath k) :
    ShapedPath (update link (placeOf k) p) k := by
  cases k with
  | nil => trivial
  | cons f k =>
    obtain ⟨hlabel, hrest, hshaped, hplace, hpath⟩ := h
    obtain ⟨hout, -, hnot, -, -⟩ := hk
    refine ⟨hlabel, ?_, hshaped.store_outside hout, ?_, hpath.store_outside hnot⟩
    · rwa [placeOf, update_of_ne fun h => Side.other_ne _ (child.inj h).1]
    · rwa [placeOf, update_of_ne (placeOf_ne hnot)]

/-- The links of a tree, split at a place. -/
theorem rooted_plug : Rooted link (plug k t) ↔
    link (placeOf k) = top t ∧ Shaped link t ∧ ShapedPath link k := by
  induction k generalizing t with
  | nil => simp [Rooted, plug, placeOf, ShapedPath]
  | cons f k ih =>
    simp only [plug, ih, top_join, shaped_join, placeOf, ShapedPath]
    tauto

theorem Shaped.of_plug (h : Shaped link (plug k t)) : Shaped link t := by
  induction k generalizing t with
  | nil => exact h
  | cons f k ih => exact (shaped_join.mp (ih h)).2.2.2.1

theorem top_plug {t' : ColorTree RbPtr} (hk : k ≠ []) : top (plug k t) = top (plug k t') := by
  induction k generalizing t t' with
  | nil => exact absurd rfl hk
  | cons f k ih =>
    cases k with
    | nil => simp only [plug, top_join]
    | cons g k => exact ih (List.cons_ne_nil g k)

/-- Child pointers have no color. -/
theorem Rooted.recolor (h : Rooted link t) (ht : t.uncolored = t'.uncolored) : Rooted link t' := by
  rw [Rooted, ← top_uncolored, ← shaped_uncolored] at h ⊢
  rwa [← ht]

/-- A store at a place in the tree. -/
theorem Rooted.store (h : Rooted link (plug k t)) (ht' : Shaped link t') (hk : DistinctPath k)
    (hout : ∀ x ∈ t', ¬InPath x k) :
    Rooted (update link (placeOf k) (top t')) (plug k t') := by
  obtain ⟨-, -, hpath⟩ := rooted_plug.mp h
  exact rooted_plug.mpr ⟨update_self .., ht'.store_place hout, hpath.store_place hk⟩

/-- A store to a node that is not in the tree. -/
theorem Rooted.store_outside (h : Rooted link t) (ha : a ∉ t) :
    Rooted (update link (.child d a) p) t :=
  ⟨by rw [update_of_ne RbLink.noConfusion]; exact h.1, h.2.store_outside ha⟩

end

/-! ## Parents and colors -/

/-- The words of the nodes of a tree whose root has the parent `par`. -/
def Tinted (pc : RbPtr → RbPtr) (par : RbPtr) : ColorTree RbPtr → Prop
  | .nil => True
  | .node c l a r => Aligned a ∧ pc a = par ||| c.word ∧ Tinted pc a l ∧ Tinted pc a r

/-- The words on and beside a path up. -/
def TintedPath (pc : RbPtr → RbPtr) : List (Frame RbPtr) → Prop
  | [] => True
  | f :: k => Aligned f.label ∧ pc f.label = parentOf k ||| f.color.word ∧
    Tinted pc f.label f.rest ∧ TintedPath pc k

section

variable {pc : RbPtr → RbPtr} {par par' a w : RbPtr} {d : Side} {c c' : Color}
  {t near far : ColorTree RbPtr} {k : List (Frame RbPtr)}

@[simp] theorem tinted_nil : Tinted pc par .nil := trivial

/-- The words of a tree, whichever side is named first. -/
@[simp] theorem tinted_join : Tinted pc par (join d c a near far) ↔
    Aligned a ∧ pc a = par ||| c.word ∧ Tinted pc a near ∧ Tinted pc a far := by
  cases d
  · exact Iff.rfl
  · simp only [join, Tinted]
    tauto

variable (h : Tinted pc par t)
include h

/-- A store to a node that is not in the tree. -/
theorem Tinted.store_outside (ha : a ∉ t) :
    Tinted (update pc a w) par t := by
  induction t generalizing par with
  | nil => trivial
  | node c l b r ihl ihr =>
    rw [mem_node] at ha
    obtain ⟨hb, hpc, hl, hr⟩ := h
    refine ⟨hb, ?_, ihl hl fun h => ha (.inr (.inl h)), ihr hr fun h => ha (.inr (.inr h))⟩
    rwa [update_of_ne fun h => ha (.inl h.symm)]

/-- The root gets a new parent and color. -/
theorem Tinted.adopt (ht : t.Distinct) (par' : RbPtr) (c : Color) :
    Tinted (update pc (top t) (par' ||| c.word)) par' (t.paint c) := by
  cases t with
  | nil => trivial
  | node c0 l a r =>
    obtain ⟨ha, -, hl, hr⟩ := h
    obtain ⟨hal, har, -⟩ := distinct_node.mp ht
    exact ⟨ha, update_self .., hl.store_outside hal, hr.store_outside har⟩

/-- The root of a subtree knows its parent. -/
theorem Tinted.parent_top (hpar : Aligned par) (ht : top t ≠ 0) :
    rbParent (pc (top t)) = par := by
  cases t with
  | nil => exact absurd rfl ht
  | node c l a r => rw [top, h.2.1, rbParent_pack c hpar]

variable {link : RbLink → RbPtr}

/-- The test for a red subtree. -/
theorem isRed_top_iff (ht : Shaped link t)
    (hpar : Aligned par) :
    (top t ≠ 0 ∧ rbIsRed (pc (top t)) = true) ↔ t.rootColor = .red := by
  cases t with
  | nil => exact iff_of_false (fun h => h.1 rfl) (by decide)
  | node c l a r => rw [top, rootColor, h.2.1, rbIsRed_pack c hpar, and_iff_right ht.1]

/-- The test for a black subtree. -/
theorem isBlack_top_iff (ht : Shaped link t)
    (hpar : Aligned par) :
    (top t = 0 ∨ rbIsBlack (pc (top t)) = true) ↔ t.rootColor = .black := by
  cases t with
  | nil => exact iff_of_true (.inl rfl) rfl
  | node c l a r => rw [top, rootColor, h.2.1, rbIsBlack_pack c hpar, or_iff_right ht.1]

omit h

/-- Writing a word outside of the path up leaves the path. -/
theorem TintedPath.store_outside (h : TintedPath pc k) (ha : ¬InPath a k) :
    TintedPath (update pc a w) k := by
  induction k with
  | nil => trivial
  | cons f k ih =>
    obtain ⟨hlabel, hpc, hrest, hk⟩ := h
    simp only [inPath_cons, not_or] at ha
    refine ⟨hlabel, ?_, hrest.store_outside ha.2.1, ih hk ha.2.2⟩
    rwa [update_of_ne fun h => ha.1 h.symm]

/-- The parent of a place is a node or `NULL`, hence aligned. -/
theorem TintedPath.aligned (h : TintedPath pc k) : Aligned (parentOf k) := by
  cases k with
  | nil => exact aligned_zero
  | cons f k => exact h.1

/-- The words after `rb_set_parent_color` for the root of a tree, if there is one. -/
def adoptIf (pc : RbPtr → RbPtr) (t : ColorTree RbPtr) (par : RbPtr) (c : Color) : RbPtr → RbPtr :=
  if top t ≠ 0 then update pc (top t) (par ||| c.word) else pc

theorem adoptIf_of_not_mem (ha : a ∉ t) : adoptIf pc t par c a = pc a := by
  rw [adoptIf]
  split
  case isTrue h =>
    rw [update_of_ne]
    rintro rfl
    exact ha (top_mem h)
  case isFalse => rfl

/-- The subtree gets the new parent and color. -/
theorem Tinted.adoptIf (h : Tinted pc par t) (ht : t.Distinct)
    (hs : Shaped link t) (par' : RbPtr) (c : Color) :
    Tinted (adoptIf pc t par' c) par' (t.paint c) := by
  rw [LinuxKernelTest.adoptIf]
  split
  case isTrue => exact h.adopt ht par' c
  case isFalse h0 => rw [hs.top_eq_zero.mp (not_not.mp h0)]; trivial

/-- A subtree that shares no node with the adopted one keeps its words. -/
theorem Tinted.adoptIf_outside {t' : ColorTree RbPtr} (h : Tinted pc par t')
    (hout : ∀ x ∈ t, x ∉ t') : Tinted (LinuxKernelTest.adoptIf pc t par' c) par t' := by
  rw [LinuxKernelTest.adoptIf]
  split
  case isTrue h0 => exact h.store_outside (hout _ (top_mem h0))
  case isFalse => exact h

/-- A path that shares no node with the adopted subtree keeps its words. -/
theorem TintedPath.adoptIf_outside (h : TintedPath pc k) (hout : ∀ x ∈ t, ¬InPath x k) :
    TintedPath (LinuxKernelTest.adoptIf pc t par' c) k := by
  rw [LinuxKernelTest.adoptIf]
  split
  case isTrue h0 => exact h.store_outside (hout _ (top_mem h0))
  case isFalse => exact h

/-- The words of a tree, split at a place. -/
theorem tinted_plug : Tinted pc 0 (plug k t) ↔ Tinted pc (parentOf k) t ∧ TintedPath pc k := by
  induction k generalizing t with
  | nil => simp [plug, parentOf, TintedPath]
  | cons f k ih =>
    simp only [plug, ih, tinted_join, parentOf, TintedPath]
    tauto

/-- The words of a tree split at any place. -/
theorem tinted_plug_from {stop : RbPtr} : Tinted pc stop (plug k t) ↔
    Tinted pc stop (plug k .nil) ∧ Tinted pc (parentFrom stop k) t := by
  induction k generalizing t with
  | nil => simp [plug, parentFrom]
  | cons f k ih =>
    rw [plug, plug, ih, ih (t := join _ _ _ .nil _)]
    simp only [tinted_join, tinted_nil, parentFrom]
    tauto

/-- The parent of a place below an aligned `stop` is aligned. -/
theorem Tinted.aligned_parentFrom {stop : RbPtr} (h : Tinted pc stop (plug k .nil))
    (hstop : Aligned stop) : Aligned (parentFrom stop k) := by
  cases k with
  | nil => exact hstop
  | cons f k => exact (tinted_join.mp (tinted_plug_from (k := k).mp h).2).1

end

/-! ## Memory -/

section

variable {A : Type*}

/-- The memory holds the tree `t`. -/
structure RbMem.Holds (m : RbMem A) (t : ColorTree RbPtr) : Prop where
  rooted : Rooted m.link t
  tinted : Tinted m.parentColor 0 t
  distinct : t.Distinct

variable {k : List (Frame RbPtr)}

variable {t : ColorTree RbPtr} {m : RbMem A}

/-- What the memory says of the subtree at the end of a path. -/
theorem RbMem.Holds.parts
    (h : m.Holds (plug k t)) :
    (Tinted m.parentColor (parentOf k) t ∧ TintedPath m.parentColor k) ∧
      m.link (placeOf k) = top t ∧ Shaped m.link t ∧ ShapedPath m.link k :=
  ⟨tinted_plug.mp h.tinted, rooted_plug.mp h.rooted⟩

/-- A reader who follows child pointers from the root finds a tree, of nodes in `S`. -/
def Safe (S : RbPtr → Prop) (link : RbLink → RbPtr) : Prop := ∃ t, Rooted link t ∧ ∀ x ∈ t, S x

/-- So it was after every store. -/
def Traced (S : RbPtr → Prop) (m : RbMem A) : Prop := ∀ link ∈ m.stores, Safe S link

/-- A path in a tree is shorter than any loop may run. -/
theorem RbMem.Holds.length_lt
    (h : m.Holds (plug k t)) : k.length < rbFuel := by
  have hlength := length_le_toList_plug (k := k) (t := t)
  have := h.rooted.2.length_lt h.distinct
  omega

namespace RbMem

variable (m : RbMem A) (place : RbLink) (p rb w : RbPtr)

@[simp] theorem parentColor_setLink : (m.setLink place p).parentColor = m.parentColor := rfl

@[simp] theorem parentColor_setPc :
    (m.setPc rb w).parentColor = update m.parentColor rb w := rfl

@[simp] theorem stores_setPc : (m.setPc rb w).stores = m.stores := rfl

end RbMem

namespace RbMem

variable (m : RbMem A) (t : ColorTree RbPtr) (p : RbPtr) (c : Color)

@[simp] theorem link_setParentColorIf : (m.setParentColorIf (top t) p c.word).link = m.link := by
  rw [setParentColorIf]
  split <;> rfl

/-- The conditional `rb_set_parent_color` is an adoption. -/
@[simp] theorem parentColor_setParentColorIf :
    (m.setParentColorIf (top t) p c.word).parentColor = adoptIf m.parentColor t p c := by
  rw [setParentColorIf, adoptIf]
  split <;> rfl

@[simp] theorem augmented_setParentColorIf :
    (m.setParentColorIf (top t) p c.word).augmented = m.augmented := by
  rw [setParentColorIf]
  split <;> rfl

@[simp] theorem stores_setParentColorIf :
    (m.setParentColorIf (top t) p c.word).stores = m.stores := by
  rw [setParentColorIf]
  split <;> rfl

end RbMem

variable {S : RbPtr → Prop} {m : RbMem A} {place : RbLink} {p : RbPtr}

/-- A link store is traced if it leaves a tree whose nodes are allowed. -/
theorem Traced.setLink (h : Traced S m)
    (ht : Rooted (update m.link place p) t) (hS : ∀ x ∈ t, S x) :
    Traced S (m.setLink place p) := by
  intro link hlink
  rcases List.mem_cons.mp hlink with rfl | hlink
  · exact ⟨t, ht, hS⟩
  · exact h link hlink

/-- `__rb_change_child` stores at the place of the child. -/
theorem changeChild_eq {old new : RbPtr} (hk : ShapedPath m.link k)
    (hplace : m.link (placeOf k) = old) (hold : old ≠ 0) (hout : ¬InPath old k) :
    m.changeChild old new (parentOf k) = m.setLink (placeOf k) new := by
  cases k with
  | nil => exact if_neg (not_not.mpr rfl)
  | cons f k =>
    obtain ⟨d, c, a, rest⟩ := f
    obtain ⟨ha, hrest, -, -, -⟩ := hk
    refine (if_pos ha).trans ?_
    cases d with
    | left => exact if_pos hplace
    | right =>
      -- The left child is another node.
      refine if_neg fun hleft => hout (inPath_cons.mpr (.inr (.inl ?_)))
      have htop : old = top rest := hleft.symm.trans hrest
      rw [htop] at hold ⊢
      exact top_mem hold

end

end LinuxKernelTest
