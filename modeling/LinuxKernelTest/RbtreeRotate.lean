import LinuxKernelTest.RbtreeMemory

/-!
# Rotations

A rotation of `lib/rbtree.c` is three stores to child pointers and the words of two nodes. Between
the stores a reader without the lock may meet the tree, so each store is looked at on its own, and
the rotation as a whole is a step on the tree and its path.
-/

namespace LinuxKernelTest

open ColorTree Function RbMem

/-! ## The three stores of a rotation -/

section

variable {link : RbLink → RbPtr} {k : List (Frame RbPtr)} {d : Side} {c : Color}
  {old new : RbPtr} {a t b : ColorTree RbPtr}

/-- The memory before a rotation at `old`, which is at the end of `k`, with `new` on the side `d`.
The pointer from `old` to `new` itself is not needed. -/
structure RotationReady (link : RbLink → RbPtr) (k : List (Frame RbPtr)) (d : Side)
    (old new : RbPtr) (a t b : ColorTree RbPtr) : Prop where
  path : ShapedPath link k
  place : link (placeOf k) = old
  old_ne : old ≠ 0
  far : link (.child d.other old) = top b
  shapedFar : Shaped link b
  near : Shaped link (join d .red new a t)
  distinct : (plug k (join d .red old (join d .red new a t) b)).Distinct

theorem Rooted.rotationReady {cold cnew : Color}
    (h : Rooted link (plug k (join d cold old (join d cnew new a t) b)))
    (hd : (plug k (join d cold old (join d cnew new a t) b)).Distinct) :
    RotationReady link k d old new a t b := by
  obtain ⟨hplace, hshaped, hpath⟩ := rooted_plug.mp h
  simp only [top_join, shaped_join] at hplace hshaped
  obtain ⟨hold, -, hfar, hnear, hb⟩ := hshaped
  refine ⟨hpath, hplace, hold, hfar, hb, shaped_join.mpr hnear, ?_⟩
  simpa only [distinct_plug, distinct_join, mem_join] using hd

variable (h : RotationReady link k d old new a t b)
include h

theorem RotationReady.store_one :
    Rooted (update link (.child d old) (top t)) (plug k (join d c old t b)) := by
  have hd := h.distinct
  have hnear := shaped_join.mp h.near
  simp only [distinct_plug, distinct_join, mem_join] at hd
  refine rooted_plug.mpr ⟨?_, shaped_join.mpr ⟨h.old_ne, update_self .., ?_, ?_, ?_⟩, ?_⟩
  · rw [top_join, update_of_ne (placeOf_ne (by grind))]
    exact h.place
  · rw [update_of_ne (by simp)]
    exact h.far
  · exact hnear.2.2.2.2.store_outside (by grind)
  · exact h.shapedFar.store_outside (by grind)
  · exact h.path.store_outside (by grind)

theorem RotationReady.store_two {p : RbPtr} :
    Rooted (update (update link (.child d old) (top t)) (.child d.other new) p)
      (plug k (join d c old t b)) := by
  have hd := h.distinct
  simp only [distinct_plug, distinct_join, mem_join] at hd
  exact h.store_one.store_outside (by simp only [mem_plug, mem_join]; grind)

theorem RotationReady.shaped (c c' : Color) :
    Shaped (update (update link (.child d old) (top t)) (.child d.other new) old)
      (join d c new a (join d c' old t b)) := by
  have hd := h.distinct
  have hnear := shaped_join.mp h.near
  have htwo := (rooted_plug.mp (h.store_two (c := c') (p := old))).2.1
  simp only [distinct_plug, distinct_join, mem_join] at hd
  refine shaped_join.mpr ⟨hnear.1, ?_, ?_, ?_, htwo⟩
  · rw [update_of_ne (by simp), update_of_ne (by simp; grind)]
    exact hnear.2.1
  · rw [update_self, top_join]
  · exact (hnear.2.2.2.1.store_outside (by grind)).store_outside (by grind)

theorem RotationReady.store_three (c c' : Color) :
    Rooted (update (update (update link (.child d old) (top t))
      (.child d.other new) old) (placeOf k) new) (plug k (join d c new a (join d c' old t b))) := by
  have hd := h.distinct
  simp only [distinct_plug, distinct_join, mem_join] at hd
  have := (h.store_two (c := c') (p := old)).store (h.shaped c c') hd.2.1
    (by simp only [mem_join]; grind)
  rwa [top_join] at this

end

/-! ## The words after a rotation -/

/-- The words before a rotation; that of `new` is not needed. -/
structure RotationTinted (pc : RbPtr → RbPtr) (k : List (Frame RbPtr)) (c : Color)
    (old new : RbPtr) (a t b : ColorTree RbPtr) : Prop where
  path : TintedPath pc k
  old_aligned : Aligned old
  new_aligned : Aligned new
  old_pc : pc old = parentOf k ||| c.word
  near : Tinted pc new a
  inner : Tinted pc old t
  far : Tinted pc old b

section

variable {pc : RbPtr → RbPtr} {k : List (Frame RbPtr)} {d : Side} {c : Color}
  {old new : RbPtr} {a t b : ColorTree RbPtr}

theorem RotationTinted.tinted (h : RotationTinted pc k c old new a t b)
    (hd : (plug k (join d c old (join d c new a t) b)).Distinct) (color : Color) :
    Tinted (update (update pc new (pc old)) old (new ||| color.word)) 0
      (plug k (join d c new a (join d color old t b))) := by
  simp only [distinct_plug, distinct_join, mem_join] at hd
  refine tinted_plug.mpr ⟨tinted_join.mpr ⟨h.new_aligned, ?_, ?_,
    tinted_join.mpr ⟨h.old_aligned, update_self .., ?_, ?_⟩⟩, ?_⟩
  · rw [update_of_ne (by grind), update_self, h.old_pc]
  · exact (h.near.store_outside (by grind)).store_outside (by grind)
  · exact (h.inner.store_outside (by grind)).store_outside (by grind)
  · exact (h.far.store_outside (by grind)).store_outside (by grind)
  · exact (h.path.store_outside (by grind)).store_outside (by grind)

/-- The inner subtree, which `new` had for a parent, is given to `old`. -/
theorem RotationTinted.adopt {link : RbLink → RbPtr} (hpath : TintedPath pc k) (hold : Aligned old)
    (hnew : Aligned new) (hpc : pc old = parentOf k ||| c.word) (hnear : Tinted pc new a)
    (hinner : Tinted pc new t) (hfar : Tinted pc old b)
    (hd : (plug k (join d .red old (join d .red new a t) b)).Distinct) (ht : Shaped link t)
    (color : Color) :
    RotationTinted (adoptIf pc t old color) k c old new a (t.paint color) b := by
  simp only [distinct_plug, distinct_join, mem_join] at hd
  refine ⟨hpath.adoptIf_outside (by grind), hold, hnew, ?_, hnear.adoptIf_outside (by grind),
    hinner.adoptIf (by grind) ht old color, hfar.adoptIf_outside (by grind)⟩
  rwa [adoptIf_of_not_mem (by grind)]

end

/-! ## Augmented fields -/

section

variable {A : Type*}

/-- What the callbacks do to a property `inv` of the augmented fields : `inv aug t x` says that they
are right in the whole tree `t`, but possibly at the node `x`. -/
structure AugmentLaws (augment : RbAugmentCallbacks A)
    (inv : (RbPtr → A) → ColorTree RbPtr → RbPtr → Prop) : Prop where
  recolor : ∀ {aug t t' x}, t.uncolored = t'.uncolored → inv aug t x → inv aug t' x
  rotate : ∀ {m : RbMem A} {k d c old new a t b}, old ≠ 0 → new ≠ 0 →
    m.link (.child d old) = top t → m.link (.child d.other old) = top b →
    Shaped m.link t → Shaped m.link b →
    (plug k (join d c old (join d c new a t) b)).Distinct →
    inv m.augmented (plug k (join d c old (join d c new a t) b)) 0 →
    ∃ aug, augment.rotate m old new = some aug ∧
      inv aug (plug k (join d c new a (join d c old t b))) 0
  /-- A node with one subtree at most is replaced by it. -/
  cut : ∀ {aug k d c a t}, inv aug (plug k (join d c a .nil t)) 0 → inv aug (plug k t) (parentOf k)
  /-- `propagate` walks from the end of a path up to `stop`. -/
  propagate : ∀ {m : RbMem A} {k t stop}, Aligned stop → Shaped m.link (plug k t) →
    Tinted m.parentColor stop (plug k .nil) → (plug k t).Distinct → stop ∉ plug k t →
    inv m.augmented (plug k t) (parentFrom stop k) →
    ∃ aug, augment.propagate m (parentFrom stop k) stop = some aug ∧
      inv aug (plug k t) stop ∧ ∀ x ∉ plug k t, aug x = m.augmented x
  /-- `s` takes the place of `a`, which it has been copied from, once the subtree that `s` is cut
  out of is right. -/
  copy : ∀ {m : RbMem A} {k q c c' l a s r}, a ≠ 0 → s ≠ 0 →
    (plug k (.node c l a (plug q (.node c' .nil s r)))).Distinct →
    inv m.augmented (plug k (.node c l a (plug q (.node c' .nil s r)))) 0 →
    ∃ aug, augment.copy m a s = some aug ∧ inv aug (plug q r) (parentFrom s q) ∧
      ∀ aug', (∀ x ∉ plug q r, aug' x = aug x) → inv aug' (plug q r) s →
        inv aug' (plug k (.node c l s (plug q r))) s

/-- The memory holds the tree `t`, of nodes in `S`, with the right augmented fields, and readers
have found only trees of nodes in `S`. -/
structure Sound (S : RbPtr → Prop) (inv : (RbPtr → A) → ColorTree RbPtr → RbPtr → Prop)
    (m : RbMem A) (t : ColorTree RbPtr) : Prop where
  holds : m.Holds t
  nodes : ∀ x ∈ t, S x
  traced : Traced S m
  augmented : inv m.augmented t 0

theorem distinct_recolor {t t' : ColorTree RbPtr} (h : t.uncolored = t'.uncolored) :
    t.Distinct ↔ t'.Distinct := by
  rw [Distinct, toList_recolor h, ← Distinct]

variable {S : RbPtr → Prop} {inv : (RbPtr → A) → ColorTree RbPtr → RbPtr → Prop}
  {augment : RbAugmentCallbacks A} {m m1 : RbMem A} {k : List (Frame RbPtr)} {d : Side}
  {c : Color} {old new : RbPtr} {a t b : ColorTree RbPtr}

variable (laws : AugmentLaws augment inv) {par p : RbPtr}
include laws

/-- Stores to words only change the colors. -/
theorem Sound.recolor {t t' : ColorTree RbPtr}
    (h : Sound S inv m t) (ht : t.uncolored = t'.uncolored) (hlink : m1.link = m.link)
    (hstores : m1.stores = m.stores) (haug : m1.augmented = m.augmented)
    (htint : Tinted m1.parentColor 0 t') : Sound S inv m1 t' where
  holds := ⟨by rw [hlink]; exact h.holds.rooted.recolor ht, htint,
    (distinct_recolor ht).mp h.holds.distinct⟩
  nodes x hx := h.nodes x (by rwa [mem_def, toList_recolor ht])
  traced := by
    rw [Traced, hstores]
    exact h.traced
  augmented := by
    rw [haug]
    exact laws.recolor ht h.augmented

/-- A node gets a new color. -/
theorem Sound.repaint {p : RbPtr} {x y : ColorTree RbPtr}
    (h : Sound S inv m (plug k (join d c p x y))) (c' : Color) :
    Sound S inv (m.setPc p (parentOf k ||| c'.word)) (plug k (join d c' p x y)) := by
  obtain ⟨htint, hpath⟩ := tinted_plug.mp h.holds.tinted
  have hd := h.holds.distinct
  simp only [distinct_plug, distinct_join, mem_join] at hd
  refine h.recolor laws (uncolored_plug (by simp only [uncolored_join])) rfl rfl rfl ?_
  have hadopt := htint.adopt (by simpa only [distinct_join] using hd.1) (parentOf k) c'
  rw [top_join, paint_join] at hadopt
  exact tinted_plug.mpr ⟨hadopt, hpath.store_outside (hd.2.2 p (.inl rfl))⟩

omit laws in
/-- `__rb_rotate_set_parents`, for a node at the end of a path. -/
theorem rotateSetParents_eq {color : Color} (hk : ShapedPath m.link k)
    (htint : TintedPath m.parentColor k) (hplace : m.link (placeOf k) = old)
    (hpc : m.parentColor old = parentOf k ||| c.word) (hold : old ≠ 0) (hout : ¬InPath old k) :
    m.rotateSetParents old new color.word =
      ((m.setPc new (m.parentColor old)).setPc old (new ||| color.word)).setLink
        (placeOf k) new := by
  have hparent : rbParent (m.parentColor old) = parentOf k := by
    rw [hpc, rbParent_pack c htint.aligned]
  rw [rotateSetParents, hparent]
  exact changeChild_eq hk hplace hold hout

/-- The end of a rotation, after the first two stores. -/
theorem rotation_spec {ca ct : Color} (color : Color)
    (hready : RotationReady m.link k d old new a t b)
    (hlink : m1.link = update (update m.link (.child d old) (top t)) (.child d.other new) old)
    (haug : m1.augmented = m.augmented) (htraced : Traced S m1)
    (hS : ∀ x ∈ plug k (join d c old (join d c new a t) b), S x)
    (htint : RotationTinted m1.parentColor k c old new (a.paint ca) (t.paint ct) b)
    (hinv : inv m.augmented (plug k (join d c old (join d c new a t) b)) 0) :
    ∃ m', (m1.rotateSetParents old new color.word).call augment.rotate old new = some m' ∧
      Sound S inv m' (plug k (join d c new (a.paint ca) (join d color old (t.paint ct) b))) := by
  have hd := hready.distinct
  have hnew : new ≠ 0 := (shaped_join.mp hready.near).1
  have hrecolor : (plug k (join d c new a (join d c old t b))).uncolored =
      (plug k (join d c new (a.paint ca) (join d color old (t.paint ct) b))).uncolored :=
    uncolored_plug (by simp only [uncolored_join, uncolored_paint])
  have hrooted := (hready.store_three c c).recolor hrecolor
  rw [← hlink] at hrooted
  obtain ⟨hplace, -, hpath⟩ := rooted_plug.mp (hready.store_two (c := c) (p := old))
  rw [← hlink, top_join] at hplace
  rw [← hlink] at hpath
  simp only [distinct_plug, distinct_join, mem_join] at hd
  rw [rotateSetParents_eq hpath htint.path hplace htint.old_pc hready.old_ne (by grind)]
  -- The tree is in place; what is left is the callback.
  obtain ⟨-, hshaped, -⟩ := rooted_plug.mp hrooted
  simp only [shaped_join, shaped_paint, top_paint] at hshaped
  obtain ⟨-, -, -, -, -, hinner, hfar, ht, hb⟩ := hshaped
  obtain ⟨aug, hcall, haug'⟩ := laws.rotate
    (m := ((m1.setPc new (m1.parentColor old)).setPc old (new ||| color.word)).setLink
      (placeOf k) new) hready.old_ne hnew hinner hfar ht hb
    (by simp only [distinct_plug, distinct_join, mem_join]; exact hd)
    (by rw [← haug] at hinv; exact hinv)
  refine ⟨_, by rw [call, hcall]; rfl, ⟨hrooted, ?_, ?_⟩, ?_, ?_, laws.recolor hrecolor haug'⟩
  · refine htint.tinted ?_ color
    simp only [distinct_plug, distinct_join, mem_join, mem_paint, distinct_paint]
    exact hd
  · simp only [distinct_plug, distinct_join, mem_join, mem_paint, distinct_paint]
    grind
  · intro x hx
    refine hS x ?_
    simp only [mem_plug, mem_join, mem_paint] at hx ⊢
    tauto
  · refine Traced.setLink (m := (m1.setPc new (m1.parentColor old)).setPc old (new ||| color.word))
      htraced hrooted fun x hx => hS x ?_
    simp only [mem_plug, mem_join, mem_paint] at hx ⊢
    tauto

omit laws in
/-- The first two stores of a rotation. -/
theorem RotationReady.traced (hready : RotationReady m.link k d old new a t b)
    (htraced : Traced S m) (hS : ∀ x ∈ plug k (join d c old (join d c new a t) b), S x) :
    Traced S ((m.setLink (.child d old) (top t)).setLink (.child d.other new) old) := by
  have hsub : ∀ x ∈ plug k (join d c old t b), S x := fun x hx => hS x (by
    simp only [mem_plug, mem_join] at hx ⊢
    tauto)
  exact (htraced.setLink hready.store_one hsub).setLink hready.store_two hsub

/-- Case 3 of `__rb_insert`. -/
theorem insertCase3_spec
    (hready : RotationReady m.link k d old new a t b) (hpath : TintedPath m.parentColor k)
    (hold : Aligned old) (hnew : Aligned new) (hpc : m.parentColor old = parentOf k ||| c.word)
    (hnear : Tinted m.parentColor new a) (hinner : Tinted m.parentColor new t)
    (hfar : Tinted m.parentColor old b) (htraced : Traced S m)
    (hS : ∀ x ∈ plug k (join d c old (join d c new a t) b), S x)
    (hinv : inv m.augmented (plug k (join d c old (join d c new a t) b)) 0) :
    ∃ m', insertCase3 augment.rotate d m old new (top t) = some m' ∧
      Sound S inv m' (plug k (join d c new a (join d .red old (t.paint .black) b))) := by
  have ht : Shaped m.link t := (shaped_join.mp hready.near).2.2.2.2
  rw [← paint_rootColor (t := a)]
  refine rotation_spec laws .red hready ?_ ?_ ?_ hS ?_ hinv
  · exact link_setParentColorIf _ t old .black
  · exact augmented_setParentColorIf _ t old .black
  · rw [Traced, show rbBlack = Color.black.word from rfl, stores_setParentColorIf]
    exact hready.traced htraced hS
  · rw [paint_rootColor, show rbBlack = Color.black.word from rfl, parentColor_setParentColorIf]
    exact .adopt hpath hold hnew hpc hnear hinner hfar hready.distinct ht .black

omit laws

/-- `rb_set_parent` for the root of a tree. -/
theorem setParent_eq (h : Tinted m.parentColor par t) (hpar : Aligned par)
    (ht : top t ≠ 0) : m.setParent (top t) p = m.setPc (top t) (p ||| t.rootColor.word) := by
  cases t with
  | nil => exact absurd rfl ht
  | node c l b r =>
    rw [setParent, top, h.2.1, rbColor_pack_or c hpar]
    rfl

/-- `rb_set_parent` for the root of a tree, if there is one. -/
theorem setParentIf_eq (h : Tinted m.parentColor par t) (hpar : Aligned par) :
    (if top t ≠ 0 then m.setParent (top t) p else m) =
      m.setParentColorIf (top t) p t.rootColor.word := by
  rw [setParentColorIf]
  split
  case isTrue ht => exact setParent_eq h hpar ht
  case isFalse => rfl

end

end LinuxKernelTest
