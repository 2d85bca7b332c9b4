import LinuxKernelTest.RbtreeInsert

/-!
# Rebalancing after an erasure

`____rb_erase_color` climbs with a subtree that is one black node short. The four cases of the
source are about the sibling : one makes it black, one moves the want upwards, and two end the loop
with a rotation.
-/

namespace LinuxKernelTest

open ColorTree RbMem Side

section

variable {A : Type*} {S : RbPtr → Prop} {inv : (RbPtr → A) → ColorTree RbPtr → RbPtr → Prop}
  {augment : RbAugmentCallbacks A} {m : RbMem A} {k : List (Frame RbPtr)} {e : Side}
  {c : Color} {p s n : RbPtr} {a t x y z : ColorTree RbPtr}

/-- Case 1 of `____rb_erase_color` is the rotation of case 3 of `__rb_insert`. -/
theorem eraseCase1_eq {tmp : RbPtr} (htmp : m.link (.child e.other s) = tmp) (hne : tmp ≠ 0) :
    eraseCase1 augment.rotate e.other m p s =
      (insertCase3 augment.rotate e m p s tmp).map fun m => (m, tmp) := by
  rw [eraseCase1, htmp]
  dsimp only
  rw [if_neg hne, insertCase3, setParentColorIf, if_pos hne, other_other]

/-- Case 1 : the sibling is red. -/
theorem eraseCase1_spec (laws : AugmentLaws augment inv)
    (h : Sound S inv m (plug k (join e c p (join e .red s a t) x))) (ht : t ≠ .nil) :
    ∃ m', eraseCase1 augment.rotate e.other m p s = some (m', top t) ∧
      Sound S inv m' (plug k (join e c s a (join e .red p (t.paint .black) x))) := by
  obtain ⟨hrooted, htint, hd⟩ := h.holds
  obtain ⟨⟨htint, hpath⟩, -, hshaped, -⟩ := h.holds.parts
  simp only [tinted_join] at htint
  simp only [shaped_join] at hshaped
  obtain ⟨hp, hppc, ⟨hs, -, hatint, httint⟩, hxtint⟩ := htint
  have htop : top t ≠ 0 := fun h0 => ht (hshaped.2.2.2.1.2.2.2.2.top_eq_zero.mp h0)
  rw [eraseCase1_eq hshaped.2.2.2.1.2.2.1 htop]
  obtain ⟨m', hrun, hm'⟩ := insertCase3_spec laws (hrooted.rotationReady hd) hpath hp hs hppc hatint
    httint hxtint h.traced (fun z hz => h.nodes z (by simpa only [mem_plug, mem_join] using hz))
    (laws.recolor (uncolored_plug (by simp only [uncolored_join])) h.augmented)
  exact ⟨m', by rw [hrun]; rfl, hm'⟩

/-- Case 4 of `____rb_erase_color`. The words of `s` and of the root of `a` need not be right. -/
theorem eraseCase4_spec (laws : AugmentLaws augment inv) {par : RbPtr}
    (hready : RotationReady m.link k e p s a t x) (hpath : TintedPath m.parentColor k)
    (hp : Aligned p) (hs : Aligned s) (hppc : m.parentColor p = parentOf k ||| c.word)
    (ha : Tinted m.parentColor par a) (ht : Tinted m.parentColor s t)
    (hx : Tinted m.parentColor p x) (hnil : a ≠ .nil) (htraced : Traced S m)
    (hS : ∀ z ∈ plug k (join e c p (join e c s a t) x), S z)
    (hinv : inv m.augmented (plug k (join e c p (join e c s a t) x)) 0) :
    ∃ m', eraseCase4 augment.rotate e.other m p s (top a) = some m' ∧
      Sound S inv m' (plug k (join e c s (a.paint .black) (join e .black p t x))) := by
  obtain ⟨-, -, htop, hsa, hst⟩ := shaped_join.mp hready.near
  have hatop : top a ≠ 0 := fun h0 => hnil (hsa.top_eq_zero.mp h0)
  have hd := hready.distinct
  have htwo := hready.traced htraced hS
  simp only [distinct_plug, distinct_join, mem_join] at hd
  have hmem : top a ∈ a := top_mem hatop
  rw [eraseCase4, htop, other_other]
  set m0 := ((m.setLink (.child e p) (top t)).setLink (.child e.other s) p).setParentColor
    (top a) s rbBlack with hm0
  have hpc0 : m0.parentColor = Function.update m.parentColor (top a) (s ||| Color.black.word) := rfl
  have ht0 : Tinted m0.parentColor s t := by
    rw [hpc0]
    exact ht.store_outside (by grind)
  have htint : RotationTinted (adoptIf m0.parentColor t p t.rootColor) k c p s (a.paint .black)
      (t.paint t.rootColor) x := by
    refine .adopt (d := e) ?_ hp hs ?_ ?_ ht0 ?_ ?_ hst t.rootColor
    · exact hpath.store_outside (by grind)
    · rwa [hpc0, Function.update_of_ne (by grind)]
    · exact ha.adopt (by grind) s .black
    · exact hx.store_outside (by grind)
    · simp only [distinct_plug, distinct_join, mem_join, mem_paint, distinct_paint]
      exact hd
  rw [← parentColor_setParentColorIf] at htint
  obtain ⟨m', hrun, hm'⟩ := rotation_spec laws .black hready
    (link_setParentColorIf m0 t p t.rootColor)
    (augmented_setParentColorIf m0 t p t.rootColor)
    (by rw [Traced, stores_setParentColorIf]; exact htwo) hS htint hinv
  rw [setParentIf_eq ht0 hs]
  exact ⟨m', hrun, by rwa [paint_rootColor] at hm'⟩

/-- The stores of case 3 of `____rb_erase_color`, before the callback. -/
structure Case3Done (S : RbPtr → Prop) (m : RbMem A) (k : List (Frame RbPtr)) (e : Side)
    (c : Color) (p s n : RbPtr) (a x y z : ColorTree RbPtr) (m₁ : RbMem A) : Prop where
  rooted : Rooted m₁.link (plug k (join e c p (join e .red n (join e .black s a z) y) x))
  parentColor : m₁.parentColor = adoptIf m.parentColor z s .black
  augmented : m₁.augmented = m.augmented
  traced : Traced S m₁

variable (h : Sound S inv m (plug k (join e c p (join e .black s a (join e.other .red n y z)) x)))
  {l : List RbPtr}
include h

theorem eraseCase3_done :
    Case3Done S m k e c p s n a x y z
      ((((m.setLink (.child e.other s) (top z)).setLink (.child e n) s).setLink
        (.child e p) n).setParentColorIf (top z) s rbBlack) := by
  obtain ⟨hrooted, -, hd⟩ := h.holds
  -- The rotation is at the sibling, which has its own place.
  have hswap : plug k (join e c p (join e .black s a (join e.other .red n y z)) x) =
      plug (⟨e, c, p, x⟩ :: k) (join e.other .black s (join e.other .red n y z) a) := by
    exact congrArg (fun t => plug k (join e c p t x)) join_other.symm
  rw [hswap] at hrooted hd
  have hready := hrooted.rotationReady hd
  have hS : ∀ w ∈ plug (⟨e, c, p, x⟩ :: k) (join e.other .black s (join e.other .red n y z) a),
      S w := hswap ▸ h.nodes
  have hthree := hready.store_three .red .black
  have htwo := hready.traced (c := .black) h.traced fun w hw => hS w (by
    simpa only [mem_plug, mem_join] using hw)
  rw [other_other] at hthree htwo
  have htree : plug (⟨e, c, p, x⟩ :: k) (join e.other .red n y (join e.other .black s z a)) =
      plug k (join e c p (join e .red n (join e .black s a z) y) x) := by
    rw [plug, join_other, join_other]
  rw [htree] at hthree
  refine ⟨?_, parentColor_setParentColorIf _ z s .black,
    augmented_setParentColorIf _ z s .black, ?_⟩
  · rw [show rbBlack = Color.black.word from rfl, link_setParentColorIf]
    exact hthree
  · rw [Traced, show rbBlack = Color.black.word from rfl, stores_setParentColorIf]
    refine htwo.setLink hthree fun w hw => hS w ?_
    simp only [plug, mem_plug, mem_join] at hw ⊢
    tauto

omit h in
/-- The two tests on the children of the sibling. -/
theorem sibling_tests (h : Sound S inv m (plug k (join e c p (join e .black s a t) x))) :
    m.link (.child e.other.other s) = top a ∧ m.link (.child e.other s) = top t ∧
      ((top a = 0 ∨ rbIsBlack (m.parentColor (top a)) = true) ↔ a.rootColor = .black) ∧
      ((top t = 0 ∨ rbIsBlack (m.parentColor (top t)) = true) ↔ t.rootColor = .black) := by
  obtain ⟨⟨htint, -⟩, -, hshaped, -⟩ := h.holds.parts
  simp only [tinted_join] at htint
  simp only [shaped_join] at hshaped
  obtain ⟨-, -, ⟨hs, -, hatint, httint⟩, -⟩ := htint
  obtain ⟨-, -, -, ⟨-, hsa, hst, ha, ht⟩, -⟩ := hshaped
  rw [other_other]
  exact ⟨hsa, hst, isBlack_top_iff hatint ha hs, isBlack_top_iff httint ht hs⟩

omit h in
/-- Case 4 of `____rb_erase_color` : the outer child of the sibling is red. -/
theorem eraseBlackSibling_outer (laws : AugmentLaws augment inv)
    (h : Sound S inv m (plug k (join e c p (join e .black s a t) x)))
    (ha : a.rootColor = .red) :
    ∃ m', eraseBlackSibling augment.rotate e.other m p s = .done (some m') ∧
      Sound S inv m' (plug k (join e c s (a.paint .black) (join e .black p t x))) := by
  obtain ⟨hsa, -, htest, -⟩ := sibling_tests h
  obtain ⟨hrooted, htint, hd⟩ := h.holds
  obtain ⟨htint, hpath⟩ := tinted_plug.mp htint
  simp only [tinted_join] at htint
  obtain ⟨hp, hppc, ⟨hs, -, hatint, httint⟩, hxtint⟩ := htint
  obtain ⟨m', hrun, hm'⟩ := eraseCase4_spec laws (hrooted.rotationReady hd) hpath hp hs hppc hatint
    httint hxtint (by rintro rfl; exact absurd ha (by decide)) h.traced
    (fun z hz => h.nodes z (by simpa only [mem_plug, mem_join] using hz))
    (laws.recolor (uncolored_plug (by simp only [uncolored_join])) h.augmented)
  refine ⟨m', ?_, hm'⟩
  rw [eraseBlackSibling]
  dsimp only
  rw [hsa, if_neg (by rw [htest, ha]; decide), hrun]

/-- The words after case 3, but that of the inner child, and the parent of the sibling. -/
theorem eraseCase3_tinted :
    let pc := adoptIf m.parentColor z s .black
    TintedPath pc k ∧ pc p = parentOf k ||| c.word ∧
      Tinted pc p (join e .black s a (z.paint .black)) ∧ Tinted pc n y ∧ Tinted pc p x := by
  have hd := h.holds.distinct
  obtain ⟨⟨htint, hpath⟩, -, hshaped, -⟩ := h.holds.parts
  simp only [tinted_join] at htint
  simp only [shaped_join] at hshaped
  simp only [distinct_plug, distinct_join, mem_join] at hd
  obtain ⟨-, hppc, ⟨hs, hspc, hatint, -, -, hytint, hztint⟩, hxtint⟩ := htint
  refine ⟨hpath.adoptIf_outside (by grind), ?_, tinted_join.mpr ⟨hs, ?_, ?_, ?_⟩, ?_, ?_⟩
  · rwa [adoptIf_of_not_mem (by grind)]
  · rwa [adoptIf_of_not_mem (by grind)]
  · exact hatint.adoptIf_outside (by grind)
  · exact hztint.adoptIf (by grind) hshaped.2.2.2.1.2.2.2.2.2.2.2.2 s .black
  · exact hytint.adoptIf_outside (by grind)
  · exact hxtint.adoptIf_outside (by grind)

omit h

/-- Cases 3 and 4 of `____rb_erase_color` : only the inner child of the sibling is red. -/
theorem eraseBlackSibling_inner (laws : AugmentLaws augment inv)
    (h : Sound S inv m (plug k (join e c p (join e .black s a (join e.other .red n y z)) x)))
    (ha : a.rootColor = .black) :
    ∃ m', eraseBlackSibling augment.rotate e.other m p s = .done (some m') ∧
      Sound S inv m' (plug k (join e c n (join e .black s a (z.paint .black))
        (join e .black p y x))) := by
  obtain ⟨hsa, hst, htest, htest'⟩ := sibling_tests h
  have hdone := eraseCase3_done h
  have hd := h.holds.distinct
  obtain ⟨⟨htint, hpath⟩, -, hshaped, -⟩ := h.holds.parts
  simp only [tinted_join] at htint
  simp only [shaped_join] at hshaped
  obtain ⟨hp, hppc, ⟨hs, hspc, hatint, hn, hnpc, hytint, hztint⟩, hxtint⟩ := htint
  obtain ⟨-, -, -, ⟨hsne, -, -, -, hnne, -, hnz, -, hsz⟩, -⟩ := hshaped
  rw [other_other] at hnz
  have hwords := eraseCase3_tinted h
  rw [eraseBlackSibling]
  dsimp only
  rw [hsa, if_pos (htest.mpr ha), hst, if_neg (by rw [htest', rootColor_join]; decide), top_join,
    other_other, hnz]
  generalize (((m.setLink (.child e.other s) (top z)).setLink (.child e n) s).setLink
    (.child e p) n).setParentColorIf (top z) s rbBlack = m1 at hdone ⊢
  rw [← hdone.parentColor] at hwords
  obtain ⟨hpath, hppc, hnear, hytint, hxtint⟩ := hwords
  -- The callback after the stores of case 3.
  obtain ⟨-, hshaped, -⟩ := rooted_plug.mp hdone.rooted
  simp only [shaped_join] at hshaped
  obtain ⟨-, -, -, ⟨-, -, -, ⟨-, hsa', hsz', ha', hz'⟩, -⟩, -⟩ := hshaped
  have hold : (plug k (join e c p (join e .black s a (join e.other .red n y z)) x)).uncolored =
      (plug (⟨e, c, p, x⟩ :: k) (join e.other .black s (join e.other .black n y z) a)).uncolored :=
    uncolored_plug (by simp only [uncolored_join, join_other])
  obtain ⟨aug, hcall, haug⟩ := laws.rotate (m := m1) (a := y) hsne hnne hsz'
    (by rwa [other_other]) hz' ha' ((distinct_recolor hold).mp hd)
    (hdone.augmented ▸ laws.recolor hold h.augmented)
  -- Case 4, with `n` for the sibling.
  have hnew : (plug (⟨e, c, p, x⟩ :: k) (join e.other .black n y
      (join e.other .black s z a))).uncolored =
      (plug k (join e c p (join e c n (join e .black s a (z.paint .black)) y) x)).uncolored :=
    uncolored_plug (by simp only [uncolored_join, uncolored_paint, join_other])
  have hrecolor : (plug k (join e c p (join e .red n (join e .black s a z) y) x)).uncolored =
      (plug k (join e c p (join e c n (join e .black s a (z.paint .black)) y) x)).uncolored :=
    uncolored_plug (by simp only [uncolored_join, uncolored_paint])
  have hlist : (plug k (join e c p (join e c n (join e .black s a (z.paint .black)) y) x)).toList =
      (plug k (join e c p (join e .black s a (join e.other .red n y z)) x)).toList := by
    rw [← toList_recolor hnew, toList_recolor hold]
    exact toList_rotate ..
  obtain ⟨m', hrun, hm'⟩ := eraseCase4_spec (S := S) (m := { m1 with augmented := aug }) laws
    ((hdone.rooted.recolor hrecolor).rotationReady (by rwa [Distinct, hlist])) hpath hp hn hppc
    hnear hytint hxtint join_ne_nil hdone.traced
    (fun w hw => h.nodes w (by rwa [mem_def, hlist] at hw)) (laws.recolor hnew haug)
  rw [top_join] at hrun
  rw [paint_join] at hm'
  exact ⟨m', by rw [call, hcall, Option.map_some, Option.bind_some, hrun], hm'⟩

/-- Case 2 of `____rb_erase_color` : both children of the sibling are black, and it turns red. -/
theorem eraseBlackSibling_flip (laws : AugmentLaws augment inv)
    (h : Sound S inv m (plug k (join e c p (join e .black s a t) x)))
    (ha : a.rootColor = .black) (ht : t.rootColor = .black) :
    ∃ m', eraseBlackSibling augment.rotate e.other m p s = (if c = .red then .done (some m')
          else if parentOf k ≠ 0 then .again ⟨m', p, parentOf k⟩ else .done (some m')) ∧
      Sound S inv m' (plug k (join e .black p (join e .red s a t) x)) := by
  obtain ⟨hsa, hst, htest, htest'⟩ := sibling_tests h
  have hflip : Sound S inv (m.setParentColor s p rbRed)
      (plug k (join e c p (join e .red s a t) x)) :=
    Sound.repaint (k := ⟨e, c, p, x⟩ :: k) laws h .red
  obtain ⟨htint, hpath⟩ := tinted_plug.mp hflip.holds.tinted
  have hppc := (tinted_join.mp htint).2.1
  rw [eraseBlackSibling]
  dsimp only
  rw [hsa, if_pos (htest.mpr ha), hst, if_pos (htest'.mpr ht), hppc]
  cases c with
  | red =>
    have hblack := hflip.repaint laws .black
    rw [← pack_or_black .red, ← hppc] at hblack
    refine ⟨_, ?_, hblack⟩
    rw [if_pos ((rbIsRed_pack .red hpath.aligned).mpr rfl), if_pos rfl]
    rfl
  | black =>
    have hnot : ¬rbIsRed (parentOf k ||| Color.black.word) = true := by
      rw [rbIsRed_pack .black hpath.aligned]
      decide
    refine ⟨_, ?_, hflip⟩
    rw [if_neg hnot, rbParent_pack .black hpath.aligned,
      if_neg (show ¬Color.black = Color.red by decide)]

/-! ## The loop -/

/-- The loop of `____rb_erase_color` : the tree at the end of `k` is black, and has one black node
less on every path than the place takes. -/
structure EraseInv (S : RbPtr → Prop) (inv : (RbPtr → A) → ColorTree RbPtr → RbPtr → Prop)
    (l : List RbPtr) (k : List (Frame RbPtr)) (x : ColorTree RbPtr) (s : EraseState A) :
    Prop where
  sound : Sound S inv s.mem (plug k x)
  node : s.node = top x
  parent : s.parent = parentOf k
  path : k ≠ []
  list : (plug k x).toList = l
  balanced : ∃ j, Balanced .black j x ∧ Fits .black (j + 1) k

variable (laws : AugmentLaws augment inv) {j : ℕ}
include laws

/-- A round with a black sibling. From a red parent the loop does not go on. -/
theorem eraseBlackSibling_spec
    {ca ct : Color} (h : Sound S inv m (plug k (join e c p (join e .black s a t) x)))
    (hl : (plug k (join e c p (join e .black s a t) x)).toList = l) (hx : Balanced .black j x)
    (ha : Balanced ca j a) (ht : Balanced ct j t)
    (hk : Fits c (if c = .red then j + 1 else j + 1 + 1) k) :
    (c = .black ∧ ∃ s' x', eraseBlackSibling augment.rotate e.other m p s = .again s' ∧
      EraseInv S inv l k x' s') ∨
    ∃ m', eraseBlackSibling augment.rotate e.other m p s = .done (some m') ∧
      Rebalanced S inv l m' := by
  cases ca with
  | red =>
    obtain ⟨m', hrun, hm'⟩ := eraseBlackSibling_outer laws h ha.rootColor
    obtain ⟨i, hi⟩ := hk.balanced (ha.paint.joinColored (ht.joinBlack hx) c)
    refine .inr ⟨m', hrun, _, i, hm', hi, ?_⟩
    rw [← hl, toList_plug, toList_plug]
    cases e <;> simp [join, toList]
  | black =>
    cases ct with
    | red =>
      obtain ⟨n, y, z, rfl, hy, hz⟩ := ht.exists_join_red e.other
      obtain ⟨m', hrun, hm'⟩ := eraseBlackSibling_inner laws h ha.rootColor
      rw [hz.paint_eq] at hm'
      obtain ⟨i, hi⟩ := hk.balanced ((ha.joinBlack hz).joinColored (hy.joinBlack hx) c)
      refine .inr ⟨m', hrun, _, i, hm', hi, ?_⟩
      rw [← hl, toList_plug, toList_plug]
      cases e <;> simp [join, toList, other]
    | black =>
      obtain ⟨m', hrun, hm'⟩ := eraseBlackSibling_flip laws h ha.rootColor ht.rootColor
      have htree : Balanced .black (j + 1) (join e .black p (join e .red s a t) x) :=
        (ha.joinRed ht).joinBlack hx
      have hlist : (plug k (join e .black p (join e .red s a t) x)).toList = l := by
        rw [← hl]
        exact toList_recolor (uncolored_plug (by simp only [uncolored_join]))
      cases c with
      | red =>
        obtain ⟨i, hi⟩ := hk.black.balanced htree
        exact .inr ⟨m', hrun, _, i, hm', hi, hlist⟩
      | black =>
        rw [if_neg (by decide)] at hrun
        by_cases hroot : parentOf k ≠ 0
        · rw [if_pos hroot] at hrun
          refine .inl ⟨rfl, _, _, hrun, hm', (top_join).symm, rfl, ?_, hlist, j + 1, htree, hk⟩
          rintro rfl
          exact hroot rfl
        rw [if_neg hroot] at hrun
        -- The parent is the root.
        have hnil : k = [] := by
          cases k with
          | nil => rfl
          | cons f k => exact absurd (rooted_plug.mp h.holds.rooted).2.2.1 hroot
        subst hnil
        exact .inr ⟨m', hrun, _, j + 1, hm', htree, hlist⟩

omit laws in
/-- The side of the parent that the node is on is found by comparing it with the right child. -/
theorem eraseColorRound_eq {f : Frame RbPtr} {s : EraseState A}
    (h : s.mem.Holds (plug (f :: k) x)) (hparent : s.parent = f.label) (hnode : s.node = top x)
    (hrest : f.rest ≠ .nil) :
    eraseColorRound augment.rotate s =
      eraseColorSide augment.rotate f.side s.mem f.label (top f.rest) := by
  obtain ⟨d, cf, p, w⟩ := f
  obtain ⟨hplace, hx, -, hw, hsw, -⟩ := rooted_plug.mp h.rooted
  have hd := h.distinct
  rw [eraseColorRound, hparent, hnode]
  dsimp only [placeOf] at hplace hw hsw hrest ⊢
  cases d with
  | left =>
    have hne : top x ≠ top w := by
      have hwtop : top w ≠ 0 := fun h0 => hrest (hsw.top_eq_zero.mp h0)
      intro heq
      simp only [plug, distinct_plug, distinct_join] at hd
      exact hd.1.2.2.1 (top x) (top_mem (heq ▸ hwtop)) (heq ▸ top_mem hwtop)
    rw [show s.mem.link (.child .right p) = top w from hw, if_pos hne]
  | right =>
    rw [if_neg (not_not.mpr hplace.symm), show s.mem.link (.child .left p) = top w from hw]

/-- One side of a round, with the sibling `w` of `x` on the side `e` of the parent. -/
theorem eraseColorSide_spec {d : Side}
    {w : ColorTree RbPtr} (h : Sound S inv m (plug k (join e c p w x)))
    (hl : (plug k (join e c p w x)).toList = l) (hx : Balanced .black j x)
    (hk : Fits .black (j + 1) (⟨d, c, p, w⟩ :: k)) :
    (∃ s' x', eraseColorSide augment.rotate e.other m p (top w) = .again s' ∧
      EraseInv S inv l k x' s') ∨
    ∃ m', eraseColorSide augment.rotate e.other m p (top w) = .done (some m') ∧
      Rebalanced S inv l m' := by
  obtain ⟨cw, hw, hc, hk'⟩ : ∃ cw, Balanced cw (j + 1) w ∧ (cw = .red → c = .black) ∧
      Fits c (if c = .red then j + 1 else j + 1 + 1) k := by
    cases c with
    | red => exact ⟨.black, hk.2.1, nofun, hk.2.2⟩
    | black =>
      obtain ⟨cw, hw⟩ := hk.1
      exact ⟨cw, hw, fun _ => rfl, hk.2⟩
  obtain ⟨⟨htint, hpath⟩, -, hshaped, -⟩ := h.holds.parts
  obtain ⟨hp, -, hwtint, -⟩ := tinted_join.mp htint
  obtain ⟨-, -, -, hwshaped, -⟩ := shaped_join.mp hshaped
  have hred := isRed_top_iff hwtint hwshaped hp
  rw [hw.rootColor] at hred
  cases cw with
  | red =>
    obtain rfl := hc rfl
    obtain ⟨s, a, t, rfl, ha, ht⟩ := hw.exists_join_red e
    obtain ⟨n, y, z, cy, cz, rfl, hy, hz⟩ := ht.exists_join_black e
    obtain ⟨m', hcase, hm'⟩ := eraseCase1_spec laws h join_ne_nil
    rw [top_join] at hcase hred ⊢
    rw [paint_join] at hm'
    have hlist : (plug (⟨e.other, .black, s, a⟩ :: k)
        (join e .red p (join e .black n y z) x)).toList = l := by
      rw [← hl, plug, toList_plug, toList_plug]
      cases e <;> simp [join, toList, other]
    have hfits : Fits .red (j + 1) (⟨e.other, .black, s, a⟩ :: k) := ⟨⟨.black, ha⟩, hk'⟩
    rw [eraseColorSide, if_neg (hred.mpr rfl).1, if_pos (hred.mpr rfl).2, hcase]
    rcases eraseBlackSibling_spec (k := ⟨e.other, .black, s, a⟩ :: k) laws
      (by rw [plug, join_other]; exact hm') hlist hx hy hz hfits with ⟨hc, -⟩ | hdone
    · exact absurd hc (by decide)
    · exact .inr hdone
  | black =>
    obtain ⟨s, a, t, ca, ct, rfl, ha, ht⟩ := hw.exists_join_black e
    rw [top_join] at hred ⊢
    have hs : s ≠ 0 := (shaped_join.mp hwshaped).1
    have hnot : ¬rbIsRed (m.parentColor s) = true := fun h => by
      have := hred.mp ⟨hs, h⟩
      exact absurd this (by decide)
    rw [eraseColorSide, if_neg hs, if_neg hnot]
    rcases eraseBlackSibling_spec laws h hl hx ha ht hk' with ⟨-, hagain⟩ | hdone
    · exact .inl hagain
    · exact .inr hdone

theorem eraseColorRound_spec :
    RoundKeeps (eraseColorRound augment.rotate)
      (fun v s => ∃ k x, v = k.length ∧ EraseInv S inv l k x s)
      fun r => ∃ m', r = some m' ∧ Rebalanced S inv l m' := by
  rintro _ s ⟨k, x, rfl, h⟩
  obtain ⟨j, hx, hk⟩ := h.balanced
  cases k with
  | nil => exact absurd rfl h.path
  | cons f k =>
    have hrest : f.rest ≠ .nil := by
      intro hnil
      obtain ⟨c, hc⟩ := Fits.rest hk
      rw [hnil] at hc
      cases hc
    rw [eraseColorRound_eq h.sound.holds h.parent h.node hrest]
    obtain ⟨d, c, p, w⟩ := f
    have hswap : plug (⟨d, c, p, w⟩ :: k) x = plug k (join d.other c p w x) := by
      rw [plug, join_other]
    have hsound := h.sound
    have hlist := h.list
    rw [hswap] at hsound hlist
    have hround := eraseColorSide_spec laws hsound hlist hx hk
    rw [other_other] at hround
    rcases hround with ⟨s', x', hrun, h'⟩ | ⟨m', hrun, hm'⟩
    · exact .inl ⟨s', _, hrun, Nat.lt_succ_self _, k, x', rfl, h'⟩
    · exact .inr ⟨some m', hrun, m', rfl, hm'⟩

/-- `____rb_erase_color` rebalances a tree that lacks one black node at the end of `k`. -/
theorem rbEraseColor_spec
    (h : Sound S inv m (plug k .nil)) (hk : Fits .black 1 k) (hpath : k ≠ [])
    (hl : (plug k .nil).toList = l) :
    ∃ m', rbEraseColor augment.rotate m (parentOf k) = some m' ∧ Rebalanced S inv l m' := by
  have hparent : parentOf k ≠ 0 := by
    cases k with
    | nil => exact absurd rfl hpath
    | cons f k => exact (rooted_plug.mp h.holds.rooted).2.2.1
  have hstart : EraseInv S inv l k .nil ⟨m, 0, parentOf k⟩ := ⟨h, rfl, rfl, hpath, hl, 0, .nil, hk⟩
  obtain ⟨r, hrun, m', rfl, hm'⟩ :=
    runLoop_of_rank (eraseColorRound_spec laws) ⟨k, .nil, rfl, hstart⟩ h.holds.length_lt
  exact ⟨m', by rw [rbEraseColor, if_neg hparent, hrun]; rfl, hm'⟩

omit laws

end

end LinuxKernelTest
