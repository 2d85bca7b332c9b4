import LinuxKernelTest.RbtreeRotate

/-!
# Rebalancing after an insertion

`__rb_insert` climbs with a red node whose parent may be red. A red uncle lets it paint and go on
two levels up, a black one ends the loop with one rotation or two. The invariant of the loop is a
path that is right but for that one node.
-/

namespace LinuxKernelTest

open ColorTree Function RbMem

section

variable {A : Type*} {S : RbPtr → Prop} {inv : (RbPtr → A) → ColorTree RbPtr → RbPtr → Prop}
  {augment : RbAugmentCallbacks A} {m : RbMem A} {k : List (Frame RbPtr)} {d e : Side}
  {c : Color} {n p g : RbPtr} {x y s u : ColorTree RbPtr} {t : ColorTree RbPtr} {f f' : Frame RbPtr}

/-- Case 1 of `__rb_insert` : the uncle is red. -/
theorem insertSide_red_uncle (laws : AugmentLaws augment inv)
    (h : Sound S inv m (plug k (join d .black g (join e .red p x y) u)))
    (hu : u.rootColor = .red) :
    ∃ m', insertSide augment.rotate d m n p g (top u) = .again ⟨m', g, parentOf k⟩ ∧
      Sound S inv m' (plug k (join d .red g (join e .black p x y) (u.paint .black))) := by
  have hd := h.holds.distinct
  obtain ⟨⟨htint, hpath⟩, -, hshaped, -⟩ := h.holds.parts
  simp only [tinted_join] at htint
  obtain ⟨hg, hgpc, ⟨hp, hppc, hx, hy⟩, hutint⟩ := htint
  simp only [shaped_join] at hshaped
  simp only [distinct_plug, distinct_join, mem_join] at hd
  have hred := (isRed_top_iff hutint hshaped.2.2.2.2 hg).mpr hu
  have hmem : top u ∈ u := top_mem hred.1
  have hparent : rbParent (((m.setParentColor (top u) g rbBlack).setParentColor p g
      rbBlack).parentColor g) = parentOf k := by
    simp only [setParentColor, parentColor_setPc]
    rw [update_of_ne (by grind), update_of_ne (by grind), hgpc, rbParent_pack _ hpath.aligned]
  rw [insertSide, if_pos hred]
  dsimp only
  rw [hparent]
  refine ⟨_, rfl, h.recolor laws (uncolored_plug ?_) rfl rfl rfl ?_⟩
  · simp only [uncolored_join, uncolored_paint]
  refine tinted_plug.mpr ⟨tinted_join.mpr ⟨hg, update_self .., tinted_join.mpr
    ⟨hp, ?_, ?_, ?_⟩, ?_⟩, ?_⟩
  · rw [setParentColor, setParentColor, parentColor_setPc,
      parentColor_setPc, update_of_ne (by grind), update_self]
    rfl
  · exact ((hx.store_outside (by grind)).store_outside (by grind)).store_outside (by grind)
  · exact ((hy.store_outside (by grind)).store_outside (by grind)).store_outside (by grind)
  · have hadopt := hutint.adopt hd.1.2.2.2.2 g .black
    exact (hadopt.store_outside (by rw [mem_paint]; grind)).store_outside
      (by rw [mem_paint]; grind)
  · exact ((hpath.store_outside (by grind)).store_outside (by grind)).store_outside (by grind)

/-- Case 3 of `__rb_insert` : the uncle is black, and the node is on the same side as its
parent. -/
theorem insertSide_outer (laws : AugmentLaws augment inv)
    (h : Sound S inv m (plug k (join d .black g (join d .red p x s) u)))
    (hu : u.rootColor = .black) (hx : x ≠ .nil) :
    ∃ m', insertSide augment.rotate d m (top x) p g (top u) = .done (some m') ∧
      Sound S inv m' (plug k (join d .black p x (join d .red g (s.paint .black) u))) := by
  obtain ⟨hrooted, htint, hd⟩ := h.holds
  have hready := hrooted.rotationReady hd
  obtain ⟨⟨htint, hpath⟩, -, hshaped, -⟩ := h.holds.parts
  simp only [tinted_join] at htint
  obtain ⟨hg, hgpc, ⟨hp, hppc, hxtint, hstint⟩, hutint⟩ := htint
  simp only [shaped_join, top_join] at hshaped
  simp only [distinct_plug, distinct_join, mem_join] at hd
  have hblack : ¬(top u ≠ 0 ∧ rbIsRed (m.parentColor (top u)) = true) := by
    rw [isRed_top_iff hutint hshaped.2.2.2.2 hg, hu]
    decide
  have hxtop : top x ≠ 0 := fun h0 => hx (hshaped.2.2.2.1.2.2.2.1.top_eq_zero.mp h0)
  have hnot : top x ≠ m.link (.child d.other p) := by
    rw [hshaped.2.2.2.1.2.2.1]
    intro heq
    have := top_mem hxtop
    have := top_mem (heq ▸ hxtop)
    grind
  rw [insertSide, if_neg hblack]
  dsimp only
  rw [if_neg hnot, hshaped.2.2.2.1.2.2.1]
  obtain ⟨m', hrun, hm'⟩ := insertCase3_spec laws hready hpath hg hp hgpc hxtint hstint hutint
    h.traced (fun z hz => h.nodes z (by simp only [mem_plug, mem_join] at hz ⊢; exact hz))
    (laws.recolor (uncolored_plug (by simp only [uncolored_join])) h.augmented)
  exact ⟨m', by rw [hrun], hm'⟩

/-- The words after case 2, but that of the node. -/
theorem insertCase2_tinted {pc : RbPtr → RbPtr} {link : RbLink → RbPtr} {c : Color}
    (h : Tinted pc 0 (plug k (join d c g (join d.other .red p (join d .red n x y) s) u)))
    (hd : (plug k (join d c g (join d.other .red p (join d .red n x y) s) u)).Distinct)
    (hx : Shaped link x) :
    let pc' := update (adoptIf pc x p .black) p n
    TintedPath pc' k ∧ pc' g = parentOf k ||| c.word ∧
      Tinted pc' n (join d.other .red p (x.paint .black) s) ∧ Tinted pc' n y ∧ Tinted pc' g u := by
  obtain ⟨htint, hpath⟩ := tinted_plug.mp h
  simp only [tinted_join] at htint
  simp only [distinct_plug, distinct_join, mem_join] at hd
  obtain ⟨-, hgpc, ⟨hp, -, ⟨-, -, hxtint, hytint⟩, hstint⟩, hutint⟩ := htint
  refine ⟨?_, ?_, tinted_join.mpr ⟨hp, ?_, ?_, ?_⟩, ?_, ?_⟩
  · exact (hpath.adoptIf_outside (by grind)).store_outside (by grind)
  · rw [update_of_ne (by grind), adoptIf_of_not_mem (by grind), hgpc]
  · rw [update_self, pack_red]
  · exact (hxtint.adoptIf (by grind) hx p .black).store_outside (by rw [mem_paint]; grind)
  · exact (hstint.adoptIf_outside (by grind)).store_outside (by grind)
  · exact (hytint.adoptIf_outside (by grind)).store_outside (by grind)
  · exact (hutint.adoptIf_outside (by grind)).store_outside (by grind)

/-- The memory after the stores of case 2. -/
structure Case2Done (S : RbPtr → Prop) (m : RbMem A) (k : List (Frame RbPtr)) (d : Side)
    (g p n : RbPtr) (x y s u : ColorTree RbPtr) (m₁ : RbMem A) : Prop where
  ready : RotationReady m₁.link k d g n (join d.other .red p (x.paint .black) s) y u
  shaped : Shaped m₁.link (join d .red n (join d.other .red p x s) y)
  parentColor : m₁.parentColor = update (adoptIf m.parentColor x p .black) p n
  augmented : m₁.augmented = m.augmented
  traced : Traced S m₁

theorem insertCase2_done
    (h : Sound S inv m (plug k (join d c g (join d.other .red p (join d .red n x y) s) u))) :
    Case2Done S m k d g p n x y s u (insertCase2 d m n p) := by
  obtain ⟨hrooted, -, hd⟩ := h.holds
  -- The rotation is at the parent, to the other side.
  have hready : RotationReady m.link (⟨d, c, g, u⟩ :: k) d.other p n y x s := by
    rw [show join d .red n x y = join d.other .red n y x from join_other.symm] at hrooted hd
    exact hrooted.rotationReady (k := ⟨d, c, g, u⟩ :: k) hd
  have htop : m.link (.child d n) = top x := by
    obtain ⟨-, hshaped, -⟩ := rooted_plug.mp hrooted
    simp only [shaped_join] at hshaped
    exact hshaped.2.2.2.1.2.2.2.1.2.1
  have htwo := hready.traced (c := .red) h.traced fun z hz => h.nodes z (by
    simp only [plug, mem_plug, mem_join] at hz ⊢
    tauto)
  have hlink : (insertCase2 d m n p).link = update (update m.link
      (.child d.other p) (top x)) (.child d.other.other n) p := by
    rw [insertCase2, htop, Side.other_other]
    exact link_setParentColorIf _ x p .black
  have hshaped : Shaped (insertCase2 d m n p).link
      (join d .red n (join d.other .red p x s) y) := by
    rw [hlink, ← join_other]
    exact hready.shaped .red .red
  refine ⟨?_, hshaped, ?_, ?_, ?_⟩
  · obtain ⟨hplace, hold, hpath⟩ := rooted_plug.mp (show Rooted (insertCase2 d m n p).link
      (plug k (join d c g (join d.other .red p x s) u)) from hlink ▸ hready.store_two)
    simp only [shaped_join, top_join] at hplace hold
    simp only [distinct_plug, distinct_join, mem_join] at hd
    refine ⟨hpath, hplace, hold.1, hold.2.2.1, hold.2.2.2.2, ?_, ?_⟩
    · simpa only [shaped_join, shaped_paint, top_paint, top_join] using hshaped
    · simp only [distinct_plug, distinct_join, mem_join, mem_paint, distinct_paint]
      clear hlink hshaped htwo hready
      grind
  · rw [insertCase2, htop, setParentColor, parentColor_setPc,
      show rbBlack = Color.black.word from rfl, parentColor_setParentColorIf]
    exact congrArg _ BitVec.or_zero
  · rw [insertCase2, htop]
    exact augmented_setParentColorIf _ x p .black
  · rw [Traced, insertCase2, htop, setParentColor, stores_setPc,
      show rbBlack = Color.black.word from rfl, stores_setParentColorIf]
    rwa [Side.other_other] at htwo

/-- Cases 2 and 3 of `__rb_insert` : the uncle is black, and the node is on the other side than its
parent. -/
theorem insertSide_inner (laws : AugmentLaws augment inv)
    (h : Sound S inv m (plug k (join d .black g (join d.other .red p (join d .red n x y) s) u)))
    (hu : u.rootColor = .black) :
    ∃ m', insertSide augment.rotate d m n p g (top u) = .done (some m') ∧
      Sound S inv m' (plug k (join d .black n (join d.other .red p (x.paint .black) s)
        (join d .red g (y.paint .black) u))) := by
  obtain ⟨hrooted, htint, hd⟩ := h.holds
  obtain ⟨-, hshaped, -⟩ := rooted_plug.mp hrooted
  simp only [shaped_join, top_join] at hshaped
  obtain ⟨-, -, -, ⟨hpne, hpn, -, ⟨hnne, -, -, hsx, -⟩, -⟩, hsu⟩ := hshaped
  have hwords := insertCase2_tinted htint hd hsx
  obtain ⟨⟨hg, -, ⟨-, -, ⟨hn, -⟩, -⟩, hutint⟩, -⟩ := by
    simpa only [tinted_plug, tinted_join] using htint
  have hblack : ¬(top u ≠ 0 ∧ rbIsRed (m.parentColor (top u)) = true) := by
    rw [isRed_top_iff hutint hsu hg, hu]
    decide
  have hdone := insertCase2_done h
  have hnew := hdone.shaped
  simp only [shaped_join, top_join] at hnew
  obtain ⟨-, -, hny, ⟨-, hinner, hs, hsx', hss⟩, -⟩ := hnew
  rw [insertSide, if_neg hblack]
  rw [if_pos hpn.symm]
  obtain ⟨aug, hcall, haug⟩ := laws.rotate (m := insertCase2 d m n p)
    (k := ⟨d, .black, g, u⟩ :: k) (c := .red) (a := y) hpne hnne hinner hs hsx' hss
    ((distinct_recolor (uncolored_plug (by simp only [uncolored_join, join_other]))).mp hd)
    (hdone.augmented ▸ laws.recolor (uncolored_plug (by simp only [uncolored_join, join_other]))
      h.augmented)
  rw [← hdone.parentColor] at hwords
  obtain ⟨hpath, hgpc, hnear, hinner', hfar⟩ := hwords
  obtain ⟨m', hrun, hm'⟩ := insertCase3_spec (S := S) (c := .black)
    (m := { insertCase2 d m n p with augmented := aug }) laws hdone.ready hpath hg hn hgpc hnear
    hinner' hfar hdone.traced
    (fun z hz => h.nodes z (by simp only [mem_plug, mem_join, mem_paint] at hz ⊢; tauto))
    (laws.recolor (uncolored_plug (by simp only [uncolored_join, uncolored_paint, join_other]))
      haug)
  refine ⟨m', ?_, hm'⟩
  rw [call, hcall, Option.map_some, Option.bind_some]
  rw [← hny] at hrun
  rw [hrun]

/-! ## The loop -/

/-- The loop of `__rb_insert` : the tree at the end of `k` has the red root `node`, and is otherwise
what the place takes. -/
structure InsertInv (S : RbPtr → Prop) (inv : (RbPtr → A) → ColorTree RbPtr → RbPtr → Prop)
    (l : List RbPtr) (k : List (Frame RbPtr)) (t : ColorTree RbPtr) (s : InsertState A) :
    Prop where
  sound : Sound S inv s.mem (plug k t)
  node : s.node = top t
  parent : s.parent = parentOf k
  list : (plug k t).toList = l
  balanced : ∃ j, Balanced .red j t ∧ Fits .black j k

/-- A red-black tree with the nodes `l` from left to right. -/
def Rebalanced (S : RbPtr → Prop) (inv : (RbPtr → A) → ColorTree RbPtr → RbPtr → Prop)
    (l : List RbPtr) (m : RbMem A) : Prop :=
  ∃ t j, Sound S inv m t ∧ Balanced .black j t ∧ t.toList = l

/-- The side of `gparent` that the parent is on is found by comparing it with the right child. -/
theorem insertRound_eq {s : InsertState A}
    (h : s.mem.Holds (plug (f :: f' :: k) t)) (hparent : s.parent = f.label)
    (hf : f.color = .red) :
    insertRound augment.rotate s =
      insertSide augment.rotate f'.side s.mem s.node f.label f'.label (top f'.rest) := by
  obtain ⟨d, cf, p, rest⟩ := f
  obtain ⟨d', cf', g, u⟩ := f'
  obtain rfl : cf = .red := hf
  obtain ⟨⟨htint, ⟨hp, hppc, -, hg, -⟩⟩, -, -, hpne, -, -, hplace, hgne, hrest, -, -, -⟩ := h.parts
  have hd := h.distinct
  dsimp only [parentOf, placeOf] at hparent hppc hg hpne hplace hgne hrest
  have hred : rbIsBlack (s.mem.parentColor p) ≠ true := by
    rw [hppc, Ne, rbIsBlack_pack .red hg]
    decide
  rw [pack_red] at hppc
  rw [insertRound, hparent]
  rw [if_neg hpne, if_neg hred, hppc, if_neg hgne]
  cases d' with
  | left =>
    have hne : p ≠ s.mem.link (.child .right g) := by
      intro heq
      rw [show s.mem.link (.child .right g) = top u from hrest] at heq
      simp only [plug, distinct_plug, distinct_join, mem_join] at hd
      exact hd.1.2.2.1 p (.inl rfl) (heq ▸ top_mem (heq ▸ hpne))
    rw [if_pos hne, show s.mem.link (.child .right g) = top u from hrest]
  | right =>
    rw [if_neg (not_not.mpr (show p = s.mem.link (.child .right g) from hplace.symm)),
      show s.mem.link (.child .left g) = top u from hrest]

variable (laws : AugmentLaws augment inv) {l : List RbPtr}
include laws

/-- One round of the loop, with a red parent. -/
theorem insertRound_red_parent {s : InsertState A}
    {j : ℕ}
    (h : InsertInv S inv l (f :: f' :: k) t s) (hf : f.color = .red) (hf' : f'.color = .black)
    (ht : Balanced .red j t) (hrest : Balanced .black j f.rest)
    (hu : Balanced c j f'.rest) (hk : Fits .black (j + 1) k) :
    (∃ s' t', insertRound augment.rotate s = .again s' ∧ InsertInv S inv l k t' s') ∨
      ∃ m', insertRound augment.rotate s = .done (some m') ∧ Rebalanced S inv l m' := by
  rw [insertRound_eq h.sound.holds h.parent hf, h.node]
  obtain ⟨e, cf, p, r⟩ := f
  obtain ⟨d, cf', g, u⟩ := f'
  obtain rfl : cf = .red := hf
  obtain rfl : cf' = .black := hf'
  have hsound := h.sound
  have hlist : (plug k (join d .black g (join e .red p t r) u)).toList = l := h.list
  rcases c with _ | _
  · -- The uncle is red.
    obtain ⟨m', hrun, hm'⟩ := insertSide_red_uncle (n := top t) laws hsound hu.rootColor
    refine .inl ⟨_, _, hrun, hm', (top_join).symm, rfl, ?_, j + 1, ?_, hk⟩
    · rw [← hlist]
      exact toList_recolor (uncolored_plug (by simp only [uncolored_join, uncolored_paint]))
    · exact (ht.joinBlack hrest).joinRed hu.paint
  right
  by_cases hside : e = d
  · subst hside
    obtain ⟨m', hrun, hm'⟩ := insertSide_outer laws hsound hu.rootColor (by rintro rfl; cases ht)
    rw [hrest.paint_eq] at hm'
    obtain ⟨i, hi⟩ := hk.balanced (ht.joinBlack (hrest.joinRed hu))
    exact ⟨m', hrun, _, i, hm', hi, by rw [toList_rotate]; exact hlist⟩
  obtain rfl : e = d.other := by cases e <;> cases d <;> first | rfl | exact absurd rfl hside
  obtain ⟨n, x, y, rfl, hx, hy⟩ := ht.exists_join_red d
  obtain ⟨m', hrun, hm'⟩ := insertSide_inner laws hsound hu.rootColor
  rw [hx.paint_eq, hy.paint_eq] at hm'
  obtain ⟨i, hi⟩ := hk.balanced ((hx.joinRed hrest).joinBlack (hy.joinRed hu))
  refine ⟨m', by rw [top_join]; exact hrun, _, i, hm', hi, ?_⟩
  rw [← hlist, toList_plug, toList_plug]
  cases d <;> simp [join, toList, Side.other]

theorem insertRound_spec :
    RoundKeeps (insertRound augment.rotate)
      (fun v s => ∃ k t, v = k.length ∧ InsertInv S inv l k t s)
      fun r => ∃ m', r = some m' ∧ Rebalanced S inv l m' := by
  rintro _ s ⟨k, t, rfl, h⟩
  obtain ⟨j, ht, hk⟩ := h.balanced
  cases k with
  | nil =>
    -- The node is the root.
    right
    have htint := h.sound.holds.tinted.adopt h.sound.holds.distinct 0 .black
    rw [plug, ← h.node] at htint
    refine ⟨_, if_pos h.parent, _, rfl, t.paint .black, j + 1,
      h.sound.recolor laws uncolored_paint.symm rfl rfl rfl htint, ht.paint, ?_⟩
    rw [toList_paint]
    exact h.list
  | cons f k =>
    obtain ⟨hp, hppc, -, hpath⟩ := (tinted_plug.mp h.sound.holds.tinted).2
    obtain ⟨-, -, hpne, -⟩ := rooted_plug.mp h.sound.holds.rooted
    have hparent : s.parent ≠ 0 := by
      rw [h.parent]
      exact hpne
    cases hf : f.color with
    | black =>
      right
      rw [hf] at hppc
      have hblack : rbIsBlack (s.mem.parentColor s.parent) = true := by
        rw [h.parent, parentOf, hppc]
        exact (rbIsBlack_pack .black hpath.aligned).mpr rfl
      obtain ⟨d, cf, p, r⟩ := f
      obtain rfl : cf = .black := hf
      obtain ⟨i, hi⟩ := Fits.balanced (c := .red) (k := ⟨d, .black, p, r⟩ :: k) hk ht
      refine ⟨some s.mem, ?_, _, rfl, _, i, h.sound, hi, h.list⟩
      rw [insertRound]
      rw [if_neg hparent, if_pos hblack]
    | red =>
      obtain ⟨d, cf, p, r⟩ := f
      obtain rfl : cf = .red := hf
      obtain ⟨-, hrest, hk⟩ := hk
      cases k with
      | nil => exact absurd hk (by simp [Fits])
      | cons f' k =>
        obtain ⟨d', cf', g, u⟩ := f'
        cases cf' with
        | red => exact absurd hk.1 (by decide)
        | black =>
          obtain ⟨⟨c, hu⟩, hk⟩ := hk
          rcases insertRound_red_parent laws h rfl rfl ht hrest hu hk with
            ⟨s', t', hrun, h'⟩ | ⟨m', hrun, hm'⟩
          · exact .inl ⟨s', _, hrun, by simp only [List.length_cons]; omega, k, t', rfl, h'⟩
          · exact .inr ⟨some m', hrun, m', rfl, hm'⟩

/-- `__rb_insert` rebalances a tree with a new red leaf. -/
theorem rbInsert_spec
    (h : Sound S inv m (plug k (.node .red .nil n .nil))) (hk : Fits .black 0 k)
    (hl : (plug k (.node .red .nil n .nil)).toList = l) :
    ∃ m', rbInsert augment.rotate m n = some m' ∧ Rebalanced S inv l m' := by
  obtain ⟨⟨⟨-, hpc, -⟩, -⟩, -, ⟨hn, -⟩, -⟩ := h.holds.parts
  have hstart : InsertInv S inv l k (.node .red .nil n .nil) ⟨m, n, m.parentColor n⟩ :=
    ⟨h, rfl, by rw [hpc]; exact pack_red, hl, 0, .red .nil .nil, hk⟩
  obtain ⟨r, hrun, m', rfl, hm'⟩ :=
    runLoop_of_rank (insertRound_spec laws) ⟨k, _, rfl, hstart⟩ h.holds.length_lt
  exact ⟨m', by rw [rbInsert, if_neg hn, hrun]; rfl, hm'⟩

omit laws

end

end LinuxKernelTest
