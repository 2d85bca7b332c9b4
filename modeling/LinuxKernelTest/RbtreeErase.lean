import LinuxKernelTest.RbtreeEraseColor

/-!
# Erasing a node

`__rb_erase_augmented` takes a node with at most one child out of its place, and puts the successor
in the place of a node with two. It returns the node from which the colours are to be repaired, or
`NULL` where the one child could be painted black.
-/

namespace LinuxKernelTest

open ColorTree Function RbMem

section

variable {A : Type*} {S : RbPtr → Prop} {inv : (RbPtr → A) → ColorTree RbPtr → RbPtr → Prop}
  {augment : RbAugmentCallbacks A} {m : RbMem A} {k k' : List (Frame RbPtr)} {d : Side}
  {c c' : Color} {a s : RbPtr} {l r t : ColorTree RbPtr}

theorem call_eq {callback : RbMem A → RbPtr → RbPtr → Option (RbPtr → A)} {p q : RbPtr}
    {aug : RbPtr → A} (h : callback m p q = some aug) :
    m.call callback p q = some { m with augmented := aug } := by
  rw [call, h, Option.map_some]

/-! ## A node with one child at most -/

variable (laws : AugmentLaws augment inv)
include laws

/-- The child takes the place and the color of the node. -/
theorem unlink_spec
    (h : Sound S inv m (plug k (join d c a .nil t))) :
    ∃ m', ((m.setLink (placeOf k) (top t)).setParentColorIf (top t) (parentOf k) c.word).call
        augment.propagate (parentOf k) 0 = some m' ∧ Sound S inv m' (plug k (t.paint c)) := by
  obtain ⟨hrooted, htint, hd⟩ := h.holds
  obtain ⟨⟨htint, hpath⟩, -, hshaped, -⟩ := h.holds.parts
  obtain ⟨-, -, -, -, ht⟩ := shaped_join.mp hshaped
  obtain ⟨-, -, -, httint⟩ := tinted_join.mp htint
  simp only [distinct_plug, distinct_join, mem_join] at hd
  have hout : ∀ x ∈ t, ¬InPath x k := fun x hx => hd.2.2 x (.inr (.inr hx))
  have hrecolor : (plug k t).uncolored = (plug k (t.paint c)).uncolored := uncolored_plug_paint.symm
  have hstored := (hrooted.store ht hd.2.1 hout).recolor hrecolor
  have hS : ∀ x ∈ plug k (t.paint c), S x := fun x hx => h.nodes x (by
    simp only [mem_plug, mem_paint, mem_join] at hx ⊢
    tauto)
  have htraced := h.traced.setLink hstored hS
  have hdist : (plug k (t.paint c)).Distinct := by
    simp only [distinct_plug, distinct_paint, mem_paint]
    exact ⟨hd.1.2.2.2.2, hd.2.1, hout⟩
  set m1 := (m.setLink (placeOf k) (top t)).setParentColorIf (top t) (parentOf k) c.word with hm1
  have hlink : m1.link = update m.link (placeOf k) (top t) := link_setParentColorIf ..
  have hpc : m1.parentColor = adoptIf m.parentColor t (parentOf k) c :=
    parentColor_setParentColorIf ..
  have haug : m1.augmented = m.augmented := augmented_setParentColorIf ..
  rw [← hlink] at hstored
  have htint1 : Tinted m1.parentColor 0 (plug k (t.paint c)) := by
    rw [hpc]
    exact tinted_plug.mpr ⟨httint.adoptIf hd.1.2.2.2.2 ht _ c, hpath.adoptIf_outside hout⟩
  obtain ⟨aug, hcall, haug', -⟩ := laws.propagate aligned_zero hstored.2
    (tinted_plug_from.mp htint1).1 hdist (fun h0 => hstored.2.ne_zero h0 rfl)
    (by rw [haug, parentFrom_zero]; exact laws.recolor hrecolor (laws.cut h.augmented))
  rw [parentFrom_zero] at hcall
  refine ⟨{ m1 with augmented := aug }, call_eq hcall, ⟨hstored, htint1, hdist⟩, hS, ?_, haug'⟩
  rw [Traced, hm1, stores_setParentColorIf]
  exact htraced

/-- Case 1 of `__rb_erase_augmented`, with no left child. -/
theorem rbEraseAugmentedStep_no_left
    (h : Sound S inv m (plug k (.node c .nil a r))) :
    ∃ m', rbEraseAugmentedStep augment m a =
        some (m', if top r ≠ 0 then 0 else if c = .black then parentOf k else 0) ∧
      Sound S inv m' (plug k (r.paint c)) := by
  obtain ⟨⟨⟨-, hpc, -, -⟩, hpath⟩, hplace, ⟨hne, hleft, hright, -, -⟩, hspath⟩ := h.holds.parts
  rw [top] at hplace
  have hout : ¬InPath a k := (distinct_plug.mp h.holds.distinct).2.2 a (mem_node.mpr (.inl rfl))
  obtain ⟨m', hrun, hm'⟩ := unlink_spec (d := .left) laws h
  refine ⟨m', ?_, hm'⟩
  rw [rbEraseAugmentedStep, if_neg hne, hleft, hright]
  dsimp only
  rw [if_pos (show top (.nil : ColorTree RbPtr) = 0 from rfl), hpc,
    rbParent_pack c hpath.aligned, changeChild_eq hspath hplace hne hout]
  by_cases hr : top r ≠ 0
  · rw [if_pos hr, if_pos hr]
    rw [setParentColorIf, if_pos hr] at hrun
    exact congrArg _ hrun
  rw [if_neg hr, if_neg hr]
  rw [setParentColorIf, if_neg hr] at hrun
  dsimp only
  rw [hrun, Option.map_some]
  simp only [rbIsBlack_pack c hpath.aligned]

/-- Case 1 of `__rb_erase_augmented`, with a left child only. -/
theorem rbEraseAugmentedStep_no_right
    (h : Sound S inv m (plug k (.node c l a .nil))) (hl : l ≠ .nil) :
    ∃ m', rbEraseAugmentedStep augment m a =
        some (m', if top l ≠ 0 then 0 else if c = .black then parentOf k else 0) ∧
      Sound S inv m' (plug k (l.paint c)) := by
  obtain ⟨⟨⟨-, hpc, -, -⟩, hpath⟩, hplace, ⟨hne, hleft, hright, hsl, -⟩, hspath⟩ := h.holds.parts
  rw [top] at hplace
  have hout : ¬InPath a k := (distinct_plug.mp h.holds.distinct).2.2 a (mem_node.mpr (.inl rfl))
  have htop : top l ≠ 0 := fun h0 => hl (hsl.top_eq_zero.mp h0)
  obtain ⟨m', hrun, hm'⟩ := unlink_spec (d := .right) laws h
  refine ⟨m', ?_, hm'⟩
  rw [rbEraseAugmentedStep, if_neg hne, hleft, hright]
  dsimp only
  rw [if_neg htop, if_pos (show top (.nil : ColorTree RbPtr) = 0 from rfl), hpc,
    rbParent_pack c hpath.aligned,
    changeChild_eq (m := m.setPc (top l) (parentOf k ||| c.word)) hspath hplace hne hout]
  rw [setParentColorIf, if_pos htop] at hrun
  rw [if_pos htop]
  exact congrArg _ hrun

omit laws

/-! ## A node with two children -/

/-- The memory before the successor `s` takes the place of the node `a` : `s` has been cut out of
the right subtree of `a`, or it is the right child, and its own subtree `r` is not yet given to
the parent. -/
structure ReplaceReady (S : RbPtr → Prop) (m : RbMem A) (k k' : List (Frame RbPtr)) (c c' : Color)
    (a s : RbPtr) (l r : ColorTree RbPtr) : Prop where
  traced : Traced S m
  stored : ∃ t, Rooted (update m.link (.child .left s) (top l)) (plug k (.node c l a t)) ∧
    ∀ x ∈ plug k (.node c l a t), S x
  left : m.link (.child .left a) = top l
  right : m.link (.child .right s) = top (plug k' r)
  shaped : Shaped m.link (plug k' r)
  tintedPath : TintedPath m.parentColor k
  word : m.parentColor a = parentOf k ||| c.word
  tintedLeft : Tinted m.parentColor a l
  spine : Tinted m.parentColor s (plug k' .nil)
  tintedRight : Tinted m.parentColor s r
  black : rbIsBlack (m.parentColor s) = true ↔ c' = .black
  aligned : Aligned a ∧ Aligned s
  distinct : (plug k (.node c l a (plug k' (.node c' .nil s r)))).Distinct
  nodes : ∀ x ∈ plug k (.node c l a (plug k' (.node c' .nil s r))), S x

section

variable (h : ReplaceReady S m k k' c c' a s l r)
include h

/-- What `ReplaceReady.distinct` says of the parts. -/
theorem ReplaceReady.apart :
    (s ∉ l ∧ s ∉ r ∧ ¬InPath s k' ∧ ¬InPath s k ∧ s ≠ a) ∧
    (∀ x ∈ l, x ∉ r ∧ ¬InPath x k' ∧ ¬InPath x k) ∧ (∀ x ∈ r, x ∉ l ∧ ¬InPath x k' ∧ ¬InPath x k) ∧
    (∀ x, InPath x k' → ¬InPath x k) ∧ ¬InPath a k ∧ l.Distinct ∧ r.Distinct ∧ DistinctPath k ∧
    DistinctPath k' := by
  have hd := h.distinct
  simp only [distinct_plug, distinct_node, mem_plug, mem_node] at hd
  grind

/-- The words after `eraseReplace`. -/
theorem ReplaceReady.tinted {link : RbLink → RbPtr}
    (hl : top l ≠ 0) (hr : Shaped link r) :
    Tinted (adoptIf (update (update m.parentColor (top l)
      (s ||| l.rootColor.word)) s (parentOf k ||| c.word)) r (parentFrom s k') .black) 0
      (plug k (.node c l s (plug k' (r.paint .black)))) := by
  obtain ⟨⟨hsl, hsr, hsk', hsk, -⟩, hlout, hrout, -, -, hld, hrd, -, -⟩ := h.apart
  obtain ⟨htopr, htopk', htopk⟩ := hlout _ (top_mem hl)
  refine tinted_plug.mpr ⟨⟨h.aligned.2, ?_, ?_, tinted_plug_from.mpr ⟨?_, ?_⟩⟩, ?_⟩
  · rw [adoptIf_of_not_mem hsr, update_self]
  · have hadopt := h.tintedLeft.adopt hld s l.rootColor
    rw [paint_rootColor] at hadopt
    exact (hadopt.store_outside hsl).adoptIf_outside fun x hx => (hrout x hx).1
  · refine ((h.spine.store_outside ?_).store_outside ?_).adoptIf_outside fun x hx => ?_
    · simpa only [mem_plug, not_mem_nil, false_or] using htopk'
    · simpa only [mem_plug, not_mem_nil, false_or] using hsk'
    · simpa only [mem_plug, not_mem_nil, false_or] using (hrout x hx).2.1
  · exact ((h.tintedRight.store_outside htopr).store_outside hsr).adoptIf hrd hr _ .black
  · exact ((h.tintedPath.store_outside htopk).store_outside hsk).adoptIf_outside
      fun x hx => (hrout x hx).2.2

/-- The child pointers of the successor, after the first store of `eraseReplace`. -/
theorem ReplaceReady.shaped_successor (hs : s ≠ 0) :
    Shaped (update m.link (.child .left s) (top l)) (.node c l s (plug k' r)) := by
  obtain ⟨⟨-, hsr, hsk', -⟩, -⟩ := h.apart
  obtain ⟨t, hstored, -⟩ := h.stored
  obtain ⟨-, ⟨-, -, -, hl, -⟩, -⟩ := rooted_plug.mp hstored
  refine ⟨hs, update_self .., ?_, hl, h.shaped.store_outside ?_⟩
  · rw [update_of_ne (by simp)]
    exact h.right
  · rw [mem_plug]
    exact fun hx => hx.elim hsr hsk'

/-- The stores of `eraseReplace`. -/
theorem ReplaceReady.eraseReplace_eq (hl : top l ≠ 0)
    {par : RbPtr} :
    eraseReplace m a par s (top r) =
      (((((m.setLink (.child .left s) (top l)).setPc (top l) (s ||| l.rootColor.word)).setLink
        (placeOf k) s).setPc s (parentOf k ||| c.word)).setParentColorIf (top r) par
          Color.black.word,
        if top r ≠ 0 then 0 else if c' = .black then par else 0) := by
  obtain ⟨⟨hsl, -⟩, -, -, -, hak, -⟩ := h.apart
  obtain ⟨t, hstored, -⟩ := h.stored
  obtain ⟨hplace, ⟨ha, -⟩, hpath⟩ := rooted_plug.mp hstored
  rw [top] at hplace
  have hal : a ≠ top l := by
    rintro rfl
    have hd := h.distinct
    simp only [distinct_plug, distinct_node] at hd
    exact hd.1.1 (top_mem hl)
  have hsetParent : (m.setLink (.child .left s) (top l)).setParent (top l) s =
      (m.setLink (.child .left s) (top l)).setPc (top l) (s ||| l.rootColor.word) :=
    setParent_eq (m := m.setLink (.child .left s) (top l)) h.tintedLeft h.aligned.1 hl
  have hword : ((m.setLink (.child .left s) (top l)).setPc (top l)
      (s ||| l.rootColor.word)).parentColor a = parentOf k ||| c.word := by
    rw [parentColor_setPc, update_of_ne hal]
    exact h.word
  have hsuccessor : ∀ w, ((m.setLink (.child .left s) (top l)).setPc (top l) w).parentColor s =
      m.parentColor s := fun w => by
    have hne : s ≠ top l := fun heq => hsl (heq ▸ top_mem hl)
    rw [parentColor_setPc, update_of_ne hne, parentColor_setLink]
  rw [eraseReplace, h.left]
  rw [hsetParent, hword, rbParent_pack c h.tintedPath.aligned, changeChild_eq hpath hplace ha hak,
    parentColor_setLink, hsuccessor, setParentColorIf]
  split
  case isTrue => rfl
  case isFalse => simp only [h.black]

omit h in
theorem uncolored_successor : (plug k (.node c l s (plug k' r))).uncolored =
    (plug k (.node c l s (plug k' (r.paint .black)))).uncolored :=
  uncolored_plug (by rw [uncolored, uncolored, uncolored_plug_paint])

theorem ReplaceReady.nodes_after (x : RbPtr)
    (hx : x ∈ plug k (.node c l s (plug k' (r.paint .black)))) : S x :=
  h.nodes x (by
    simp only [mem_plug, mem_node, mem_paint] at hx ⊢
    tauto)

/-- The successor takes the place of the node. -/
theorem ReplaceReady.spec (hl : top l ≠ 0) (hs : s ≠ 0)
    (hr : Shaped m.link r) :
    ∃ m', eraseReplace m a (parentFrom s k') s (top r) =
        (m', if top r ≠ 0 then 0 else if c' = .black then parentFrom s k' else 0) ∧
      m'.Holds (plug k (.node c l s (plug k' (r.paint .black)))) ∧ Traced S m' ∧
      m'.augmented = m.augmented := by
  obtain ⟨⟨hsl, hsr, hsk', hsk, hsa⟩, hlout, hrout, hkk, hak, hld, hrd, hdk, hdk'⟩ := h.apart
  obtain ⟨t, hstored, ht⟩ := h.stored
  have hout : ∀ x ∈ node c l s (plug k' r), ¬InPath x k := by
    intro x hx
    rcases mem_node.mp hx with rfl | hx | hx
    · exact hsk
    · exact (hlout x hx).2.2
    · exact (mem_plug.mp hx).elim (fun hx => (hrout x hx).2.2) (hkk x)
  have hrooted := (hstored.store (h.shaped_successor hs) hdk hout).recolor uncolored_successor
  have hS := h.nodes_after
  refine ⟨_, h.eraseReplace_eq hl, ⟨?_, ?_, ?_⟩, ?_, augmented_setParentColorIf ..⟩
  · rw [link_setParentColorIf]
    exact hrooted
  · rw [parentColor_setParentColorIf]
    exact h.tinted hl hr
  · have hd := h.distinct
    simp only [distinct_plug, distinct_node, mem_plug, mem_node, mem_paint, distinct_paint] at hd ⊢
    grind
  · rw [Traced, stores_setParentColorIf]
    exact ((h.traced.setLink hstored ht).setLink
      (m := m.setLink (.child .left s) (top l)) hrooted hS)

theorem ReplaceReady.augmented (aug : RbPtr → A) :
    ReplaceReady S { m with augmented := aug } k k' c c' a s l r :=
  { h with }

end

/-- The end of cases 2 and 3 of `__rb_erase_augmented`. -/
theorem ReplaceReady.sound (laws : AugmentLaws augment inv)
    (h : ReplaceReady S m k k' c c' a s l r) (hl : top l ≠ 0) (hs : s ≠ 0) (hr : Shaped m.link r)
    (hinv : inv m.augmented (plug k (.node c l s (plug k' r))) s) :
    ∃ m', (let q := eraseReplace m a (parentFrom s k') s (top r)
        (q.1.call augment.propagate s 0).map fun m => (m, q.2)) =
          some (m', if top r ≠ 0 then 0 else if c' = .black then parentFrom s k' else 0) ∧
      Sound S inv m' (plug k (.node c l s (plug k' (r.paint .black)))) := by
  obtain ⟨m1, hrun, hholds, htraced, haug⟩ := h.spec hl hs hr
  have hS := h.nodes_after
  have hspine : Tinted m1.parentColor 0 (plug (⟨.right, c, s, l⟩ :: k) .nil) :=
    (tinted_plug_from (k := ⟨.right, c, s, l⟩ :: k).mp hholds.tinted).1
  obtain ⟨aug, hcall, haug', -⟩ := laws.propagate (m := m1) (k := ⟨.right, c, s, l⟩ :: k)
    aligned_zero hholds.rooted.2 hspine hholds.distinct
    (fun h0 => hholds.rooted.2.ne_zero h0 rfl) (by
      rw [haug]
      exact laws.recolor uncolored_successor hinv)
  rw [parentFrom] at hcall
  refine ⟨{ m1 with augmented := aug }, ?_, ⟨hholds.rooted, hholds.tinted, hholds.distinct⟩, hS,
    htraced, haug'⟩
  dsimp only
  rw [hrun, call_eq hcall, Option.map_some]

/-- Case 2 of `__rb_erase_augmented` : the successor is the right child. -/
theorem replaceReady_child (h : Sound S inv m (plug k (.node c l a (.node c' .nil s r)))) :
    ReplaceReady S m k [] c c' a s l r := by
  have hd := h.holds.distinct
  obtain ⟨⟨⟨ha, hword, hltint, hs, hsword, -, hrtint⟩, hpath⟩, hplace,
    ⟨hane, hleft, hright, hl, hsne, -, hsr, -, hr⟩, hspath⟩ := h.holds.parts
  have hdist := hd
  simp only [distinct_plug, distinct_node, mem_node] at hdist
  refine ⟨h.traced, ⟨.node c' l s r, rooted_plug.mpr ⟨?_, ⟨hane, ?_, ?_, ?_, hsne, ?_, ?_, ?_, ?_⟩,
    ?_⟩, ?_⟩, hleft, hsr, hr, hpath, hword, hltint, trivial, hrtint, ?_, ⟨ha, hs⟩, hd, h.nodes⟩
  · rw [update_of_ne (placeOf_ne (by grind))]
    exact hplace
  · rw [update_of_ne (by simp; grind)]
    exact hleft
  · rw [update_of_ne (by simp)]
    exact hright
  · exact hl.store_outside (by grind)
  · exact update_self ..
  · rw [update_of_ne (by simp)]
    exact hsr
  · exact hl.store_outside (by grind)
  · exact hr.store_outside (by grind)
  · exact hspath.store_outside (by grind)
  · intro x hx
    refine h.nodes x ?_
    simp only [mem_plug, mem_node] at hx ⊢
    tauto
  · rw [hsword]
    exact rbIsBlack_pack c' ha

/-- The stores of case 3 of `__rb_erase_augmented` before the first callback : the successor is cut
out of the right subtree, which is given to it. -/
theorem replaceReady_cut (h : Sound S inv m (plug k (.node c l a (plug k' (.node c' .nil s r)))))
    (hk' : k' ≠ []) :
    ReplaceReady S (((m.setLink (placeOf k') (top r)).setLink (.child .right s)
      (top (plug k' r))).setParent (top (plug k' r)) s) k k' c c' a s l r := by
  have hpath : plug k (.node c l a (plug k' (.node c' .nil s r))) =
      plug (k' ++ ⟨.right, c, a, l⟩ :: k) (.node c' .nil s r) := by rw [plug_append]; rfl
  have hpath' : plug (k' ++ ⟨.right, c, a, l⟩ :: k) r = plug k (.node c l a (plug k' r)) := by
    rw [plug_append]; rfl
  have hplace : placeOf (k' ++ ⟨.right, c, a, l⟩ :: k) = placeOf k' := by
    cases k' with
    | nil => exact absurd rfl hk'
    | cons f k' => rfl
  have hnodes := h.nodes
  obtain ⟨hrooted, htint, hd⟩ := h.holds
  obtain ⟨⟨⟨ha, hword, hltint, hrtint⟩, htpath⟩, -, ⟨hane, -, -, -, hR⟩, -⟩ := h.holds.parts
  have hdist := hd
  simp only [distinct_plug, distinct_node, mem_plug, mem_node] at hdist
  -- The first store cuts the successor out.
  have hone : Rooted (update m.link (placeOf k') (top r))
      (plug k (.node c l a (plug k' r))) := by
    rw [hpath] at hrooted hd
    obtain ⟨-, ⟨-, -, -, -, hr⟩, -⟩ := rooted_plug.mp hrooted
    obtain ⟨-, hdk, hout⟩ := distinct_plug.mp hd
    have := hrooted.store hr hdk fun x hx => hout x (mem_node.mpr (.inr (.inr hx)))
    rwa [hplace, hpath'] at this
  have hsout : s ∉ plug k (.node c l a (plug k' r)) := by
    simp only [mem_plug, mem_node]
    grind
  have hsub : ∀ x ∈ plug k (.node c l a (plug k' r)), S x := fun x hx => h.nodes x (by
    simp only [mem_plug, mem_node] at hx ⊢
    tauto)
  -- The child stays at the top of the right subtree.
  have htop : top (plug k' r) = top (plug k' (.node c' .nil s r)) := top_plug hk'
  rw [htop]
  set R := plug k' (.node c' .nil s r) with hRdef
  have htwo := hone.store_outside (d := .right) (p := top R) hsout
  obtain ⟨-, ⟨-, hleft, -, -, hrest⟩, -⟩ := rooted_plug.mp htwo
  have hne : top R ≠ 0 := fun h0 => by
    have hs : s ∈ R := mem_plug.mpr (.inl (mem_node.mpr (.inl rfl)))
    rw [hR.top_eq_zero.mp h0] at hs
    exact not_mem_nil hs
  have hchild := top_mem hne
  rw [hRdef, mem_plug, mem_node, ← hRdef] at hchild
  have hadopt := hrtint.adopt (distinct_node.mp (distinct_plug.mp hd).1).2.2.2.2 s R.rootColor
  rw [paint_rootColor] at hadopt
  obtain ⟨hspine, hs, hsword, -, hrword⟩ := tinted_plug_from.mp hadopt
  rw [setParent_eq (m := (m.setLink (placeOf k') (top r)).setLink (.child .right s) (top R))
    hrtint ha hne]
  refine ⟨(h.traced.setLink hone hsub).setLink htwo hsub,
    ⟨plug k' r, htwo.store_outside hsout, hsub⟩, hleft, ?_, hrest,
    htpath.store_outside (by grind), ?_, hltint.store_outside (by grind), hspine, hrword, ?_,
    ⟨ha, hs⟩, hd, hnodes⟩
  · rw [htop]
    exact update_self ..
  · rw [parentColor_setPc, update_of_ne (by grind)]
    exact hword
  · rw [parentColor_setPc]
    exact hsword ▸ rbIsBlack_pack c' (hspine.aligned_parentFrom hs)

/-- The search for the successor goes down to the left. -/
theorem successorRound_spec (h : Shaped m.link t) (hne : t ≠ .nil) (p b : RbPtr) {n : ℕ}
    (hn : t.height ≤ n) :
    ∃ k' c' s r, t = plug k' (.node c' .nil s r) ∧ (∀ f ∈ k', f.side = .left) ∧
      runLoop (successorRound m) n (p, b, top t) = some (parentFrom b k', s) := by
  induction t generalizing p b n with
  | nil => exact absurd rfl hne
  | node c l a r ihl _ =>
    obtain ⟨-, hleft, -, hl, -⟩ := h
    obtain ⟨n, rfl⟩ : ∃ i, n = i + 1 := ⟨n - 1, by rw [height] at hn; omega⟩
    by_cases hnil : l = .nil
    · subst hnil
      refine ⟨[], c, a, r, rfl, by simp, runLoop_done ?_ n⟩
      exact if_neg (not_not.mpr hleft)
    obtain ⟨k', c', s, r', rfl, hside, hrun⟩ := ihl hl hnil b a (n := n)
      (by rw [height] at hn; omega)
    refine ⟨k' ++ [⟨.left, c, a, r⟩], c', s, r', by rw [plug_append]; rfl, ?_, ?_⟩
    · intro f hf
      rcases List.mem_append.mp hf with hf | hf
      · exact hside f hf
      · rw [List.mem_singleton.mp hf]
    · have htop : m.link (.child .left a) ≠ 0 := by
        rw [hleft]
        exact fun h0 => hnil (hl.top_eq_zero.mp h0)
      have hround : successorRound m (p, b, a) = .again (b, a, m.link (.child .left a)) :=
        if_pos htop
      rw [top, runLoop_again hround, hleft, hrun, parentFrom_append]

/-- Case 3 of `__rb_erase_augmented`, after the search for the successor. -/
theorem eraseCase3_spec (laws : AugmentLaws augment inv)
    (h : Sound S inv m (plug k (.node c l a (plug k' (.node c' .nil s r))))) (hl : top l ≠ 0)
    (hk' : k' ≠ []) :
    ∃ m', ((((m.setLink (placeOf k') (top r)).setLink (.child .right s)
        (top (plug k' r))).setParent (top (plug k' r)) s).call augment.copy a s).bind (fun m =>
          (m.call augment.propagate (parentFrom s k') s).bind fun m =>
            let q := eraseReplace m a (parentFrom s k') s (top r)
            (q.1.call augment.propagate s 0).map fun m => (m, q.2)) =
        some (m', if top r ≠ 0 then 0 else if c' = .black then parentFrom s k' else 0) ∧
      Sound S inv m' (plug k (.node c l s (plug k' (r.paint .black)))) := by
  have hready := replaceReady_cut h hk'
  have hd := h.holds.distinct
  have hnodes := h.holds.rooted.2
  have hane : a ≠ 0 := hnodes.ne_zero (by simp [mem_node])
  have hsne : s ≠ 0 := hnodes.ne_zero (by simp [mem_node])
  have haug : (((m.setLink (placeOf k') (top r)).setLink (.child .right s)
      (top (plug k' r))).setParent (top (plug k' r)) s).augmented = m.augmented := rfl
  generalize ((m.setLink (placeOf k') (top r)).setLink (.child .right s)
    (top (plug k' r))).setParent (top (plug k' r)) s = m1 at hready haug ⊢
  obtain ⟨⟨-, hsr, hsk', -⟩, -, hrout, -, -, -, hrd, -, hdk'⟩ := hready.apart
  have hsout : s ∉ plug k' r := fun hx => (mem_plug.mp hx).elim hsr hsk'
  obtain ⟨aug, hcopy, hinner, houter⟩ := laws.copy (m := m1) hane hsne hd (haug ▸ h.augmented)
  obtain ⟨aug', hcall, hinv, hoff⟩ := laws.propagate (m := { m1 with augmented := aug })
    hready.aligned.2 hready.shaped hready.spine
    (distinct_plug.mpr ⟨hrd, hdk', fun x hx => (hrout x hx).2.1⟩) hsout hinner
  obtain ⟨m', hrun, hm'⟩ := (hready.augmented aug').sound laws hl hsne hready.shaped.of_plug
    (houter aug' hoff hinv)
  exact ⟨m', by rw [call_eq hcopy, Option.bind_some, call_eq hcall, Option.bind_some, hrun], hm'⟩

/-- Cases 2 and 3 of `__rb_erase_augmented`. -/
theorem rbEraseAugmentedStep_two (laws : AugmentLaws augment inv)
    (h : Sound S inv m (plug k (.node c l a t))) (hl : l ≠ .nil) (ht : t ≠ .nil) :
    ∃ k' c' s r m', t = plug k' (.node c' .nil s r) ∧ before k' = [] ∧
      rbEraseAugmentedStep augment m a =
        some (m', if top r ≠ 0 then 0 else if c' = .black then parentFrom s k' else 0) ∧
      Sound S inv m' (plug k (.node c l s (plug k' (r.paint .black)))) := by
  obtain ⟨-, ⟨hane, hleft, hright, hsl, hst⟩, -⟩ := rooted_plug.mp h.holds.rooted
  have hlne : top l ≠ 0 := fun h0 => hl (hsl.top_eq_zero.mp h0)
  have htne : top t ≠ 0 := fun h0 => ht (hst.top_eq_zero.mp h0)
  have hd := h.holds.distinct
  rw [rbEraseAugmentedStep, if_neg hane, hleft, hright]
  dsimp only
  rw [if_neg hlne, if_neg htne]
  obtain _ | ⟨c0, l0, b, r0⟩ := t
  · exact absurd rfl ht
  have hst' := hst
  obtain ⟨hbne, hbleft, hbright, hsl0, hsr0⟩ := hst'
  rw [top, hbleft]
  by_cases hnil : l0 = .nil
  · -- The right child is the successor.
    subst hnil
    obtain ⟨aug, hcopy, hinner, houter⟩ := laws.copy (m := m) (q := []) hane hbne hd h.augmented
    have hready := (replaceReady_child h).augmented aug
    obtain ⟨m', hrun, hm'⟩ := hready.sound laws hlne hbne hsr0 (houter aug (fun _ _ => rfl) hinner)
    refine ⟨[], c0, b, r0, m', rfl, rfl, ?_, hm'⟩
    rw [if_pos (show top (.nil : ColorTree RbPtr) = 0 from rfl), call_eq hcopy, Option.bind_some,
      hbright]
    exact hrun
  have hl₀ne : top l0 ≠ 0 := fun h0 => hnil (hsl0.top_eq_zero.mp h0)
  rw [if_neg hl₀ne]
  have hfuel : l0.height ≤ rbFuel := by
    have := hsl0.length_lt (distinct_node.mp (distinct_node.mp
      (distinct_plug.mp hd).1).2.2.2.2).2.2.2.1
    exact height_le_length.trans this.le
  obtain ⟨k1, c', s, r, rfl, hside, hrun⟩ := successorRound_spec hsl0 hnil b b hfuel
  have htree : node c0 (plug k1 (.node c' .nil s r)) b r0 =
      plug (k1 ++ [⟨.left, c0, b, r0⟩]) (.node c' .nil s r) := by rw [plug_append]; rfl
  have hplace : placeOf (k1 ++ [⟨.left, c0, b, r0⟩]) = .child .left (parentFrom b k1) := by
    cases k1 with
    | nil => rfl
    | cons f k1 => rw [List.cons_append, placeOf, hside f List.mem_cons_self]; rfl
  have hchild : top (plug (k1 ++ [⟨.left, c0, b, r0⟩]) r) = b := by rw [plug_append]; rfl
  have hsright := hsl0.of_plug.2.2.1
  rw [htree] at h
  obtain ⟨m', hrest, hm'⟩ := eraseCase3_spec laws h hlne (by simp)
  rw [hplace, hchild, parentFrom_append] at hrest
  refine ⟨_, c', s, r, m', htree, before_eq_nil ?_, ?_, hm'⟩
  · intro f hf
    rcases List.mem_append.mp hf with hf | hf
    · exact hside f hf
    · rw [List.mem_singleton.mp hf]
  rw [hrun, Option.bind_some, parentFrom_append]
  dsimp only
  rw [hsright]
  exact hrest

/-! ## `rb_erase_augmented` -/

/-- Rebalancing, after a node of color `c'` with the one subtree `t` has been cut out at the
end of `k`. -/
theorem rebalance_spec (laws : AugmentLaws augment inv) {list : List RbPtr} {n : ℕ}
    (h : Sound S inv m (plug k (t.paint .black))) (hb : Balanced c n (join d c' a .nil t))
    (hk : Fits c n k) (hl : (plug k (t.paint .black)).toList = list) {rebalance : RbPtr}
    (hrebalance : rebalance = if top t ≠ 0 then 0 else if c' = .black then parentOf k else 0) :
    ∃ m', (if rebalance ≠ 0 then rbEraseColor augment.rotate m rebalance else some m) = some m' ∧
      Rebalanced S inv list m' := by
  rcases hb.cut hk with ⟨rfl, rfl, hfits⟩ | ⟨hred, i, hi⟩
  · obtain rfl : rebalance = parentOf k := hrebalance
    by_cases hroot : k = []
    · subst hroot
      exact ⟨m, rfl, .nil, 0, h, .nil, hl⟩
    have hne : parentOf k ≠ 0 := by
      cases k with
      | nil => exact absurd rfl hroot
      | cons f k => exact (rooted_plug.mp h.holds.rooted).2.2.1
    rw [if_pos hne]
    exact rbEraseColor_spec laws h hfits hroot hl
  · have hzero : rebalance = 0 := by
      rw [hrebalance]
      split
      case isTrue => rfl
      case isFalse htop =>
        have hshaped := shaped_paint.mp h.holds.rooted.2.of_plug
        rw [hred (hshaped.top_eq_zero.mp (not_not.mp htop)), if_neg (by decide)]
    rw [if_neg (not_not.mpr hzero)]
    exact ⟨m, rfl, _, i, h, hi, hl⟩

/-- `rb_erase_augmented` takes a node out of a red-black tree. -/
theorem rbEraseAugmented_spec (laws : AugmentLaws augment inv) {n : ℕ} (h : Sound S inv m t)
    (hb : Balanced .black n t) (ha : a ∈ t) :
    ∃ m', rbEraseAugmented augment m a = some m' ∧ Rebalanced S inv (t.toList.erase a) m' := by
  obtain ⟨k, c, l, r, rfl⟩ := exists_plug_of_mem ha
  obtain ⟨c0, j, hnode, hk⟩ := exists_fits hb
  rw [erase_toList_plug h.holds.distinct]
  by_cases hl : l = .nil
  · subst hl
    obtain ⟨m1, hstep, hm1⟩ := rbEraseAugmentedStep_no_left laws h
    rw [Balanced.paint_cut (d := .left) hnode] at hm1
    rw [rbEraseAugmented, hstep]
    exact rebalance_spec (d := .left) laws hm1 hnode hk (by rw [toList_plug, toList_paint]; rfl) rfl
  by_cases hr : r = .nil
  · subst hr
    obtain ⟨m1, hstep, hm1⟩ := rbEraseAugmentedStep_no_right laws h hl
    rw [Balanced.paint_cut (d := .right) hnode] at hm1
    rw [rbEraseAugmented, hstep]
    exact rebalance_spec (d := .right) laws hm1 hnode hk
      (by rw [toList_plug, toList_paint, toList, List.append_nil]) rfl
  obtain ⟨k', c', s, r', m1, rfl, hbefore, hstep, hm1⟩ := rbEraseAugmentedStep_two laws h hl hr
  -- The successor is cut out at the end of a longer path.
  have hpath : plug k (.node c l a (plug k' (.node c' .nil s r'))) =
      plug (k' ++ ⟨.right, c, a, l⟩ :: k) (.node c' .nil s r') := by rw [plug_append]; rfl
  have hpath' : plug k (.node c l s (plug k' (r'.paint .black))) =
      plug (k' ++ ⟨.right, c, s, l⟩ :: k) (r'.paint .black) := by rw [plug_append]; rfl
  rw [hpath] at hb
  obtain ⟨c1, i, hcut, hfits⟩ := exists_fits hb
  rw [rbEraseAugmented, hstep]
  refine rebalance_spec (d := .left) laws (hpath' ▸ hm1) hcut hfits.relabel ?_
    (by rw [parentOf_append])
  rw [← hpath', toList_plug, toList, toList_plug, toList_plug, hbefore, toList_paint, toList]
  simp [toList]

end

end LinuxKernelTest
