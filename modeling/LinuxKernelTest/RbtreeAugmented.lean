import LinuxKernelTest.NotedTree
import LinuxKernelTest.RbtreeCalls

/-!
# Augmented trees with a maximum

The callbacks of `RB_DECLARE_CALLBACKS_MAX` keep in each node the maximum over its subtree. The tree
is changed first and the notes on the way to the root are set right afterwards, so in between the
notes are right but for the nodes of one path.
-/

namespace LinuxKernelTest

open ColorTree Function

section

variable {A : Type*} [LinearOrder A] {compute : RbPtr → A} {m : RbMem A}
  {k k' : List (Frame RbPtr)} {d : Side} {c c' : Color} {a s stop : RbPtr}
  {l r t near far : ColorTree RbPtr}

/-- The node `x`, whose augmented field need not be right; `NULL` stands for no node. -/
def exempt (x : RbPtr) (y : RbPtr) : Prop := y = 0 ∨ y = x

theorem exempt_head {f : Frame RbPtr} (h : f ∈ k.head?) : exempt (parentFrom stop k) f.label := by
  cases k with
  | nil => exact nomatch h
  | cons g k =>
    rw [List.head?_cons, Option.mem_some_iff] at h
    exact .inr (by rw [← h]; rfl)

theorem exempt_of_zero {x y : RbPtr} (h : exempt 0 y) : exempt x y := .inl (h.elim id id)

/-! ## `compute_max` -/

theorem coe_maxWithChild {v : A} (hlink : m.link (.child d a) = top t) (h : Shaped m.link t) :
    ((maxWithChild m d a v : A) : WithBot A) = max (v : WithBot A) (t.weight m.augmented) := by
  rw [maxWithChild, hlink]
  cases t with
  | nil => exact (max_eq_left bot_le).symm
  | node c l b r =>
    rw [top, if_pos h.1, weight]
    split
    case isTrue hlt => exact (max_eq_right (WithBot.coe_le_coe.mpr hlt.le)).symm
    case isFalse hle => exact (max_eq_left (WithBot.coe_le_coe.mpr (not_lt.mp hle))).symm

/-- `compute_max` finds the maximum of the value of a node and the augmented fields of its
children. -/
theorem computeMax_spec (compute : RbPtr → A) (hnear : m.link (.child d a) = top near)
    (hfar : m.link (.child d.other a) = top far) (hsnear : Shaped m.link near)
    (hsfar : Shaped m.link far) :
    ∃ v : A, (v : WithBot A) = max (compute a : WithBot A)
        (max (near.weight m.augmented) (far.weight m.augmented)) ∧
      computeMax compute m a false = (false, update m.augmented a v) ∧
      computeMax compute m a true = if m.augmented a = v then (true, m.augmented)
        else (false, update m.augmented a v) := by
  refine ⟨maxWithChild m .right a (maxWithChild m .left a (compute a)), ?_, ?_, ?_⟩
  · cases d with
    | left =>
      rw [coe_maxWithChild (d := .right) hfar hsfar, coe_maxWithChild hnear hsnear, max_assoc]
    | right =>
      rw [coe_maxWithChild hnear hsnear, coe_maxWithChild (d := .left) hfar hsfar, max_assoc,
        max_comm (far.weight m.augmented)]
  · simp [computeMax]
  · simp [computeMax]

/-! ## `propagate` -/

/-- The early exit is right : above a node that has not changed nothing changes. -/
theorem propagate_spec (hstop : Aligned stop) {n : ℕ} (hn : k.length < n)
    (hshaped : Shaped m.link (plug k t)) (htint : Tinted m.parentColor stop (plug k .nil))
    (hd : (plug k t).Distinct) (hout : stop ∉ plug k t)
    (h : (plug k t).Noted compute m.augmented (exempt (parentFrom stop k))) :
    ∃ aug, runLoop (propagateRound compute stop) n (m, parentFrom stop k) = some (some aug) ∧
      (plug k t).Noted compute aug (exempt stop) ∧ ∀ x ∉ plug k t, aug x = m.augmented x := by
  induction k generalizing m t n with
  | nil =>
    have hround : propagateRound compute stop (m, stop) = .done (some m.augmented) := if_pos rfl
    exact ⟨m.augmented, runLoop_of_done hround (Nat.zero_lt_of_lt hn), h, fun _ _ => rfl⟩
  | cons f k ih =>
    obtain ⟨n, rfl⟩ : ∃ i, n = i + 1 := ⟨n - 1, by omega⟩
    rw [plug] at hshaped htint h hd hout ⊢
    obtain ⟨hne, hnear, hfar, hst, hsrest⟩ := shaped_join.mp hshaped.of_plug
    obtain ⟨hspine, hword⟩ := tinted_plug_from.mp htint
    have hparent : rbParent (m.parentColor f.label) = parentFrom stop k := by
      rw [(tinted_join.mp hword).2.1, rbParent_pack _ (hspine.aligned_parentFrom hstop)]
    have hflabel : f.label ≠ stop := fun heq => hout (by rw [← heq]; simp)
    have hdist := hd
    simp only [distinct_plug, distinct_join, mem_join] at hdist
    obtain ⟨⟨hft, hfrest, -⟩, -, hpathout⟩ := hdist
    obtain ⟨hjoin, hpath⟩ := noted_plug.mp h
    obtain ⟨-, ht, hrest⟩ := noted_join.mp hjoin
    rw [parentFrom] at ht hrest hpath ⊢
    -- Outside the node, it makes no difference that it was exempt.
    have hset : ∀ y x, x ≠ f.label → exempt f.label x → exempt y x := fun y x hx hex =>
      hex.elim .inl fun heq => absurd heq hx
    have ht' : ∀ y, t.Noted compute m.augmented (exempt y) := fun y =>
      ht.mono fun x hx => hset y x fun heq => hft (heq ▸ hx)
    have hrest' : ∀ y, f.rest.Noted compute m.augmented (exempt y) := fun y =>
      hrest.mono fun x hx => hset y x fun heq => hfrest (heq ▸ hx)
    have hpath' : ∀ y, NotedPath compute m.augmented (exempt y) k
        ((join f.side f.color f.label t f.rest).weight m.augmented) := fun y =>
      hpath.mono fun x hx => hset y x fun heq => hpathout f.label (.inl rfl) (heq ▸ hx)
    obtain ⟨v, hv, -, hcompute⟩ := computeMax_spec compute hnear hfar hst hsrest
    by_cases hexit : m.augmented f.label = v
    · have hround : propagateRound compute stop (m, f.label) = .done (some m.augmented) := by
        rw [propagateRound]
        dsimp only
        rw [if_neg hflabel, if_neg hne, hcompute, if_pos hexit, if_pos rfl]
      refine ⟨m.augmented, runLoop_done hround n, noted_plug.mpr ⟨noted_join.mpr
        ⟨fun _ => ?_, ht' stop, hrest' stop⟩, hpath' stop⟩, fun _ _ => rfl⟩
      rw [hexit, hv]
    have hround : propagateRound compute stop (m, f.label) =
        .again ({ m with augmented := update m.augmented f.label v }, parentFrom stop k) := by
      rw [propagateRound]
      dsimp only
      rw [if_neg hflabel, if_neg hne, hcompute, if_neg hexit, if_neg Bool.false_ne_true, hparent]
    have hagree : ∀ x, x ≠ f.label → update m.augmented f.label v x = m.augmented x :=
      fun x hx => update_of_ne hx v m.augmented
    have hnext : (plug k (join f.side f.color f.label t f.rest)).Noted compute
        (update m.augmented f.label v) (exempt (parentFrom stop k)) := by
      have htagree : ∀ x ∈ t, update m.augmented f.label v x = m.augmented x :=
        fun x hx => hagree x fun heq => hft (heq ▸ hx)
      have hragree : ∀ x ∈ f.rest, update m.augmented f.label v x = m.augmented x :=
        fun x hx => hagree x fun heq => hfrest (heq ▸ hx)
      -- The label above is the next node.
      refine noted_plug.mpr ⟨noted_join.mpr ⟨fun _ => ?_, (ht' _).congr htagree,
        (hrest' _).congr hragree⟩, ((hpath' _).congr fun x hx => hagree x fun heq =>
          hpathout f.label (.inl rfl) (heq ▸ hx)).reweight fun _ => exempt_head⟩
      rw [update_self, hv, weight_congr htagree, weight_congr hragree]
    obtain ⟨aug, hrun, haug, hoff⟩ := ih
      (m := { m with augmented := update m.augmented f.label v })
      (t := join f.side f.color f.label t f.rest) (n := n)
      (by rw [List.length_cons] at hn; omega) hshaped hspine hd hout hnext
    refine ⟨aug, by rw [runLoop_again hround, hrun], haug, fun x hx => ?_⟩
    rw [hoff x hx]
    exact hagree x fun heq => hx (heq ▸ by simp)

/-! ## The callbacks -/

/-- `copy`, where the successor `s` takes the place of `a` above the subtree it is cut out of. -/
theorem maxCallbacks_copy {aug : RbPtr → A}
    (hd : (plug k (.node c l a (plug k' (.node c' .nil s r)))).Distinct)
    (h : (plug k (.node c l a (plug k' (.node c' .nil s r)))).Noted compute aug (exempt 0)) :
    (plug k' r).Noted compute (update aug s (aug a)) (exempt (parentFrom s k')) ∧
    ∀ aug', (∀ x ∉ plug k' r, aug' x = update aug s (aug a) x) →
      (plug k' r).Noted compute aug' (exempt s) →
      (plug k (.node c l s (plug k' r))).Noted compute aug' (exempt s) := by
  simp only [distinct_plug, distinct_node, mem_plug, mem_node] at hd
  obtain ⟨⟨-, hl, hsub⟩, hpath⟩ := noted_plug.mp h
  constructor
  · have hagree : ∀ x ∈ plug k' r, update aug s (aug a) x = aug x := by
      intro x hx
      refine update_of_ne ?_ (aug a) aug
      rintro rfl
      rw [mem_plug] at hx
      grind
    exact (Noted.cut (d := .left) hsub (fun _ => exempt_of_zero) fun _ => exempt_head).congr hagree
  · intro aug' hoff hsub'
    have hagree : ∀ x, (x ∈ l ∨ InPath x k) → aug' x = aug x := by
      intro x hx
      rw [hoff x (by rw [mem_plug]; grind), update_of_ne (by grind)]
    have hs : aug' s = aug a := by
      rw [hoff s (by rw [mem_plug]; grind), update_self]
    refine noted_plug.mpr ⟨⟨fun hx => absurd (.inr rfl) hx, ?_, hsub'⟩, ?_⟩
    · exact (hl.mono fun _ _ => exempt_of_zero).congr fun x hx => hagree x (.inl hx)
    · rw [weight, hs]
      exact (hpath.mono fun _ _ => exempt_of_zero).congr fun x hx => hagree x (.inr hx)

/-- The callbacks of `RB_DECLARE_CALLBACKS_MAX` keep the augmented fields at the maximum. -/
theorem maxCallbacks_laws (compute : RbPtr → A) :
    AugmentLaws (maxCallbacks compute) fun aug t x => t.Noted compute aug (exempt x) where
  recolor ht h := by
    rw [← noted_uncolored] at h ⊢
    rwa [← ht]
  rotate {m k d c old new a t b} hold hnew hinner hfar ht hb hd h := by
    have hnotin := hd
    simp only [distinct_plug, distinct_join, mem_join] at hnotin
    have hagree : ∀ x, x ≠ new → update m.augmented new (m.augmented old) x =
        m.augmented x := fun x hx => update_of_ne hx _ m.augmented
    obtain ⟨v, hv, hcompute, -⟩ := computeMax_spec compute
      (m := { m with augmented := update m.augmented new (m.augmented old) })
      hinner hfar ht hb
    rw [weight_congr fun x hx => hagree x (by grind), weight_congr fun x hx => hagree x (by grind)]
      at hv
    refine ⟨update (update m.augmented new (m.augmented old)) old v, ?_, ?_⟩
    · refine (if_neg (not_or.mpr ⟨hold, hnew⟩)).trans ?_
      rw [hcompute]
    · refine h.rotate hd (not_or.mpr ⟨hold, hold⟩) (not_or.mpr ⟨hnew, hnew⟩) ?_ ?_ ?_
      · rw [update_of_ne (by grind), update_self]
      · rw [update_self, hv]
      · intro x hxold hxnew
        rw [update_of_ne hxold, update_of_ne hxnew]
  cut h := by
    rw [← parentFrom_zero]
    exact h.cut (fun _ => exempt_of_zero) fun _ => exempt_head
  propagate hstop hshaped htint hd hout h := by
    have hlength := length_le_toList_plug.trans_lt (hshaped.length_lt hd)
    obtain ⟨aug, hrun, haug, hoff⟩ := propagate_spec hstop (n := rbFuel) (by omega) hshaped htint hd
      hout h
    exact ⟨aug, congrArg Option.join hrun, haug, hoff⟩
  copy ha hs hd h := ⟨_, if_neg (not_or.mpr ⟨ha, hs⟩), maxCallbacks_copy hd h⟩

/-! ## Inserting -/

variable {less : RbPtr → Bool} {val : A} {u : ColorTree RbPtr}

/-- The search of `insert_augmented` has come to the subtree `u`, and the augmented fields above it
are raised to `val`. -/
structure RaiseInv (compute : RbPtr → A) (less : RbPtr → Bool) (val : A) (m : RbMem A)
    (t : ColorTree RbPtr) (k : List (Frame RbPtr)) (u : ColorTree RbPtr)
    (s : RbMem A × RbLink × RbPtr) : Prop where
  search : SearchInv less t k u
  link : s.1.link = m.link
  parentColor : s.1.parentColor = m.parentColor
  stores : s.1.stores = m.stores
  place : s.2 = (placeOf k, parentOf k)
  noted : u.Noted compute s.1.augmented (exempt 0)
  path : NotedPath compute s.1.augmented (exempt 0) k
    (max (u.weight s.1.augmented) (val : WithBot A))

/-- The node is raised by a store, where it has to be. -/
theorem raise_eq : (if m.augmented a < val then
      { m with augmented := update m.augmented a val } else m) =
    { m with augmented := update m.augmented a (max (m.augmented a) val) } := by
  split
  case isTrue h => rw [max_eq_right h.le]
  case isFalse h => rw [max_eq_left (not_lt.mp h), update_eq_self]

theorem searchAugmented_spec (h : m.Holds t) (ho : OrderConsistent less t.toList)
    (hnoted : t.Noted compute m.augmented (exempt 0)) (val : A) :
    ∃ k s, runLoop (searchAugmentedRound less val) rbFuel (m, .root, 0) = some s ∧
      RaiseInv compute less val m t k .nil s := by
  have hround : RoundKeeps (searchAugmentedRound less val)
      (fun v s => ∃ k u, v = u.height ∧ RaiseInv compute less val m t k u s)
      fun s' => ∃ k, RaiseInv compute less val m t k .nil s' := by
    rintro _ ⟨m1, new, parent⟩ ⟨k, u, rfl, hs⟩
    obtain ⟨rfl, rfl⟩ := Prod.mk.inj hs.place
    have hlink : m1.link = m.link := hs.link
    have hrooted := h.rooted
    have hd := h.distinct
    rw [hs.search.tree, ← hlink] at hrooted
    rw [hs.search.tree] at hd
    obtain ⟨hplace, hu, -⟩ := rooted_plug.mp hrooted
    cases u with
    | nil => exact .inr ⟨_, if_neg (not_not.mpr hplace), k, hs⟩
    | node c l a r =>
      left
      rw [top] at hplace
      rw [searchAugmentedRound]
      dsimp only
      rw [hplace, if_pos hu.1, raise_eq]
      have hexempt : ¬exempt 0 a := not_or.mpr ⟨hu.1, hu.1⟩
      cases ha : less a with
      | true =>
        obtain ⟨hl, hpath⟩ := hs.path.raise (d := .left) hs.noted hd hexempt
          (update_self a (max (m1.augmented a) val) m1.augmented)
          fun x hx => update_of_ne hx _ _
        exact ⟨_, l.height, rfl, by rw [height]; omega, _, l, rfl, hs.search.left ho ha,
          hs.link, hs.parentColor, hs.stores, rfl, hl, hpath⟩
      | false =>
        have hnode : (join .right c a r l).Noted compute m1.augmented (exempt 0) := hs.noted
        obtain ⟨hr, hpath⟩ := hs.path.raise hnode hd hexempt
          (update_self a (max (m1.augmented a) val) m1.augmented)
          fun x hx => update_of_ne hx _ _
        exact ⟨_, r.height, rfl, by rw [height]; omega, _, r, rfl, hs.search.right ho ha,
          hs.link, hs.parentColor, hs.stores, rfl, hr, hpath⟩
  have hstart : RaiseInv compute less val m t [] t (m, .root, 0) :=
    ⟨⟨rfl, by simp [ColorTree.before], by simp [ColorTree.after]⟩, rfl, rfl, rfl, rfl, hnoted,
      trivial⟩
  obtain ⟨s, hrun, k, hs⟩ := runLoop_of_rank hround ⟨[], t, rfl, hstart⟩
    (height_le_length.trans_lt (h.rooted.2.length_lt h.distinct))
  exact ⟨k, s, hrun, hs⟩

/-- `insert_augmented` puts the node in its place, with the right augmented fields. -/
theorem rbtreeTestInsertAugmented_spec {S : RbPtr → Prop} {n : RbPtr}
    (h : Sound S (fun aug t x => t.Noted compute aug (exempt x)) m t) (ht : t.RedBlack)
    (hn : n ≠ 0) (haligned : Aligned n) (hout : n ∉ t.toList)
    (ho : OrderConsistent less t.toList) (hSn : S n) :
    ∃ m', rbtreeTestInsertAugmented compute less m n = some m' ∧
      Rebalanced S (fun aug t x => t.Noted compute aug (exempt x))
        (RbCall.spec t.toList (.insert less n)).1 m' := by
  obtain ⟨k, ⟨m1, new, parent⟩, hrun, hs⟩ := searchAugmented_spec h.holds ho h.augmented (compute n)
  obtain ⟨rfl, rfl⟩ := Prod.mk.inj hs.place
  obtain ⟨j, hj⟩ := redBlack_iff.mp ht
  obtain ⟨hbefore, hafter⟩ := hs.search.toList_eq
  obtain rfl := hs.search.tree
  obtain ⟨c, i, hnil, hfits⟩ := exists_fits hj
  cases hnil
  have hnk : ¬InPath n k := fun hx => hout (mem_def.mp (mem_plug.mpr (.inr hx)))
  have hlink : Sound S (fun aug t x => t.Noted compute aug (exempt x))
      (RbMem.linkNode { m1 with augmented := update m1.augmented n (compute n) } n
        (parentOf k) (placeOf k)) (plug k (.node .red .nil n .nil)) := by
    refine linkNode_sound ⟨?_, ?_, h.holds.distinct⟩ h.nodes ?_ hn haligned hout hSn
      (noted_plug.mpr ⟨⟨fun _ => ?_, trivial, trivial⟩, ?_⟩)
    · rw [hs.link]
      exact h.holds.rooted
    · rw [hs.parentColor]
      exact h.holds.tinted
    · rw [Traced, hs.stores]
      exact h.traced
    · dsimp only
      rw [update_self, weight_nil, max_self, max_eq_left bot_le]
    · have hpath := hs.path
      rw [weight_nil, max_eq_right bot_le] at hpath
      dsimp only [weight]
      rw [update_self]
      exact hpath.congr fun x hx => update_of_ne (fun heq : x = n => hnk (heq ▸ hx)) _ _
  obtain ⟨m', hinsert, hm'⟩ := rbInsert_spec (maxCallbacks_laws compute) hlink hfits rfl
  refine ⟨m', by rw [rbtreeTestInsertAugmented, hrun]; exact hinsert, ?_⟩
  rw [RbCall.spec, ← hbefore, ← hafter]
  rw [toList_plug] at hm'
  simpa [toList] using hm'

/-! ## Single calls -/

/-- A call on an augmented tree : `insert_augmented` or `rb_erase_augmented`. -/
def RbCall.runAugmented (compute : RbPtr → A) (m : RbMem A) : RbCall → Option (RbMem A)
  | .insert less n => rbtreeTestInsertAugmented compute less m n
  | .erase n => rbEraseAugmented (maxCallbacks compute) m n

/-- A tree whose augmented fields are the maximum of the values below is such a tree again after an
insertion, and after an erasure. -/
theorem runAugmented_exact {m : RbMem A} {t : ColorTree RbPtr} (hm : m.Holds t) (ht : t.RedBlack)
    (hexact : t.Exact compute m.augmented) {o : RbCall} (ho : o.Valid t.toList) :
    ∃ m' t', o.runAugmented compute { m with stores := [] } = some m' ∧ m'.Holds t' ∧
      t'.RedBlack ∧ t'.toList = (o.spec t.toList).1 ∧ t'.Exact compute m'.augmented := by
  have hstart : Sound (fun _ => True) (fun aug t x => t.Noted compute aug (exempt x))
      { m with stores := [] } t :=
    ⟨⟨hm.rooted, hm.tinted, hm.distinct⟩, fun _ _ => trivial, by simp [Traced],
      (exact_iff.mp hexact).mono fun _ _ => False.elim⟩
  obtain ⟨m', hrun, t', j, hm', hj, hlist⟩ : ∃ m',
      o.runAugmented compute { m with stores := [] } = some m' ∧
      Rebalanced (fun _ => True) (fun aug t x => t.Noted compute aug (exempt x))
        (o.spec t.toList).1 m' := by
    cases o with
    | insert less n =>
      obtain ⟨hn, haligned, hout, hless⟩ := ho
      exact rbtreeTestInsertAugmented_spec hstart ht hn haligned hout hless trivial
    | erase n =>
      obtain ⟨j, hj⟩ := redBlack_iff.mp ht
      exact rbEraseAugmented_spec (maxCallbacks_laws compute) hstart hj (mem_def.mpr ho)
  refine ⟨m', t', hrun, hm'.holds, redBlack_iff.mpr ⟨j, hj⟩, hlist, exact_iff.mpr ?_⟩
  exact hm'.augmented.mono fun x hx hex =>
    hm'.holds.rooted.2.ne_zero hx (hex.elim id id)

/-- A larger value is inserted beside a root. -/
theorem runAugmented_exact_two :
    ∃ m' t', (RbCall.insert (fun _ => false) 16).runAugmented BitVec.toNat
        ⟨update (fun _ => 0) .root 8, fun _ => 1, fun _ => 8, []⟩ = some m' ∧
      m'.Holds t' ∧ t'.RedBlack ∧ t'.toList = [8, 16] ∧ t'.Exact BitVec.toNat m'.augmented :=
  runAugmented_exact (m := ⟨update (fun _ => 0) .root 8, fun _ => 1, fun _ => 8, []⟩)
    (t := .node .black .nil 8 .nil) (o := .insert (fun _ => false) 16)
    ⟨⟨rfl, by decide, rfl, rfl, trivial, trivial⟩, ⟨rfl, rfl, trivial, trivial⟩,
      List.nodup_singleton 8⟩
    (redBlack_iff.mpr ⟨1, .black .nil .nil⟩)
    (exact_iff.mpr ⟨fun _ => by rw [weight_nil, max_self, max_eq_left bot_le]; rfl, trivial,
      trivial⟩)
    ⟨by decide, rfl, by decide, List.pairwise_singleton _ _⟩

end

end LinuxKernelTest
