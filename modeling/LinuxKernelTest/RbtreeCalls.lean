import LinuxKernelTest.Machine
import LinuxKernelTest.RbtreeErase

/-!
# Runs of insertions and erasures, and what readers find meanwhile

A run of insertions and erasures keeps a red-black tree with the sequence that the calls stand for.
After every single store, a reader who follows child pointers from the root meets a tree whose nodes
are linked or are being linked, so that it ends.
-/

namespace LinuxKernelTest

open ColorTree Function

section

variable {A : Type*} {S : RbPtr → Prop} {inv : (RbPtr → A) → ColorTree RbPtr → RbPtr → Prop}
  {m : RbMem A} {k : List (Frame RbPtr)} {c : Color} {a n : RbPtr} {l r t u : ColorTree RbPtr}
  {less : RbPtr → Bool} {o : RbCall} {d : Side}

/-! ## Linking a node -/

/-- `rb_link_node` puts a red leaf at an empty place. -/
theorem linkNode_sound (h : m.Holds (plug k .nil)) (hS : ∀ x ∈ plug k .nil, S x)
    (htraced : Traced S m) (hn : n ≠ 0) (haligned : Aligned n) (hout : n ∉ plug k .nil) (hSn : S n)
    (hinv : inv m.augmented (plug k (.node .red .nil n .nil)) 0) :
    Sound S inv (m.linkNode n (parentOf k) (placeOf k)) (plug k (.node .red .nil n .nil)) := by
  obtain ⟨hrooted, htint, hd⟩ := h
  obtain ⟨-, hpath⟩ := tinted_plug.mp htint
  obtain ⟨-, hdk, -⟩ := distinct_plug.mp hd
  have hnk : ¬InPath n k := fun h => hout (mem_plug.mpr (.inr h))
  have hone := hrooted.store_outside (d := .right) (p := 0) hout
  have htwo := hone.store_outside (d := .left) (p := 0) hout
  have hleaf : Shaped (update (update m.link (.child .right n) 0)
      (.child .left n) 0) (.node .red .nil n .nil) :=
    ⟨hn, update_self .., by
      rw [update_of_ne (by simp), update_self]; rfl, trivial, trivial⟩
  have hmem : ∀ x ∈ node .red .nil n .nil, x = n := fun x hx => by
    simpa only [mem_node, not_mem_nil, or_false] using hx
  have hthree := htwo.store hleaf hdk fun x hx => hmem x hx ▸ hnk
  have hS' : ∀ x ∈ plug k (.node .red .nil n .nil), S x := by
    intro x hx
    rcases mem_plug.mp hx with hx | hx
    · rw [hmem x hx]
      exact hSn
    · exact hS x (mem_plug.mpr (.inr hx))
  refine ⟨⟨hthree, tinted_plug.mpr ⟨⟨haligned, ?_, trivial, trivial⟩, hpath.store_outside hnk⟩,
    distinct_plug.mpr ⟨?_, hdk, fun x hx => hmem x hx ▸ hnk⟩⟩, hS', ?_, hinv⟩
  · exact (update_self ..).trans pack_red.symm
  · exact List.nodup_singleton n
  · exact ((Traced.setLink (m := m.setPc n (parentOf k)) htraced hone hS).setLink htwo hS).setLink
      hthree hS'

/-! ## The search for a place -/

/-- The order of a key against the nodes of a sequence : once the key is less than a node, it is
less than all nodes that follow. -/
def OrderConsistent (less : RbPtr → Bool) (list : List RbPtr) : Prop :=
  list.Pairwise fun x y => less x = true → less y = true

/-- The search has come to the subtree `u` of `t`, at the end of `k`. -/
structure SearchInv (less : RbPtr → Bool) (t : ColorTree RbPtr) (k : List (Frame RbPtr))
    (u : ColorTree RbPtr) : Prop where
  tree : t = plug k u
  before : ∀ x ∈ before k, less x = false
  after : ∀ x ∈ after k, less x = true

theorem SearchInv.left (h : SearchInv less t k (.node c l a r))
    (ho : OrderConsistent less t.toList) (ha : less a = true) :
    SearchInv less t (⟨.left, c, a, r⟩ :: k) l := by
  refine ⟨h.tree, by simpa [ColorTree.before] using h.before, ?_⟩
  rw [OrderConsistent, h.tree, toList_plug, toList, List.pairwise_append, List.pairwise_append,
    List.pairwise_append, List.pairwise_cons] at ho
  intro x hx
  rcases List.mem_append.mp hx with hx | hx
  · rcases List.mem_cons.mp hx with rfl | hx
    · exact ha
    · exact ho.1.2.1.2.1.1 x hx ha
  · exact h.after x hx

theorem SearchInv.right (h : SearchInv less t k (.node c l a r))
    (ho : OrderConsistent less t.toList) (ha : less a = false) :
    SearchInv less t (⟨.right, c, a, l⟩ :: k) r := by
  refine ⟨h.tree, ?_, by simpa [ColorTree.after] using h.after⟩
  rw [OrderConsistent, h.tree, toList_plug, toList, List.pairwise_append, List.pairwise_append,
    List.pairwise_append] at ho
  intro x hx
  rcases List.mem_append.mp hx with hx | hx
  · exact h.before x hx
  rcases List.mem_append.mp hx with hx | hx
  · -- Otherwise the key would be less than `a`, too.
    by_contra hless
    rw [ho.1.2.1.2.2 x hx a List.mem_cons_self ((Bool.not_eq_false _).mp hless)] at ha
    exact Bool.noConfusion ha
  · rw [List.mem_singleton.mp hx]
    exact ha

/-- The search ends at an empty place, and finds out whether nothing is left of it. Where the order
is consistent, the place is the one for the key. -/
theorem searchCached_spec (h : m.Holds t) (less : RbPtr → Bool) :
    ∃ k, runLoop (searchCachedRound less m) rbFuel (.root, 0, true) =
        some (placeOf k, parentOf k, decide (ColorTree.before k = [])) ∧ t = plug k .nil ∧
      (OrderConsistent less t.toList → SearchInv less t k .nil) := by
  have hround : RoundKeeps (searchCachedRound less m)
      (fun v s => ∃ k u, v = u.height ∧
        s = (placeOf k, parentOf k, decide (before k = [])) ∧ t = plug k u ∧
        (OrderConsistent less t.toList → SearchInv less t k u))
      fun s' => ∃ k, s' = (placeOf k, parentOf k, decide (before k = [])) ∧ t = plug k .nil ∧
        (OrderConsistent less t.toList → SearchInv less t k .nil) := by
    rintro _ _ ⟨k, u, rfl, rfl, htree, hs⟩
    have hrooted := h.rooted
    rw [htree] at hrooted
    obtain ⟨hplace, hu, -⟩ := rooted_plug.mp hrooted
    cases u with
    | nil => exact .inr ⟨_, if_neg (not_not.mpr hplace), k, rfl, htree, hs⟩
    | node c l a r =>
      left
      rw [top] at hplace
      rw [searchCachedRound, hplace, if_pos hu.1]
      cases ha : less a with
      | true =>
        refine ⟨_, l.height, rfl, by rw [height]; omega, _, l, rfl, ?_, htree,
          fun ho => (hs ho).left ho ha⟩
        simp [placeOf, parentOf, before]
      | false =>
        refine ⟨_, r.height, rfl, by rw [height]; omega, _, r, rfl, ?_, htree,
          fun ho => (hs ho).right ho ha⟩
        simp [placeOf, parentOf, before]
  have hstart : SearchInv less t [] t := ⟨rfl, by simp [before], by simp [after]⟩
  obtain ⟨_, hrun, k, rfl, hk⟩ := runLoop_of_rank hround
    ⟨[], t, rfl, rfl, rfl, fun _ => hstart⟩
    (height_le_length.trans_lt (h.rooted.2.length_lt h.distinct))
  exact ⟨k, hrun, hk⟩

/-- The search that keeps no note of the sides finds the same place. -/
theorem searchRound_of_cached {place : RbLink} {p : RbPtr} {leftmost : Bool}
    (h : runLoop (searchCachedRound less m) rbFuel (.root, 0, true) = some (place, p, leftmost)) :
    runLoop (searchRound less m) rbFuel (.root, 0) = some (place, p) := by
  have hround : ∀ s : RbLink × RbPtr × Bool, searchRound less m (s.1, s.2.1) =
      (searchCachedRound less m s).map (fun s => (s.1, s.2.1)) (fun s => (s.1, s.2.1)) := by
    rintro ⟨place, parent, flag⟩
    rw [searchRound, searchCachedRound]
    dsimp only
    split_ifs <;> rfl
  have hmap := runLoop_map _ _ hround rbFuel (.root, 0, true)
  rw [h] at hmap
  exact hmap

/-- The place that the search ends at splits the sequence. -/
theorem SearchInv.toList_eq (h : SearchInv less t k .nil) :
    ColorTree.before k = t.toList.takeWhile (fun x => !less x) ∧
      ColorTree.after k = t.toList.dropWhile (fun x => !less x) := by
  have hbefore : ∀ x ∈ ColorTree.before k, (!less x) = true := fun x hx => by
    rw [h.before x hx]
    rfl
  rw [h.tree, toList_plug, toList, List.append_nil, List.takeWhile_append_of_pos hbefore,
    List.dropWhile_append_of_pos hbefore]
  cases hafter : ColorTree.after k with
  | nil => simp
  | cons x xs =>
    have hx : less x = true := h.after x (hafter ▸ List.mem_cons_self)
    simp [hx]

/-! ## Single calls -/

/-- The callbacks that do nothing keep no property of the augmented fields. -/
theorem dummyCallbacks_laws : AugmentLaws (A := A) dummyCallbacks fun _ _ _ => True where
  recolor _ _ := trivial
  rotate {m} _ _ _ _ _ _ _ _ _ _ _ _ _ _ _ _ := ⟨m.augmented, rfl, trivial⟩
  cut _ := trivial
  propagate {m} _ _ _ _ _ _ _ _ _ := ⟨m.augmented, rfl, trivial, fun _ _ => rfl⟩
  copy {m} _ _ _ _ _ _ _ _ _ _ _ _ := ⟨m.augmented, rfl, trivial, fun _ _ _ => trivial⟩

/-- A call of the interface : `insert` of a node whose key compares with other nodes as `less` says,
or `rb_erase`. -/
inductive RbCall
  | insert (less : RbPtr → Bool) (node : RbPtr)
  | erase (node : RbPtr)

/-- The call in a memory. -/
def RbCall.run (m : RbMem A) : RbCall → Option (RbMem A × Unit)
  | .insert less n => (rbtreeTestInsert less m n).map (·, ())
  | .erase n => (rbErase m n).map (·, ())

/-- What the call does to the sequence of nodes. -/
def RbCall.spec (list : List RbPtr) : RbCall → List RbPtr × Unit
  | .insert less n =>
    (list.takeWhile (fun x => !less x) ++ n :: list.dropWhile (fun x => !less x), ())
  | .erase n => (list.erase n, ())

/-- A new node is inserted in order, and a node that is in the tree is erased. The address of a
`struct rb_node` is a multiple of `sizeof(long)`. -/
def RbCall.Valid (list : List RbPtr) : RbCall → Prop
  | .insert less n => n ≠ 0 ∧ Aligned n ∧ n ∉ list ∧ OrderConsistent less list
  | .erase n => n ∈ list

/-- A new node is linked at an empty place, and the tree rebalanced. -/
theorem insertAt_spec (h : Sound S (fun _ _ _ => True) m (plug k .nil))
    (ht : (plug k .nil : ColorTree RbPtr).RedBlack) (hn : n ≠ 0) (haligned : Aligned n)
    (hout : n ∉ (plug k .nil).toList) (hSn : S n) :
    ∃ m', rbInsertColor (m.linkNode n (parentOf k) (placeOf k)) n = some m' ∧
      Rebalanced S (fun _ _ _ => True) (ColorTree.before k ++ n :: ColorTree.after k) m' := by
  obtain ⟨j, hj⟩ := redBlack_iff.mp ht
  obtain ⟨c, i, hnil, hfits⟩ := exists_fits hj
  cases hnil
  have hlink : Sound S (fun _ _ _ => True) (m.linkNode n (parentOf k) (placeOf k))
      (plug k (.node .red .nil n .nil)) :=
    linkNode_sound h.holds h.nodes h.traced hn haligned hout hSn trivial
  obtain ⟨m', hinsert, hm'⟩ := rbInsert_spec dummyCallbacks_laws hlink hfits rfl
  refine ⟨m', hinsert, ?_⟩
  rw [toList_plug] at hm'
  simpa [toList] using hm'

theorem rbtreeTestInsert_spec (h : Sound S (fun _ _ _ => True) m t) (ht : t.RedBlack)
    (hn : n ≠ 0) (haligned : Aligned n) (hout : n ∉ t.toList) (ho : OrderConsistent less t.toList)
    (hSn : S n) :
    ∃ m', rbtreeTestInsert less m n = some m' ∧
      Rebalanced S (fun _ _ _ => True) (RbCall.spec t.toList (.insert less n)).1 m' := by
  obtain ⟨k, hsearch, rfl, hk⟩ := searchCached_spec h.holds less
  obtain ⟨hbefore, hafter⟩ := (hk ho).toList_eq
  obtain ⟨m', hinsert, hm'⟩ := insertAt_spec h ht hn haligned hout hSn
  refine ⟨m', by rw [rbtreeTestInsert, searchRound_of_cached hsearch]; exact hinsert, ?_⟩
  rw [RbCall.spec, ← hbefore, ← hafter]
  exact hm'

/-- A call keeps a red-black tree, and its sequence changes as it should. The nodes in `S` are those
that readers may find. -/
theorem RbCall.run_spec (h : Sound S (fun _ _ _ => True) m t) (ht : t.RedBlack)
    (ho : o.Valid t.toList) (hS : ∀ x ∈ (o.spec t.toList).1, S x) :
    ∃ m', o.run m = some (m', ()) ∧ Rebalanced S (fun _ _ _ => True) (o.spec t.toList).1 m' := by
  cases o with
  | insert less n =>
    obtain ⟨hn, haligned, hout, hless⟩ := ho
    obtain ⟨m', hrun, hm'⟩ := rbtreeTestInsert_spec h ht hn haligned hout hless
      (hS n (by simp [RbCall.spec]))
    exact ⟨m', by rw [RbCall.run, hrun]; rfl, hm'⟩
  | erase n =>
    obtain ⟨j, hj⟩ := redBlack_iff.mp ht
    obtain ⟨m', hrun, hm'⟩ := rbEraseAugmented_spec dummyCallbacks_laws h hj (mem_def.mpr ho)
    exact ⟨m', by rw [RbCall.run, rbErase, hrun]; rfl, hm'⟩

/-! ## Runs -/

/-- The memory holds a red-black tree with the sequence `list`. -/
def RbMem.Represents (m : RbMem A) (list : List RbPtr) : Prop :=
  ∃ t, Sound (fun _ => True) (fun _ _ _ => True) m t ∧ t.RedBlack ∧ t.toList = list

theorem RbCall.run_refines {list : List RbPtr} (h : m.Represents list)
    (ho : o.Valid list) :
    ∃ m', o.run m = some (m', (o.spec list).2) ∧ m'.Represents (o.spec list).1 := by
  obtain ⟨t, hm, ht, rfl⟩ := h
  obtain ⟨m', hrun, t', j, hm', hj, hlist⟩ := RbCall.run_spec hm ht ho fun _ _ => trivial
  exact ⟨m', hrun, t', hm', redBlack_iff.mpr ⟨j, hj⟩, hlist⟩

/-- A memory that holds a tree, and in which no store has been made yet. -/
theorem RbMem.Holds.sound (h : m.Holds t) (hS : ∀ x ∈ t, S x) :
    Sound S (fun _ _ _ => True) { m with stores := [] } t :=
  ⟨⟨h.rooted, h.tinted, h.distinct⟩, hS, by simp [Traced], trivial⟩

/-- A child points back to its parent. -/
theorem RbMem.Holds.parent_of_child (h : m.Holds t) (ha : a ∈ t)
    (hchild : m.link (.child d a) ≠ 0) : rbParent (m.parentColor (m.link (.child d a))) = a := by
  obtain ⟨k, c, l, r, rfl⟩ := exists_plug_of_mem ha
  obtain ⟨⟨⟨haligned, -, hl, hr⟩, -⟩, -, ⟨-, hleft, hright, -⟩, -⟩ := h.parts
  cases d with
  | left =>
    rw [hleft] at hchild ⊢
    exact hl.parent_top haligned hchild
  | right =>
    rw [hright] at hchild ⊢
    exact hr.parent_top haligned hchild

/-- Every run of insertions and erasures on an empty tree leaves a red-black tree, with parent
pointers that agree with the child pointers, whose sequence is that of the calls. -/
theorem rbRun_redBlack {m : RbMem A} (hroot : m.link .root = 0) {ops : List RbCall}
    (hops : SpecMeets RbCall.spec RbCall.Valid [] ops) :
    ∃ r t, runCalls RbCall.run { m with stores := [] } ops = some r ∧ r.1.Holds t ∧ t.RedBlack ∧
      (∀ a ∈ t, ∀ d, r.1.link (.child d a) ≠ 0 →
        rbParent (r.1.parentColor (r.1.link (.child d a))) = a) ∧
      t.toList = (runAbstract RbCall.spec [] ops).1 ∧
      t.height ≤ 2 * Nat.log 2 (t.toList.length + 1) := by
  have hempty : m.Holds .nil := ⟨⟨hroot, trivial⟩, trivial, distinct_nil⟩
  have hstart : RbMem.Represents { m with stores := [] } [] :=
    ⟨.nil, hempty.sound fun _ _ => trivial, redBlack_iff.mpr ⟨0, .nil⟩, rfl⟩
  obtain ⟨m', hrun, t, hm', ht, hlist⟩ := runCalls_refines RbMem.Represents RbCall.Valid
    (fun _ _ o h ho => RbCall.run_refines (o := o) h ho) hstart hops
  obtain ⟨j, hj⟩ := redBlack_iff.mp ht
  exact ⟨_, t, hrun, hm'.holds, ht, fun a ha d => hm'.holds.parent_of_child ha, hlist, hj.height_le⟩

/-- Three nodes inserted, and the one at the root erased. -/
theorem rbRun_redBlack_four :
    ∃ r t, runCalls RbCall.run (⟨fun _ => 0, fun _ => 0, fun _ => (), []⟩ : RbMem Unit)
        [.insert (fun _ => false) 16, .insert (fun x => x == 16) 8, .insert (fun _ => false) 24,
          .erase 16] = some r ∧ r.1.Holds t ∧ t.RedBlack ∧
      (∀ a ∈ t, ∀ d, r.1.link (.child d a) ≠ 0 →
        rbParent (r.1.parentColor (r.1.link (.child d a))) = a) ∧
      t.toList = [8, 24] ∧ t.height ≤ 2 * Nat.log 2 (t.toList.length + 1) :=
  rbRun_redBlack (m := ⟨fun _ => 0, fun _ => 0, fun _ => (), []⟩) rfl
    ⟨⟨by decide, rfl, by decide, .nil⟩,
      ⟨by decide, rfl, by decide, by simp [OrderConsistent, RbCall.spec]⟩,
      ⟨by decide, rfl, by decide, by simp [OrderConsistent, RbCall.spec]⟩,
      by simp [RbCall.Valid, RbCall.spec], trivial⟩

/-! ## Readers -/

/-- `y` is a child of `x`. -/
def IsChild (link : RbLink → RbPtr) (x y : RbPtr) : Prop := y ≠ 0 ∧ ∃ d, link (.child d x) = y

/-- The node `x` can be reached from the root. -/
def ReaderReaches (link : RbLink → RbPtr) (x : RbPtr) : Prop :=
  link .root ≠ 0 ∧ Relation.ReflTransGen (IsChild link) (link .root) x

/-- Where a reader is after `n` steps down, with any choice of sides. -/
def descend (link : RbLink → RbPtr) (dir : ℕ → Side) : ℕ → RbPtr
  | 0 => link .root
  | n + 1 =>
    let p := descend link dir n
    if p = 0 then 0 else link (.child (dir n) p)

/-- A reader who follows the child pointers from the root meets no loop and only nodes in `S`, and
comes to an end. -/
structure ReaderSafe (S : RbPtr → Prop) (link : RbLink → RbPtr) : Prop where
  acyclic : ∀ x, ReaderReaches link x → ¬Relation.TransGen (IsChild link) x x
  nodes : ∀ x, ReaderReaches link x → S x
  ends : ∀ dir, ∃ n, descend link dir n = 0

variable {link : RbLink → RbPtr} {x y : RbPtr}

/-- A child is at the top of a smaller tree. -/
theorem Shaped.exists_child (h : Shaped link t) (hx : top t = x) (hne : x ≠ 0)
    (hy : link (.child d x) = y) :
    ∃ u, Shaped link u ∧ top u = y ∧ u.height < t.height ∧ ∀ z ∈ u, z ∈ t := by
  cases t with
  | nil => exact absurd hx.symm hne
  | node c l a r =>
    obtain ⟨-, hleft, hright, hl, hr⟩ := h
    obtain rfl : a = x := hx
    cases d with
    | left =>
      exact ⟨l, hl, hleft.symm.trans hy, by rw [height]; omega,
        fun z hz => mem_node.mpr (.inr (.inl hz))⟩
    | right =>
      exact ⟨r, hr, hright.symm.trans hy, by rw [height]; omega,
        fun z hz => mem_node.mpr (.inr (.inr hz))⟩

/-- The child pointers determine the tree, and so its height. -/
theorem Shaped.height_eq (h : Shaped link t) (hu : Shaped link u) (htop : top t = top u) :
    t.height = u.height := by
  induction t generalizing u with
  | nil => rw [hu.top_eq_zero.mp htop.symm]
  | node c l a r ihl ihr =>
    obtain ⟨ha, hleft, hright, hl, hr⟩ := h
    cases u with
    | nil => exact absurd htop ha
    | node c' l' b r' =>
      obtain ⟨-, hleft', hright', hl', hr'⟩ := hu
      obtain rfl : a = b := htop
      rw [height, height, ihl hl hl' (hleft.symm.trans hleft'),
        ihr hr hr' (hright.symm.trans hright')]

theorem Rooted.exists_of_readerReaches {x : RbPtr} (h : Rooted link t) (hx : ReaderReaches link x) :
    x ≠ 0 ∧ ∃ u, Shaped link u ∧ top u = x ∧ ∀ z ∈ u, z ∈ t := by
  obtain ⟨hroot, hpath⟩ := hx
  induction hpath with
  | refl => exact ⟨hroot, t, h.2, h.1.symm, fun _ hz => hz⟩
  | tail _ hstep ih =>
    obtain ⟨hne, u, hu, htop, hsub⟩ := ih
    obtain ⟨hy, d, hchild⟩ := hstep
    obtain ⟨v, hv, hvtop, -, hvsub⟩ := hu.exists_child htop hne hchild
    exact ⟨hy, v, hv, hvtop, fun z hz => hsub z (hvsub z hz)⟩

/-- Every step down is to a smaller tree. -/
theorem Shaped.height_lt_of_transGen (h : Shaped link t) (hx : top t = x)
    (hne : x ≠ 0) (hpath : Relation.TransGen (IsChild link) x y) :
    y ≠ 0 ∧ ∃ u, Shaped link u ∧ top u = y ∧ u.height < t.height := by
  induction hpath with
  | single hstep =>
    obtain ⟨hy, d, hchild⟩ := hstep
    obtain ⟨u, hu, htop, hlt, -⟩ := h.exists_child hx hne hchild
    exact ⟨hy, u, hu, htop, hlt⟩
  | tail _ hstep ih =>
    obtain ⟨hy, u, hu, htop, hlt⟩ := ih
    obtain ⟨hz, d, hchild⟩ := hstep
    obtain ⟨v, hv, hvtop, hvlt, -⟩ := hu.exists_child htop hy hchild
    exact ⟨hz, v, hv, hvtop, hvlt.trans hlt⟩

/-- After `n` steps down, what is left of the tree is lower by `n`. -/
theorem Rooted.descend_spec (h : Rooted link t) (dir : ℕ → Side) (n : ℕ) :
    ∃ u, Shaped link u ∧ top u = descend link dir n ∧ u.height ≤ t.height - n := by
  induction n with
  | zero => exact ⟨t, h.2, h.1.symm, Nat.le_refl _⟩
  | succ n ih =>
    obtain ⟨u, hu, htop, hle⟩ := ih
    rw [descend]
    split
    case isTrue => exact ⟨.nil, trivial, rfl, Nat.zero_le _⟩
    case isFalse hne =>
      obtain ⟨v, hv, hvtop, hlt, -⟩ := hu.exists_child htop hne rfl
      exact ⟨v, hv, hvtop, by omega⟩

theorem Safe.readerSafe (h : Safe S link) : ReaderSafe S link := by
  obtain ⟨t, ht, hS⟩ := h
  refine ⟨fun x hx hcycle => ?_, fun x hx => ?_, fun dir => ⟨t.height, ?_⟩⟩
  · obtain ⟨hne, u, hu, htop, -⟩ := ht.exists_of_readerReaches hx
    obtain ⟨-, v, hv, hvtop, hlt⟩ := hu.height_lt_of_transGen htop hne hcycle
    exact absurd (hv.height_eq hu (hvtop.trans htop.symm)) hlt.ne
  · obtain ⟨hne, u, hu, rfl, hsub⟩ := ht.exists_of_readerReaches hx
    exact hS _ (hsub _ (top_mem hne))
  · obtain ⟨u, hu, htop, hle⟩ := ht.descend_spec dir t.height
    cases u with
    | nil => exact htop.symm
    | node c l a r =>
      rw [height] at hle
      omega

/-- After every single store of an insertion or an erasure, readers are safe, and find only nodes
that are in the tree before or after. -/
theorem rbCall_readerSafe {m : RbMem A} {t : ColorTree RbPtr} (hm : m.Holds t) (ht : t.RedBlack)
    (ho : o.Valid t.toList) :
    ∃ m', o.run { m with stores := [] } = some (m', ()) ∧ ∀ link ∈ m'.stores,
        ReaderSafe (fun x => x ∈ t.toList ∨ x ∈ (o.spec t.toList).1) link := by
  have hstart : Sound (fun x => x ∈ t.toList ∨ x ∈ (o.spec t.toList).1) (fun _ _ _ => True)
      { m with stores := [] } t := hm.sound fun x hx => .inl hx
  obtain ⟨m', hrun, t', j, hm', -⟩ := RbCall.run_spec hstart ht ho fun x hx => .inr hx
  exact ⟨m', hrun, fun link hlink => (hm'.traced link hlink).readerSafe⟩

/-- A black root with a red child on its right. -/
def rbTwo : RbMem Unit where
  link := update (update (fun _ => 0) .root 8) (.child .right 8) 16
  parentColor x := if x = 8 then 1 else 8
  augmented _ := ()
  stores := []

/-- A node is inserted behind both, and the tree is rotated at its root. -/
theorem rbCall_readerSafe_rotated :
    ∃ m', (RbCall.insert (fun _ => false) 24).run rbTwo = some (m', ()) ∧
      ∀ link ∈ m'.stores, ReaderSafe (fun x => x ∈ [8, 16] ∨ x ∈ [8, 16, 24]) link :=
  rbCall_readerSafe (m := rbTwo) (t := .node .black .nil 8 (.node .red .nil 16 .nil))
    ⟨⟨rfl, by decide, rfl, rfl, trivial, ⟨by decide, rfl, rfl, trivial, trivial⟩⟩,
      ⟨rfl, rfl, trivial, ⟨rfl, rfl, trivial, trivial⟩⟩, show [8, 16].Nodup by decide⟩
    (redBlack_iff.mpr ⟨1, .black .nil (.red .nil .nil)⟩)
    ⟨by decide, rfl, by decide, List.pairwise_pair.mpr id⟩

end

end LinuxKernelTest
