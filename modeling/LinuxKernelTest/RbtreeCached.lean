import LinuxKernelTest.RbtreeCalls

/-!
# The tree with a cached first node

A `struct rb_root_cached` of `include/linux/rbtree.h` keeps a pointer to the leftmost node beside
the root. `rb_add_cached` notes on its way down whether it ever went to the right, and
`rb_erase_cached` of the leftmost node caches the one that `rb_next` finds.

The abstract state is still the sequence of nodes : `RbCached.Represents` adds that the cached node
is its first one, or `NULL`. `rbNext_spec` is about any node of a tree, seen as a subtree under a
path : the next node is the first of what is right of it.
-/

namespace LinuxKernelTest

open ColorTree

/-! ## The model -/

/-- A `struct rb_root_cached`, with the memory of its nodes. -/
structure RbCached (A : Type*) where
  mem : RbMem A
  leftmost : RbPtr

section

variable {A : Type*}

/-- One round of the loop of `rb_next` that goes down to the left. -/
def descendRound (m : RbMem A) (node : RbPtr) : Round RbPtr RbPtr :=
  let left := m.link (.child .left node)
  if left ≠ 0 then .again left else .done node

/-- One round of the loop of `rb_next` that goes up. -/
def ascendRound (m : RbMem A) (node : RbPtr) : Round RbPtr RbPtr :=
  let parent := rbParent (m.parentColor node)
  if parent ≠ 0 ∧ node = m.link (.child .right parent) then .again parent else .done parent

/-- `rb_next`. -/
def rbNext (m : RbMem A) (node : RbPtr) : Option RbPtr :=
  if node = 0 then none
  -- `RB_EMPTY_NODE`
  else if m.parentColor node = node then some 0
  else if m.link (.child .right node) ≠ 0 then
    runLoop (descendRound m) rbFuel (m.link (.child .right node))
  else runLoop (ascendRound m) rbFuel node

/-- `rb_first`. -/
def rbFirst (m : RbMem A) : Option RbPtr :=
  if m.link .root = 0 then some 0 else runLoop (descendRound m) rbFuel (m.link .root)

/-- `rb_insert_color_cached`. -/
def rbInsertColorCached (r : RbCached A) (node : RbPtr) (leftmost : Bool) : Option (RbCached A) :=
  (rbInsertColor r.mem node).map fun m => ⟨m, if leftmost then node else r.leftmost⟩

/-- `rb_erase_cached` : the tree after it, and the new leftmost node if there is one. -/
def rbEraseCached (r : RbCached A) (node : RbPtr) : Option (RbCached A × RbPtr) :=
  (if r.leftmost = node then (rbNext r.mem node).map fun next => (next, next)
    else some (r.leftmost, 0)).bind fun (leftmost, answer) =>
      (rbErase r.mem node).map fun m => (⟨m, leftmost⟩, answer)

/-- `rb_add_cached` : the tree after it, and the node if it is the new leftmost one. -/
def rbAddCached (less : RbPtr → Bool) (r : RbCached A) (node : RbPtr) :
    Option (RbCached A × RbPtr) :=
  (runLoop (searchCachedRound less r.mem) rbFuel (.root, 0, true)).bind
    fun (link, parent, leftmost) =>
      (rbInsertColorCached { r with mem := r.mem.linkNode node parent link } node leftmost).map
        fun r => (r, if leftmost then node else 0)

/-- The tree has the sequence `list`, and the cached node is its first one. -/
structure RbCached.Represents (r : RbCached A) (list : List RbPtr) : Prop where
  mem : r.mem.Represents list
  leftmost : r.leftmost = list.head?.getD 0

end

section

variable {A : Type*} {m : RbMem A} {k : List (Frame RbPtr)} {c : Color} {a n : RbPtr}
  {l r t : ColorTree RbPtr} {less : RbPtr → Bool} {i : ℕ} {list : List RbPtr}

/-! ## The next node -/

theorem toList_ne_nil (h : t ≠ .nil) : t.toList ≠ [] := by
  cases t with
  | nil => exact absurd rfl h
  | node c l a r => simp [toList]

/-- Down to the left stands the first node of a subtree. -/
theorem descendRound_spec (h : Shaped m.link t) (ht : t ≠ .nil) (hi : t.height ≤ i) :
    runLoop (descendRound m) i (top t) = some (t.toList.head?.getD 0) := by
  induction t generalizing i with
  | nil => exact absurd rfl ht
  | node c l a r ihl _ =>
    obtain ⟨-, hleft, -, hl, -⟩ := h
    rw [height] at hi
    obtain ⟨i, rfl⟩ : ∃ j, i = j + 1 := ⟨i - 1, by omega⟩
    by_cases hnil : l = .nil
    · subst hnil
      have hround : descendRound m a = .done a := if_neg (not_not.mpr hleft)
      exact runLoop_done hround i
    have hround : descendRound m a = .again (top l) := by
      rw [descendRound, hleft]
      exact if_pos fun h0 => hnil (hl.top_eq_zero.mp h0)
    rw [top, runLoop_again hround, ihl hl hnil (by omega), toList,
      List.head?_append_of_ne_nil _ (toList_ne_nil hnil)]

/-- The way up ends at the first node right of the subtree. -/
theorem ascendRound_spec (h : m.Holds (plug k t)) (ht : t ≠ .nil) (hi : k.length < i) :
    runLoop (ascendRound m) i (top t) = some ((after k).head?.getD 0) := by
  obtain ⟨i, rfl⟩ : ∃ j, i = j + 1 := ⟨i - 1, by omega⟩
  induction k generalizing t i with
  | nil =>
    obtain ⟨⟨htint, -⟩, -, hshaped, -⟩ := h.parts
    have hparent : rbParent (m.parentColor (top t)) = 0 :=
      htint.parent_top aligned_zero fun h0 => ht (hshaped.top_eq_zero.mp h0)
    refine runLoop_done ?_ i
    rw [ascendRound, hparent]
    exact if_neg fun h0 => h0.1 rfl
  | cons f k ih =>
    obtain ⟨⟨htint, hpath⟩, hplace, hshaped, hfne, hother, -⟩ := h.parts
    have htop : top t ≠ 0 := fun h0 => ht (hshaped.top_eq_zero.mp h0)
    have hparent := htint.parent_top hpath.aligned htop
    rcases hside : f.side with _ | _
    · -- From the left child the parent is next.
      rw [hside] at hother
      have hne : top t ≠ m.link (.child .right f.label) := by
        rw [show m.link (.child .right f.label) = top f.rest from hother]
        intro heq
        obtain ⟨-, -, hout⟩ := distinct_plug.mp h.distinct
        exact hout _ (top_mem htop)
          ⟨f, List.mem_cons_self, .inr (heq ▸ top_mem (heq ▸ htop))⟩
      have hround : ascendRound m (top t) = .done f.label := by
        rw [ascendRound, hparent]
        exact if_neg fun h0 => hne h0.2
      rw [runLoop_done hround, after, hside]
      rfl
    · rw [placeOf, hside] at hplace
      have hround : ascendRound m (top t) = .again f.label := by
        rw [ascendRound, hparent]
        exact if_pos ⟨hfne, hplace.symm⟩
      have hi' : k.length < i := by simpa using hi
      obtain ⟨i, rfl⟩ : ∃ j, i = j + 1 := ⟨i - 1, by omega⟩
      have hup := ih (t := join f.side f.color f.label t f.rest) h join_ne_nil i (by omega)
      rw [show top (join f.side f.color f.label t f.rest) = f.label by rw [hside]; rfl] at hup
      rw [runLoop_again hround, hup, after, hside]
      rfl

/-- `rb_next` of a node finds the first one right of it. -/
theorem rbNext_spec (h : m.Holds (plug k (.node c l a r))) :
    rbNext m a = some ((r.toList ++ after k).head?.getD 0) := by
  obtain ⟨⟨⟨haligned, hword, -⟩, hpath⟩, -, ⟨hane, -, hright, -, hr⟩, -⟩ := h.parts
  obtain ⟨hd, -, hout⟩ := distinct_plug.mp h.distinct
  have hempty : m.parentColor a ≠ a := by
    intro heq
    have hself : rbParent a = a := by
      have := rbParent_pack .red haligned
      rwa [pack_red] at this
    have hparent : parentOf k = a := by
      rw [← rbParent_pack c hpath.aligned, ← hword, heq, hself]
    cases k with
    | nil => exact hane hparent.symm
    | cons f k => exact hout a (mem_node.mpr (.inl rfl)) ⟨f, List.mem_cons_self, .inl hparent.symm⟩
  rw [rbNext, if_neg hane, if_neg hempty, hright]
  by_cases hnil : r = .nil
  · subst hnil
    rw [if_neg (not_not.mpr (show top .nil = 0 from rfl))]
    exact ascendRound_spec h (by simp) h.length_lt
  · rw [if_pos fun h0 => hnil (hr.top_eq_zero.mp h0), descendRound_spec hr hnil,
      List.head?_append_of_ne_nil _ (toList_ne_nil hnil)]
    exact height_le_length.trans (hr.length_lt (distinct_node.mp hd).2.2.2.2).le

/-- `rb_first` and then `rb_next` visit the nodes of a tree one by one, in order. -/
theorem rbNext_visits (h : m.Holds t) : rbFirst m = some (t.toList.head?.getD 0) ∧
    ∀ pre a post, t.toList = pre ++ a :: post → rbNext m a = some (post.head?.getD 0) := by
  have hshaped := h.rooted.2
  have hdistinct := h.distinct
  refine ⟨?_, fun pre a post hlist => ?_⟩
  · rw [rbFirst, h.rooted.1]
    split_ifs with htop
    · rw [hshaped.top_eq_zero.mp htop]
      rfl
    · exact descendRound_spec hshaped (fun hnil => htop (hshaped.top_eq_zero.mpr hnil))
        (height_le_length.trans (hshaped.length_lt hdistinct).le)
  · obtain ⟨k, c, l, r, rfl⟩ := exists_plug_of_mem (mem_def.mpr (hlist ▸ by simp : a ∈ t.toList))
    have hsplit : (plug k (.node c l a r)).toList =
        (before k ++ l.toList) ++ a :: (r.toList ++ after k) := by simp [toList_plug, toList]
    -- The node occurs once, so the two splits of the list at it are the same.
    rw [Distinct, hlist, List.nodup_middle, List.nodup_cons, List.mem_append, not_or] at hdistinct
    rw [hlist, List.append_cons_inj_of_notMem hdistinct.1.1 hdistinct.1.2] at hsplit
    rw [hsplit.2.2]
    exact rbNext_spec h

/-- A black root with two red children. -/
def rbThree : RbMem Unit where
  link
    | .root => 16
    | .child .left x => if x = 16 then 8 else 0
    | .child .right x => if x = 16 then 24 else 0
  parentColor x := if x = 16 then 1 else 16
  augmented _ := ()
  stores := []

theorem rbNext_visits_three : rbFirst rbThree = some 8 ∧ rbNext rbThree 8 = some 16 ∧
    rbNext rbThree 16 = some 24 ∧ rbNext rbThree 24 = some 0 := by
  have hholds :
      rbThree.Holds (.node .black (.node .red .nil 8 .nil) 16 (.node .red .nil 24 .nil)) :=
    ⟨⟨rfl, by decide, rfl, rfl, ⟨by decide, rfl, rfl, trivial, trivial⟩,
        ⟨by decide, rfl, rfl, trivial, trivial⟩⟩,
      ⟨rfl, rfl, ⟨rfl, rfl, trivial, trivial⟩, ⟨rfl, rfl, trivial, trivial⟩⟩,
      show [8, 16, 24].Nodup by decide⟩
  obtain ⟨hfirst, hnext⟩ := rbNext_visits hholds
  exact ⟨hfirst, hnext [] 8 [16, 24] rfl, hnext [8] 16 [24] rfl, hnext [8, 16] 24 [] rfl⟩

/-! ## Calls -/

variable {r : RbCached A} {answer : RbPtr}

theorem RbCached.Represents.nodup (h : r.Represents list) : list.Nodup := by
  obtain ⟨⟨t, hsound, -, rfl⟩, -⟩ := h
  exact hsound.holds.distinct

theorem RbCached.Represents.ne_zero (h : r.Represents list)
    {x : RbPtr} (hx : x ∈ list) : x ≠ 0 := by
  obtain ⟨⟨t, hsound, -, rfl⟩, -⟩ := h
  exact hsound.holds.rooted.2.ne_zero (mem_def.mpr hx)

/-- The answer of `rb_add_cached` says whether the node is the new leftmost one. -/
theorem rbAddCached_answer {less : RbPtr → Bool} {r r' : RbCached A}
    (h : rbAddCached less r n = some (r', answer)) :
    answer = n ∧ r'.leftmost = n ∨ answer = 0 ∧ r'.leftmost = r.leftmost := by
  obtain ⟨⟨link, parent, leftmost⟩, -, h⟩ := Option.bind_eq_some_iff.mp h
  obtain ⟨r'', hinsert, heq⟩ := Option.map_eq_some_iff.mp h
  obtain ⟨m, -, rfl⟩ := Option.map_eq_some_iff.mp hinsert
  obtain ⟨rfl, rfl⟩ := Prod.mk.inj heq
  cases leftmost with
  | true => exact .inl ⟨rfl, rfl⟩
  | false => exact .inr ⟨rfl, rfl⟩

/-- `rb_erase_cached` of the leftmost node caches the next one. -/
theorem rbEraseCached_leftmost {r r' : RbCached A} (hfirst : r.leftmost = n)
    (h : rbEraseCached r n = some (r', answer)) : rbNext r.mem n = some r'.leftmost := by
  rw [rbEraseCached, if_pos hfirst] at h
  obtain ⟨⟨leftmost, answer'⟩, hnext, h⟩ := Option.bind_eq_some_iff.mp h
  obtain ⟨next, hnext, heq⟩ := Option.map_eq_some_iff.mp hnext
  obtain ⟨m, -, heq'⟩ := Option.map_eq_some_iff.mp h
  rw [hnext, ← (Prod.mk.inj heq').1, (Prod.mk.inj heq).1]

/-- `rb_add_cached` puts a new node somewhere, and in its place where the order is consistent. -/
theorem rbAddCached_spec (h : r.Represents list) (hn : n ≠ 0)
    (haligned : Aligned n) (hout : n ∉ list) (less : RbPtr → Bool) :
    ∃ r' answer pre post, rbAddCached less r n = some (r', answer) ∧ list = pre ++ post ∧
      r'.Represents (pre ++ n :: post) ∧ (OrderConsistent less list →
        (∀ x ∈ pre, less x = false) ∧ ∀ x ∈ post, less x = true) := by
  obtain ⟨t, hsound, ht, rfl⟩ := h.mem
  obtain ⟨k, hsearch, rfl, hk⟩ := searchCached_spec hsound.holds less
  obtain ⟨m', hinsert, t', j, hsound', hj, hlist⟩ :=
    insertAt_spec hsound ht hn haligned hout trivial
  have hsplit : (plug k (.nil : ColorTree RbPtr)).toList = before k ++ after k := by
    rw [toList_plug, toList, List.append_nil]
  refine ⟨_, _, before k, after k, by
    rw [rbAddCached, hsearch, Option.bind_some]
    dsimp only
    rw [rbInsertColorCached, hinsert]
    rfl, hsplit, ⟨⟨t', hsound', redBlack_iff.mpr ⟨j, hj⟩, hlist⟩, ?_⟩,
    fun ho => ⟨(hk ho).before, (hk ho).after⟩⟩
  dsimp only
  rw [h.leftmost, hsplit]
  cases before k with
  | nil => rfl
  | cons x xs => rfl

/-- `rb_erase_cached` takes a node out. -/
theorem rbEraseCached_represents (h : r.Represents list) (hn : n ∈ list) :
    ∃ r' answer, rbEraseCached r n = some (r', answer) ∧ r'.Represents (list.erase n) := by
  have hvalid : (RbCall.erase n).Valid list := hn
  obtain ⟨m', hrun, hm'⟩ := RbCall.run_refines h.mem hvalid
  have herase : rbErase r.mem n = some m' := by
    obtain ⟨m'', hm'', heq⟩ := Option.map_eq_some_iff.mp hrun
    rw [← (Prod.mk.inj heq).1]
    exact hm''
  obtain ⟨t, hsound, -, rfl⟩ := h.mem
  by_cases hfirst : r.leftmost = n
  · obtain ⟨k, c, l, u, rfl⟩ := exists_plug_of_mem (mem_def.mpr hn)
    have hsplit : (plug k (.node c l n u)).toList =
        (before k ++ l.toList) ++ n :: (u.toList ++ after k) := by
      simp [toList_plug, toList]
    -- Nothing is left of the first node.
    have hnone : before k ++ l.toList = [] := by
      by_contra hne
      obtain ⟨x, xs, hcons⟩ := List.exists_cons_of_ne_nil hne
      have hx : x = n := by
        have hleft := h.leftmost
        rw [hfirst, hsplit, hcons] at hleft
        exact hleft.symm
      have hnodup := hsound.holds.distinct
      rw [Distinct, hsplit, hcons, hx] at hnodup
      exact (List.nodup_cons.mp hnodup).1 (List.mem_append_right _ List.mem_cons_self)
    refine ⟨_, _, by
      rw [rbEraseCached, if_pos hfirst, rbNext_spec hsound.holds, Option.map_some, Option.bind_some]
      dsimp only
      rw [herase]
      rfl, hm', ?_⟩
    dsimp only
    rw [hsplit, hnone, List.nil_append, List.erase_cons_head]
  · refine ⟨_, _, by
      rw [rbEraseCached, if_neg hfirst, Option.bind_some]
      dsimp only
      rw [herase]
      rfl, hm', ?_⟩
    dsimp only
    rw [h.leftmost] at hfirst ⊢
    cases hlist : t.toList with
    | nil => rfl
    | cons x xs =>
      rw [hlist] at hfirst
      have hne : x ≠ n := hfirst
      rw [List.erase_cons_tail (by simpa using hne)]
      rfl

end

end LinuxKernelTest
