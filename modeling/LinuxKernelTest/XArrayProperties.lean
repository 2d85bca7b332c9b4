import LinuxKernelTest.XArrayCalls

/-!
# XArray : what holds in every state a run reaches

The results about whole runs of the normal API on an empty array, every allocation succeeding :
`xaRun_isMap`, `xaRun_leafList` and `xaRun_marks`.
-/

namespace LinuxKernelTest

open List

/-- `n` is reached from `xa_head`. -/
def Reached (xa : XArray) (n : NodeId) : Prop := ∃ b, NodeAt xa n b

section

variable {xa : XArray} {T : Layout} {i l p k : ℕ} {n : NodeId} {t : XaMap} {m : XaMark}
  {ops : List XaOp}

theorem IsTree.reached_iff (h : IsTree xa T) : Reached xa n ↔ ∃ l p, T l p = some n :=
  ⟨fun ⟨_, hn⟩ => let ⟨l, p, hT, _⟩ := h.exists_of_nodeAt hn; ⟨l, p, hT⟩,
    fun ⟨_, _, hT⟩ => ⟨_, h.nodeAt hT⟩⟩

/-! ## The nodes -/

/-- The number of slots of a node with the property `P`. -/
def nrSlots (P : ℕ → Bool) : ℕ := (List.range xaChunkSize).countP P

/-- Slot `k` of `n` holds a value, or is a sibling of a slot that does. -/
def slotIsValue (xa : XArray) (n : NodeId) (k : ℕ) : Bool :=
  match xa.slots n k with
  | .sibling o => xaIsValue (xa.slots n o)
  | e => xaIsValue e

/-- What holds of a node of the tree. -/
structure NodeSound (xa : XArray) (n : NodeId) : Prop where
  count : xa.count n = nrSlots fun k => xa.slots n k ≠ .null
  count_pos : 0 < xa.count n
  nrValues : xa.nrValues n = nrSlots (slotIsValue xa n)
  child : ∀ k < 4, ∀ c, xa.slots n k = .node c →
    xa.shift c + 2 = xa.shift n ∧ xa.parent c = some n ∧ xa.offset c = k

/-- The root has no parent, and more than a node in slot `0`. -/
def RootSound (xa : XArray) : Prop :=
  ∀ r, xa.xaHead = .node r → xa.parent r = none ∧ ¬(xa.count r = 1 ∧ ∃ c, xa.slots r 0 = .node c)

theorem slotSum_eq_nrSlots (P : XaEntry → Bool) (f : ℕ → XaEntry) :
    slotSum P f = nrSlots fun k => P (f k) := by
  simp only [slotSum, nrSlots, range, range.loop, countP_cons, countP_nil, Bool.toNat]
  cases P (f 0) <;> cases P (f 1) <;> cases P (f 2) <;> cases P (f 3) <;> rfl

theorem Body.slotIsValue_eq (h : Body xa T) (hn : T l p = some n) (hk : k < 4) :
    slotIsValue xa n k = xaIsValue (xa.slots n k) := by
  unfold slotIsValue
  cases hs : xa.slots n k with
  | sibling o =>
    cases l with
    | zero =>
      have := h.leafSlot hn k hk
      rw [hs] at this
      cases this
    | succ l =>
      rcases h.interior hn k hk with h0 | ⟨c, hc⟩
      · rw [hs] at h0
        cases h0
      · rw [hs] at hc
        cases hc
  | _ => rfl

theorem XaInv.nodeSound (h : XaInv xa T) (hn : T l p = some n) : NodeSound xa n where
  count := by
    rw [h.body.count hn, slotSum_eq_nrSlots]
    rfl
  count_pos := by
    obtain ⟨k, hk, hne⟩ := h.nonempty hn
    refine Nat.pos_of_ne_zero fun hz => ?_
    exact hne (h.body.slots_null_of_count hn hz k hk)
  nrValues := by
    rw [h.body.nrValues hn, slotSum_eq_nrSlots]
    refine countP_congr fun k hk => ?_
    rw [h.body.slotIsValue_eq hn (mem_range.mp hk)]
  child k hk c hc := by
    obtain ⟨l, rfl, hcT⟩ := h.body.pos_of_slot hn hk hc
    have hp : (4 * p + k) / 4 = p := by omega
    refine ⟨?_, ?_, ?_⟩
    · rw [h.body.shift hcT, h.body.shift hn]
      ring
    · rw [h.body.parent hcT, hp, hn]
    · rw [h.body.offset hcT (by rw [hp]; exact hn)]
      omega

theorem XaInv.rootSound (h : XaInv xa T) : RootSound xa := by
  intro r hr
  obtain ⟨L, htop⟩ := h.body.exists_top hr
  refine ⟨by rw [h.body.parent htop.node, Nat.zero_div, htop.above], ?_⟩
  rintro ⟨hone, c, hc⟩
  obtain ⟨L, rfl, -⟩ := h.body.pos_of_slot htop.node (by norm_num) hc
  obtain ⟨k, hk, hk0, hne⟩ := h.root htop
  rw [h.body.count htop.node] at hone
  exact hne (xaPresent_eq_false.mp (slotSum_eq_one hone (by rw [hc]; rfl) k hk hk0))

/-- The array is a map : every run of valid calls answers as the map does, `xa_load` reads the
map afterwards, and every node reached from the head is well formed. -/
theorem xaRun_isMap (hops : ∀ o ∈ ops, o.Valid) :
    ∃ xa, xaRun ops = some (xa, (XaMap.run ops).2) ∧
      (∀ i, xaLoad xa i = some (xaVisible ((XaMap.run ops).1.get i))) ∧
      (∀ n, Reached xa n → NodeSound xa n) ∧ RootSound xa := by
  obtain ⟨xa, hrun, hrep⟩ := xaRun_refines hops
  obtain ⟨T, hinv, -, -⟩ := hrep.exists_layout
  refine ⟨xa, hrun, xaLoad_spec hrep, fun n hn => ?_, hinv.rootSound⟩
  obtain ⟨l, p, hT⟩ := hinv.body.reached_iff.mp hn
  exact hinv.nodeSound hT

/-- Stores at both ends of the index range, an insert over a present and over a reserved
entry, a compare and exchange, and an erase. -/
theorem xaRun_isMap_ends :
    (∀ o ∈ [XaOp.store 0 (.value 1), .store (2 ^ 64 - 1) (.pointer 8), .insert 0 (.value 2),
      .insert 5 .null, .insert 5 (.value 3), .cmpxchg 0 (.value 1) (.value 4), .erase 5],
      o.Valid) ∧
    ∃ xa, xaRun [XaOp.store 0 (.value 1), .store (2 ^ 64 - 1) (.pointer 8), .insert 0 (.value 2),
        .insert 5 .null, .insert 5 (.value 3), .cmpxchg 0 (.value 1) (.value 4), .erase 5] =
      some (xa, [.entry (.ok .null), .entry (.ok .null), .errno (some .ebusy), .errno none,
        .errno (some .ebusy), .entry (.ok (.value 1)), .entry (.ok .null)]) ∧
      xaLoad xa 0 = some (.value 4) ∧ xaLoad xa 5 = some .null := by
  have hops : ∀ o ∈ [XaOp.store 0 (.value 1), .store (2 ^ 64 - 1) (.pointer 8),
      .insert 0 (.value 2), .insert 5 .null, .insert 5 (.value 3),
      .cmpxchg 0 (.value 1) (.value 4), .erase 5], o.Valid := by
    simp [XaOp.Valid]
  obtain ⟨xa, hrun, hload, -⟩ := xaRun_isMap hops
  exact ⟨hops, xa, hrun, hload 0, hload 5⟩

/-! ## The leaf list -/

/-- The leaves of the tree are a doubly linked list in the order of their indices. -/
structure LeafList (xa : XArray) (leaves : List NodeId) : Prop where
  mem : ∀ n, n ∈ leaves ↔ Reached xa n ∧ xa.shift n = 0
  nodup : leaves.Nodup
  ascending : leaves.Pairwise fun m n => ∀ a b, NodeAt xa m a → NodeAt xa n b → a + 4 ≤ b
  forward : Visits xa.next leaves.head? leaves
  inverse : ∀ n ∈ leaves, ∀ m, xa.prev n = some m ↔ m ∈ leaves ∧ xa.next m = some n

theorem IsTree.leaf_iff (h : IsTree xa T) :
    (Reached xa n ∧ xa.shift n = 0) ↔ ∃ p, T 0 p = some n := by
  constructor
  · rintro ⟨⟨b, hn⟩, hs⟩
    obtain ⟨p, hT, -⟩ := (h.nodeAt_iff (l := 0)).mp ⟨hn, hs⟩
    exact ⟨p, hT⟩
  · rintro ⟨p, hT⟩
    exact ⟨⟨_, h.nodeAt hT⟩, h.shift hT⟩

/-- The prefixes of the leaves, in order. -/
theorem IsTree.exists_prefixes (h : IsTree xa T) :
    ∃ keys : List ℕ, keys.Pairwise (· < ·) ∧ ∀ p, p ∈ keys ↔ T 0 p ≠ none := by
  refine ⟨(range (4 ^ 31)).filter fun p => (T 0 p).isSome, pairwise_lt_range.filter _, fun p => ?_⟩
  rw [mem_filter, mem_range, Option.isSome_iff_ne_none]
  refine ⟨And.right, fun hp => ⟨?_, hp⟩⟩
  obtain ⟨n, hn⟩ := Option.ne_none_iff_exists'.mp hp
  exact (h.bound hn).2

theorem IsTree.nodeAt_leaf (h : IsTree xa T) (hn : T 0 p = some n) {a : ℕ} (ha : NodeAt xa n a) :
    a = 4 * p := by
  obtain ⟨p', hT, rfl⟩ := (h.nodeAt_iff (l := 0)).mp ⟨ha, h.shift hn⟩
  rw [(h.inj hn hT).2]
  ring

theorem XaInv.exists_leafList (h : XaInv xa T) : ∃ leaves, LeafList xa leaves := by
  have htree := h.body.toIsTree
  obtain ⟨keys, hsorted, hkeys⟩ := htree.exists_prefixes
  have hmem : ∀ n, n ∈ keys.filterMap (T 0) ↔ ∃ p, T 0 p = some n := by
    intro n
    rw [mem_filterMap]
    exact ⟨fun ⟨p, _, hn⟩ => ⟨p, hn⟩, fun ⟨p, hn⟩ => ⟨p, (hkeys p).mpr (by simp [hn]), hn⟩⟩
  have hpair : (keys.filterMap (T 0)).Pairwise fun m n =>
      ∀ p q, T 0 p = some m → T 0 q = some n → p < q := by
    rw [pairwise_filterMap]
    refine hsorted.imp fun {p q} hpq m hm n hn p' q' hp' hq' => ?_
    rwa [(htree.inj hp' hm).2, (htree.inj hq' hn).2]
  refine ⟨keys.filterMap (T 0), fun n => (hmem n).trans htree.leaf_iff.symm, ?_, ?_,
    h.linked.visits hsorted hkeys, fun n hn m => ?_⟩
  · refine hpair.imp_of_mem fun {m n} hm _ hlt hmn => ?_
    obtain ⟨p, hp⟩ := (hmem m).mp hm
    exact lt_irrefl p (hlt p p hp (hmn ▸ hp))
  · refine hpair.imp_of_mem fun {m n} hm hn hlt a b ha hb => ?_
    obtain ⟨p, hp⟩ := (hmem m).mp hm
    obtain ⟨q, hq⟩ := (hmem n).mp hn
    rw [htree.nodeAt_leaf hp ha, htree.nodeAt_leaf hq hb]
    have := hlt p q hp hq
    omega
  · obtain ⟨p, hp⟩ := (hmem n).mp hn
    refine ⟨fun hprev => ⟨?_, h.linked.next_of_prev hp hprev⟩, fun ⟨hm, hnext⟩ => ?_⟩
    · have hpred := h.linked.prev hp
      rw [hprev] at hpred
      obtain ⟨q, -, hq, -⟩ := hpred
      exact (hmem m).mpr ⟨q, hq⟩
    · obtain ⟨q, hq⟩ := (hmem m).mp hm
      exact h.linked.prev_of_next hq hnext

/-- In every state a run reaches, following `next` from the leftmost leaf visits the leaves of
the tree in ascending order, and `prev` leads back. -/
theorem xaRun_leafList (hops : ∀ o ∈ ops, o.Valid) :
    ∃ xa answers, xaRun ops = some (xa, answers) ∧ ∃ leaves, LeafList xa leaves := by
  obtain ⟨xa, hrun, hrep⟩ := xaRun_refines hops
  obtain ⟨T, hinv, -, -⟩ := hrep.exists_layout
  exact ⟨xa, _, hrun, hinv.exists_leafList⟩

/-- Leaves far apart, one of which goes again. -/
theorem xaRun_leafList_far :
    (∀ o ∈ [XaOp.store 5 (.value 5), .store (2 ^ 64 - 1) (.value 1), .store 9 (.value 9),
      .erase 5], o.Valid) ∧
    ∃ xa answers, xaRun [XaOp.store 5 (.value 5), .store (2 ^ 64 - 1) (.value 1),
      .store 9 (.value 9), .erase 5] = some (xa, answers) ∧ ∃ leaves, LeafList xa leaves := by
  have hops : ∀ o ∈ [XaOp.store 5 (.value 5), .store (2 ^ 64 - 1) (.value 1),
      .store 9 (.value 9), .erase 5], o.Valid := by
    simp [XaOp.Valid]
  exact ⟨hops, xaRun_leafList hops⟩

/-! ## The marks -/

theorem IsTree.leaf_of_markAt (h : IsTree xa T) (hn : T l p = some n)
    (hm : markAt xa T m i = true) : ∃ c, T 0 (i / 4) = some c := by
  cases hc : T 0 (i / 4) with
  | some c => exact ⟨c, rfl⟩
  | none =>
    obtain ⟨r, hr⟩ := h.exists_head hn
    rw [markAt, readAt_none hc (.inr ⟨r, hr⟩)] at hm
    cases hm

/-- The mark of a slot tells whether a marked entry lies below it. -/
theorem MarkOk.mark_iff (hm : MarkOk xa T m) (h : Body xa T) :
    ∀ {l p : ℕ} {n : NodeId}, T l p = some n → ∀ k < 4,
      (xa.marks n m k = true ↔ ∃ i, i / 4 ^ l = 4 * p + k ∧ markAt xa T m i = true)
  | 0, p, n, hn, k, hk => by
    have hread : markAt xa T m (4 * p + k) = xa.marks n m k := by
      rw [markAt, readAt_leaf (n := n) (by rw [show (4 * p + k) / 4 = p by omega]; exact hn),
        show (4 * p + k) % 4 = k by omega]
    rw [← hread]
    simp
  | l + 1, p, n, hn, k, hk => by
    rw [hm.interior hn k hk]
    constructor
    · rintro ⟨c, hc, hany⟩
      obtain ⟨j, hj, hmark⟩ := nodeAnyMark_iff.mp hany
      obtain ⟨i, hi, hmark'⟩ := (hm.mark_iff h (h.slot_child hn hk hc) j hj).mp hmark
      exact ⟨i, by rw [div_pow_succ, hi]; omega, hmark'⟩
    · rintro ⟨i, hi, hmark⟩
      obtain ⟨c0, hc0⟩ := h.leaf_of_markAt hn hmark
      obtain ⟨c, hc⟩ := h.leaf_ancestor hn hc0
      rw [div_four_pow, hi] at hc
      refine ⟨c, h.child_slot hn hk hc, nodeAnyMark_iff.mpr ⟨i / 4 ^ l % 4, by omega, ?_⟩⟩
      refine (hm.mark_iff h hc _ (by omega)).mpr ⟨i, ?_, hmark⟩
      rw [← hi, div_pow_succ, Nat.div_add_mod]

/-- The flag of the array tells whether there is a marked entry. -/
theorem MarkOk.marked_iff (hm : MarkOk xa T m) (h : Body xa T) :
    xa.xaMarked m = true ↔ ∃ i, markAt xa T m i = true := by
  rcases h.headSlot with hplain | ⟨r, hr⟩
  · have hhead := ne_node_of_isPlain hplain
    have hzero : markAt xa T m 0 = xa.xaMarked m := readAt_head h.toIsTree hhead
    refine ⟨fun hmark => ⟨0, hzero.trans hmark⟩, fun ⟨i, hi⟩ => ?_⟩
    by_cases hi0 : i = 0
    · rwa [hi0, hzero] at hi
    · rw [markAt, readAt_none (h.eq_none_of_head hhead) (.inl hi0)] at hi
      cases hi
  obtain ⟨L, htop⟩ := h.exists_top hr
  rw [hm.top hr, nodeAnyMark_iff]
  constructor
  · rintro ⟨k, hk, hmark⟩
    obtain ⟨i, -, hi⟩ := (hm.mark_iff h htop.node k hk).mp hmark
    exact ⟨i, hi⟩
  · rintro ⟨i, hi⟩
    obtain ⟨c, hc⟩ := h.leaf_of_markAt htop.node hi
    have hz := (h.below_top htop hc).2.1
    rw [Nat.sub_zero, div_four_pow, div_pow_succ] at hz
    refine ⟨i / 4 ^ L, by omega, (hm.mark_iff h htop.node _ (by omega)).mpr ⟨i, by omega, hi⟩⟩

/-- The state of `xa_get_mark` on the way down to the index `i`. A mark that is not set on
the way is not set at `i`. -/
inductive GetMarkAt (xa : XArray) (T : Layout) (m : XaMark) (i : ℕ) :
    ℕ → XaEntry × XaState → Prop
  | node {l : ℕ} {n : NodeId} {xas : XaState} : T l (i / 4 ^ (l + 1)) = some n → xas.xaIndex = i →
      (markAt xa T m i = true → xasGetMark xa xas m = true) →
      GetMarkAt xa T m i (l + 1) (.node n, xas)
  | stop {e : XaEntry} {xas : XaState} : (∀ c, e ≠ .node c) →
      xasGetMark xa xas m = markAt xa T m i → GetMarkAt xa T m i 0 (e, xas)

theorem getMarkRound_step (h : XaInv xa T) :
    RoundKeeps (getMarkRound xa m) (GetMarkAt xa T m i) fun b => b = markAt xa T m i := by
  intro v s hs
  cases hs with
  | @stop e xas hnode hmark =>
    refine .inr ⟨markAt xa T m i, ?_, rfl⟩
    cases hm : markAt xa T m i <;> rw [hm] at hmark <;>
      cases e <;> first | exact absurd rfl (hnode _) | simp [getMarkRound, hmark]
  | @node l n xas hn hi hmark =>
    subst hi
    cases hget : xasGetMark xa xas m with
    | false =>
      refine .inr ⟨false, by simp [getMarkRound, hget], ?_⟩
      cases hm : markAt xa T m xas.xaIndex with
      | false => rfl
      | true =>
        rw [hmark hm] at hget
        cases hget
    | true =>
      left
      have hk : xas.xaIndex / 4 ^ l % 4 < 4 := by omega
      have hround : getMarkRound xa m (.node n, xas) = .again (xa.slots n (xas.xaIndex / 4 ^ l % 4),
          { xas with xaNode := .node n, xaOffset := xas.xaIndex / 4 ^ l % 4 }) := by
        simp [getMarkRound, hget, xasDescend_eq h.body hn xas]
      have hset : markAt xa T m xas.xaIndex = true →
          xa.marks n m (xas.xaIndex / 4 ^ l % 4) = true := fun hm =>
        ((h.marks m).mark_iff h.body hn _ hk).mpr
          ⟨_, by rw [div_pow_succ, Nat.div_add_mod], hm⟩
      have hend : (l = 0 ∨ xa.slots n (xas.xaIndex / 4 ^ l % 4) = .null) →
          xa.marks n m (xas.xaIndex / 4 ^ l % 4) = markAt xa T m xas.xaIndex := by
        rintro (rfl | hnull)
        · rw [pow_zero, Nat.div_one, markAt, readAt_leaf (by simpa using hn)]
        · rw [(h.marks m).mark_null hn hk hnull]
          exact (h.markAt_of_null ((entryAt_of_slot h.body hn (.inr hnull)).trans hnull) m).symm
      cases l with
      | zero => exact ⟨_, 0, hround, by omega, .stop (h.body.leaf hn _ hk) (hend (.inl rfl))⟩
      | succ l =>
        rcases h.body.interior hn _ hk with hnull | ⟨c, hc⟩
        · refine ⟨_, 0, hround, by omega, .stop ?_ (hend (.inr hnull))⟩
          rw [hnull]
          exact fun c => XaEntry.noConfusion
        rw [hc] at hround
        refine ⟨_, l + 1, hround, by omega, .node ?_ rfl hset⟩
        rw [← four_mul_div_add_mod xas.xaIndex (l + 1)]
        exact h.body.slot_child hn hk hc

/-- `xa_get_mark` starts at the head. -/
theorem getMarkAt_start (h : XaInv xa T) (i : ℕ) (m : XaMark) :
    ∃ v < 40, GetMarkAt xa T m i v (xasStart xa (xaStateInit i)) := by
  have hset : markAt xa T m i = true → xa.xaMarked m = true := fun hm =>
    ((h.marks m).marked_iff h.body).mpr ⟨i, hm⟩
  have houtside : entryAt xa T i = .null →
      GetMarkAt xa T m i 0 (setBounds (xaStateInit i)) := fun hnull =>
    .stop (fun c => XaEntry.noConfusion) (h.markAt_of_null hnull m).symm
  rcases h.body.headSlot with hplain | ⟨r, hr⟩
  · have hhead := ne_node_of_isPlain hplain
    rw [xasStart_bare hhead (.inl rfl)]
    refine ⟨0, by norm_num, ?_⟩
    by_cases hi0 : i = 0
    · subst hi0
      exact .stop hhead (readAt_head h.body.toIsTree hhead).symm
    · rw [if_pos (show (xaStateInit i).xaIndex ≠ 0 from hi0)]
      exact houtside (h.body.entryAt_bare hhead hi0)
  obtain ⟨L, htop⟩ := h.body.exists_top hr
  have hL := (h.body.bound htop.node).1
  rw [xasStart_root h.body.toIsTree htop (.inl rfl)]
  by_cases hlt : (xaStateInit i).xaIndex / 4 ^ L > 3
  · rw [if_pos hlt]
    exact ⟨0, by norm_num, houtside (h.body.entryAt_outside htop hlt)⟩
  rw [if_neg hlt]
  have hlt' : i / 4 ^ L < 4 := Nat.lt_succ_of_le (not_lt.mp hlt)
  refine ⟨L + 1, by omega, .node ?_ rfl hset⟩
  rw [div_pow_succ, Nat.div_eq_of_lt hlt']
  exact htop.node

/-- `xa_get_mark` reads the mark of the map. -/
theorem xaGetMark_spec (h : Represents xa t) (i : ℕ) (m : XaMark) :
    xaGetMark xa i m = some (t.mark m i) := by
  obtain ⟨T, hinv, -, hM⟩ := h.exists_layout
  obtain ⟨v, hv, hstart⟩ := getMarkAt_start hinv i m
  obtain ⟨b, hrun, rfl⟩ := runLoop_of_rank (getMarkRound_step hinv) hstart
    (n := xaFuel) (by unfold xaFuel; omega)
  rw [xaGetMark, hrun, hM]

/-- The indices below slot `k` of a node. -/
theorem div_eq_iff_range (i l p k : ℕ) : i / 4 ^ l = 4 * p + k ↔
    p * 4 ^ (l + 1) + k <<< (2 * l) ≤ i ∧ i < p * 4 ^ (l + 1) + (k + 1) <<< (2 * l) := by
  have hpos : 0 < 4 ^ l := by positivity
  rw [shiftLeft_two_mul, shiftLeft_two_mul, Nat.div_eq_iff hpos,
    show p * 4 ^ (l + 1) = 4 * p * 4 ^ l by ring, ← Nat.add_mul, ← Nat.add_mul,
    show (4 * p + (k + 1)) * 4 ^ l = (4 * p + k) * 4 ^ l + 4 ^ l by ring]
  omega

/-- The marks are exact in every state a run reaches : `xa_get_mark` answers what the map has,
the mark of a slot of a node and the flag of the array tell whether a marked entry lies below,
and a new entry stored over a present one keeps the marks. -/
theorem xaRun_marks (hops : ∀ o ∈ ops, o.Valid) :
    ∃ xa answers, xaRun ops = some (xa, answers) ∧
      (∀ i m, xaGetMark xa i m = some ((XaMap.run ops).1.mark m i)) ∧
      (∀ n b, NodeAt xa n b → ∀ m, ∀ k < 4, (xa.marks n m k = true ↔
        ∃ i, b + k <<< xa.shift n ≤ i ∧ i < b + (k + 1) <<< xa.shift n ∧
          (XaMap.run ops).1.get i ≠ .null ∧ (XaMap.run ops).1.mark m i = true)) ∧
      (∀ m, xa.xaMarked m = true ↔
        ∃ i, (XaMap.run ops).1.get i ≠ .null ∧ (XaMap.run ops).1.mark m i = true) ∧
      ∀ i e, (XaOp.store i e).Valid → xaIsAdvanced e = false → e ≠ .null →
        (XaMap.run ops).1.get i ≠ .null → ∃ xa' answer,
          (XaOp.store i e).run xa = some (xa', answer) ∧
          ∀ j m, xaGetMark xa' j m = xaGetMark xa j m := by
  obtain ⟨xa, hrun, hrep⟩ := xaRun_refines hops
  obtain ⟨T, hinv, hE, hM⟩ := hrep.exists_layout
  have hpresent : ∀ {i m}, (XaMap.run ops).1.mark m i = true → (XaMap.run ops).1.get i ≠ .null := by
    intro i m hmark hnull
    rw [(XaMap.run ops).1.mark_null m i hnull] at hmark
    cases hmark
  refine ⟨xa, _, hrun, xaGetMark_spec hrep, fun n b hn m k hk => ?_, fun m => ?_,
    fun i e ho hadv hne _ => ?_⟩
  · obtain ⟨l, p, hT, rfl⟩ := hinv.body.exists_of_nodeAt hn
    rw [(hinv.marks m).mark_iff hinv.body hT k hk, hinv.body.shift hT, hM]
    refine exists_congr fun i => ?_
    rw [div_eq_iff_range, and_assoc]
    exact ⟨fun ⟨hlo, hhi, hmark⟩ => ⟨hlo, hhi, hpresent hmark, hmark⟩,
      fun ⟨hlo, hhi, _, hmark⟩ => ⟨hlo, hhi, hmark⟩⟩
  · rw [(hinv.marks m).marked_iff hinv.body, hM]
    exact exists_congr fun i => ⟨fun hmark => ⟨hpresent hmark, hmark⟩, And.right⟩
  · obtain ⟨xa', hstore, hrep'⟩ := XaOp.run_refines hrep ho
    refine ⟨xa', _, hstore, fun j m => ?_⟩
    rw [xaGetMark_spec hrep' j m, xaGetMark_spec hrep j m]
    simp [XaMap.call, hadv, XaMap.put, hne]

/-- A mark that survives a store, one that is cleared and one that is erased. -/
theorem xaRun_marks_survive :
    (∀ o ∈ [XaOp.store 1 (.value 1), .store 70 (.value 2), .store 9 (.value 3), .setMark 1 0,
      .setMark 70 1, .setMark 9 2, .setMark 3 0, .store 1 (.value 4), .clearMark 9 2,
      .erase 70], o.Valid) ∧
    ∃ xa answers, xaRun [XaOp.store 1 (.value 1), .store 70 (.value 2), .store 9 (.value 3),
        .setMark 1 0, .setMark 70 1, .setMark 9 2, .setMark 3 0, .store 1 (.value 4),
        .clearMark 9 2, .erase 70] = some (xa, answers) ∧
      xaGetMark xa 1 0 = some true ∧ xaGetMark xa 70 1 = some false ∧
      xaGetMark xa 9 2 = some false ∧ xaGetMark xa 3 0 = some false := by
  have hops : ∀ o ∈ [XaOp.store 1 (.value 1), .store 70 (.value 2), .store 9 (.value 3),
      .setMark 1 0, .setMark 70 1, .setMark 9 2, .setMark 3 0, .store 1 (.value 4),
      .clearMark 9 2, .erase 70], o.Valid := by
    simp [XaOp.Valid]
  obtain ⟨xa, answers, hrun, hget, -⟩ := xaRun_marks hops
  exact ⟨hops, xa, answers, hrun, hget 1 0, hget 70 1, hget 9 2, hget 3 0⟩

end

end LinuxKernelTest
