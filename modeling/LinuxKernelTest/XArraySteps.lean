import LinuxKernelTest.XArrayBody

/-!
# XArray : the steps keep the body and the marks

For each of the steps of an update, that it keeps `Body` and `MarkOk` on the changed layout, and
what it does to the answers `readAt` of the tree.
-/

namespace LinuxKernelTest

open Function Layout

section

variable {xa xa' : XArray} {T : Layout} {l p k L : ℕ} {n q r : NodeId} {m : XaMark} {e : XaEntry}
  {c : NodeId} {j : ℕ}

/-! ## One node -/

/-- What a slot of a node at level `l` may hold. -/
def SlotOk (l : ℕ) (e : XaEntry) : Prop :=
  if l = 0 then xaIsPlain e = true else e = .null ∨ ∃ c, e = .node c

/-- What `Body` says of the node `n` at level `l`. -/
structure NodeOk (xa : XArray) (l : ℕ) (n : NodeId) : Prop where
  count : xa.count n = slotSum xaPresent (xa.slots n)
  nrValues : xa.nrValues n = slotSum xaIsValue (xa.slots n)
  slot : ∀ k < 4, SlotOk l (xa.slots n k)

theorem slotOk_null (l : ℕ) : SlotOk l .null := by
  unfold SlotOk
  split
  exacts [rfl, .inl rfl]

theorem Body.nodeOk (h : Body xa T) (hn : T l p = some n) : NodeOk xa l n := by
  refine ⟨h.count hn, h.nrValues hn, fun k hk => ?_⟩
  cases l with
  | zero => exact h.leafSlot hn k hk
  | succ l => exact h.interior hn k hk

/-- `Body` can be checked node by node. -/
theorem IsTree.body (h : IsTree xa T) (hnode : ∀ {l p n}, T l p = some n → NodeOk xa l n)
    (hhead : xaIsPlain xa.xaHead = true ∨ ∃ r, xa.xaHead = .node r) : Body xa T :=
  { toIsTree := h
    count := fun hn => (hnode hn).count
    nrValues := fun hn => (hnode hn).nrValues
    interior := fun hn => (hnode hn).slot
    leafSlot := fun hn => (hnode hn).slot
    headSlot := hhead }

theorem NodeOk.congr (h : NodeOk xa l n) (hkeep : KeepsContent xa xa' n) : NodeOk xa' l n where
  count := by rw [hkeep.count, hkeep.slots, h.count]
  nrValues := by rw [hkeep.nrValues, hkeep.slots, h.nrValues]
  slot := by rw [hkeep.slots]; exact h.slot

/-- A slot is assigned and counted. -/
theorem NodeOk.update (h : NodeOk xa l n) (hk : k < 4) (he : SlotOk l e)
    (hslots : xa'.slots n = update (xa.slots n) k e)
    (hcount : xa'.count n + (xaPresent (xa.slots n k)).toNat = xa.count n + (xaPresent e).toNat)
    (hvalues : xa'.nrValues n + (xaIsValue (xa.slots n k)).toNat =
      xa.nrValues n + (xaIsValue e).toNat) : NodeOk xa' l n := by
  have hsum := fun P => slotSum_update (P := P) (f := xa.slots n) (e := e) hk
  rw [← hslots] at hsum
  have := hsum xaPresent
  have := hsum xaIsValue
  have := h.count
  have := h.nrValues
  refine ⟨by omega, by omega, fun j hj => ?_⟩
  rw [hslots]
  by_cases hjk : j = k
  · rwa [hjk, update_self]
  · rw [update_of_ne hjk]
    exact h.slot j hj

/-! ## A node below another -/

/-- An interior slot without a node is empty. -/
theorem Body.slot_eq_null (h : Body xa T) (hq : T (l + 1) p = some q) (hk : k < 4)
    (hnone : T l (4 * p + k) = none) : xa.slots q k = .null := by
  rcases h.interior hq k hk with hnull | ⟨c, hc⟩
  · exact hnull
  · rw [h.slot_child hq hk hc] at hnone
    cases hnone

theorem Attached.slots_of_ne (hstep : Attached xa xa' l q k n)
    (hc : c ≠ n) (hj : ¬(c = q ∧ j = k)) : xa'.slots c j = xa.slots c j := by
  by_cases hcq : c = q
  · subst hcq
    rw [hstep.slots, update_of_ne fun hjk => hj ⟨rfl, hjk⟩]
  · rw [(hstep.content c hc hcq).slots]

/-- Attaching a fresh node below another keeps `Body`. -/
theorem Body.attached (h : Body xa T) (hstep : Attached xa xa' l q k n)
    (hq : T (l + 1) p = some q) (hk : k < 4) (hnone : T l (4 * p + k) = none)
    (hfresh : ∀ l p, T l p ≠ some n) : Body xa' (T.set l (4 * p + k) (some n)) := by
  have hold := ne_of_fresh hfresh
  have hempty := h.slot_eq_null hq hk hnone
  have htree : IsTree xa' (T.set l (4 * p + k) (some n)) := by
    refine h.toIsTree.attach hq hk hnone hfresh hstep.kmem.1 hstep.kmem.2 hstep.head hstep.keep
      hstep.freed hstep.shift hstep.parent hstep.offset ?_ ?_ ?_
    · intro j _ c
      rw [hstep.slotsNew j]
      exact XaEntry.noConfusion
    · rw [hstep.slots, update_self]
    · exact fun m hm j hj => hstep.slots_of_ne hm hj
  refine htree.body (fun {l' p' m} hm => ?_) (hstep.head ▸ h.headSlot)
  rcases set_cases hm with ⟨-, rfl⟩ | ⟨-, ho⟩
  · have hzero : ∀ P : XaEntry → Bool, P .null = false → slotSum P (xa'.slots m) = 0 := fun P hP =>
      slotSum_eq_zero_iff.mpr fun j _ => by rw [hstep.slotsNew, hP]
    exact ⟨by rw [hstep.countNew, hzero _ rfl], by rw [hstep.nrValuesNew, hzero _ rfl],
      fun j _ => hstep.slotsNew j ▸ slotOk_null l'⟩
  by_cases hmq : m = q
  · subst hmq
    obtain ⟨rfl, -⟩ := h.inj ho hq
    refine (h.nodeOk ho).update hk (.inr ⟨n, rfl⟩) hstep.slots ?_ ?_
    · rw [hstep.count, hempty]
      rfl
    · rw [hstep.nrValues, hempty]
      rfl
  · exact (h.nodeOk ho).congr (hstep.content m (hold ho) hmq)

theorem MarkOk.interior_null (hm : MarkOk xa T m) (hq : T (l + 1) p = some q) (hk : k < 4)
    (hnull : xa.slots q k = .null) : xa.marks q m k = false := by
  rw [Bool.eq_false_iff]
  intro hmark
  obtain ⟨c, hc, -⟩ := (hm.interior hq k hk).mp hmark
  rw [hnull] at hc
  cases hc

/-- What `MarkOk` says of the slot `k` of the node `n` at level `l`. -/
def MarkSlot (xa : XArray) (m : XaMark) (l : ℕ) (n : NodeId) (k : ℕ) : Prop :=
  if l = 0 then xa.marks n m k = true → xa.slots n k ≠ .null
  else xa.marks n m k = true ↔ ∃ c, xa.slots n k = .node c ∧ nodeAnyMark xa c m = true

/-- An empty slot without a mark is right at every level. -/
theorem markSlot_of_null (hmark : xa.marks n m k = false) (hnull : xa.slots n k = .null) :
    MarkSlot xa m l n k := by
  unfold MarkSlot
  split <;> simp [hmark, hnull]

/-- Where the marks of the nodes are the same, so is what a slot has to say. -/
theorem MarkOk.slot_congr (hm : MarkOk xa T m) (h : IsTree xa T) (hn : T l p = some n)
    (hk : k < 4) (hslot : xa'.slots n k = xa.slots n k)
    (hmarks : ∀ {l p c}, T l p = some c → xa'.marks c = xa.marks c) : MarkSlot xa' m l n k := by
  unfold MarkSlot
  rw [hmarks hn, hslot]
  cases l with
  | zero => exact hm.leaf hn k hk
  | succ l =>
    refine (hm.interior hn k hk).trans (exists_congr fun c => and_congr_right fun hc => ?_)
    rw [nodeAnyMark_congr (hmarks (h.slot_child hn hk hc))]

/-- The head and its flags stay : what is left are the slots. -/
theorem MarkOk.of_slots (hm : MarkOk xa T m) (h : Body xa T) (hhead : xa'.xaHead = xa.xaHead)
    (hmarked : xa'.xaMarked = xa.xaMarked)
    (hmarks : ∀ {l p c}, T l p = some c → xa'.marks c = xa.marks c)
    (hslot : ∀ {l p n}, T' l p = some n → ∀ k < 4, MarkSlot xa' m l n k) : MarkOk xa' T' m := by
  refine ⟨fun hn => hslot hn, fun hn => hslot hn, fun {r} hr => ?_, fun hnull => ?_⟩
  · rw [hhead] at hr
    obtain ⟨L, htop⟩ := h.exists_top hr
    rw [hmarked, nodeAnyMark_congr (hmarks htop.node), hm.top hr]
  · rw [hmarked, hm.bare (hhead ▸ hnull)]

/-- Attaching a fresh node keeps the marks right : it brings none. -/
theorem MarkOk.attached (hm : MarkOk xa T m) (h : Body xa T) (hstep : Attached xa xa' l q k n)
    (hq : T (l + 1) p = some q) (hk : k < 4) (hnone : T l (4 * p + k) = none)
    (hfresh : ∀ l p, T l p ≠ some n) : MarkOk xa' (T.set l (4 * p + k) (some n)) m := by
  have hold := ne_of_fresh hfresh
  have hmarks : ∀ {l p c}, T l p = some c → xa'.marks c = xa.marks c := fun hc =>
    hstep.marks _ (hold hc)
  have hnew : nodeAnyMark xa' n m = false := by
    simp [nodeAnyMark, hstep.marksNew]
  refine hm.of_slots h hstep.head hstep.marked hmarks fun {l' p' c} hc j hj => ?_
  rcases set_cases hc with ⟨-, rfl⟩ | ⟨-, ho⟩
  · exact markSlot_of_null (hstep.marksNew m j) (hstep.slotsNew j)
  by_cases hcq : c = q ∧ j = k
  · obtain ⟨rfl, rfl⟩ := hcq
    obtain ⟨rfl, -⟩ := h.inj ho hq
    simp [MarkSlot, hmarks ho, hm.interior_null hq hk (h.slot_eq_null hq hk hnone), hstep.slots,
      hnew]
  · exact hm.slot_congr h.toIsTree ho hj (hstep.slots_of_ne (hold ho) hcq) hmarks

theorem Attached.slots_ne_null (hstep : Attached xa xa' l q k n)
    (hc : c ≠ n) (hj : xa.slots c j ≠ .null) : xa'.slots c j ≠ .null := by
  by_cases hcq : c = q ∧ j = k
  · rw [hcq.1, hcq.2, hstep.slots, update_self]
    exact XaEntry.noConfusion
  · rwa [hstep.slots_of_ne hc hcq]

variable {β : Type*} {f f' : NodeId → ℕ → β} {top top' d : β}

/-- Attaching an empty node changes no answer. -/
theorem Attached.readAt_eq (h : Body xa T) (hstep : Attached xa xa' l q k n)
    (hq : T (l + 1) p = some q) (hnone : T l (4 * p + k) = none)
    (hnew : ∀ j, f' n j = d)
    (hf : ∀ {p c}, T 0 p = some c → f' c = f c) (i : ℕ) :
    readAt xa' (T.set l (4 * p + k) (some n)) f' top' d i = readAt xa T f top d i := by
  obtain ⟨r, hr⟩ := h.exists_head hq
  have hr' : xa'.xaHead = .node r := by rw [hstep.head, hr]
  cases hi : T 0 (i / 4) with
  | some c =>
    have hi' : T.set l (4 * p + k) (some n) 0 (i / 4) = some c := by
      rw [set_of_ne]
      · exact hi
      · rintro ⟨rfl, hp⟩
        rw [hp, hnone] at hi
        cases hi
    rw [readAt_leaf hi', readAt_leaf hi, hf hi]
  | none =>
    rw [readAt_none hi (.inr ⟨r, hr⟩)]
    by_cases hl : 0 = l ∧ i / 4 = 4 * p + k
    · obtain ⟨rfl, hp⟩ := hl
      rw [readAt_leaf (by rw [hp, set_self]), hnew]
    · rw [readAt_none (by rw [set_of_ne hl]; exact hi) (.inr ⟨r, hr'⟩)]

/-! ## A new root -/

/-- The level a new root may have : above the old root, `0` over a bare entry, any level
over an empty array. -/
def RootLevel (xa : XArray) (T : Layout) (l : ℕ) : Prop :=
  l < 32 ∧ (xaIsPlain xa.xaHead = true ∧ (xa.xaHead = .null ∨ l = 0) ∨
    ∃ L r, IsTop xa T L r ∧ l = L + 1)

theorem IsTree.rootAdded (h : IsTree xa T) (hstep : RootAdded xa xa' l n)
    (hl : RootLevel xa T l) (hfresh : ∀ l p, T l p ≠ some n) :
    IsTree xa' (T.set l 0 (some n)) := by
  have hnew : ∀ j, j ≠ 0 → ∀ c, xa'.slots n j ≠ .node c := by
    intro j hj c
    rw [hstep.slotsNew j hj]
    exact XaEntry.noConfusion
  obtain ⟨hl, ⟨hplain, -⟩ | ⟨L, r, htop, rfl⟩⟩ := hl
  · refine h.first (ne_node_of_isPlain hplain) hl hstep.kmem.2 hstep.head hstep.freed hstep.shift
      hstep.parent fun j _ c => ?_
    by_cases hj : j = 0
    · rw [hj, hstep.slotZero]
      exact ne_node_of_isPlain hplain c
    · exact hnew j hj c
  obtain ⟨hshift, hfreed, hparent, hoffset⟩ := hstep.oldRoot r htop.head
  refine h.grow htop hl hfresh hstep.kmem.1 hstep.kmem.2 hstep.head (fun m hm hmr => ?_)
    ⟨hshift, hfreed⟩ hparent hoffset hstep.freed hstep.shift hstep.parent
    (hstep.slotZero.trans htop.head) (fun j _ => hnew j) (fun m hm j => ?_)
  · refine hstep.keep m hm fun hhead => hmr ?_
    rw [htop.head] at hhead
    exact (XaEntry.node.inj hhead).symm
  · rw [(hstep.content m hm).slots]

/-- A new root above the old one keeps `Body`. -/
theorem Body.rootAdded (h : Body xa T) (hstep : RootAdded xa xa' l n) (hl : RootLevel xa T l)
    (hfresh : ∀ l p, T l p ≠ some n) : Body xa' (T.set l 0 (some n)) := by
  have hold := ne_of_fresh hfresh
  have hsum : ∀ P : XaEntry → Bool, P .null = false →
      slotSum P (xa'.slots n) = (P xa.xaHead).toNat := by
    intro P hP
    rw [slotSum_single, hstep.slotZero]
    intro j _ hj
    rw [hstep.slotsNew j hj, hP]
  refine (h.toIsTree.rootAdded hstep hl hfresh).body (fun {l' p' m} hm => ?_) (.inr ⟨n, hstep.head⟩)
  rcases set_cases hm with ⟨⟨rfl, -⟩, rfl⟩ | ⟨-, ho⟩
  · refine ⟨by rw [hstep.countNew, hsum xaPresent rfl],
      by rw [hstep.nrValuesNew, hsum xaIsValue rfl],
      fun j _ => ?_⟩
    by_cases hj : j = 0
    · rw [hj, hstep.slotZero]
      rcases hl.2 with ⟨hplain, hnull | rfl⟩ | ⟨L, r, htop, rfl⟩
      · exact hnull ▸ slotOk_null l'
      · exact hplain
      · exact .inr ⟨r, htop.head⟩
    · exact hstep.slotsNew j hj ▸ slotOk_null l'
  · exact (h.nodeOk ho).congr (hstep.content m (hold ho))

/-- The marks of a new root are those of the old head. -/
theorem MarkOk.rootAdded (hm : MarkOk xa T m) (h : Body xa T) (hstep : RootAdded xa xa' l n)
    (hl : RootLevel xa T l) (hfresh : ∀ l p, T l p ≠ some n) :
    MarkOk xa' (T.set l 0 (some n)) m := by
  have hold := ne_of_fresh hfresh
  have hmarks : ∀ {l p c}, T l p = some c → xa'.marks c = xa.marks c := fun hc =>
    hstep.marks _ (hold hc)
  have hslot : ∀ {l' p' c}, T.set l 0 (some n) l' p' = some c → ∀ j < 4, MarkSlot xa' m l' c j := by
    intro l' p' c hc j hj
    rcases set_cases hc with ⟨⟨rfl, -⟩, rfl⟩ | ⟨-, ho⟩
    · by_cases hj0 : j = 0
      · subst hj0
        unfold MarkSlot
        rw [hstep.markZero, hstep.slotZero]
        rcases hl.2 with ⟨-, hnull | rfl⟩ | ⟨L, r, htop, rfl⟩
        · simp [hm.bare hnull, hnull]
        · intro hmark hnull
          rw [hm.bare hnull] at hmark
          cases hmark
        · simp [hm.top htop.head, htop.head, ← nodeAnyMark_congr (hmarks htop.node)]
      · exact markSlot_of_null (hstep.marksNew m j hj0) (hstep.slotsNew j hj0)
    · exact hm.slot_congr h.toIsTree ho hj (by rw [(hstep.content c (hold ho)).slots]) hmarks
  refine ⟨fun hc => hslot hc, fun hc => hslot hc, fun {r} hr => ?_, fun hnull => ?_⟩
  · obtain rfl : n = r := XaEntry.node.inj (hstep.head.symm.trans hr)
    simp [nodeAnyMark, hstep.markZero, hstep.marksNew, hstep.marked]
  · rw [hstep.head] at hnull
    cases hnull

/-- A new root changes no answer : the old tree is its slot 0. -/
theorem RootAdded.readAt_eq (h : Body xa T) (hstep : RootAdded xa xa' l n)
    (hl : RootLevel xa T l)
    (hzero : f' n 0 = top) (hnew : ∀ j, j ≠ 0 → f' n j = d)
    (hbare : xa.xaHead = .null → top = d) (hf : ∀ {p c}, T 0 p = some c → f' c = f c) (i : ℕ) :
    readAt xa' (T.set l 0 (some n)) f' top' d i = readAt xa T f top d i := by
  have hhead : ∃ r, xa'.xaHead = .node r := ⟨n, hstep.head⟩
  rcases hl.2 with ⟨hplain, hlevel⟩ | ⟨L, r, htop, rfl⟩
  · -- The array had no nodes : only index `0` answers.
    have hempty : ∀ {l p}, T l p = none := h.eq_none_of_head (ne_node_of_isPlain hplain)
    have hold : readAt xa T f top d i = if i = 0 then top else d := by
      simp [readAt, hempty, xaIsNode_eq_false.mpr (ne_node_of_isPlain hplain)]
    rw [hold]
    by_cases hi : 0 = l ∧ i / 4 = 0
    · obtain ⟨rfl, hi⟩ := hi
      rw [readAt_leaf (by rw [hi, set_self])]
      by_cases hi0 : i = 0
      · rw [if_pos hi0, hi0, Nat.zero_mod, hzero]
      · rw [if_neg hi0, hnew _ (by omega)]
    rw [readAt_none (by rw [set_of_ne hi, hempty]) (.inr hhead)]
    by_cases hi0 : i = 0
    · rcases hlevel with hnull | rfl
      · rw [if_pos hi0, hbare hnull]
      · exact absurd ⟨rfl, by omega⟩ hi
    · rw [if_neg hi0]
  · have hT : T.set (L + 1) 0 (some n) 0 = T 0 := set_level_of_ne (by omega)
    cases hi : T 0 (i / 4) with
    | some c => rw [readAt_leaf (hT ▸ hi), readAt_leaf hi, hf hi]
    | none => rw [readAt_none (hT ▸ hi) (.inr hhead), readAt_none hi (.inr ⟨r, htop.head⟩)]

/-! ## An empty node goes -/

theorem Detached.slots_of_ne (hstep : Detached xa xa' q k n)
    (hc : c ≠ n) (hj : ¬(c = q ∧ j = k)) : xa'.slots c j = xa.slots c j := by
  by_cases hcq : c = q
  · subst hcq
    rw [hstep.slots, update_of_ne fun hjk => hj ⟨rfl, hjk⟩]
  · rw [(hstep.content c hc hcq).slots]

/-- Detaching an empty node keeps `Body`. -/
theorem Body.detached (h : Body xa T) (hstep : Detached xa xa' q (p % 4) n)
    (hn : T l p = some n) (hq : T (l + 1) (p / 4) = some q)
    (hempty : ∀ k < 4, xa.slots n k = .null) : Body xa' (T.set l p none) := by
  have hk : p % 4 < 4 := by omega
  have hslot := h.parent_slot hn hq
  have htree : IsTree xa' (T.set l p none) := by
    refine h.toIsTree.detach hn hq ?_ hstep.kmem.ge hstep.head hstep.keep ?_ ?_
    · intro k hk c
      rw [hempty k hk]
      exact XaEntry.noConfusion
    · intro c
      rw [hstep.slots, update_self]
      exact XaEntry.noConfusion
    · exact fun c hcn j hj => hstep.slots_of_ne hcn hj
  refine htree.body (fun {l' p' c} hc => ?_) (hstep.head ▸ h.headSlot)
  obtain ⟨ho, hcn⟩ := h.of_set_none hn hc
  by_cases hcq : c = q
  case neg => exact (h.nodeOk ho).congr (hstep.content c hcn hcq)
  subst hcq
  -- The node is counted in its parent.
  have hpos : xa.count c ≠ 0 := fun hzero => by
    have := slotSum_eq_zero_iff.mp ((h.count hq).symm.trans hzero) _ hk
    rw [hslot] at this
    cases this
  refine (h.nodeOk ho).update hk (slotOk_null l') hstep.slots ?_ ?_
  · rw [hstep.count, hslot]
    exact Nat.sub_add_cancel (Nat.pos_of_ne_zero hpos)
  · rw [hstep.nrValues, hslot]
    rfl

/-- An empty slot has no marks. -/
theorem MarkOk.mark_null (hm : MarkOk xa T m) (hn : T l p = some n) (hk : k < 4)
    (hnull : xa.slots n k = .null) : xa.marks n m k = false := by
  cases l with
  | zero =>
    rw [Bool.eq_false_iff]
    exact fun hmark => hm.leaf hn k hk hmark hnull
  | succ l => exact hm.interior_null hn hk hnull

/-- A node with empty slots has no marks. -/
theorem MarkOk.anyMark_eq_false (hm : MarkOk xa T m) (hn : T l p = some n)
    (hempty : ∀ k < 4, xa.slots n k = .null) : nodeAnyMark xa n m = false := by
  rw [Bool.eq_false_iff]
  intro hany
  obtain ⟨k, hk, hmark⟩ := nodeAnyMark_iff.mp hany
  rw [hm.mark_null hn hk (hempty k hk)] at hmark
  cases hmark

/-- Detaching an empty node keeps the marks right : it had none. -/
theorem MarkOk.detached (hm : MarkOk xa T m) (h : Body xa T)
    (hstep : Detached xa xa' q (p % 4) n) (hn : T l p = some n)
    (hq : T (l + 1) (p / 4) = some q) (hempty : ∀ k < 4, xa.slots n k = .null) :
    MarkOk xa' (T.set l p none) m := by
  have hmarks : ∀ {l p c}, T l p = some c → xa'.marks c = xa.marks c := fun _ => by
    rw [hstep.marks]
  refine hm.of_slots h hstep.head hstep.marked hmarks fun {l' p' c} hc j hj => ?_
  obtain ⟨ho, hcn⟩ := h.of_set_none hn hc
  by_cases hcq : c = q ∧ j = p % 4
  · obtain ⟨rfl, rfl⟩ := hcq
    obtain ⟨rfl, -⟩ := h.inj ho hq
    -- The node that goes had no marks, so its slot had none.
    refine markSlot_of_null ?_ (by rw [hstep.slots, update_self])
    rw [hstep.marks, Bool.eq_false_iff, ne_eq, hm.interior ho _ hj, h.parent_slot hn hq]
    simp [hm.anyMark_eq_false hn hempty]
  · exact hm.slot_congr h.toIsTree ho hj (hstep.slots_of_ne hcn hcq) hmarks

/-- Detaching an empty node changes no answer. -/
theorem Detached.readAt_eq (h : Body xa T) (hstep : Detached xa xa' q k n)
    (hn : T l p = some n)
    (hempty : l = 0 → ∀ k < 4, f n k = d)
    (hf : ∀ {p c}, T 0 p = some c → c ≠ n → ∀ k < 4, f' c k = f c k) (i : ℕ) :
    readAt xa' (T.set l p none) f' top' d i = readAt xa T f top d i := by
  obtain ⟨r, hr⟩ := h.exists_head hn
  have hr' : ∃ r, xa'.xaHead = .node r := ⟨r, by rw [hstep.head, hr]⟩
  by_cases hi : 0 = l ∧ i / 4 = p
  · obtain ⟨rfl, rfl⟩ := hi
    rw [readAt_none set_self (.inr hr'), readAt_leaf hn, hempty rfl _ (by omega)]
  cases hc : T 0 (i / 4) with
  | some c =>
    have hcn : c ≠ n := by
      rintro rfl
      exact hi (h.inj hc hn)
    rw [readAt_leaf (by rw [set_of_ne hi]; exact hc), readAt_leaf hc, hf hc hcn _ (by omega)]
  | none =>
    rw [readAt_none (by rw [set_of_ne hi]; exact hc) (.inr hr'), readAt_none hc (.inr ⟨r, hr⟩)]

/-! ## The root goes -/

/-- The root has at most an entry in slot `0`. -/
def RootThin (xa : XArray) (r : NodeId) : Prop := ∀ k < 4, k ≠ 0 → xa.slots r k = .null

/-- Removing a root with at most slot 0 in use keeps `Body`. -/
theorem Body.rootRemoved (h : Body xa T) (hstep : RootRemoved xa xa' r) (htop : IsTop xa T L r)
    (hthin : RootThin xa r) : Body xa' (T.set L 0 none) := by
  have hne : ∀ {l' p' c}, T.set L 0 none l' p' = some c → T l' p' = some c ∧ c ≠ r :=
    h.of_set_none htop.node
  have hthin' : ∀ k < 4, k ≠ 0 → ∀ c, xa.slots r k ≠ .node c := by
    intro k hk hk0 c
    rw [hthin k hk hk0]
    exact XaEntry.noConfusion
  have htree : IsTree xa' (T.set L 0 none) := by
    by_cases hc : ∃ c, xa.slots r 0 = .node c
    case neg =>
      refine h.toIsTree.last htop (fun k hk c hkc => ?_) (fun c hhead => ?_)
      · by_cases hk0 : k = 0
        · exact hc ⟨c, hk0 ▸ hkc⟩
        · exact hthin' k hk hk0 c hkc
      · exact hc ⟨c, hstep.head ▸ hhead⟩
    obtain ⟨c, hc⟩ := hc
    obtain ⟨L, rfl, -⟩ := h.pos_of_slot htop.node (by norm_num) hc
    obtain ⟨hshift, hfreed, hparent⟩ := hstep.newRoot c hc
    refine h.toIsTree.shrink htop hc hthin' hstep.kmem.ge (hstep.head.trans hc)
      (fun m hmr hmc => ?_) ⟨hshift, hfreed⟩ hparent (fun m hmr j => ?_)
    · refine hstep.keep m hmr fun hm => hmc ?_
      rw [hc] at hm
      exact (XaEntry.node.inj hm).symm
    · rw [(hstep.content m hmr).slots]
  refine htree.body (fun hc => (h.nodeOk (hne hc).1).congr (hstep.content _ (hne hc).2)) ?_
  rw [hstep.head]
  cases L with
  | zero => exact .inl (h.leafSlot htop.node 0 (by norm_num))
  | succ L =>
    rcases h.interior htop.node 0 (by norm_num) with hnull | hc
    · rw [hnull]
      exact .inl rfl
    · exact .inr hc

/-- Removing such a root keeps the marks right. -/
theorem MarkOk.rootRemoved (hm : MarkOk xa T m) (h : Body xa T) (hstep : RootRemoved xa xa' r)
    (htop : IsTop xa T L r) (hthin : RootThin xa r) : MarkOk xa' (T.set L 0 none) m := by
  have hne : ∀ {l' p' c}, T.set L 0 none l' p' = some c → T l' p' = some c ∧ c ≠ r :=
    h.of_set_none htop.node
  have hslot : ∀ {l p c}, T.set L 0 none l p = some c → ∀ j < 4, MarkSlot xa' m l c j :=
    fun hc j hj => hm.slot_congr h.toIsTree (hne hc).1 hj
      (by rw [(hstep.content _ (hne hc).2).slots]) fun _ => by rw [hstep.marks]
  refine ⟨fun hc => hslot hc, fun hc => hslot hc, fun {c} hc => ?_, fun hnull => ?_⟩
  · -- The flag said what slot `0` of the root says, and that is what its child says.
    rw [hstep.head] at hc
    obtain ⟨L, rfl, -⟩ := h.pos_of_slot htop.node (by norm_num) hc
    rw [hstep.marked, hm.top htop.head, ← nodeAnyMark_congr (congrFun hstep.marks.symm c),
      Bool.eq_iff_iff]
    constructor
    · intro hr
      obtain ⟨k, hk, hmark⟩ := nodeAnyMark_iff.mp hr
      obtain ⟨d, hd, hany⟩ := (hm.interior htop.node k hk).mp hmark
      by_cases hk0 : k = 0
      · rw [hk0, hc] at hd
        exact XaEntry.node.inj hd ▸ hany
      · rw [hthin k hk hk0] at hd
        cases hd
    · intro hcm
      exact nodeAnyMark_iff.mpr ⟨0, by norm_num,
        (hm.interior htop.node 0 (by norm_num)).mpr ⟨c, hc, hcm⟩⟩
  · rw [hstep.head] at hnull
    rw [hstep.marked, hm.top htop.head]
    refine hm.anyMark_eq_false htop.node fun k hk => ?_
    by_cases hk0 : k = 0
    · rw [hk0, hnull]
    · exact hthin k hk hk0

/-- Removing such a root changes no answer. -/
theorem RootRemoved.readAt_eq (h : Body xa T) (hstep : RootRemoved xa xa' r)
    (htop : IsTop xa T L r) (hthin : RootThin xa r)
    (hzero : L = 0 → top' = f r 0) (hrest : L = 0 → ∀ k < 4, k ≠ 0 → f r k = d)
    (hbare : xa.slots r 0 = .null → top' = d)
    (hf : ∀ {p c}, T 0 p = some c → c ≠ r → ∀ k < 4, f' c k = f c k) (i : ℕ) :
    readAt xa' (T.set L 0 none) f' top' d i = readAt xa T f top d i := by
  have hhead : ∃ r, xa.xaHead = .node r := ⟨r, htop.head⟩
  cases L with
  | zero =>
    have hplain := h.leafSlot htop.node 0 (by norm_num)
    have hempty : ∀ {l p}, T.set 0 0 none l p = none := by
      refine (h.rootRemoved hstep htop hthin).eq_none_of_head ?_
      rw [hstep.head]
      exact ne_node_of_isPlain hplain
    have hnew : readAt xa' (T.set 0 0 none) f' top' d i = if i = 0 then top' else d := by
      simp [readAt, hempty, hstep.head, xaIsNode_eq_false.mpr (ne_node_of_isPlain hplain)]
    rw [hnew]
    by_cases hi : i / 4 = 0
    · rw [readAt_leaf (by rw [hi]; exact htop.node)]
      by_cases hi0 : i = 0
      · rw [if_pos hi0, hi0, Nat.zero_mod, hzero rfl]
      · rw [if_neg hi0, hrest rfl _ (by omega) (by omega)]
    · rw [if_neg (by rintro rfl; exact hi (by norm_num)), readAt_none _ (.inr hhead)]
      cases hc : T 0 (i / 4) with
      | none => rfl
      | some c => exact absurd (h.eq_zero_of_top htop hc) hi
  | succ L =>
    have hT : T.set (L + 1) 0 none 0 = T 0 := set_level_of_ne (by omega)
    cases hc : T 0 (i / 4) with
    | some c =>
      have hcr : c ≠ r := by
        rintro rfl
        have := (h.inj hc htop.node).1
        omega
      rw [readAt_leaf (hT ▸ hc), readAt_leaf hc, hf hc hcr _ (by omega)]
    | none =>
      rw [readAt_none hc (.inr hhead)]
      rcases h.interior htop.node 0 (by norm_num) with hnull | ⟨c, hc'⟩
      · by_cases hi0 : i = 0
        · subst hi0
          unfold readAt
          rw [hT, hc, hbare hnull]
          simp
        · exact readAt_none (hT ▸ hc) (.inl hi0)
      · exact readAt_none (hT ▸ hc) (.inr ⟨c, hstep.head.trans hc'⟩)

/-! ## A slot or the head is assigned -/

theorem SlotSet.slots_of_ne (hstep : SlotSet xa xa' n k e)
    (hj : ¬(c = n ∧ j = k)) : xa'.slots c j = xa.slots c j := by
  by_cases hcn : c = n
  · subst hcn
    rw [hstep.slots, update_of_ne fun hjk => hj ⟨rfl, hjk⟩]
  · rw [(hstep.content c hcn).slots]

/-- Assigning a slot of a leaf, with its counts, keeps `Body`. -/
theorem Body.slotSet (h : Body xa T) (hstep : SlotSet xa xa' n k e) (hn : T 0 p = some n)
    (hk : k < 4) (he : xaIsPlain e = true) : Body xa' T := by
  have htree : IsTree xa' T := by
    refine h.toIsTree.congr hstep.kmem.ge (fun r => by rw [hstep.head])
      (fun _ => hstep.keep _) fun {l' p' c} hc j hj d => ?_
    by_cases hck : c = n ∧ j = k
    · obtain ⟨rfl, rfl⟩ := hck
      rw [hstep.slots, update_self]
      exact ⟨fun hd => absurd hd (ne_node_of_isPlain he d), fun hd => absurd hd (h.leaf hn j hj d)⟩
    · rw [hstep.slots_of_ne hck]
  refine htree.body (fun {l' p' c} hc => ?_) (hstep.head ▸ h.headSlot)
  by_cases hcn : c = n
  · subst hcn
    obtain ⟨rfl, -⟩ := h.inj hc hn
    exact (h.nodeOk hc).update hk he hstep.slots hstep.count hstep.nrValues
  · exact (h.nodeOk hc).congr (hstep.content c hcn)

/-- Assigning a slot keeps the marks right if an empty slot is left unmarked. -/
theorem MarkOk.slotSet (hm : MarkOk xa T m) (h : Body xa T) (hstep : SlotSet xa xa' n k e)
    (hn : T 0 p = some n) (hmark : e = .null → xa.marks n m k = false) : MarkOk xa' T m := by
  have hmarks : ∀ {l p c}, T l p = some c → xa'.marks c = xa.marks c := fun _ => by
    rw [hstep.marks]
  refine hm.of_slots h hstep.head hstep.marked hmarks fun {l' p' c} hc j hj => ?_
  by_cases hck : c = n ∧ j = k
  · obtain ⟨rfl, rfl⟩ := hck
    obtain ⟨rfl, -⟩ := h.inj hc hn
    intro hset he
    rw [hstep.slots, update_self] at he
    rw [hstep.marks, hmark he] at hset
    cases hset
  · exact hm.slot_congr h.toIsTree hc hj (hstep.slots_of_ne hck) hmarks

/-- Assigning a slot changes the entry at its index only. -/
theorem SlotSet.entryAt_eq (h : Body xa T) (hstep : SlotSet xa xa' n k e) (hn : T 0 p = some n)
    (hk : k < 4) (i : ℕ) :
    entryAt xa' T i = if i = 4 * p + k then e else entryAt xa T i := by
  unfold entryAt
  cases hc : T 0 (i / 4) with
  | none =>
    rw [if_neg (by rintro rfl; rw [show (4 * p + k) / 4 = p by omega, hn] at hc; cases hc)]
    obtain ⟨r, hr⟩ := h.exists_head hn
    rw [readAt_none hc (.inr ⟨r, hstep.head.trans hr⟩), readAt_none hc (.inr ⟨r, hr⟩)]
  | some c =>
    rw [readAt_leaf hc, readAt_leaf hc]
    by_cases hcn : c = n
    · subst hcn
      have hp := (h.inj hc hn).2
      rw [hstep.slots]
      by_cases hik : i = 4 * p + k
      · rw [if_pos hik, show i % 4 = k by omega, update_self]
      · rw [if_neg hik, update_of_ne (by omega)]
    · rw [(hstep.content c hcn).slots, if_neg]
      rintro rfl
      rw [show (4 * p + k) / 4 = p by omega, hn] at hc
      exact hcn (Option.some.inj hc).symm

theorem SlotSet.markAt_eq (hstep : SlotSet xa xa' n k e) (i : ℕ) :
    markAt xa' T m i = markAt xa T m i :=
  readAt_congr rfl (by rw [hstep.head]) (fun _ _ _ => by rw [hstep.marks])
    (by rw [hstep.marked])

theorem Body.setHead (h : Body xa T) (hold : xaIsPlain xa.xaHead = true)
    (he : xaIsPlain e = true) : Body (xa.setHead e) T :=
  { toIsTree := h.toIsTree.congr le_rfl (fun r => ⟨fun hr => absurd hr (ne_node_of_isPlain he r),
        fun hr => absurd hr (ne_node_of_isPlain hold r)⟩)
      (fun _ => ⟨rfl, rfl, rfl, rfl⟩) (fun _ _ _ _ => Iff.rfl)
    count := h.count
    nrValues := h.nrValues
    interior := h.interior
    leafSlot := h.leafSlot
    headSlot := .inl he }

theorem MarkOk.setHead (hm : MarkOk xa T m) (he : xaIsPlain e = true)
    (hmark : e = .null → xa.xaMarked m = false) : MarkOk (xa.setHead e) T m where
  interior := hm.interior
  leaf := hm.leaf
  top hr := absurd hr (ne_node_of_isPlain he _)
  bare := hmark

end

end LinuxKernelTest
