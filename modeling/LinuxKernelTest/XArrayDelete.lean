import LinuxKernelTest.XArrayGrow
import LinuxKernelTest.XArrayMarks

/-!
# XArray : `xas_delete_node` and `xas_shrink` thin the tree

`Thinning xa T n E M` is what holds while the tree is being thinned at the node `n` : all
that holds between two calls, but that `n` may be empty, or a root that can be shrunk. As in
`Growing`, the answers of the tree are fixed.

`xasDeleteNode_spec` follows the two loops : `xas_delete_node` takes empty nodes off on the
way to the head, and at the root `xas_shrink` takes roots off while slot `0` is all they
hold. Neither writes a link of an interior node that stays (`Thinned`).
-/

namespace LinuxKernelTest

/-- What holds while the tree is being thinned at `n`. -/
structure Thinning (xa : XArray) (T : Layout) (n : NodeId) (E : ℕ → XaEntry)
    (M : XaMark → ℕ → Bool) : Prop where
  body : Body xa T
  marks : ∀ m, MarkOk xa T m
  flags : DefaultFlags xa
  linked : Linked (T 0) xa.next xa.prev
  nonempty : ∀ {l p c}, T l p = some c → c ≠ n → ∃ k < 4, xa.slots c k ≠ .null
  root : ∀ {L r}, IsTop xa T (L + 1) r → r ≠ n → ∃ k < 4, k ≠ 0 ∧ xa.slots r k ≠ .null
  entries : ∀ j, entryAt xa T j = E j
  markAts : ∀ m j, markAt xa T m j = M m j

/-- `xa` is between two calls, and answers the entries `E` and the marks `M`. -/
def Holds (xa : XArray) (E : ℕ → XaEntry) (M : XaMark → ℕ → Bool) : Prop :=
  ∃ T, XaInv xa T ∧ (∀ j, entryAt xa T j = E j) ∧ ∀ m j, markAt xa T m j = M m j

section

variable {xa xa' : XArray} {T : Layout} {l p L : ℕ} {n q r : NodeId}
  {E : ℕ → XaEntry} {M : XaMark → ℕ → Bool} {xas : XaState}

theorem Thinning.holds (h : Thinning xa T n E M)
    (hn : ∀ {l p}, T l p = some n → ∃ k < 4, xa.slots n k ≠ .null)
    (hroot : ∀ {L}, IsTop xa T (L + 1) n → ∃ k < 4, k ≠ 0 ∧ xa.slots n k ≠ .null) :
    Holds xa E M := by
  refine ⟨T, ⟨h.body, h.marks, h.flags, h.linked, fun {l p c} hc => ?_, fun {L r} htop => ?_⟩,
    h.entries, h.markAts⟩
  · by_cases hcn : c = n
    · subst hcn
      exact hn hc
    · exact h.nonempty hc hcn
  · by_cases hrn : r = n
    · subst hrn
      exact hroot htop
    · exact h.root htop hrn

/-- Deleting the links of a node takes it out of the leaf list, if it was there. -/
theorem IsTree.linked_delete (h : IsTree xa T) (hn : T l p = some n)
    (hlinked : Linked (T 0) xa.next xa.prev) :
    Linked (T.set l p none 0) (xasNodeDeleteLink xa n).next (xasNodeDeleteLink xa n).prev := by
  cases l with
  | zero =>
    rw [Layout.set_level]
    exact xasNodeDeleteLink_leaf hlinked hn (by simpa using h.shift hn)
  | succ l =>
    rw [Layout.set_level_of_ne (by omega)]
    refine xasNodeDeleteLink_interior hlinked (fun k hk => ?_) ?_
    · have := (h.inj hn hk).1
      omega
    · have := h.shift hn
      omega

theorem Body.slots_null_of_count (h : Body xa T) (hn : T l p = some n) (hcount : xa.count n = 0) :
    ∀ k < 4, xa.slots n k = .null := by
  rw [h.count hn, slotSum_eq_zero_iff] at hcount
  exact fun k hk => xaPresent_eq_false.mp (hcount k hk)

/-! ## `xas_delete_node` -/

theorem detached_of_delete (h : Body xa T) (hn : T l p = some n)
    (hq : T (l + 1) (p / 4) = some q) :
    Detached xa (((xaNodeFree (xasNodeDeleteLink xa n) n).setSlot q (p % 4) .null).setCount q
      ((xa.count q + 255) % 256)) q (p % 4) n := by
  have hpos : xa.count q ≠ 0 := by
    intro hz
    have := h.slots_null_of_count hq hz (p % 4) (by omega)
    rw [h.parent_slot hn hq] at this
    cases this
  have hle : xa.count q ≤ 4 := by
    rw [h.count hq]
    exact slotSum_le
  rw [xasNodeDeleteLink_eq]
  constructor
  case flags => constructor <;> rfl
  case keep =>
    intro m hm
    constructor <;> simp [xaNodeFree, hm]
  case content =>
    intro m hm hmq
    constructor <;> simp [xaNodeFree, hmq]
  case count =>
    simp only [XArray.setCount_count, Function.update_self]
    omega
  all_goals simp [xaNodeFree]

theorem Thinning.detach (h : Thinning xa T n E M) (hn : T l p = some n)
    (hq : T (l + 1) (p / 4) = some q) (hcount : xa.count n = 0) :
    Thinning (((xaNodeFree (xasNodeDeleteLink xa n) n).setSlot q (p % 4) .null).setCount q
      ((xa.count q + 255) % 256)) (T.set l p none) q E M := by
  have hstep := detached_of_delete h.body hn hq
  have hempty := h.body.slots_null_of_count hn hcount
  refine
    { body := h.body.detached hstep hn hq hempty
      marks := fun m => (h.marks m).detached h.body hstep hn hq hempty
      flags := h.flags.congr hstep.flags
      linked := h.body.toIsTree.linked_delete hn h.linked
      nonempty := ?_
      root := ?_
      entries := ?_
      markAts := ?_ }
  · intro l' p' c hc hcq
    obtain ⟨ho, hcn⟩ := h.body.of_set_none hn hc
    rw [(hstep.content c hcn hcq).slots]
    exact h.nonempty ho hcn
  · intro L r htop hrq
    obtain ⟨ho, hrn⟩ := h.body.of_set_none hn htop.node
    rw [(hstep.content r hrn hrq).slots]
    obtain ⟨L', htop'⟩ := h.body.exists_top (hstep.head.symm.trans htop.head)
    obtain ⟨rfl, -⟩ := h.body.inj ho htop'.node
    exact h.root htop' hrn
  · intro j
    rw [← h.entries j]
    refine hstep.readAt_eq h.body hn (fun _ => hempty) (fun {p' c} hc hcn k _ => ?_) j
    have hcq : c ≠ q := by
      rintro rfl
      have := (h.body.inj hc hq).1
      omega
    rw [(hstep.content c hcn hcq).slots]
  · intro m j
    rw [← h.markAts m j]
    refine hstep.readAt_eq h.body hn (fun _ k hk => ?_) (fun _ _ _ _ => by rw [hstep.marks]) j
    exact (h.marks m).mark_null hn hk (hempty k hk)

/-- The root is taken off : nothing but slot `0` was left in it. -/
theorem Thinning.removeRoot (h : Thinning xa T r E M) (htop : IsTop xa T L r)
    (hthin : RootThin xa r) (hstep : RootRemoved xa xa' r)
    (hnext : xa'.next = (xasNodeDeleteLink xa r).next)
    (hprev : xa'.prev = (xasNodeDeleteLink xa r).prev) (c : NodeId)
    (hc : ∀ d, xa.slots r 0 = .node d → d = c) : Thinning xa' (T.set L 0 none) c E M := by
  have hbody := h.body.rootRemoved hstep htop hthin
  refine
    { body := hbody
      marks := fun m => (h.marks m).rootRemoved h.body hstep htop hthin
      flags := h.flags.congr hstep.flags
      linked := ?_
      nonempty := ?_
      root := ?_
      entries := ?_
      markAts := ?_ }
  · rw [hnext, hprev]
    exact h.body.toIsTree.linked_delete htop.node h.linked
  · intro l' p' d hd _
    obtain ⟨ho, hdr⟩ := h.body.of_set_none htop.node hd
    rw [(hstep.content d hdr).slots]
    exact h.nonempty ho hdr
  · intro L' r' htop' hr'
    exact absurd (hc r' (hstep.head.symm.trans htop'.head)) hr'
  · intro j
    rw [← h.entries j]
    exact hstep.readAt_eq h.body htop hthin (fun _ => hstep.head) (fun _ => hthin)
      (fun hnull => hstep.head.trans hnull)
      (fun hd hdr k _ => by rw [(hstep.content _ hdr).slots]) j
  · intro m j
    rw [← h.markAts m j]
    have hrest : ∀ k < 4, k ≠ 0 → xa.marks r m k = false := fun k hk hk0 =>
      (h.marks m).mark_null htop.node hk (hthin k hk hk0)
    refine hstep.readAt_eq h.body htop hthin (fun _ => ?_) (fun _ => hrest) (fun hnull => ?_)
      (fun hd hdr k _ => by rw [hstep.marks]) j
    · rw [hstep.marked, (h.marks m).top htop.head]
      simp [nodeAnyMark, hrest]
    · rw [hstep.marked, (h.marks m).top htop.head]
      refine (h.marks m).anyMark_eq_false htop.node fun k hk => ?_
      by_cases hk0 : k = 0
      · rw [hk0, hnull]
      · exact hthin k hk hk0

/-- The state of `xas_delete_node` and `xas_shrink` : the node they are at. -/
inductive ThinAt (E : ℕ → XaEntry) (M : XaMark → ℕ → Bool) : ℕ → XArray × XaState × NodeId → Prop
  | mk {xa : XArray} {xas : XaState} {T : Layout} {l p : ℕ} {n : NodeId} : Thinning xa T n E M →
      T l p = some n → xasError xas = none → ThinAt E M (33 - l) (xa, xas, n)

/-- What the loop of `xas_delete_node` leaves : an array between two calls once the root is
gone, else a node that is not empty. -/
def DeleteDone (E : ℕ → XaEntry) (M : XaMark → ℕ → Bool) :
    XArray × XaState × Option NodeId → Prop
  | (xa, xas, none) => Holds xa E M ∧ xasError xas = none
  | (xa, xas, some n) => xasError xas = none ∧ ∃ T l p, Thinning xa T n E M ∧ T l p = some n ∧
      xa.count n ≠ 0

theorem rootRemoved_of_delete (hempty : xa.slots r 0 = .null) :
    RootRemoved xa ((xaNodeFree (xasNodeDeleteLink xa r) r).setHead .null) r := by
  rw [xasNodeDeleteLink_eq]
  constructor
  case flags => constructor <;> rfl
  case keep =>
    intro m hm _
    constructor <;> simp [xaNodeFree, hm]
  case newRoot =>
    intro c hc
    rw [hempty] at hc
    cases hc
  case content =>
    intro m _
    constructor <;> rfl
  all_goals simp [xaNodeFree, hempty]

/-- A round of `xas_delete_node` at an empty root. -/
theorem deleteRound_root (hcount : xa.count n = 0) (hpar : xa.parent n = none) :
    deleteRound (xa, xas, n) = .done ((xaNodeFree (xasNodeDeleteLink xa n) n).setHead .null,
      { xas with xaNode := .bounds, xaOffset := xa.offset n }, none) := by
  simp [deleteRound, hcount, hpar]

/-- A round of `xas_delete_node` at an empty node below `q`. -/
theorem deleteRound_child (hcount : xa.count n = 0) (hpar : xa.parent n = some q) :
    deleteRound (xa, xas, n) =
      .again (((xaNodeFree (xasNodeDeleteLink xa n) n).setSlot q (xa.offset n) .null).setCount q
          ((xa.count q + 255) % 256),
        { xas with xaNode := .node q, xaOffset := xa.offset n }, q) := by
  have hq : (xaNodeFree (xasNodeDeleteLink xa n) n).count q = xa.count q := by
    rw [xasNodeDeleteLink_eq]
    rfl
  simp [deleteRound, hcount, hpar, XasNode.ofPtr, hq]

theorem deleteRound_step : RoundKeeps deleteRound (ThinAt E M) (DeleteDone E M) := by
  intro v s hs
  cases hs with
  | @mk xa xas T l p n h hn herr =>
    have hl := (h.body.bound hn).1
    have hpar := h.body.parent hn
    by_cases hcount : xa.count n = 0
    case neg =>
      exact .inr ⟨(xa, xas, some n), by simp [deleteRound, hcount],
        herr, T, l, p, h, hn, hcount⟩
    have hempty := h.body.slots_null_of_count hn hcount
    cases hq : T (l + 1) (p / 4) with
    | none =>
      obtain ⟨rfl, hhead⟩ := h.body.root hn hq
      have htop : IsTop xa T l n := ⟨hhead, hn, by simpa using hq⟩
      have hthin : RootThin xa n := fun k hk _ => hempty k hk
      have h' := h.removeRoot htop hthin (rootRemoved_of_delete (hempty 0 (by norm_num)))
        rfl rfl n (fun d hd => by rw [hempty 0 (by norm_num)] at hd; cases hd)
      have hgone : ∀ {l' p'}, T.set l 0 none l' p' ≠ some n := fun hc =>
        (h.body.of_set_none hn hc).2 rfl
      exact .inr ⟨_, deleteRound_root hcount (hpar.trans hq),
        h'.holds (fun hc => absurd hc hgone) (fun htop' => absurd htop'.node hgone), rfl⟩
    | some q =>
      have h' := h.detach hn hq hcount
      rw [← h.body.offset hn hq] at h'
      refine .inl ⟨_, 33 - (l + 1), deleteRound_child hcount (hpar.trans hq), by omega,
        .mk h' (p := p / 4) ?_ rfl⟩
      rw [Layout.set_of_ne (by omega)]
      exact hq

/-! ## `xas_shrink` -/

/-- The array after a round of `xas_shrink` took the root `r` off. -/
def shrunk (xa : XArray) (r : NodeId) : XArray :=
  let xa' := ((xa.setHead (xa.slots r 0)).setCount r 0).setNrValues r 0
  let xa' := if ¬xaIsNode (xa.slots r 0) then xa'.setSlot r 0 .retry else xa'
  let xa' := xaNodeFree (xasNodeDeleteLink xa' r) r
  match xa.slots r 0 with
  | .node c => xa'.setParent c none
  | _ => xa'

theorem rootRemoved_of_shrink (hc : xa.slots r 0 ≠ .node r) : RootRemoved xa (shrunk xa r) r := by
  dsimp only [shrunk]
  rw [xasNodeDeleteLink_eq]
  cases hs : xa.slots r 0
  case node c =>
    have hcr : c ≠ r := fun h => hc (by rw [hs, h])
    simp only [xaIsNode, not_true_eq_false, if_false]
    constructor
    case flags => constructor <;> rfl
    case keep =>
      intro m hm hmc
      have hmc' : m ≠ c := fun h => hmc (by rw [hs, h])
      constructor <;> simp [xaNodeFree, hm, hmc']
    case newRoot =>
      intro d hd
      obtain rfl : c = d := XaEntry.node.inj (hs.symm.trans hd)
      simp [xaNodeFree, hcr]
    case content =>
      intro m hm
      constructor <;> simp [xaNodeFree, hm]
    all_goals simp [xaNodeFree, hs]
  all_goals
    simp only [xaIsNode, Bool.false_eq_true, not_false_eq_true, if_true]
    constructor
    case flags => constructor <;> rfl
    case keep =>
      intro m hm _
      constructor <;> simp [xaNodeFree, hm]
    case newRoot =>
      intro d hd
      rw [hs] at hd
      cases hd
    case content =>
      intro m hm
      constructor <;> simp [xaNodeFree, hm]
    all_goals simp [xaNodeFree, hs]

theorem shrunk_links (xa : XArray) (r : NodeId) :
    (shrunk xa r).next = (xasNodeDeleteLink xa r).next ∧
      (shrunk xa r).prev = (xasNodeDeleteLink xa r).prev := by
  dsimp only [shrunk]
  cases hs : xa.slots r 0 <;> simp only [xaIsNode, Bool.false_eq_true, not_false_eq_true,
    not_true_eq_false, if_true, if_false, xaNodeFree, XArray.setFreed_next, XArray.setFreed_prev,
    XArray.setParent_next, XArray.setParent_prev] <;>
  · refine xasNodeDeleteLink_congr ?_ ?_ ?_ r <;> rfl

/-- A round of `xas_shrink` takes off a root that holds slot `0` only. -/
theorem shrinkRound_shrunk (hflags : DefaultFlags xa) (hcount : xa.count r = 1)
    (hnull : xa.slots r 0 ≠ .null) (hnode : xaIsNode (xa.slots r 0) = true ∨ xa.shift r = 0) :
    shrinkRound (xa, xas, r) =
      match xa.slots r 0 with
      | .node c => .again (shrunk xa r, { xas with xaNode := .bounds }, c)
      | _ => .done (shrunk xa r, { xas with xaNode := .bounds }) := by
  have hstay : ¬(¬xaIsNode (xa.slots r 0) = true ∧ xa.shift r ≠ 0) := by tauto
  simp only [shrinkRound, hcount, ne_eq, not_true_eq_false, if_false, hnull, hstay,
    hflags.zeroBusy, hflags.trackFree, Bool.false_eq_true, and_false, false_and,
    XArray.setHead_trackFree]
  cases hs : xa.slots r 0 <;> simp [shrunk, hs]

theorem shrinkRound_step :
    RoundKeeps shrinkRound
      (fun v s => ∃ xa xas T r, s = (xa, xas, r) ∧ Thinning xa T r E M ∧ IsTop xa T v r ∧
        xa.count r ≠ 0 ∧ xasError xas = none)
      fun b => Holds b.1 E M ∧ xasError b.2 = none := by
  rintro v _ ⟨xa, xas, T, r, rfl, h, htop, hcount, herr⟩
  have hsum := h.body.count htop.node
  -- The loop stops at a root that holds more than slot `0`.
  have hstop : (∃ k < 4, k ≠ 0 ∧ xa.slots r k ≠ .null) → Holds xa E M := by
    rintro ⟨k, hk, hk0, hne⟩
    exact h.holds (fun _ => ⟨k, hk, hne⟩) (fun _ => ⟨k, hk, hk0, hne⟩)
  by_cases hmore : ∃ k < 4, k ≠ 0 ∧ xa.slots r k ≠ .null
  · refine .inr ⟨(xa, xas), ?_, hstop hmore, herr⟩
    by_cases hone : xa.count r = 1
    · have hnull : xa.slots r 0 = .null := by
        by_contra hne
        obtain ⟨k, hk, hk0, hne'⟩ := hmore
        refine hne' (xaPresent_eq_false.mp ?_)
        exact slotSum_eq_one (hsum.symm.trans hone) (xaPresent_eq_true.mpr hne) k hk hk0
      simp [shrinkRound, hone, hnull]
    · simp [shrinkRound, hone]
  have hthin : RootThin xa r := by
    intro k hk hk0
    by_contra hne
    exact hmore ⟨k, hk, hk0, hne⟩
  have hsingle : xa.count r = (xaPresent (xa.slots r 0)).toNat := by
    rw [hsum]
    exact slotSum_single fun k hk hk0 => xaPresent_eq_false.mpr (hthin k hk hk0)
  have hnull : xa.slots r 0 ≠ .null := by
    intro hnull
    rw [hsingle, hnull] at hcount
    exact hcount rfl
  have hone : xa.count r = 1 := by
    rw [hsingle, xaPresent_eq_true.mpr hnull]
    rfl
  have hself : xa.slots r 0 ≠ .node r := by
    intro hr
    obtain ⟨l, rfl, hl⟩ := h.body.pos_of_slot htop.node (by norm_num) hr
    have := (h.body.inj hl htop.node).1
    omega
  have hstep := rootRemoved_of_shrink hself
  have h' := fun c hc => h.removeRoot htop hthin hstep (shrunk_links xa r).1
    (shrunk_links xa r).2 c hc
  have hgone : ∀ {l' p' c}, T.set v 0 none l' p' = some c → c ≠ r := fun hc =>
    (h.body.of_set_none htop.node hc).2
  cases v with
  | zero =>
    -- A leaf : its entry becomes the head, and the tree is gone.
    have hplain := h.body.leafSlot htop.node 0 (by norm_num)
    have hdone : Holds (shrunk xa r) E M :=
      (h' r fun d hd => absurd hd (ne_node_of_isPlain hplain d)).holds
        (fun hc => absurd rfl (hgone hc)) (fun htop' => absurd rfl (hgone htop'.node))
    refine .inr ⟨(shrunk xa r, { xas with xaNode := .bounds }), ?_, hdone, rfl⟩
    rw [shrinkRound_shrunk h.flags hone hnull (.inr (by simpa using h.body.shift htop.node))]
    cases hs : xa.slots r 0 <;> first | rfl | (rw [hs] at hplain; cases hplain)
  | succ v =>
    rcases h.body.interior htop.node 0 (by norm_num) with hn | ⟨c, hc⟩
    · exact absurd hn hnull
    have hcT : T v 0 = some c := by
      simpa using h.body.slot_child htop.node (by norm_num) hc
    have hthinc := h' c fun d hd => XaEntry.node.inj (hd.symm.trans hc)
    have htopc : IsTop (shrunk xa r) (T.set (v + 1) 0 none) v c :=
      ⟨hstep.head.trans hc, by rw [Layout.set_of_ne (by omega)]; exact hcT, Layout.set_self⟩
    refine .inl ⟨_, v, ?_, v.lt_succ_self, shrunk xa r, { xas with xaNode := .bounds }, _, c,
      rfl, hthinc, htopc, ?_, rfl⟩
    · rw [shrinkRound_shrunk h.flags hone hnull (.inl (by rw [hc]; rfl)), hc]
    · have hcr : c ≠ r := hgone htopc.node
      rw [(hstep.content c hcr).count]
      intro hz
      obtain ⟨k, hk, hne⟩ := h.nonempty hcT hcr
      exact hne (h.body.slots_null_of_count hcT hz k hk)

theorem xasShrink_spec (h : Thinning xa T r E M) (htop : IsTop xa T L r) (hcount : xa.count r ≠ 0)
    (herr : xasError xas = none) :
    ∃ xa' xas', xasShrink xa xas r = some (xa', xas') ∧ Holds xa' E M ∧ xasError xas' = none := by
  have hL := (h.body.bound htop.node).1
  obtain ⟨⟨xa', xas'⟩, hrun, hdone⟩ := runLoop_of_rank shrinkRound_step
    ⟨xa, xas, T, r, rfl, h, htop, hcount, herr⟩ (n := xaFuel) (by unfold xaFuel; omega)
  exact ⟨xa', xas', hrun, hdone⟩

/-- `xas_delete_node` restores what holds between two calls. -/
theorem xasDeleteNode_spec (h : Thinning xa T n E M) (hn : T l p = some n)
    (herr : xasError xas = none) :
    ∃ xa' xas', xasDeleteNode xa xas n = some (xa', xas') ∧ Holds xa' E M ∧
      xasError xas' = none := by
  obtain ⟨⟨xa', xas', o⟩, hrun, hdone⟩ := runLoop_of_rank deleteRound_step (.mk h hn herr)
    (n := xaFuel) (by unfold xaFuel; omega)
  cases o with
  | none => exact ⟨xa', xas', by simp [xasDeleteNode, hrun], hdone⟩
  | some m =>
    obtain ⟨herr', T', l', p', h', hm, hcount⟩ := hdone
    by_cases hpar : xa'.parent m = none
    · obtain ⟨rfl, hhead⟩ := h'.body.root hm (by rw [← h'.body.parent hm, hpar])
      have htop : IsTop xa' T' l' m := ⟨hhead, hm, by rw [← hpar, h'.body.parent hm, Nat.zero_div]⟩
      obtain ⟨xa'', xas'', hshrink, hholds⟩ := xasShrink_spec h' htop hcount herr'
      exact ⟨xa'', xas'', by simp [xasDeleteNode, hrun, hpar, hshrink], hholds⟩
    refine ⟨xa', xas', by simp [xasDeleteNode, hrun, hpar],
      h'.holds (fun _ => ?_) (fun htop => ?_), herr'⟩
    · by_contra hnone
      push Not at hnone
      refine hcount ?_
      rw [h'.body.count hm, slotSum_eq_zero_iff]
      exact fun k hk => xaPresent_eq_false.mpr (hnone k hk)
    · refine absurd ?_ hpar
      rw [h'.body.parent htop.node, Nat.zero_div, htop.above]

end

end LinuxKernelTest
