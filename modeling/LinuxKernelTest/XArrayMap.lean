import LinuxKernelTest.XArrayApi
import LinuxKernelTest.XArrayDelete

/-!
# XArray : loading, storing and erasing as operations on a map

`xasLoad_spec` walks down from the head and ends at the slot of the index, at an empty slot
on the way, or outside the tree; what it returns is `entryAt`. `xasStore_spec` and
`xasStore_null_spec` put the pieces together : creating the path, assigning the slot, clearing
marks and thinning the tree.
-/

namespace LinuxKernelTest

open Function Option Nat XasNode

section

variable {xa xa' : XArray} {T : Layout} {i l p k : ℕ} {n : NodeId} {e : XaEntry}
  {E : ℕ → XaEntry} {M : XaMark → ℕ → Bool} {U : NodeId → Prop} {xas : XaState} {m : XaMark}

/-! ## `xas_load` -/

/-- Where a walk to the index `i` has ended. -/
inductive WalkEnd (xa : XArray) (T : Layout) (i : ℕ) (xas : XaState) : XaState → Prop
  | outside : (∀ x, i ≤ x → entryAt xa T x = .null) →
      WalkEnd xa T i xas { xas with xaNode := .bounds }
  | head : i = 0 → (∀ r, xa.xaHead ≠ .node r) → WalkEnd xa T i xas { xas with xaNode := .null }
  | slot {l : ℕ} {n : NodeId} : T l (i / 4 ^ (l + 1)) = some n →
      (l = 0 ∨ xa.slots n (i / 4 ^ l % 4) = .null) →
      WalkEnd xa T i xas { xas with xaNode := .node n, xaOffset := i / 4 ^ l % 4 }

/-- The states in which a walk may start : at the top, or where a walk has ended. -/
def WalkFrom (xa : XArray) (T : Layout) (xas : XaState) : Prop :=
  (xas.xaNode = .restart ∨ xas.xaNode = .bounds) ∨
    (xas.xaNode = .null ∧ xas.xaIndex = 0 ∧ ∀ r, xa.xaHead ≠ .node r) ∨
    ∃ l n, T l (xas.xaIndex / 4 ^ (l + 1)) = some n ∧
      (l = 0 ∨ xa.slots n (xas.xaIndex / 4 ^ l % 4) = .null) ∧
      xas.xaNode = .node n ∧ xas.xaOffset = xas.xaIndex / 4 ^ l % 4

theorem WalkEnd.walkFrom {xas' : XaState} (h : WalkEnd xa T xas.xaIndex xas xas') :
    WalkFrom xa T xas' := by
  cases h with
  | outside => exact .inl (.inr rfl)
  | head hi hhead => exact .inr (.inl ⟨rfl, hi, hhead⟩)
  | slot hn hstop => exact .inr (.inr ⟨_, _, hn, hstop, rfl, rfl⟩)

theorem entryAt_of_slot (h : Body xa T) (hn : T l (i / 4 ^ (l + 1)) = some n)
    (hend : l = 0 ∨ xa.slots n (i / 4 ^ l % 4) = .null) :
    entryAt xa T i = xa.slots n (i / 4 ^ l % 4) := by
  rcases Nat.eq_zero_or_pos l with rfl | hl
  · rw [pow_zero, Nat.div_one]
    exact readAt_leaf (by simpa using hn)
  have hnull := hend.resolve_left (by omega)
  rw [hnull]
  obtain ⟨l, rfl⟩ : ∃ l', l = l' + 1 := ⟨l - 1, by omega⟩
  obtain ⟨r, hr⟩ := h.exists_head hn
  refine readAt_none ?_ (.inr ⟨r, hr⟩)
  have hk : i / 4 ^ (l + 1) % 4 < 4 := by omega
  have hpk := four_mul_div_add_mod i (l + 1)
  -- The slot on the way is empty, so there is no leaf below it.
  have hnone : T l (4 * (i / 4 ^ (l + 2)) + i / 4 ^ (l + 1) % 4) = none := by
    cases hT : T l (4 * (i / 4 ^ (l + 2)) + i / 4 ^ (l + 1) % 4) with
    | none => rfl
    | some c =>
      rw [h.child_slot hn hk hT] at hnull
      cases hnull
  exact h.no_leaf_of_none hn hnone
    ((le_div_iff_mul_le (by positivity)).mp (by rw [div_four_pow, hpk]))
    ((div_lt_iff_lt_mul (by positivity)).mp (by rw [div_four_pow, hpk]; omega))

/-- The state of the loop of `xas_load` on the way down, and when it has stopped. -/
inductive LoadAt (xa : XArray) (T : Layout) (xas : XaState) : ℕ → XaEntry × XaState → Prop
  | node {l : ℕ} {n : NodeId} {o : XasNode} {k : ℕ} :
      T l (xas.xaIndex / 4 ^ (l + 1)) = some n →
      LoadAt xa T xas (l + 1) (.node n, { xas with xaNode := o, xaOffset := k })
  | stop {e : XaEntry} {xas' : XaState} : e = entryAt xa T xas.xaIndex → (∀ c, e ≠ .node c) →
      WalkEnd xa T xas.xaIndex xas xas' → LoadAt xa T xas 0 (e, xas')

theorem xasLoadRound_step (h : Body xa T) (hshift : xas.xaShift = 0) :
    RoundKeeps (xasLoadRound xa) (LoadAt xa T xas)
      fun b => b.1 = entryAt xa T xas.xaIndex ∧ WalkEnd xa T xas.xaIndex xas b.2 := by
  intro v s hs
  cases hs with
  | @stop e xas' he hnode hend =>
    refine .inr ⟨(e, xas'), ?_, he, hend⟩
    cases e <;> first | rfl | exact absurd rfl (hnode _)
  | @node l n o k hn =>
    have hk : xas.xaIndex / 4 ^ l % 4 < 4 := by omega
    have hdesc := xasDescend_eq h hn { xas with xaNode := o, xaOffset := k }
    have hround : xasLoadRound xa (.node n, { xas with xaNode := o, xaOffset := k }) =
        if l = 0 then .done (xasDescend xa { xas with xaNode := o, xaOffset := k } n)
        else .again (xasDescend xa { xas with xaNode := o, xaOffset := k } n) := by
      unfold xasLoadRound
      dsimp only
      rw [if_neg (by omega), h.shift hn]
      simp
    rw [hdesc] at hround
    cases l with
    | zero =>
      exact .inr ⟨_, hround, (entryAt_of_slot h hn (.inl rfl)).symm, .slot hn (.inl rfl)⟩
    | succ l =>
      left
      rw [if_neg l.succ_ne_zero] at hround
      rcases h.interior hn _ hk with hnull | ⟨c, hc⟩
      · refine ⟨_, 0, hround, by omega, .stop ?_ ?_ (.slot hn (.inr hnull))⟩
        · exact (entryAt_of_slot h hn (.inr hnull)).symm
        · rw [hnull]
          exact fun c => XaEntry.noConfusion
      · rw [hc] at hround
        refine ⟨_, l + 1, hround, by omega, .node ?_⟩
        rw [← four_mul_div_add_mod xas.xaIndex (l + 1)]
        exact h.slot_child hn hk hc

theorem xasStart_bare (hhead : ∀ r, xa.xaHead ≠ .node r)
    (hnode : xas.xaNode = .restart ∨ xas.xaNode = .bounds) :
    xasStart xa xas = if xas.xaIndex ≠ 0 then setBounds xas
      else (xa.xaHead, { xas with xaNode := .null }) := by
  unfold xasStart
  rcases hnode with hnode | hnode <;> rw [hnode] <;>
    cases hs : xa.xaHead <;> first | rfl | exact absurd hs (hhead _)

theorem xasStart_root (h : IsTree xa T) (htop : IsTop xa T l n)
    (hnode : xas.xaNode = .restart ∨ xas.xaNode = .bounds) :
    xasStart xa xas = if xas.xaIndex / 4 ^ l > 3 then setBounds xas
      else (.node n, { xas with xaNode := .null }) := by
  unfold xasStart
  rcases hnode with hnode | hnode <;> rw [hnode, htop.head] <;> dsimp only <;>
    rw [h.shift htop.node, shiftRight_two_mul]

/-- No entry lies outside the indices the root covers. -/
theorem IsTree.entryAt_outside (h : IsTree xa T) (htop : IsTop xa T l n) (hi : i / 4 ^ l > 3) :
    entryAt xa T i = .null := by
  refine readAt_none ?_ (.inr ⟨n, htop.head⟩)
  cases hc : T 0 (i / 4) with
  | none => rfl
  | some c =>
    have hz := (h.below_top htop hc).2.1
    rw [Nat.sub_zero, div_four_pow, div_pow_succ] at hz
    omega

/-- No entry but the bare head. -/
theorem IsTree.entryAt_bare (h : IsTree xa T) (hhead : ∀ r, xa.xaHead ≠ .node r) (hi : i ≠ 0) :
    entryAt xa T i = .null :=
  readAt_none (h.eq_none_of_head hhead) (.inl hi)

/-- At the top, the head is a root that covers the index or not, or a bare entry. -/
theorem xasStart_top (h : Body xa T) (hnode : xas.xaNode = .restart ∨ xas.xaNode = .bounds) :
    ∃ v < 40, LoadAt xa T xas v (xasStart xa xas) := by
  rcases h.headSlot with hplain | ⟨r, hr⟩
  · have hhead := ne_node_of_isPlain hplain
    rw [xasStart_bare hhead hnode]
    by_cases hi0 : xas.xaIndex = 0
    · rw [if_neg (by simp [hi0])]
      refine ⟨0, by norm_num, .stop ?_ hhead (.head hi0 hhead)⟩
      rw [hi0]
      exact (readAt_head h.toIsTree hhead).symm
    have hnull : ∀ x, xas.xaIndex ≤ x → entryAt xa T x = .null := fun x hx =>
      h.entryAt_bare hhead (by omega)
    rw [if_pos hi0]
    exact ⟨0, by norm_num, .stop (hnull _ le_rfl).symm (fun c => XaEntry.noConfusion)
      (.outside hnull)⟩
  obtain ⟨L, htop⟩ := h.exists_top hr
  have hL := (h.bound htop.node).1
  rw [xasStart_root h.toIsTree htop hnode]
  by_cases hlt : xas.xaIndex / 4 ^ L > 3
  · have hnull : ∀ x, xas.xaIndex ≤ x → entryAt xa T x = .null := fun x hx =>
      h.entryAt_outside htop (hlt.trans_le (Nat.div_le_div_right hx))
    rw [if_pos hlt]
    exact ⟨0, by norm_num, .stop (hnull _ le_rfl).symm (fun c => XaEntry.noConfusion)
      (.outside hnull)⟩
  · rw [if_neg hlt]
    refine ⟨L + 1, by omega, .node ?_⟩
    rw [div_pow_succ, div_eq_of_lt (by omega)]
    exact htop.node

/-- `xas_start` begins the walk. -/
theorem xasStart_spec (h : Body xa T)
    (hfrom : WalkFrom xa T xas) : ∃ v < 40, LoadAt xa T xas v (xasStart xa xas) := by
  rcases hfrom with hnode | ⟨hnode, hi0, hhead⟩ | ⟨l, n, hn, hstop, hnode, hoffset⟩
  · exact xasStart_top h hnode
  · have hstart : xasStart xa xas = (xa.xaHead, { xas with xaNode := .null }) := by
      simp only [xasStart, xasReload, hnode]
      rw [← hnode]
    rw [hstart]
    refine ⟨0, by norm_num, .stop ?_ hhead (.head hi0 hhead)⟩
    rw [hi0]
    exact (readAt_head h.toIsTree hhead).symm
  · have hk : xas.xaIndex / 4 ^ l % 4 < 4 := by omega
    have hsib := xaIsSibling_of_body h hn hk
    have hstart : xasStart xa xas = (xa.slots n (xas.xaIndex / 4 ^ l % 4),
        { xas with xaNode := .node n, xaOffset := xas.xaIndex / 4 ^ l % 4 }) := by
      simp only [xasStart, xasReload, hnode, getOffset_eq h.toIsTree hn]
      rw [← hnode, ← hoffset]
      split
      · next hs =>
        rw [← hoffset] at hsib
        rw [if_neg (by rw [hsib]; exact Bool.false_ne_true)]
      · rfl
    rw [hstart]
    refine ⟨0, by norm_num, .stop (entryAt_of_slot h hn hstop).symm ?_ (.slot hn hstop)⟩
    rcases hstop with rfl | hnull
    · exact h.leaf hn _ hk
    · rw [hnull]
      exact fun c => XaEntry.noConfusion

/-- `xas_load` returns the entry at the index. -/
theorem xasLoad_spec (h : Body xa T) (hshift : xas.xaShift = 0)
    (hfrom : WalkFrom xa T xas) :
    ∃ xas', xasLoad xa xas = some (entryAt xa T xas.xaIndex, xas') ∧
      WalkEnd xa T xas.xaIndex xas xas' := by
  obtain ⟨v, hv, hstart⟩ := xasStart_spec h hfrom
  obtain ⟨⟨e, xas'⟩, hrun, rfl, hend⟩ := runLoop_of_rank
    (xasLoadRound_step h hshift) hstart (n := xaFuel) (by unfold xaFuel; omega)
  exact ⟨xas', hrun, hend⟩

/-! ## Assigning a slot -/

theorem notInt_eq (b : Bool) : notInt b = 1 - (b.toNat : ℤ) := by
  cases b <;> rfl

/-- A counter of a node changed by the entries going out and coming in. -/
theorem addU8_eq {c : ℕ} {P : XaEntry → Bool} {f : ℕ → XaEntry} (hc : c = slotSum P f) (hk : k < 4)
    (e : XaEntry) :
    addU8 c (notInt (P (f k)) - notInt (P e)) + (P (f k)).toNat = c + (P e).toNat := by
  have hsum := slotSum_update (P := P) (f := f) (e := e) hk
  have hle := slotSum_le (P := P) (f := f)
  have hle' := Bool.toNat_le (P e)
  rw [addU8, notInt_eq, notInt_eq]
  omega

/-- The loop of `xas_store` for a single index assigns one slot of the leaf. -/
theorem storeLoop_leaf (h : Body xa T) (hn : T 0 p = some n) (hk : k < 4) (xas : XaState)
    (value : Bool) (e : XaEntry) :
    (runLoop (storeRound xas (some n) value k) xaFuel
      ⟨xa, e, xa.slots n k, xa.slots n k, k, 0, 0⟩).join =
      some (xa.setSlot n k e, xa.slots n k,
        notInt (xaPresent (xa.slots n k)) - notInt (xaPresent e),
        notInt (xaIsValue (xa.slots n k)) - notInt value) := by
  have hplain := h.leafSlot hn k hk
  have hnext : k ≠ 3 → xaIsSibling (xa.slots n (k + 1)) = false := fun hk3 =>
    xaIsSibling_of_body h hn (by omega)
  have hround : storeRound xas (some n) value k
      ⟨xa, e, xa.slots n k, xa.slots n k, k, 0, 0⟩ =
      .done (some (xa.setSlot n k e, xa.slots n k,
        notInt (xaPresent (xa.slots n k)) - notInt (xaPresent e),
        notInt (xaIsValue (xa.slots n k)) - notInt value)) := by
    rcases eq_or_ne e .null with rfl | hne
    · by_cases hk3 : k = 3
      · cases hs : xa.slots n k <;> rw [hs] at hplain <;>
          first | cases hplain; done | simp [storeRound, assignSlot, hk3, xaPresent]
      · cases hs : xa.slots n k <;> rw [hs] at hplain <;>
          first | cases hplain; done | simp [storeRound, assignSlot, hk3, xaPresent, hnext hk3]
    · cases hs : xa.slots n k <;> rw [hs] at hplain <;>
        first | cases hplain; done | simp [storeRound, assignSlot, hne, xaPresent]
  rw [runLoop_of_done hround xaFuel_pos]
  rfl

/-- `xa` with `e` in slot `k` of `n`, after `update_node`. -/
def stored (xa : XArray) (n : NodeId) (k : ℕ) (e : XaEntry) : XArray :=
  ((xa.setSlot n k e).setCount n (addU8 (xa.count n)
    (notInt (xaPresent (xa.slots n k)) - notInt (xaPresent e)))).setNrValues n
      (addU8 (xa.nrValues n) (notInt (xaIsValue (xa.slots n k)) - notInt (xaIsValue e)))

theorem slotSet_stored (h : Body xa T) (hn : T 0 p = some n) (hk : k < 4) (e : XaEntry) :
    SlotSet xa (stored xa n k e) n k e := by
  unfold stored
  constructor
  case flags => exact ⟨rfl, rfl, rfl⟩
  case keep => exact fun m => ⟨rfl, rfl, rfl, rfl⟩
  case content =>
    intro m hm
    constructor <;> simp [hm]
  case count => simpa using addU8_eq (h.count hn) hk e
  case nrValues => simpa using addU8_eq (h.nrValues hn) hk e
  all_goals simp

/-- `update_node` after the slot was assigned : where nothing changes in number it leaves
the counters alone, which is the same. -/
theorem updateNode_stored (h : Body xa T) (hn : T 0 p = some n) (hk : k < 4) (e : XaEntry)
    (xas : XaState) :
    updateNode (xa.setSlot n k e) xas (some n)
      (notInt (xaPresent (xa.slots n k)) - notInt (xaPresent e))
      (notInt (xaIsValue (xa.slots n k)) - notInt (xaIsValue e)) =
      if e = .null ∧ xa.slots n k ≠ .null then xasDeleteNode (stored xa n k e) xas n
      else some (stored xa n k e, xas) := by
  have hc := addU8_eq (h.count hn) hk e
  have hv := addU8_eq (h.nrValues hn) hk e
  have hneg : notInt (xaPresent (xa.slots n k)) - notInt (xaPresent e) < 0 ↔
      e = .null ∧ xa.slots n k ≠ .null := by
    rw [← xaPresent_eq_false, ← xaPresent_eq_true]
    cases xaPresent (xa.slots n k) <;> cases xaPresent e <;> simp [notInt]
  unfold updateNode
  dsimp only
  by_cases hzero : notInt (xaPresent (xa.slots n k)) - notInt (xaPresent e) = 0 ∧
      notInt (xaIsValue (xa.slots n k)) - notInt (xaIsValue e) = 0
  · rw [if_pos hzero, if_neg fun hcon => by have := hneg.mpr hcon; omega]
    congr 2
    rw [notInt_eq, notInt_eq, notInt_eq, notInt_eq] at hzero
    rw [stored, show addU8 (xa.count n) _ = xa.count n by omega,
      show addU8 (xa.nrValues n) _ = xa.nrValues n by omega]
    simp [XArray.setCount, XArray.setNrValues, XArray.setSlot]
  · rw [if_neg hzero]
    by_cases hdel : e = .null ∧ xa.slots n k ≠ .null
    · rw [if_pos hdel, if_pos (hneg.mpr hdel)]
      rfl
    · rw [if_neg hdel, if_neg fun hcon => hdel (hneg.mp hcon)]
      rfl

/-- The path to a leaf is not empty : every node on it has the next one in its slot. -/
theorem Growing.slot_ne_null (h : Growing xa T i E M U) (hn : T 0 (i / 4) = some n)
    (hne : xa.slots n (i % 4) ≠ .null) {c : NodeId} (hc : T l (i / 4 ^ (l + 1)) = some c) :
    xa.slots c (i / 4 ^ l % 4) ≠ .null := by
  cases l with
  | zero =>
    obtain rfl : n = c := some.inj (hn.symm.trans (by simpa using hc))
    simpa using hne
  | succ l =>
    obtain ⟨d, hd⟩ := h.body.leaf_ancestor hc hn
    rw [div_four_pow, ← four_mul_div_add_mod] at hd
    rw [h.body.child_slot hc (by omega) hd]
    exact XaEntry.noConfusion

/-- With an entry at `i` the path is complete. -/
theorem Growing.holds (h : Growing xa T i E M U) (hn : T 0 (i / 4) = some n)
    (hne : xa.slots n (i % 4) ≠ .null) : Holds xa E M := by
  refine ⟨T, ⟨h.body, h.marks, h.flags, h.linked (by simp [hn]), fun {l p c} hc => ?_,
    fun {L r} htop => ?_⟩, h.entries, h.markAts⟩
  · rcases h.nonempty hc with rfl | hex
    · exact ⟨_, by omega, h.slot_ne_null hn hne hc⟩
    · exact hex
  · rcases h.root htop with hone | hex
    · have hz := (h.body.below_top htop hn).2.1
      rw [Nat.sub_zero, div_four_pow] at hz
      refine ⟨_, by omega, ?_, h.slot_ne_null hn hne (l := L + 1) (by rw [hz]; exact htop.node)⟩
      rw [div_pow_succ] at hz
      omega
    · exact hex

/-- Storing an entry in the leaf of `i` while the path is being built. -/
theorem Growing.slotSet (h : Growing xa T i E M U) (hn : T 0 (i / 4) = some n)
    (hstep : SlotSet xa xa' n (i % 4) e) (he : xaIsPlain e = true) (hne : e ≠ .null) :
    Growing xa' T i (update E i e) M U := by
  have hk : i % 4 < 4 := by omega
  have hslots : ∀ {c j}, xa.slots c j ≠ .null → xa'.slots c j ≠ .null := by
    intro c j hj
    by_cases hcn : c = n
    · subst hcn
      rw [hstep.slots]
      by_cases hjk : j = i % 4
      · rw [hjk, update_self]
        exact hne
      · rwa [update_of_ne hjk]
    · rwa [(hstep.content c hcn).slots]
  have htop : ∀ {L r}, IsTop xa' T L r → IsTop xa T L r := fun htop =>
    ⟨hstep.head.symm.trans htop.head, htop.node, htop.above⟩
  refine ⟨h.body.slotSet hstep hn hk he,
    fun m => (h.marks m).slotSet h.body hstep hn fun hnull => absurd hnull hne,
    h.flags.congr hstep.flags, ?_, ?_, ?_, ?_, ?_, ?_,
    fun c hc => (hstep.keep c).freed.trans (h.unfreed c hc)⟩
  · rw [hstep.next, hstep.prev]
    exact h.gap
  · rw [hstep.next, hstep.prev]
    exact h.linked
  · intro l p c hc
    rcases h.nonempty hc with hpath | ⟨j, hj, hex⟩
    · exact .inl hpath
    · exact .inr ⟨j, hj, hslots hex⟩
  · intro L r htop'
    rcases h.root (htop htop') with hpath | ⟨j, hj, hj0, hex⟩
    · exact .inl hpath
    · exact .inr ⟨j, hj, hj0, hslots hex⟩
  · intro j
    rw [hstep.entryAt_eq h.body hn hk, update_apply, h.entries j, div_add_mod]
  · intro m j
    rw [hstep.markAt_eq, h.markAts]

/-- An `xa_state` for the single index `i`. -/
structure SingleIndex (xas : XaState) (i : ℕ) : Prop where
  index : xas.xaIndex = i
  shift : xas.xaShift = 0
  sibs : xas.xaSibs = 0
  alloc : xas.xaAlloc = none

theorem singleIndex_init (i : ℕ) : SingleIndex (xaStateInit i) i := ⟨rfl, rfl, rfl, rfl⟩

theorem SingleIndex.move (h : SingleIndex xas i) (o : XasNode) (k : ℕ) :
    SingleIndex { xas with xaNode := o, xaOffset := k } i :=
  ⟨h.index, h.shift, h.sibs, h.alloc⟩

/-- `xas_store` of a new entry at the slot of a leaf. -/
theorem xasStoreAt_leaf (h : Body xa T) (hn : T 0 p = some n) (hk : k < 4)
    (hxas : SingleIndex xas i) (hnode : xas.xaNode = .node n) (hoffset : xas.xaOffset = k)
    (hne : e ≠ .null) (hnew : xa.slots n k ≠ e) :
    xasStoreAt xa xas e (xa.slots n k) = some (stored xa n k e, xas, xa.slots n k) := by
  have hshift : xa.shift n = 0 := by simpa using h.shift hn
  simp only [xasStoreAt, xasInvalid, hnode, toPtr, hshift, hxas.shift, hxas.sibs, hnew,
    hne, xasSquashMarks, hoffset, lt_irrefl, Bool.false_eq_true, false_and, if_false, if_true,
    add_zero, bind_some]
  rw [storeLoop_leaf h hn hk, bind_some]
  rw [updateNode_stored h hn hk, if_neg fun hcon => hne hcon.1]
  rfl

/-- `xas_store` of `NULL` at the slot of a leaf with an entry : `xa'` is the array after the
marks were cleared. -/
theorem xasStoreAt_leaf_null (h : Body xa T) (hn : T 0 p = some n) (hk : k < 4)
    (hxas : SingleIndex xas i) (hnode : xas.xaNode = .node n) (hoffset : xas.xaOffset = k)
    (hold : xa.slots n k ≠ .null) (hmarks : xasInitMarks xa xas = some xa')
    (h' : Body xa' T) (hslots : xa'.slots = xa.slots) :
    xasStoreAt xa xas .null (xa.slots n k) =
      (xasDeleteNode (stored xa' n k .null) xas n).map fun r => (r.1, r.2, xa.slots n k) := by
  have hshift : xa.shift n = 0 := by simpa using h.shift hn
  simp only [xasStoreAt, xasInvalid, hnode, toPtr, hshift, hxas.shift, hxas.sibs, hold,
    xasSquashMarks, hoffset, lt_irrefl, Bool.false_eq_true, false_and, if_false, if_true,
    add_zero, hmarks, bind_some]
  rw [← hslots, storeLoop_leaf h' hn hk, bind_some]
  rw [updateNode_stored h' hn hk, if_pos ⟨rfl, by rw [hslots]; exact hold⟩]

/-- `xas_store` at the head. -/
theorem xasStoreAt_head (hxas : SingleIndex xas i) (hnode : xas.xaNode = .null)
    (hhead : ∀ r, xa.xaHead ≠ .node r) (hnew : xa.xaHead ≠ e)
    (hmarks : (if e = .null then xasInitMarks xa xas else some xa) = some xa') :
    xasStoreAt xa xas e xa.xaHead = some (xa'.setHead e, xas, xa.xaHead) := by
  have hround : ∀ value max, storeRound xas none value max
      ⟨xa', e, xa.xaHead, xa.xaHead, xas.xaOffset, 0, 0⟩ =
      .done (some (xa'.setHead e, xa.xaHead, 0, 0)) := by
    intro value max
    cases hs : xa.xaHead <;> first | exact absurd hs (hhead _) | rfl
  simp only [xasStoreAt, xasInvalid, hnode, toPtr, hxas.sibs, hnew, false_and,
    Bool.false_eq_true, if_false, hmarks, bind_some]
  rw [runLoop_of_done (hround _ _) xaFuel_pos]
  rfl

/-- Clearing the marks of a list, one after the other. -/
theorem clearMarks_spec (hat : AtEntry xa T i xas) (ms : List XaMark) :
    ∀ {xa1 : XArray}, Body xa1 T → (∀ m, MarkOk xa1 T m) → xa1.trackFree = false →
      xa1.xaHead = xa.xaHead →
      ∃ xa', ms.foldlM (fun xa m => if xa.trackFree ∧ m = xaFreeMark then xasSetMark xa xas m
          else xasClearMark xa xas m) xa1 = some xa' ∧
        xa' = xa1.withMarking xa'.marks xa'.xaMarked ∧ (∀ m, MarkOk xa' T m) ∧
        ∀ m j, markAt xa' T m j = if j = i ∧ m ∈ ms then false else markAt xa1 T m j := by
  induction ms with
  | nil => exact fun {xa1} _ hmarks _ _ => ⟨xa1, rfl, rfl, hmarks, by simp⟩
  | cons m ms ih =>
    intro xa1 hbody hmarks hfree hhead
    have hat1 : AtEntry xa1 T i xas := by
      unfold AtEntry
      rw [hhead]
      exact hat
    obtain ⟨xa2, hclear, hset⟩ := xasClearMark_spec hbody (hmarks m) hat1
    have heq := hset.only.1
    have hmarks2 : ∀ m', MarkOk xa2 T m' := by
      intro m'
      by_cases hm : m' = m
      · exact hm ▸ hset.markOk
      · exact hset.only.markOk hm (hmarks m')
    obtain ⟨xa', hrun, heq', hmarks', hat'⟩ := ih (hset.only.body hbody) hmarks2
      (by rw [heq]; exact hfree) (by rw [heq]; exact hhead)
    refine ⟨xa', ?_, ?_, hmarks', fun m' j => ?_⟩
    · rw [List.foldlM_cons, hfree]
      simp only [Bool.false_eq_true, false_and, if_false, hclear]
      exact hrun
    · rw [heq', heq]
      rfl
    · rw [hat']
      by_cases hm : m' = m
      · subst hm
        rw [hset.markAt]
        by_cases hj : j = i <;> simp [hj]
      · rw [hset.only.markAt_eq hm]
        simp [hm]

/-- `xas_init_marks` clears the marks of the entry at `i`. -/
theorem xasInitMarks_spec (hbody : Body xa T) (hmarks : ∀ m, MarkOk xa T m)
    (hfree : xa.trackFree = false) (hat : AtEntry xa T i xas) :
    ∃ xa', xasInitMarks xa xas = some xa' ∧ xa' = xa.withMarking xa'.marks xa'.xaMarked ∧
      (∀ m, MarkOk xa' T m) ∧
      ∀ m j, markAt xa' T m j = if j = i then false else markAt xa T m j := by
  obtain ⟨xa', hrun, heq, hok, hmark⟩ := clearMarks_spec hat xaMarks hbody hmarks hfree rfl
  exact ⟨xa', hrun, heq, hok, fun m j => by rw [hmark]; simp [mem_xaMarks]⟩

/-! ## `xas_store` -/

/-- The leaf of `i` has another entry, one that the head alone cannot hold. -/
def SharesLeaf (E : ℕ → XaEntry) (i : ℕ) : Prop :=
  ∃ j < 4, j ≠ i % 4 ∧ 4 * (i / 4) + j ≠ 0 ∧ E (4 * (i / 4) + j) ≠ .null

/-- `xas_delete_node` frees no node that has entries, unless `xas_shrink` does. -/
theorem xasDeleteNode_eq (hcount : xa.count n ≠ 0)
    (hroot : xa.parent n = none → xa.count n = 1 → xa.slots n 0 = .null) :
    xasDeleteNode xa xas n = some (xa, xas) := by
  have hround : deleteRound (xa, xas, n) = .done (xa, xas, some n) := if_pos hcount
  rw [xasDeleteNode, runLoop_of_done hround xaFuel_pos, bind_some]
  dsimp only
  split_ifs with hpar
  · refine runLoop_of_done ?_ xaFuel_pos
    by_cases hone : xa.count n = 1 <;> simp [shrinkRound, hone, hroot hpar]
  · rfl

/-- The marks after the entry at `i` was replaced by `e`. -/
def marksAfter (M : XaMark → ℕ → Bool) (i : ℕ) (e : XaEntry) : XaMark → ℕ → Bool :=
  fun m j => if e = .null ∧ j = i then false else M m j

variable (h : XaInv xa T)
include h

theorem XaInv.withMarking (heq : xa' = xa.withMarking xa'.marks xa'.xaMarked)
    (hmarks : ∀ m, MarkOk xa' T m) : XaInv xa' T := by
  rw [heq] at hmarks ⊢
  exact
    { body := h.body.withMarking _ _
      marks := hmarks
      flags := ⟨h.flags.trackFree, h.flags.zeroBusy, h.flags.kmemFails⟩
      linked := h.linked
      nonempty := h.nonempty
      root := fun htop => h.root ⟨htop.head, htop.node, htop.above⟩ }

omit h in
theorem entryAt_withMarking (heq : xa' = xa.withMarking xa'.marks xa'.xaMarked) (j : ℕ) :
    entryAt xa' T j = entryAt xa T j := by
  rw [heq]
  rfl

/-- A bare entry is replaced. -/
theorem XaInv.setHead (hold : xaIsPlain xa.xaHead = true)
    (he : xaIsPlain e = true) (hmark : e = .null → ∀ m, xa.xaMarked m = false) :
    XaInv (xa.setHead e) T where
  body := h.body.setHead hold he
  marks m := (h.marks m).setHead he fun hnull => hmark hnull m
  flags := ⟨h.flags.trackFree, h.flags.zeroBusy, h.flags.kmemFails⟩
  linked := h.linked
  nonempty := h.nonempty
  root htop := absurd htop.head (ne_node_of_isPlain he _)

omit h in
theorem Body.entryAt_setHead (h : Body xa T) (hold : xaIsPlain xa.xaHead = true)
    (he : xaIsPlain e = true) (j : ℕ) :
    entryAt (xa.setHead e) T j = update (entryAt xa T) 0 e j := by
  have hnone : ∀ {l p}, T l p = none := h.eq_none_of_head (ne_node_of_isPlain hold)
  by_cases hj : j = 0
  · subst hj
    rw [update_self]
    exact readAt_head (h.setHead hold he).toIsTree (ne_node_of_isPlain he)
  · rw [update_of_ne hj, entryAt, entryAt, readAt_none hnone (.inl hj), readAt_none hnone (.inl hj)]

omit h in
theorem Body.markAt_setHead (hold : xaIsPlain xa.xaHead = true)
    (he : xaIsPlain e = true) (m : XaMark) (j : ℕ) :
    markAt (xa.setHead e) T m j = markAt xa T m j := by
  refine readAt_congr rfl ?_ (fun _ _ _ => rfl) rfl
  rw [xaIsNode_eq_false.mpr (ne_node_of_isPlain hold)]
  exact xaIsNode_eq_false.mpr (ne_node_of_isPlain he)

/-- An index without an entry has no mark. -/
theorem XaInv.markAt_of_null (hnull : entryAt xa T i = .null) (m : XaMark) :
    markAt xa T m i = false := by
  unfold entryAt at hnull
  unfold markAt
  cases hn : T 0 (i / 4) with
  | some n =>
    rw [readAt_leaf hn] at hnull ⊢
    exact (h.marks m).mark_null hn (by omega) hnull
  | none =>
    by_cases hbare : i = 0 ∧ xaIsNode xa.xaHead = false
    · have hhead := xaIsNode_eq_false.mp hbare.2
      rw [hbare.1, readAt_head h.body.toIsTree hhead] at hnull ⊢
      exact (h.marks m).bare hnull
    · simp [readAt, hn, hbare]

/-- The array answers as before where `NULL` replaces `NULL`. -/
theorem XaInv.holds_of_null (hnull : entryAt xa T i = .null) :
    Holds xa (update (entryAt xa T) i .null) (marksAfter (markAt xa T) i .null) := by
  refine ⟨T, h, fun j => ?_, fun m j => ?_⟩
  · rw [← hnull, update_eq_self]
  · by_cases hj : j = i
    · simp [marksAfter, hj, h.markAt_of_null hnull]
    · simp [marksAfter, hj]

/-- A leaf whose entry at `i` was taken out. -/
theorem XaInv.thinning (hn : T 0 (i / 4) = some n)
    (hstep : SlotSet xa xa' n (i % 4) .null) (hmark : ∀ m, markAt xa T m i = false) :
    Thinning xa' T n (update (entryAt xa T) i .null) (markAt xa T) := by
  have hk : i % 4 < 4 := by omega
  have hmarks : ∀ m, xa.marks n m (i % 4) = false := fun m => by
    rw [← hmark m, markAt, readAt_leaf hn]
  refine
    { body := h.body.slotSet hstep hn hk rfl
      marks := fun m => (h.marks m).slotSet h.body hstep hn fun _ => hmarks m
      flags := h.flags.congr hstep.flags
      linked := ?_
      nonempty := fun {l p c} hc hcn => ?_
      root := fun {L r} htop hrn => ?_
      entries := fun j => ?_
      markAts := fun m j => hstep.markAt_eq j }
  · rw [hstep.next, hstep.prev]
    exact h.linked
  · rw [(hstep.content c hcn).slots]
    exact h.nonempty hc
  · rw [(hstep.content r hrn).slots]
    exact h.root ⟨hstep.head.symm.trans htop.head, htop.node, htop.above⟩
  · rw [hstep.entryAt_eq h.body hn hk, div_add_mod, update_apply]

/-- `xas_store` of `NULL` at an entry of a leaf. -/
theorem xasStoreAt_erase_leaf (hn : T 0 (i / 4) = some n)
    (hxas : SingleIndex xas i) (hnode : xas.xaNode = .node n) (hoffset : xas.xaOffset = i % 4)
    (hold : xa.slots n (i % 4) ≠ .null) :
    ∃ xa' xas', xasStoreAt xa xas .null (xa.slots n (i % 4)) =
        some (xa', xas', xa.slots n (i % 4)) ∧
      Holds xa' (update (entryAt xa T) i .null) (marksAfter (markAt xa T) i .null) ∧
      xasError xas' = none ∧ (SharesLeaf (entryAt xa T) i → xa'.freed = xa.freed) := by
  have hk : i % 4 < 4 := by omega
  obtain ⟨xa1, hinit, heq, hmarks, hmark⟩ := xasInitMarks_spec h.body h.marks h.flags.trackFree
    (.inl ⟨n, hn, hnode, hoffset⟩)
  have h1 := h.withMarking heq hmarks
  have hslots : xa1.slots = xa.slots := by
    rw [heq]
    rfl
  have hthin := h1.thinning hn (slotSet_stored h1.body hn hk .null) (fun m => by simp [hmark])
  obtain ⟨xa', xas', hdel, ⟨T', h', hE, hM⟩, herr⟩ := xasDeleteNode_spec hthin hn
    (show xasError xas = none by simp [xasError, hnode])
  refine ⟨xa', xas', ?_, ⟨T', h', fun j => ?_, fun m j => ?_⟩, herr,
    fun ⟨j, hj, hji, h0, hne⟩ => ?_⟩
  · rw [xasStoreAt_leaf_null h.body hn hk hxas hnode hoffset hold hinit h1.body hslots, hdel]
    rfl
  · rw [hE, funext (entryAt_withMarking heq)]
  · rw [hM, hmark, marksAfter]
    simp
  · have hcount := hthin.body.count hn
    have hslot : xaPresent ((stored xa1 n (i % 4) .null).slots n j) = true := by
      rw [(slotSet_stored h1.body hn hk .null).slots, update_of_ne hji, hslots, xaPresent_eq_true]
      rwa [entryAt, readAt_leaf (by rwa [show (4 * (i / 4) + j) / 4 = i / 4 by omega]),
        show (4 * (i / 4) + j) % 4 = j by omega] at hne
    rw [xasDeleteNode_eq] at hdel
    · cases hdel
      rw [heq]
      rfl
    · intro hz
      simp [slotSum_eq_zero_iff.mp (hcount.symm.trans hz) j hj] at hslot
    · intro hpar hone
      have hp := (hthin.body.root hn (hthin.body.parent hn ▸ hpar)).1
      refine xaPresent_eq_false.mp (Bool.eq_false_iff.mpr fun hz => ?_)
      simp [slotSum_eq_one (hcount.symm.trans hone) hz j hj (by omega)] at hslot

/-- `xas_store` at a bare head. -/
theorem xasStoreAt_bare (hplain : xaIsPlain xa.xaHead = true)
    (hxas : SingleIndex xas 0) (hnode : xas.xaNode = .null) (he : xaIsPlain e = true) :
    ∃ xa', xasStoreAt xa xas e xa.xaHead = some (xa', xas, xa.xaHead) ∧
      Holds xa' (update (entryAt xa T) 0 e) (marksAfter (markAt xa T) 0 e) ∧
      xa'.freed = xa.freed := by
  have hhead := ne_node_of_isPlain hplain
  have hentry : entryAt xa T 0 = xa.xaHead := readAt_head h.body.toIsTree hhead
  by_cases hnew : xa.xaHead = e
  · refine ⟨xa, by simp [xasStoreAt, xasInvalid, hnode, toPtr, hxas.sibs, hnew], ?_, rfl⟩
    rcases eq_or_ne e .null with rfl | hne
    · exact h.holds_of_null (hentry.trans hnew)
    · refine ⟨T, h, fun j => ?_, fun m j => by simp [marksAfter, hne]⟩
      rw [← hnew, ← hentry, update_eq_self]
  rcases eq_or_ne e .null with rfl | hne
  · obtain ⟨xa1, hinit, heq, hmarks, hmark⟩ := xasInitMarks_spec h.body h.marks h.flags.trackFree
      (i := 0) (.inr ⟨rfl, hhead, hnode⟩)
    have h1 := h.withMarking heq hmarks
    have hhead1 : xa1.xaHead = xa.xaHead := by
      rw [heq]
      rfl
    have hplain1 : xaIsPlain xa1.xaHead = true := hhead1 ▸ hplain
    have hbare : ∀ m, xa1.xaMarked m = false := fun m => by
      have hat : markAt xa1 T m 0 = xa1.xaMarked m :=
        readAt_head h1.body.toIsTree (ne_node_of_isPlain hplain1)
      rw [← hat, hmark, if_pos rfl]
    refine ⟨xa1.setHead .null, xasStoreAt_head hxas hnode hhead hnew (by rw [if_pos rfl, hinit]),
      ⟨T, h1.setHead hplain1 rfl fun _ => hbare, fun j => ?_, fun m j => ?_⟩, by rw [heq]; rfl⟩
    · rw [h1.body.entryAt_setHead hplain1 rfl, funext (entryAt_withMarking heq)]
    · rw [Body.markAt_setHead hplain1 rfl, hmark, marksAfter]
      simp
  · refine ⟨xa.setHead e, xasStoreAt_head hxas hnode hhead hnew (by rw [if_neg hne]),
      ⟨T, h.setHead hplain he fun hnull => absurd hnull hne, fun j => ?_, fun m j => ?_⟩, rfl⟩
    · rw [h.body.entryAt_setHead hplain he]
    · rw [Body.markAt_setHead hplain he]
      simp [marksAfter, hne]

omit h in
/-- `xas_store` of `NULL` at an empty slot changes nothing. -/
theorem xasStoreAt_null (xa : XArray) (hsibs : xas.xaSibs = 0) (n : NodeId) (k : ℕ) :
    xasStoreAt xa { xas with xaNode := .node n, xaOffset := k } .null .null =
      some (xa, { xas with xaNode := .node n, xaOffset := k }, .null) := by
  obtain ⟨index, shift, sibs, offset, node, alloc⟩ := xas
  obtain rfl : sibs = 0 := hsibs
  simp [xasStoreAt, xasInvalid, toPtr]

/-- `xas_store` of `NULL` : the path is walked, not created. -/
theorem xasStore_null_spec (hxas : SingleIndex xas i)
    (hfrom : WalkFrom xa T xas) :
    ∃ xa' xas', xasStore xa xas .null = some (xa', xas', entryAt xa T i) ∧
      Holds xa' (update (entryAt xa T) i .null) (marksAfter (markAt xa T) i .null) ∧
      xasError xas' = none ∧ (SharesLeaf (entryAt xa T) i → xa'.freed = xa.freed) := by
  obtain ⟨xas', hload, hend⟩ := xasLoad_spec h.body hxas.shift hfrom
  rw [hxas.index] at hload hend
  simp only [xasStore, if_true, hload, bind_some]
  cases hend with
  | outside hnull => exact ⟨xa, _, rfl, h.holds_of_null (hnull _ le_rfl), rfl, fun _ => rfl⟩
  | head hi0 hhead =>
    subst hi0
    have hentry : entryAt xa T 0 = xa.xaHead := readAt_head h.body.toIsTree hhead
    have hplain := h.body.headSlot.resolve_right fun ⟨r, hr⟩ => hhead r hr
    obtain ⟨xa', hstore, hholds, hfreed⟩ := xasStoreAt_bare h hplain (hxas.move .null _) rfl
      (e := .null) rfl
    rw [hentry]
    exact ⟨xa', _, hstore, hholds, rfl, fun _ => hfreed⟩
  | @slot l n hn hstop =>
    by_cases hnull : entryAt xa T i = .null
    · rw [hnull]
      exact ⟨xa, _, xasStoreAt_null xa hxas.sibs n _, h.holds_of_null hnull, rfl, fun _ => rfl⟩
    have hslot := entryAt_of_slot h.body hn hstop
    obtain rfl : l = 0 := hstop.resolve_right fun hs => hnull (hslot.trans hs)
    have hn' : T 0 (i / 4) = some n := by simpa using hn
    rw [pow_zero, Nat.div_one] at hslot ⊢
    rw [hslot]
    exact xasStoreAt_erase_leaf h hn' (hxas.move (.node n) (i % 4)) rfl rfl (hslot ▸ hnull)

/-- `xas_store` replaces the entry at the index and returns the old one. -/
theorem xasStore_spec (hi : i < 2 ^ 64) (hxas : SingleIndex xas i)
    (hfrom : WalkFrom xa T xas) (he : xaIsPlain e = true) :
    ∃ xa' xas', xasStore xa xas e = some (xa', xas', entryAt xa T i) ∧
      Holds xa' (update (entryAt xa T) i e) (marksAfter (markAt xa T) i e) ∧
      xasError xas' = none ∧ ((e = .null → SharesLeaf (entryAt xa T) i) →
        ∀ c, xa.freed c = false → xa'.freed c = false) := by
  rcases eq_or_ne e .null with rfl | hne
  · obtain ⟨xa', xas', hstore, hholds, herr, hfreed⟩ := xasStore_null_spec h hxas hfrom
    exact ⟨xa', xas', hstore, hholds, herr, fun hs c hc => by rw [hfreed (hs rfl), hc]⟩
  have hfrom' : CreateFrom T i xas := by
    rw [← hxas.index]
    rcases hfrom with (hr | hb) | ⟨hnull, -, -⟩ | ⟨l, n, hn, -, hnode, hoffset⟩
    exacts [.inr (.inr (.inl hr)), .inr (.inl hb), .inl hnull,
      .inr (.inr (.inr ⟨l, n, hn, hnode, hoffset⟩))]
  have hmarks : marksAfter (markAt xa T) i e = markAt xa T := by
    funext m j
    simp [marksAfter, hne]
  simp only [xasStore, hne, if_false]
  rcases xasCreate_spec (h.growing i) hi hxas.index hxas.shift hxas.sibs hxas.alloc hfrom'
    (decide (¬xaIsNode e = true ∧ ¬xaIsZero e = true)) with ⟨rfl, hplain, hcreate⟩ | hdone
  · -- Index `0` of an array without nodes.
    rw [hcreate, bind_some, entryAt, readAt_head h.body.toIsTree (ne_node_of_isPlain hplain)]
    obtain ⟨xa', hstore, hholds, hfreed⟩ := xasStoreAt_bare h hplain (hxas.move .null _) rfl he
    exact ⟨xa', _, hstore, hholds, rfl, fun _ c hc => by rw [hfreed, hc]⟩
  -- The path to the leaf is there.
  cases hres : xasCreate xa xas (decide (¬xaIsNode e = true ∧ ¬xaIsZero e = true)) with
  | none =>
    rw [hres] at hdone
    exact hdone.elim
  | some res =>
    obtain ⟨xa1, xas1, first⟩ := res
    rw [hres] at hdone
    obtain ⟨T1, n, hgrow, hn, rfl, rfl⟩ := hdone
    have hk : i % 4 < 4 := by omega
    have hslot : entryAt xa T i = xa1.slots n (i % 4) := by
      rw [← hgrow.entries, entryAt, readAt_leaf hn]
    rw [bind_some, hmarks, hslot]
    by_cases hnew : xa1.slots n (i % 4) = e
    · refine ⟨xa1, { xas with xaNode := .node n, xaOffset := i % 4 }, ?_, ?_, rfl,
        fun _ => hgrow.unfreed⟩
      · have hshift : xa1.shift n = 0 := by simpa using hgrow.body.shift hn
        simp [xasStoreAt, xasInvalid, toPtr, hnew, hshift, hxas.sibs]
      · rw [← hnew, ← hslot, update_eq_self]
        exact hgrow.holds hn (hnew ▸ hne)
    have hset := slotSet_stored hgrow.body hn hk e
    refine ⟨stored xa1 n (i % 4) e, { xas with xaNode := .node n, xaOffset := i % 4 }, ?_,
      (hgrow.slotSet hn hset he hne).holds hn ?_, rfl, fun _ => hgrow.unfreed⟩
    · exact xasStoreAt_leaf hgrow.body hn hk (hxas.move _ _) rfl rfl hne hnew
    · rw [hset.slots, update_self]
      exact hne

omit h

end

end LinuxKernelTest
