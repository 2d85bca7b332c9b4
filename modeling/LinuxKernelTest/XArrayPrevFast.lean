import LinuxKernelTest.XArrayForEach

/-!
# XArray : the fast backward iterator

`xas_prev_fast` goes down the slots of a leaf and on to `node->prev`, and reads the index of an
entry from its value. `xa_mk_value` keeps 63 bits, so an index from `2 ^ 63` on comes out wrong, and
where the head is a bare entry there is no node whose `prev` it could follow.
-/

namespace LinuxKernelTest

section

variable {xa : XArray} {T : Layout} {P : ℕ → Prop} {i j l p k s max : ℕ} {n : NodeId}
  {xas : XaState} {t : XaMap}

/-! ## One step -/

/-- What `xas_prev_fast` ends with when it goes on from `j`. -/
def PrevFastEnd (xa : XArray) (T : Layout) (j : ℕ) (r : XaEntry × XaState) : Prop :=
  (∃ j' n, IsFirst (· > ·) (fun x => entryAt xa T x ≠ .null ∧ j > x) (some j') ∧
      r.1 = entryAt xa T j' ∧ LeafAt T j' n r.2 ∧ r.2.xaIndex = j' % 2 ^ 63) ∨
    IsFirst (· > ·) (fun x => entryAt xa T x ≠ .null ∧ j > x) none ∧ r.1 = .null

/-- The state of `xas_prev_fast` between two slots : no entry lies before `j` down to the index
`i` it stands at. -/
def PrevFastAt (xa : XArray) (T : Layout) (j v : ℕ) (st : XaState × XasNode) : Prop :=
  ∃ i n xas, st = (xas, .node n) ∧ LeafAt T i n xas ∧ xas.xaIndex < 2 ^ 64 ∧ i ≤ j ∧ i = v ∧
    ∀ x, i ≤ x → x < j → entryAt xa T x = .null

/-- What a round of `xas_prev_fast` does. -/
def PrevFastStep (xa : XArray) (T : Layout) (j v : ℕ)
    (r : Round (XaState × XasNode) (Option (XaEntry × XaState))) : Prop :=
  (∃ st v', r = .again st ∧ v' < v ∧ PrevFastAt xa T j v' st) ∨
    ∃ b, r = .done b ∧ ∃ q, b = some q ∧ PrevFastEnd xa T j q

/-- The round of `xas_prev_fast` at a slot of the leaf. -/
theorem prevFastRound_slot (hi : xas.xaIndex < 2 ^ 64) (hoffset : xas.xaOffset = k + 1)
    (hk : k < 3) (hint : xaIsInternal (xa.slots n k) = false) :
    prevFastRound xa ulongMax (xas, .node n) =
      if xa.slots n k = .null then
        .again ({ xas with xaOffset := k, xaIndex := xaToValue (xa.slots n k) }, .node n)
      else .done (some (xa.slots n k,
        { xas with xaOffset := k, xaIndex := xaToValue (xa.slots n k) })) := by
  have hmax : ¬xas.xaIndex > ulongMax := by
    rw [ulongMax]
    omega
  have hk' : ¬k + 1 > 4 := by omega
  simp [prevFastRound, hmax, hoffset, hk', hint]

/-- The round of `xas_prev_fast` before the first slot of the leaf `n`. -/
theorem prevFastRound_prev (hi : xas.xaIndex < 2 ^ 64) (hoffset : xas.xaOffset = 0) {c : NodeId}
    (hprev : xa.prev n = some c) (hint : xaIsInternal (xa.slots c 3) = false) :
    prevFastRound xa ulongMax (xas, .node n) =
      if xa.slots c 3 = .null then
        .again ({ xas with xaNode := .node c, xaOffset := 3, xaIndex := xaToValue (xa.slots c 3) },
          .node c)
      else .done (some (xa.slots c 3,
        { xas with xaNode := .node c, xaOffset := 3, xaIndex := xaToValue (xa.slots c 3) })) := by
  have hmax : ¬xas.xaIndex > ulongMax := by
    rw [ulongMax]
    omega
  simp [prevFastRound, hmax, hoffset, hprev, XasNode.ofPtr, hint]

section

variable (h : XaInv xa T)
  (hval : ∀ i, entryAt xa T i = .null ∨ entryAt xa T i = xaMkValue i)

include hval

/-- A round that reads the entry at `i`, the next index with a slot. -/
theorem prevFastStep_read {v : ℕ} (hat : LeafAt T i n xas) (hj : i < j) (hv : i < v)
    (hbefore : ∀ x, i < x → x < j → entryAt xa T x = .null)
    (hindex : xas.xaIndex = xaToValue (xa.slots n (i % 4))) :
    PrevFastStep xa T j v (if xa.slots n (i % 4) = .null then .again (xas, .node n)
      else .done (some (xa.slots n (i % 4), xas))) := by
  by_cases hnull : xa.slots n (i % 4) = .null
  · rw [if_pos hnull]
    refine .inl ⟨_, _, rfl, hv, i, n, xas, rfl, hat, ?_, hj.le, rfl, fun x hx hxj => ?_⟩
    · rw [hindex, hnull]
      exact Nat.two_pow_pos 64
    · rcases hx.eq_or_lt with rfl | hx'
      exacts [hat.entryAt_eq.trans hnull, hbefore x hx' hxj]
  rw [if_neg hnull]
  have hne : entryAt xa T i ≠ .null := by rwa [hat.entryAt_eq]
  refine .inr ⟨_, rfl, _, rfl, .inl ⟨i, n, ⟨⟨hne, hj⟩, fun x hx => ?_⟩, hat.entryAt_eq.symm, hat,
    ?_⟩⟩
  · rcases lt_trichotomy x i with hlt | heq | hgt
    exacts [.inr hlt, .inl heq, absurd (hbefore x hgt hx.2) hx.1]
  · rw [hindex]
    exact (slot_of_holdsValues hval hat).2 hne

include h

theorem prevFastRound_step (v : ℕ)
    (st : XaState × XasNode) (hst : PrevFastAt xa T j v st) :
    PrevFastStep xa T j v (prevFastRound xa ulongMax st) := by
  obtain ⟨i, n, xas, rfl, hat, hi, hij, rfl, hnone⟩ := hst
  by_cases hfirst : i % 4 = 0
  · rcases hprev : xa.prev n with _ | c
    · -- The first leaf : `xas_find` is called without a node.
      have hround : prevFastRound xa ulongMax (xas, .node n) =
          .done (some (setBounds { xas with xaNode := .null, xaOffset := 4, xaIndex := 1 })) := by
        have hmax : ¬xas.xaIndex > ulongMax := by
          rw [ulongMax]
          omega
        simp [prevFastRound, hmax, hat.xaOffset, hfirst, hprev, XasNode.ofPtr, xasFind, setBounds]
      refine .inr ⟨_, hround, _, rfl, .inr ⟨fun x hx => hx.1 ?_, rfl⟩⟩
      rcases Nat.lt_or_ge x i with hxi | hix
      · exact h.entryAt_of_prev_none hat.leaf hprev (by omega)
      · exact hnone x hix hx.2
    · obtain ⟨q, hqp, hq, hbetween⟩ := h.entryAt_of_prev_some hat.leaf hprev
      have hq4 : (4 * q + 3) % 4 = 3 := by omega
      have hat' : LeafAt T (4 * q + 3) c
          { xas with xaNode := .node c, xaOffset := 3, xaIndex := xaToValue (xa.slots c 3) } :=
        ⟨by rw [show (4 * q + 3) / 4 = q by omega]; exact hq, rfl, hq4.symm, hat.xaShift⟩
      have hint := (slot_of_holdsValues hval hat').1
      rw [hq4] at hint
      rw [prevFastRound_prev hi (hat.xaOffset.trans hfirst) hprev hint]
      have hstep := prevFastStep_read hval hat' (j := j) (v := i) (by omega) (by omega)
        (fun x hx hxj => ?_) (by rw [hq4])
      · rwa [hq4] at hstep
      · rcases Nat.lt_or_ge x i with hxi | hix
        exacts [hbetween x hx (by omega), hnone x hix hxj]
  · obtain ⟨i, rfl⟩ : ∃ d, i = d + 1 := ⟨i - 1, by omega⟩
    have hmod : (i + 1) % 4 = i % 4 + 1 := by omega
    have hat' : LeafAt T i n
        { xas with xaOffset := i % 4, xaIndex := xaToValue (xa.slots n (i % 4)) } :=
      ⟨by rw [show i / 4 = (i + 1) / 4 by omega]; exact hat.leaf, hat.xaNode, rfl, hat.xaShift⟩
    have hint := (slot_of_holdsValues hval hat').1
    rw [prevFastRound_slot hi (hat.xaOffset.trans hmod) (by omega) hint]
    exact prevFastStep_read hval hat' (by omega) (by omega) (fun x hx hxj => hnone x hx hxj) rfl

/-- `xas_prev_fast` goes on to the previous entry. -/
theorem xasPrevFast_spec (hat : LeafAt T j n xas) (hi : xas.xaIndex = j) :
    ∃ r, xasPrevFast xa xas ulongMax = some r ∧ PrevFastEnd xa T j r := by
  have hbound := (h.body.bound hat.leaf).2
  obtain ⟨b, hrun, r, rfl, hend⟩ := runLoop_of_rank
    (prevFastRound_step (j := j) h hval) ⟨j, n, xas, rfl, hat, by omega, le_rfl, rfl,
      fun x hx hxj => absurd hx (not_le.mpr hxj)⟩ (n := xaFuel) (by unfold xaFuel; omega)
  refine ⟨r, ?_, hend⟩
  rw [xasPrevFast, hat.xaNode, hrun]
  rfl

/-- From the entry at `j` on the backward iterator lists what it should exactly when the
entries before `j` have indices below `2 ^ 63`. -/
theorem prevFast_lists_iff :
    ∀ {fuel j : ℕ} {n : NodeId} {xas : XaState} {l : List ℕ}, LeafAt T j n xas → xas.xaIndex = j →
      entryAt xa T j ≠ .null → j < fuel →
      Lists (· > ·) (fun x => x ≤ j ∧ entryAt xa T x ≠ .null) l →
      (iterate XaState.xaIndex (fun xas => xasPrevFast xa xas ulongMax) fuel (entryAt xa T j, xas) =
          some (l.map fun x => (x, entryAt xa T x)) ↔
        ∀ x, entryAt xa T x ≠ .null → x < j → x < 2 ^ 63)
  | 0, j, n, xas, l, _, _, _, hfuel, _ => by omega
  | fuel + 1, j, n, xas, l, hat, hi, hne, hfuel, hl => by
    obtain ⟨l, rfl, hl'⟩ := hl.uncons ⟨⟨le_rfl, hne⟩, fun x hx => hx.1.eq_or_lt⟩
    obtain ⟨⟨e, xas'⟩, hprev, hend⟩ := xasPrevFast_spec h hval hat hi
    have hcons := iterate_succ_eq_cons XaState.xaIndex (fun xas => xasPrevFast xa xas ulongMax) fuel
      hne hprev (l.map fun x => (x, entryAt xa T x))
    rw [hi] at hcons
    rw [List.map_cons, hcons]
    rcases hend with ⟨j', n', ⟨⟨hne', hjj'⟩, hbefore⟩, he, hat', hi'⟩ | ⟨hfirst, he⟩
    · dsimp only at he hat' hi'
      have hl'' : Lists (· > ·) (fun x => x ≤ j' ∧ entryAt xa T x ≠ .null) l :=
        hl'.congr fun x => ⟨fun ⟨⟨_, hx⟩, hxj⟩ => ⟨?_, hx⟩,
          fun ⟨hxj', hx⟩ => ⟨⟨hxj'.trans hjj'.le, hx⟩, hxj'.trans_lt hjj'⟩⟩
      · rw [he]
        by_cases hsmall : j' < 2 ^ 63
        · rw [Nat.mod_eq_of_lt hsmall] at hi'
          rw [prevFast_lists_iff hat' hi' hne' (by omega) hl'']
          exact ⟨fun _ x hx hxj => (hbefore x ⟨hx, hxj⟩).elim (fun heq => heq ▸ hsmall)
            fun hlt => hlt.trans hsmall, fun hall x hx hxj' => hall x hx (hxj'.trans hjj')⟩
        -- The index is taken from the value and comes out wrong.
        obtain ⟨l, rfl, -⟩ := hl''.uncons ⟨⟨le_rfl, hne'⟩, fun x hx => hx.1.eq_or_lt⟩
        refine iff_of_false (fun hiter => ?_) fun hall => hsmall (hall j' hne' hjj')
        have hpair := (of_iterate_cons hiter).1
        rw [hi'] at hpair
        have := (Prod.mk.inj hpair).1
        omega
      · rcases hbefore x ⟨hx, hxj⟩ with rfl | hlt
        exacts [le_rfl, hlt.le]
    · dsimp only at he
      rw [he, iterate_null, hl'.eq_nil fun x hx => hfirst x ⟨hx.1.2, hx.2⟩]
      exact iff_of_true rfl fun x hx hxj => absurd ⟨hx, hxj⟩ (hfirst x)

end

/-- At a bare head the backward iterator follows `prev` of no node. -/
theorem xasPrevFast_bare (max : ℕ) :
    xasPrevFast xa { xaStateInit 0 with xaNode := .null } max = none := by
  have hround : prevFastRound xa max ({ xaStateInit 0 with xaNode := .null }, .null) =
      .done none := by
    simp [prevFastRound, xaStateInit]
  rw [xasPrevFast, runLoop_of_done hround xaFuel_pos]
  rfl

/-- When the backward iterator is right : the array has a node, and the entries before `s` have
indices below `2 ^ 63`. -/
def PrevFastRight (xa : XArray) (t : XaMap) (s : ℕ) : Prop :=
  xaIsNode xa.xaHead = true ∧ ∀ x, t.get x ≠ .null → x < s → x < 2 ^ 63

theorem xasForEachPrevFast_iff (h : Represents xa t) (hval : HoldsValues t) (hs : s < 2 ^ 64)
    (hpresent : t.get s ≠ .null) {fuel : ℕ} (hfuel : 2 ^ 64 ≤ fuel) {l : List ℕ}
    (hl : Lists (· > ·) (fun x => x ≤ s ∧ t.get x ≠ .null) l) :
    xasForEachPrevFast xa (xaStateInit s) ulongMax fuel = some (l.map fun x => (x, t.get x)) ↔
      PrevFastRight xa t s := by
  obtain ⟨T, hinv, hE, -⟩ := h.exists_layout
  have hval' : ∀ i, entryAt xa T i = .null ∨ entryAt xa T i = xaMkValue i := hE ▸ hval
  have hfrom : SearchFrom xa T (xaStateInit s) s := SearchFrom.restart rfl rfl
  obtain ⟨⟨e, xas⟩, hfind, hend⟩ := xasFind_spec hinv.body hfrom ulongMax
  rw [xasForEachPrevFast, hfind, Option.bind_some, PrevFastRight]
  rw [← hE] at hpresent hl ⊢
  have hin : InRange (fun x => entryAt xa T x ≠ .null) s ulongMax s :=
    ⟨le_rfl, by rw [ulongMax]; omega, hpresent⟩
  rcases hend with ⟨hfirst, hne, hi, hfrom'⟩ | ⟨hfirst, -⟩
  case none => exact absurd hin (hfirst s)
  case found j =>
    obtain rfl : s = j := by
      rcases hfirst.2 s hin with heq | hlt
      exacts [heq, absurd hlt (not_lt.mpr hfirst.1.1)]
    rcases hfrom'.leafAt_or_head hi rfl with ⟨n, hat⟩ | ⟨rfl, hhead⟩
    · obtain ⟨r, hr⟩ := hinv.body.exists_head hat.leaf
      rw [prevFast_lists_iff hinv hval' hat hi hne (by omega) hl, hr]
      exact ⟨fun hall => ⟨rfl, hall⟩, fun hright => hright.2⟩
    -- A bare head : the step behind it fails.
    rw [xasFind_bare hhead] at hfind
    obtain ⟨-, rfl⟩ := Prod.mk.inj (Option.some.inj hfind)
    obtain ⟨d, rfl⟩ : ∃ d, fuel = d + 1 := ⟨fuel - 1, by omega⟩
    refine iff_of_false (fun hiter => ?_) fun hright => ?_
    · rw [iterate, if_neg hne, xasPrevFast_bare] at hiter
      cases hiter
    · have hnode := hright.1
      rcases hs : xa.xaHead with _ | v | w | c | o | _ | _
      case node => exact hhead _ hs
      all_goals
        rw [hs] at hnode
        exact Bool.false_ne_true hnode

/-- In every array a run reaches that holds `xa_mk_value(i)` at each present `i`, the backward
iterator started at a present `s` lists the entries up to `s` from the top and stops, exactly
when `PrevFastRight` holds. -/
theorem xaRun_prevFast {ops : List XaOp} (hops : ∀ o ∈ ops, o.Valid)
    (hval : HoldsValues (XaMap.run ops).1) :
    ∃ xa answers, xaRun ops = some (xa, answers) ∧
      ∀ s, s < 2 ^ 64 → (XaMap.run ops).1.get s ≠ .null → ((∀ fuel, 2 ^ 64 ≤ fuel → ∃ l,
            xasForEachPrevFast xa (xaStateInit s) ulongMax fuel =
              some (l.map fun x => (x, (XaMap.run ops).1.get x)) ∧
            Lists (· > ·) (fun x => x ≤ s ∧ (XaMap.run ops).1.get x ≠ .null) l) ↔
          PrevFastRight xa (XaMap.run ops).1 s) := by
  obtain ⟨xa, hrun, hrep⟩ := xaRun_refines hops
  refine ⟨xa, _, hrun, fun s hs hpresent => ⟨fun hlists => ?_, fun hright fuel hfuel => ?_⟩⟩
  · obtain ⟨l, hiter, hl⟩ := hlists _ le_rfl
    exact (xasForEachPrevFast_iff hrep hval hs hpresent le_rfl hl).mp hiter
  · obtain ⟨l, hl⟩ := exists_lists_desc (fun x => (XaMap.run ops).1.get x ≠ .null) s
    exact ⟨l, (xasForEachPrevFast_iff hrep hval hs hpresent hfuel hl).mpr hright, hl⟩

/-- From `8` with entries at `0` and `8` the backward iterator is right. -/
theorem xaRun_prevFast_two :
    HoldsValues (XaMap.run [.store 0 (.value 0), .store 8 (.value 8)]).1 ∧
    ∃ xa answers, xaRun [.store 0 (.value 0), .store 8 (.value 8)] = some (xa, answers) ∧
      ∀ fuel, 2 ^ 64 ≤ fuel →
        ∃ l, xasForEachPrevFast xa (xaStateInit 8) ulongMax fuel = some l := by
  have hops : ∀ o ∈ [XaOp.store 0 (.value 0), .store 8 (.value 8)], o.Valid := by
    simp [XaOp.Valid]
  obtain ⟨xa, answers, hrun, hiff⟩ := xaRun_prevFast hops holdsValues_two
  have hnode : (xaRun [.store 0 (.value 0), .store 8 (.value 8)]).map
      (fun r => xaIsNode r.1.xaHead) = some true := by
    decide +kernel
  rw [hrun] at hnode
  refine ⟨holdsValues_two, xa, answers, hrun, fun fuel hfuel => ?_⟩
  obtain ⟨l, hl, -⟩ := (hiff 8 (by norm_num) (by decide)).mpr
    ⟨Option.some.inj hnode, fun x _ hx => by omega⟩ fuel hfuel
  exact ⟨_, hl⟩

/-- With only the entry at `0` the backward iterator reads through a null pointer. -/
theorem prevFast_bare_head :
    (xaRun [.store 0 (.value 0)]).isSome = true ∧ ((xaRun [.store 0 (.value 0)]).bind fun r =>
        xasForEachPrevFast r.1 (xaStateInit 0) ulongMax 16) = none := by
  decide +kernel

end

end LinuxKernelTest
