import LinuxKernelTest.XArrayForEach

/-!
# XArray : the fast forward iterator

`xas_next_fast` goes through the slots of a leaf and on to `node->next`, and reads the index of an
entry from its value. `xa_mk_value` keeps 63 bits, so an index from `2 ^ 63` on comes out wrong. It
looks at `max` only where it stands, so it runs past `max` to the next entry unless it stands at
`max`.
-/

namespace LinuxKernelTest

section

variable {xa : XArray} {T : Layout} {P : ℕ → Prop} {i j l p k s max : ℕ} {n : NodeId}
  {xas : XaState} {t : XaMap}

/-! ## One step -/

/-- What `xas_next_fast` ends with when it goes on from `j` : the next entry, wherever it is,
with the index its value gives, or `NULL` where there is none. -/
def NextFastEnd (xa : XArray) (T : Layout) (j : ℕ) (r : XaEntry × XaState) : Prop :=
  (∃ j' n, IsFirst (· < ·) (fun x => entryAt xa T x ≠ .null ∧ j < x) (some j') ∧
      r.1 = entryAt xa T j' ∧ LeafAt T j' n r.2 ∧ r.2.xaIndex = j' % 2 ^ 63) ∨
    IsFirst (· < ·) (fun x => entryAt xa T x ≠ .null ∧ j < x) none ∧ r.1 = .null

/-- The round of `xas_next_fast` at a slot of the leaf. -/
theorem nextFastRound_slot (hmax : xas.xaIndex < max) (hoffset : xas.xaOffset ≠ 3)
    (hk : k < 4) (hint : xaIsInternal (xa.slots n k) = false) :
    nextFastRound xa max (xas, .node n, k) =
      if xa.slots n k = .null then
        .again ({ xas with xaOffset := k, xaIndex := xaToValue (xa.slots n k) }, .node n, k + 1)
      else .done (some (xa.slots n k,
        { xas with xaOffset := k, xaIndex := xaToValue (xa.slots n k) })) := by
  have hmax' : ¬xas.xaIndex ≥ max := by omega
  have hk' : ¬k ≥ 4 := by omega
  simp [nextFastRound, hmax', hoffset, hk', hint]

/-- The round of `xas_next_fast` behind the last slot of the leaf `n`. -/
theorem nextFastRound_next (hmax : xas.xaIndex < max) (hoffset : xas.xaOffset = 3) {c : NodeId}
    (hnext : xa.next n = some c) (hint : xaIsInternal (xa.slots c 0) = false) :
    nextFastRound xa max (xas, .node n, k) =
      if xa.slots c 0 = .null then
        .again ({ xas with xaNode := .node c, xaOffset := 0, xaIndex := xaToValue (xa.slots c 0) },
          .node c, 1)
      else .done (some (xa.slots c 0,
        { xas with xaNode := .node c, xaOffset := 0, xaIndex := xaToValue (xa.slots c 0) })) := by
  have hmax' : ¬xas.xaIndex ≥ max := by omega
  simp [nextFastRound, hmax', hoffset, hnext, XasNode.ofPtr, hint]

/-- The state of `xas_next_fast` between two slots : no entry lies behind `j` up to the index
`i` it stands at. -/
def NextFastAt (xa : XArray) (T : Layout) (j max v : ℕ) (st : XaState × XasNode × ℕ) : Prop :=
  ∃ i n xas, st = (xas, .node n, i % 4 + 1) ∧ LeafAt T i n xas ∧ xas.xaIndex < max ∧ j ≤ i ∧
    v = 2 ^ 64 - i ∧ ∀ x, j < x → x ≤ i → entryAt xa T x = .null

/-- What a round of `xas_next_fast` does. -/
def NextFastStep (xa : XArray) (T : Layout) (j max v : ℕ)
    (r : Round (XaState × XasNode × ℕ) (Option (XaEntry × XaState))) : Prop :=
  (∃ st v', r = .again st ∧ v' < v ∧ NextFastAt xa T j max v' st) ∨
    ∃ b, r = .done b ∧ ∃ q, b = some q ∧ NextFastEnd xa T j q

/-- `xas_next_fast` at `max` ends. -/
theorem xasNextFast_max (h : Body xa T) (hat : LeafAt T j n xas) (hi : xas.xaIndex = j)
    (hmax : max ≤ j) : ∃ xas', xasNextFast xa xas max = some (.null, xas') := by
  obtain ⟨⟨e, xas'⟩, hfind, hend⟩ := xasFind_spec h (hat.searchFrom hi) max
  have hround : ∀ node slot,
      nextFastRound xa max (xas, node, slot) = .done (xasFind xa xas max) := by
    intro node slot
    have hge : xas.xaIndex ≥ max := by omega
    simp [nextFastRound, hge]
  refine ⟨xas', ?_⟩
  rw [xasNextFast, runLoop_of_done (hround _ _) xaFuel_pos, hfind]
  rcases hend with ⟨hfirst, -⟩ | -
  · have := hfirst.1.1
    have := hfirst.1.2.1
    omega
  · rfl

section

variable (h : XaInv xa T)
  (hval : ∀ i, entryAt xa T i = .null ∨ entryAt xa T i = xaMkValue i)

include hval

/-- A round that reads the entry at `i`, the next index with a slot. -/
theorem nextFastStep_read {v : ℕ} (hat : LeafAt T i n xas) (hmax : 0 < max) (hj : j < i)
    (hv : 2 ^ 64 - i < v)
    (hbefore : ∀ x, j < x → x < i → entryAt xa T x = .null)
    (hindex : xas.xaIndex = xaToValue (xa.slots n (i % 4))) :
    NextFastStep xa T j max v (if xa.slots n (i % 4) = .null then .again (xas, .node n, i % 4 + 1)
      else .done (some (xa.slots n (i % 4), xas))) := by
  by_cases hnull : xa.slots n (i % 4) = .null
  · rw [if_pos hnull]
    refine .inl ⟨_, _, rfl, hv, i, n, xas, rfl, hat, ?_, hj.le, rfl, fun x hx hxi => ?_⟩
    · rw [hindex, hnull]
      exact hmax
    · rcases hxi.eq_or_lt with rfl | hxi'
      exacts [hat.entryAt_eq.trans hnull, hbefore x hx hxi']
  rw [if_neg hnull]
  have hne : entryAt xa T i ≠ .null := by rwa [hat.entryAt_eq]
  refine .inr ⟨_, rfl, _, rfl, .inl ⟨i, n, ⟨⟨hne, hj⟩, fun x hx => ?_⟩, hat.entryAt_eq.symm, hat,
    ?_⟩⟩
  · rcases lt_trichotomy x i with hlt | heq | hgt
    exacts [absurd (hbefore x hx.2 hlt) hx.1, .inl heq, .inr hgt]
  · rw [hindex]
    exact (slot_of_holdsValues hval hat).2 hne

include h

theorem nextFastRound_step (v : ℕ)
    (st : XaState × XasNode × ℕ) (hst : NextFastAt xa T j max v st) :
    NextFastStep xa T j max v (nextFastRound xa max st) := by
  obtain ⟨i, n, xas, rfl, hat, hmax, hji, rfl, hnone⟩ := hst
  have hpos : 0 < max := Nat.zero_lt_of_lt hmax
  by_cases hlast : i % 4 = 3
  · rcases hnext : xa.next n with _ | c
    · -- The last leaf : `xas_find` is called without a node.
      have hround : nextFastRound xa max (xas, .node n, i % 4 + 1) =
          .done (some (setBounds { xas with xaNode := .null, xaIndex := 1 })) := by
        have hmax' : ¬xas.xaIndex ≥ max := by omega
        have hmax'' : ¬xas.xaIndex > max := by omega
        simp [nextFastRound, hmax', hat.xaOffset, hlast, hnext, XasNode.ofPtr, xasFind, hmax'',
          setBounds]
      refine .inr ⟨_, hround, _, rfl, .inr ⟨fun x hx => hx.1 ?_, rfl⟩⟩
      rcases Nat.lt_or_ge i x with hix | hxi
      · exact h.entryAt_of_next_none hat.leaf hnext (by omega)
      · exact hnone x hx.2 hxi
    · obtain ⟨q, hpq, hq, hbetween⟩ := h.entryAt_of_next_some hat.leaf hnext
      have hq4 : 4 * q % 4 = 0 := by omega
      have hat' : LeafAt T (4 * q) c
          { xas with xaNode := .node c, xaOffset := 0, xaIndex := xaToValue (xa.slots c 0) } :=
        ⟨by rw [show 4 * q / 4 = q by omega]; exact hq, rfl, hq4.symm, hat.xaShift⟩
      have hint := (slot_of_holdsValues hval hat').1
      have hbound := (h.body.bound hq).2
      rw [hq4] at hint
      rw [nextFastRound_next hmax (hat.xaOffset.trans hlast) hnext hint]
      have hstep := nextFastStep_read hval hat' hpos (j := j) (v := 2 ^ 64 - i) (by omega)
        (by omega) (fun x hx hxq => ?_) (by rw [hq4])
      · rwa [hq4] at hstep
      · rcases Nat.lt_or_ge i x with hix | hxi
        exacts [hbetween x (by omega) hxq, hnone x hx hxi]
  · have hmod : (i + 1) % 4 = i % 4 + 1 := by omega
    have hat' : LeafAt T (i + 1) n
        { xas with xaOffset := i % 4 + 1, xaIndex := xaToValue (xa.slots n (i % 4 + 1)) } :=
      ⟨by rw [show (i + 1) / 4 = i / 4 by omega]; exact hat.leaf, hat.xaNode, hmod.symm,
        hat.xaShift⟩
    have hint := (slot_of_holdsValues hval hat').1
    have hbound := (h.body.bound hat.leaf).2
    rw [hmod] at hint
    rw [nextFastRound_slot hmax (by rw [hat.xaOffset]; exact hlast) (by omega) hint]
    have hstep := nextFastStep_read hval hat' hpos (j := j) (v := 2 ^ 64 - i) (by omega)
      (by omega) (fun x hx hxi => hnone x hx (by omega)) (by rw [hmod])
    rwa [hmod] at hstep

/-- `xas_next_fast` below `max` goes on to the next entry. -/
theorem xasNextFast_below (hat : LeafAt T j n xas) (hi : xas.xaIndex = j) (hmax : j < max) :
    ∃ r, xasNextFast xa xas max = some r ∧ NextFastEnd xa T j r := by
  obtain ⟨b, hrun, r, rfl, hend⟩ := runLoop_of_rank (I := NextFastAt xa T j max)
    (nextFastRound_step h hval) ⟨j, n, xas, rfl, hat, by omega, le_rfl, rfl,
      fun x hx hxj => absurd hx (not_lt.mpr hxj)⟩ (n := xaFuel) (by unfold xaFuel; omega)
  refine ⟨r, ?_, hend⟩
  rw [xasNextFast, hat.xaNode, hat.xaOffset, hrun]
  rfl

/-- From the entry at `j` on the fast iterator lists what it should exactly when the entries
behind `j` have indices below `2 ^ 63` and it does not run past `max`. -/
theorem nextFast_lists_iff :
    ∀ {fuel j : ℕ} {n : NodeId} {xas : XaState} {l : List ℕ}, LeafAt T j n xas → xas.xaIndex = j →
      entryAt xa T j ≠ .null → j ≤ max → max < j + fuel →
      Lists (· < ·) (InRange (fun x => entryAt xa T x ≠ .null) j max) l →
      (iterate XaState.xaIndex (fun xas => xasNextFast xa xas max) fuel (entryAt xa T j, xas) =
          some (l.map fun x => (x, entryAt xa T x)) ↔
        (∀ x, entryAt xa T x ≠ .null → j < x → x ≤ max → x < 2 ^ 63) ∧
          (entryAt xa T max ≠ .null ∨ ∀ x, entryAt xa T x ≠ .null → x ≤ max))
  | 0, j, n, xas, l, _, _, _, hmax, hfuel, _ => by omega
  | fuel + 1, j, n, xas, l, hat, hi, hne, hmax, hfuel, hl => by
    obtain ⟨l, rfl, hl'⟩ := hl.uncons (isFirst_range le_rfl hmax hne fun x hx hlt => by omega)
    replace hl' := hl'.congr fun x => inRange_behind le_rfl x
    rw [List.map_cons]
    rcases hmax.eq_or_lt with rfl | hlt
    · -- At `max` the iteration ends.
      obtain ⟨xas', hnext⟩ := xasNextFast_max h.body hat hi le_rfl
      have hcons := iterate_succ_eq_cons XaState.xaIndex (fun xas => xasNextFast xa xas j) fuel hne
        hnext (l.map fun x => (x, entryAt xa T x))
      rw [hi] at hcons
      rw [hcons, iterate_null, hl'.eq_nil fun x hx => by have := hx.1; have := hx.2.1; omega]
      simp only [List.map_nil, true_iff]
      exact ⟨fun x _ hx hxmax => by omega, .inl hne⟩
    obtain ⟨⟨e, xas'⟩, hnext, hend⟩ := xasNextFast_below h hval hat hi hlt
    have hcons := iterate_succ_eq_cons XaState.xaIndex (fun xas => xasNextFast xa xas max) fuel hne
      hnext (l.map fun x => (x, entryAt xa T x))
    rw [hi] at hcons
    rw [hcons]
    rcases hend with ⟨j', n', hfirst, he, hat', hi'⟩ | ⟨hfirst, he⟩
    · dsimp only at he hat' hi'
      obtain ⟨⟨hne', hjj'⟩, hbefore⟩ := hfirst
      have hbetween : ∀ x, entryAt xa T x ≠ .null → j < x → x < j' → False :=
        fun x hx hxj hxj' => by
          rcases hbefore x ⟨hx, hxj⟩ with heq | hgt <;> omega
      rw [he]
      by_cases hj' : j' ≤ max
      · have hfirst' := isFirst_range (P := fun x => entryAt xa T x ≠ .null) hjj' hj' hne'
          fun x hx hxj' hxne => hbetween x hxne hx hxj'
        by_cases hsmall : j' < 2 ^ 63
        · rw [Nat.mod_eq_of_lt hsmall] at hi'
          have hl'' : Lists (· < ·) (InRange (fun x => entryAt xa T x ≠ .null) j' max) l :=
            hl'.congr fun x => ⟨fun ⟨hx, hxmax, hxne⟩ =>
              ⟨not_lt.mp fun hxj' => hbetween x hxne hx hxj', hxmax, hxne⟩,
              fun ⟨hx, hxmax, hxne⟩ => ⟨hjj'.trans_le hx, hxmax, hxne⟩⟩
          rw [nextFast_lists_iff hat' hi' hne' hj' (by omega) hl'']
          refine and_congr_left fun _ => ⟨fun hall x hxne hx hxmax => ?_,
            fun hall x hxne hx hxmax => hall x hxne (hjj'.trans hx) hxmax⟩
          rcases hbefore x ⟨hxne, hx⟩ with rfl | hgt
          exacts [hsmall, hall x hxne hgt hxmax]
        · -- The index is taken from the value and comes out wrong.
          obtain ⟨l, rfl, -⟩ := hl'.uncons hfirst'
          refine iff_of_false (fun hiter => ?_) fun hall => hsmall (hall.1 j' hne' hjj' hj')
          have hpair := (of_iterate_cons hiter).1
          rw [hi'] at hpair
          have := (Prod.mk.inj hpair).1
          omega
      · -- The next entry is behind `max`, and is visited all the same.
        have hnil := hl'.eq_nil fun x hx => by
          have := hx.2.1
          exact hbetween x hx.2.2 hx.1 (by omega)
        rw [hnil]
        refine iff_of_false (fun hiter => hne' (eq_null_of_iterate_nil hiter)) fun hall => ?_
        rcases hall.2 with hmaxne | habove
        · exact hbetween max hmaxne hlt (by omega)
        · exact hj' (habove j' hne')
    · dsimp only at he
      have hnil := hl'.eq_nil fun x hx => hfirst x ⟨hx.2.2, hx.1⟩
      rw [he, iterate_null, hnil]
      simp only [List.map_nil, true_iff]
      refine ⟨fun x hxne hx _ => absurd ⟨hxne, hx⟩ (hfirst x), .inr fun x hxne => ?_⟩
      by_contra hgt
      exact hfirst x ⟨hxne, by omega⟩

end

/-- At a bare head the fast forward iterator ends. -/
theorem xasNextFast_bare (max : ℕ) :
    xasNextFast xa { xaStateInit 0 with xaNode := .null } max =
      some (setBounds { xaStateInit 1 with xaNode := .null }) := by
  have hfind : xasFind xa { xaStateInit 0 with xaNode := .null } max =
      some (setBounds { xaStateInit 1 with xaNode := .null }) := by
    simp [xasFind, xaStateInit]
  have hround : ∀ slot, nextFastRound xa max
      ({ xaStateInit 0 with xaNode := .null }, .null, slot) =
        .done (xasFind xa { xaStateInit 0 with xaNode := .null } max) := by
    intro slot
    rcases Nat.eq_zero_or_pos max with rfl | hmax
    · simp [nextFastRound, xaStateInit]
    · simp [nextFastRound, xaStateInit, Nat.pos_iff_ne_zero.mp hmax]
  rw [xasNextFast, runLoop_of_done (hround _) xaFuel_pos, hfind]
  rfl

/-- When the fast forward iterator is right : from the first entry on, all entries up to `max`
have indices below `2 ^ 63`, and there is one at `max` or none behind it. -/
def NextFastRight (t : XaMap) (start max : ℕ) : Prop :=
  ∀ j, IsFirst (· < ·) (InRange (fun x => t.get x ≠ .null) start max) (some j) →
    (∀ x, t.get x ≠ .null → j < x → x ≤ max → x < 2 ^ 63) ∧
      (t.get max ≠ .null ∨ ∀ x, t.get x ≠ .null → x ≤ max)

theorem xasForEachNextFast_iff (h : Represents xa t) (hval : HoldsValues t) (start max : ℕ)
    (hmax : max < 2 ^ 64) {fuel : ℕ} (hfuel : 2 ^ 64 ≤ fuel) :
    xasForEachNextFast xa (xaStateInit start) max fuel =
        xasForEach xa (xaStateInit start) max fuel ↔ NextFastRight t start max := by
  obtain ⟨T, hinv, hE, -⟩ := h.exists_layout
  have hval' : ∀ i, entryAt xa T i = .null ∨ entryAt xa T i = xaMkValue i := hE ▸ hval
  obtain ⟨l, hplain, hl⟩ := xasForEach_spec hinv.body start max
    (show max + 1 - start ≤ fuel by omega)
  have hfrom : SearchFrom xa T (xaStateInit start) start := SearchFrom.restart rfl rfl
  obtain ⟨⟨e, xas⟩, hfind, hend⟩ := xasFind_spec hinv.body hfrom max
  rw [hplain, xasForEachNextFast, hfind, Option.bind_some, NextFastRight, ← hE]
  rcases hend with ⟨hfirst, hne, hi, hfrom'⟩ | ⟨hfirst, -⟩
  case found j =>
    have hunique : ∀ j', IsFirst (· < ·) (InRange (fun x => entryAt xa T x ≠ .null) start max)
        (some j') → j' = j := fun j' hj' => by
      rcases hj'.2 j hfirst.1 with heq | hlt
      · exact heq.symm
      · rcases hfirst.2 j' hj'.1 with heq | hlt'
        exacts [heq, absurd hlt (not_lt.mpr hlt'.le)]
    rcases hfrom'.leafAt_or_head hi rfl with ⟨n, hat⟩ | ⟨rfl, hhead⟩
    · have hl' : Lists (· < ·) (InRange (fun x => entryAt xa T x ≠ .null) j max) l :=
        hl.congr fun x => ⟨fun hx => ⟨?_, hx.2⟩, fun hx => ⟨hfirst.1.1.trans hx.1, hx.2⟩⟩
      · rw [nextFast_lists_iff hinv hval' hat hi hne hfirst.1.2.1 (by omega) hl']
        exact ⟨fun hright j' hj' => hunique j' hj' ▸ hright, fun hright => hright j hfirst⟩
      · rcases hfirst.2 x hx with rfl | hlt
        exacts [le_rfl, hlt.le]
    -- A bare head is the only entry.
    obtain rfl : start = 0 := Nat.le_zero.mp hfirst.1.1
    have hentry : ∀ x, entryAt xa T x ≠ .null → x = 0 := fun x hx => by
      by_contra hx0
      exact hx (hinv.body.entryAt_bare hhead hx0)
    rw [xasFind_bare hhead] at hfind
    obtain ⟨-, rfl⟩ := Prod.mk.inj (Option.some.inj hfind)
    obtain ⟨l, rfl, hl'⟩ := hl.uncons hfirst
    have hnil := hl'.eq_nil fun x hx => by
      have := hentry x hx.1.2.2
      have := hx.2
      omega
    refine iff_of_true ?_ fun j' hj' => ?_
    · obtain ⟨d, rfl⟩ : ∃ d, fuel = d + 1 := ⟨fuel - 1, by omega⟩
      rw [hnil]
      exact (iterate_succ_eq_cons XaState.xaIndex (fun xas => xasNextFast xa xas max) d hne
        (xasNextFast_bare max) []).mpr (iterate_null _ _)
    · refine ⟨fun x hx hlt _ => ?_, .inr fun x hx => ?_⟩
      · have := hentry x hx
        omega
      · have := hentry x hx
        omega
  case none =>
    rw [iterate_null, hl.eq_nil hfirst]
    exact iff_of_true rfl fun j hj => absurd hj.1 (hfirst j)

/-- In every array a run reaches that holds `xa_mk_value(i)` at each present `i`, the fast
forward iterator sees what `xas_for_each` sees exactly when `NextFastRight` holds. -/
theorem xaRun_nextFast {ops : List XaOp} (hops : ∀ o ∈ ops, o.Valid)
    (hval : HoldsValues (XaMap.run ops).1) :
    ∃ xa answers, xaRun ops = some (xa, answers) ∧ ∀ start max, start < 2 ^ 64 → max < 2 ^ 64 →
      ((∀ fuel, 2 ^ 64 ≤ fuel → xasForEachNextFast xa (xaStateInit start) max fuel =
          xasForEach xa (xaStateInit start) max fuel) ↔
        NextFastRight (XaMap.run ops).1 start max) := by
  obtain ⟨xa, hrun, hrep⟩ := xaRun_refines hops
  refine ⟨xa, _, hrun, fun start max _ hmax => ⟨fun heq => ?_, fun hright fuel hfuel => ?_⟩⟩
  · exact (xasForEachNextFast_iff hrep hval start max hmax le_rfl).mp (heq _ le_rfl)
  · exact (xasForEachNextFast_iff hrep hval start max hmax hfuel).mpr hright

/-- With entries at `0` and `8` and `max = 8` the two iterators agree. -/
theorem xaRun_nextFast_two :
    HoldsValues (XaMap.run [.store 0 (.value 0), .store 8 (.value 8)]).1 ∧
    ∃ xa answers, xaRun [.store 0 (.value 0), .store 8 (.value 8)] = some (xa, answers) ∧
      ∀ fuel, 2 ^ 64 ≤ fuel → xasForEachNextFast xa (xaStateInit 0) 8 fuel =
        xasForEach xa (xaStateInit 0) 8 fuel := by
  have hops : ∀ o ∈ [XaOp.store 0 (.value 0), .store 8 (.value 8)], o.Valid := by
    simp [XaOp.Valid]
  obtain ⟨xa, answers, hrun, hiff⟩ := xaRun_nextFast hops holdsValues_two
  refine ⟨holdsValues_two, xa, answers, hrun, (hiff 0 8 (by norm_num) (by norm_num)).mpr ?_⟩
  intro j hj
  exact ⟨fun x _ _ hx => by omega, .inl (by decide)⟩

/-- With entries at `0` and `8` and `max = 5` the fast iterator runs past `max` and sees the entry
at `8`. -/
theorem nextFast_past_max :
    ((xaRun [.store 0 (.value 0), .store 8 (.value 8)]).bind fun r =>
        xasForEachNextFast r.1 (xaStateInit 0) 5 16) = some [(0, .value 0), (8, .value 8)] ∧
      ((xaRun [.store 0 (.value 0), .store 8 (.value 8)]).bind fun r =>
        xasForEach r.1 (xaStateInit 0) 5 16) = some [(0, .value 0)] := by
  decide +kernel

end

end LinuxKernelTest
