import LinuxKernelTest.XArraySearch

/-!
# XArray : `xas_for_each` and the leaf list

`xas_for_each` lists the entries from its start to `max` (`xasForEach_spec`). The fast iterators
of the next two modules walk along the leaf list instead of the tree, so what they need of the
tree is said here in terms of a leaf and its neighbours : no entry lies between a leaf and its
`next`, or its `prev` (`XaInv.entryAt_of_next_some` and the lemmas around it). They take the
index of an entry from its value, so they are about arrays that hold `xa_mk_value(i)` at each
present index `i` (`HoldsValues`).
-/

namespace LinuxKernelTest

open Function

section

variable {xa : XArray} {T : Layout} {P : ℕ → Prop} {i j l p k s max : ℕ} {n : NodeId}
  {xas : XaState} {t : XaMap} {x : ℕ} {c : NodeId}

/-! ## Iterations read backwards -/

section

variable {σ : Type} {index : σ → ℕ} {next : σ → Option (XaEntry × σ)} {fuel : ℕ}
  {e : XaEntry} {st : σ}

/-- An iteration that lists nothing was given `NULL`. -/
theorem eq_null_of_iterate_nil (h : iterate index next fuel (e, st) = some []) : e = .null := by
  by_contra hne
  rcases fuel with _ | fuel
  · simp [iterate, hne] at h
  · rw [iterate, if_neg hne] at h
    obtain ⟨l, -, hcons⟩ := Option.map_eq_some_iff.mp h
    cases hcons

/-- The first pair an iteration lists is the one it was given, the rest comes from the next
step. -/
theorem of_iterate_cons {a : ℕ × XaEntry} {l : List (ℕ × XaEntry)}
    (h : iterate index next fuel (e, st) = some (a :: l)) :
    a = (index st, e) ∧ ∃ q d, next st = some q ∧ iterate index next d q = some l := by
  by_cases hne : e = .null
  · rcases fuel with _ | fuel <;> simp [iterate, hne] at h
  rcases fuel with _ | fuel
  · simp [iterate, hne] at h
  rw [iterate, if_neg hne] at h
  obtain ⟨l', hl', hcons⟩ := Option.map_eq_some_iff.mp h
  obtain ⟨q, hq, hrest⟩ := Option.bind_eq_some_iff.mp hl'
  obtain ⟨rfl, rfl⟩ := List.cons.inj hcons
  exact ⟨rfl, q, fuel, hq, hrest⟩

theorem iterate_succ_eq_cons {σ : Type} (index : σ → ℕ) (next : σ → Option (XaEntry × σ))
    (fuel : ℕ) {e : XaEntry} {st : σ} (he : e ≠ .null) {q : XaEntry × σ} (hq : next st = some q)
    (l : List (ℕ × XaEntry)) :
    iterate index next (fuel + 1) (e, st) = some ((index st, e) :: l) ↔
      iterate index next fuel q = some l := by
  rw [iterate, if_neg he, hq, Option.bind_some, Option.map_eq_some_iff]
  constructor
  · rintro ⟨l', hl', hcons⟩
    obtain ⟨-, rfl⟩ := List.cons.inj hcons
    exact hl'
  · exact fun hl => ⟨l, hl, rfl⟩

theorem iterate_null {σ : Type} {index : σ → ℕ} {next : σ → Option (XaEntry × σ)} (fuel : ℕ)
    (st : σ) : iterate index next fuel (.null, st) = some [] := by
  rcases fuel with _ | fuel <;> simp [iterate]

end

/-! ## `xas_for_each` -/

/-- Nothing lies between `s'` and `s`, so a search from `s` is one from `s'`. -/
theorem SearchEnd.extend {s' : ℕ} {r : XaEntry × XaState} (h : SearchEnd xa T P s max r)
    (hle : s' ≤ s) (hnone : ∀ x, s' ≤ x → x < s → ¬P x) : SearchEnd xa T P s' max r := by
  have hrange : ∀ x, InRange P s max x ↔ InRange P s' max x := fun x =>
    ⟨fun ⟨hs, hmax, hx⟩ => ⟨hle.trans hs, hmax, hx⟩, fun ⟨hs, hmax, hx⟩ =>
      ⟨not_lt.mp fun hlt => hnone x hs hlt hx, hmax, hx⟩⟩
  rcases h with ⟨hfirst, hne, hi, hfrom⟩ | ⟨hfirst, hstop⟩
  · exact .found (hfirst.congr hrange) hne hi hfrom
  · exact .none (hfirst.congr hrange) hstop

/-- The state stands at index `j` in the leaf `n`. -/
structure LeafAt (T : Layout) (j : ℕ) (n : NodeId) (xas : XaState) : Prop where
  leaf : T 0 (j / 4) = some n
  xaNode : xas.xaNode = .node n
  xaOffset : xas.xaOffset = j % 4
  xaShift : xas.xaShift = 0

theorem LeafAt.entryAt_eq (hat : LeafAt T j n xas) : entryAt xa T j = xa.slots n (j % 4) :=
  readAt_leaf hat.leaf

theorem LeafAt.searchFrom (hat : LeafAt T j n xas) (hi : xas.xaIndex = j) :
    SearchFrom xa T xas (j + 1) := by
  subst hi
  exact .leaf hat.xaShift hat.leaf hat.xaNode hat.xaOffset

/-- One round of `xas_next_entry` : the next slot of the leaf, or `xas_find`. -/
theorem nextEntryRound_step (h : Body xa T) (max : ℕ) :
    RoundKeeps (nextEntryRound xa max n)
      (fun v xas => ∃ i, LeafAt T i n xas ∧ xas.xaIndex = i ∧ s ≤ i + 1 ∧ v = 4 - i % 4 ∧
        ∀ x, s ≤ x → x < i + 1 → entryAt xa T x = .null)
      fun b => ∃ r, b = some r ∧ SearchEnd xa T (fun j => entryAt xa T j ≠ .null) s max r := by
  intro v xas hst
  obtain ⟨i, hat, hi, hs, rfl, hnone⟩ := hst
  -- All ways to `xas_find` end the same way.
  have hfind : nextEntryRound xa max n xas = .done (xasFind xa xas max) →
      ∃ b, nextEntryRound xa max n xas = .done b ∧
        ∃ r, b = some r ∧ SearchEnd xa T (fun j => entryAt xa T j ≠ .null) s max r :=
      fun hround => by
    obtain ⟨r, hr, hend⟩ := xasFind_spec h (hat.searchFrom hi) max
    exact ⟨_, hround, r, hr, hend.extend hs fun x hx hlt => not_not.mpr (hnone x hx hlt)⟩
  by_cases hmax : xas.xaIndex ≥ max
  · exact .inr (hfind (by simp [nextEntryRound, hmax]))
  by_cases hlast : xas.xaOffset = xaChunkMask
  · exact .inr (hfind (by simp [nextEntryRound, hlast]))
  by_cases hint : xaIsInternal (xa.slots n (xas.xaOffset + 1)) = true
  · exact .inr (hfind (by simp [nextEntryRound, hlast, hint]))
  have hmod : i % 4 ≠ 3 := by
    rw [← hat.xaOffset]
    exact hlast
  have hat' : LeafAt T (i + 1) n
      { xas with xaIndex := xas.xaIndex + 1, xaOffset := xas.xaOffset + 1 } := by
    refine ⟨?_, hat.xaNode, ?_, hat.xaShift⟩
    · rw [show (i + 1) / 4 = i / 4 by omega]
      exact hat.leaf
    · show xas.xaOffset + 1 = _
      rw [hat.xaOffset]
      omega
  have hentry : entryAt xa T (i + 1) = xa.slots n (xas.xaOffset + 1) := by
    rw [hat'.entryAt_eq, hat.xaOffset, show (i + 1) % 4 = i % 4 + 1 by omega]
  by_cases hnull : xa.slots n (xas.xaOffset + 1) = .null
  · refine .inl ⟨_, _, by simp only [nextEntryRound, hmax, hlast, hnull, if_false, if_true,
      xaIsInternal, Bool.false_eq_true], ?_, i + 1, hat', by rw [hi], by omega, rfl,
      fun x hx hlt => ?_⟩
    · omega
    · rcases (Nat.lt_succ_iff.mp hlt).eq_or_lt with rfl | hlt'
      · exact hentry.trans hnull
      · exact hnone x hx hlt'
  · have hround : nextEntryRound xa max n xas = .done (some (xa.slots n (xas.xaOffset + 1),
        { xas with xaIndex := xas.xaIndex + 1, xaOffset := xas.xaOffset + 1 })) := by
      simp [nextEntryRound, hmax, hlast, hint, hnull]
    refine .inr ⟨_, hround, _, rfl, ?_⟩
    rw [← hentry] at hnull ⊢
    refine .found (isFirst_range hs (by omega) hnull fun x hx hlt => not_not.mpr (hnone x hx hlt))
      hnull (by rw [hi]) (hat'.searchFrom (by rw [hi]))

/-- `xas_next_entry` returns the next entry. -/
theorem xasNextEntry_spec (h : Body xa T) (hfrom : SearchFrom xa T xas s) (max : ℕ) :
    ∃ r, xasNextEntry xa xas max = some r ∧
      SearchEnd xa T (fun j => entryAt xa T j ≠ .null) s max r := by
  rcases hfrom with ⟨hshift, hnode⟩ | ⟨hshift, hn, hnode, hoffset⟩ | ⟨hnode, hi, hhead⟩
  case restart =>
    rw [xasNextEntry, hnode]
    exact xasFind_spec h (.restart hshift hnode) max
  case leaf n =>
    have hat : LeafAt T xas.xaIndex n xas := ⟨hn, hnode, hoffset, hshift⟩
    have hleaf : xa.shift n = 0 := by simpa using h.shift hn
    obtain ⟨b, hrun, r, rfl, hend⟩ := runLoop_of_rank
      (nextEntryRound_step h max (s := xas.xaIndex + 1) (n := n))
      ⟨xas.xaIndex, hat, rfl, le_rfl, rfl, fun x hx hlt => absurd hx (not_le.mpr hlt)⟩
      (n := xaFuel) (by unfold xaFuel; omega)
    refine ⟨r, ?_, hend⟩
    rw [xasNextEntry, hnode]
    simp [hleaf, hoffset, and_three, hrun]
  case head =>
    rw [xasNextEntry, hnode]
    exact xasFind_spec h (.head hnode hi hhead) max

/-- `xas_for_each` lists the entries from its start to `max`. -/
theorem xasForEach_spec (h : Body xa T) (start max : ℕ) {fuel : ℕ}
    (hfuel : max + 1 - start ≤ fuel) :
    ∃ l, xasForEach xa (xaStateInit start) max fuel = some (l.map fun j => (j, entryAt xa T j)) ∧
      Lists (· < ·) (InRange (fun j => entryAt xa T j ≠ .null) start max) l := by
  have hfrom : SearchFrom xa T (xaStateInit start) start := SearchFrom.restart rfl rfl
  obtain ⟨r, hfind, hend⟩ := xasFind_spec h hfrom max
  rw [xasForEach, hfind, Option.bind_some]
  refine iterate_lists (fun P r => ∃ s,
    (∀ x, P x ↔ InRange (fun j => entryAt xa T j ≠ .null) s max x) ∧
      SearchEnd xa T (fun j => entryAt xa T j ≠ .null) s max r) (fun x => max - x) ?_
    (fun x y hx hy hxy => ?_) (fun x hx => ?_) ⟨start, fun x => Iff.rfl, hend⟩
  · rintro P e st ⟨s, hP, ⟨hfirst, hne, hi, hfrom⟩ | ⟨hfirst, hstop⟩⟩
    · subst hi
      obtain ⟨r', hnext, hend'⟩ := xasNextEntry_spec h hfrom max
      refine .inr ⟨hne, rfl, hfirst.congr fun x => (hP x).symm, r', hnext, st.xaIndex + 1,
        fun x => ?_, hend'⟩
      dsimp only
      rw [hP, inRange_behind hfirst.1.1]
    · exact .inl ⟨rfl, hfirst.congr fun x => (hP x).symm⟩
  · have := hy.2.1
    omega
  · have := hx.1
    have := hx.2.1
    omega

/-- A search that has found something at `j` stands in a leaf or at a bare head. -/
theorem SearchFrom.leafAt_or_head (h : SearchFrom xa T xas s) (hi : xas.xaIndex = j)
    (hs : s = j + 1) :
    (∃ n, LeafAt T j n xas) ∨ j = 0 ∧ ∀ r, xa.xaHead ≠ .node r := by
  subst hi
  rcases h with ⟨hshift, hnode⟩ | ⟨hshift, hn, hnode, hoffset⟩ | ⟨hnode, hi, hhead⟩
  case restart => omega
  case leaf n => exact .inl ⟨n, hn, hnode, hoffset, hshift⟩
  case head => exact .inr ⟨hi, hhead⟩

/-- `xas_find` at a bare head. -/
theorem xasFind_bare (hhead : ∀ r, xa.xaHead ≠ .node r) (max : ℕ) :
    xasFind xa (xaStateInit 0) max = some (xa.xaHead, { xaStateInit 0 with xaNode := .null }) := by
  have hload : xasLoad xa (xaStateInit 0) =
      some (xa.xaHead, { xaStateInit 0 with xaNode := .null }) := by
    rw [xasLoad, xasStart_bare hhead (.inl rfl), if_neg (show ¬(xaStateInit 0).xaIndex ≠ 0 from
      not_not.mpr rfl)]
    refine runLoop_of_done ?_ xaFuel_pos
    rcases hs : xa.xaHead with _ | v | w | c | o | _ | _ <;> first | exact absurd hs (hhead _) | rfl
  have hmax : ¬(xaStateInit 0).xaIndex > max := Nat.not_lt_zero max
  simp [xasFind, hload, if_neg hmax, show (xaStateInit 0).xaNode = .restart from rfl]

/-! ## Along the leaf list -/

/-- Each present index `i` holds `xa_mk_value(i)`. -/
def HoldsValues (t : XaMap) : Prop := ∀ i, t.get i = .null ∨ t.get i = xaMkValue i

theorem Body.leaf_of_entryAt (h : Body xa T) (hn : T l p = some n)
    (hx : entryAt xa T x ≠ .null) : ∃ c, T 0 (x / 4) = some c := by
  rcases hc : T 0 (x / 4) with _ | c
  · obtain ⟨r, hr⟩ := h.exists_head hn
    exact absurd (readAt_none hc (.inr ⟨r, hr⟩)) hx
  · exact ⟨c, rfl⟩

/-- Behind the last leaf there is no entry. -/
theorem XaInv.entryAt_of_next_none (h : XaInv xa T) (hn : T 0 p = some n)
    (hnext : xa.next n = none) (hx : 4 * p + 3 < x) : entryAt xa T x = .null := by
  by_contra hne
  obtain ⟨c, hc⟩ := h.body.leaf_of_entryAt hn hne
  have hsucc := h.linked.next hn
  rw [hnext] at hsucc
  rw [hsucc (x / 4) (by omega)] at hc
  cases hc

/-- Between a leaf and the next one there is no entry. -/
theorem XaInv.entryAt_of_next_some (h : XaInv xa T) (hn : T 0 p = some n)
    (hnext : xa.next n = some c) :
    ∃ q, p < q ∧ T 0 q = some c ∧ ∀ x, 4 * p + 3 < x → x < 4 * q → entryAt xa T x = .null := by
  have hsucc := h.linked.next hn
  rw [hnext] at hsucc
  obtain ⟨q, hpq, hq, hnone⟩ := hsucc
  refine ⟨q, hpq, hq, fun x hlo hhi => ?_⟩
  by_contra hne
  obtain ⟨d, hd⟩ := h.body.leaf_of_entryAt hn hne
  rw [hnone (x / 4) (by omega) (by omega)] at hd
  cases hd

/-- Before the first leaf there is no entry. -/
theorem XaInv.entryAt_of_prev_none (h : XaInv xa T) (hn : T 0 p = some n)
    (hprev : xa.prev n = none) (hx : x < 4 * p) : entryAt xa T x = .null := by
  by_contra hne
  obtain ⟨c, hc⟩ := h.body.leaf_of_entryAt hn hne
  have hpred := h.linked.prev hn
  rw [hprev] at hpred
  rw [hpred (x / 4) (by omega)] at hc
  cases hc

theorem XaInv.entryAt_of_prev_some (h : XaInv xa T) (hn : T 0 p = some n)
    (hprev : xa.prev n = some c) :
    ∃ q, q < p ∧ T 0 q = some c ∧ ∀ x, 4 * q + 3 < x → x < 4 * p → entryAt xa T x = .null := by
  have hpred := h.linked.prev hn
  rw [hprev] at hpred
  obtain ⟨q, hqp, hq, hnone⟩ := hpred
  refine ⟨q, hqp, hq, fun x hlo hhi => ?_⟩
  by_contra hne
  obtain ⟨d, hd⟩ := h.body.leaf_of_entryAt hn hne
  rw [hnone (x / 4) (by omega) (by omega)] at hd
  cases hd

/-- What the fast iterators make of the entry at `i`. -/
theorem slot_of_holdsValues (hval : ∀ i, entryAt xa T i = .null ∨ entryAt xa T i = xaMkValue i)
    (hat : LeafAt T i n xas) :
    xaIsInternal (xa.slots n (i % 4)) = false ∧
      (entryAt xa T i ≠ .null → xaToValue (xa.slots n (i % 4)) = i % 2 ^ 63) := by
  rw [← hat.entryAt_eq]
  rcases hval i with hnull | hv
  · rw [hnull]
    exact ⟨rfl, fun hne => absurd rfl hne⟩
  · rw [hv]
    exact ⟨rfl, fun _ => rfl⟩

theorem holdsValues_two : HoldsValues (XaMap.run [.store 0 (.value 0), .store 8 (.value 8)]).1 := by
  intro i
  by_cases h8 : i = 8
  · subst h8
    exact .inr rfl
  by_cases h0 : i = 0
  · subst h0
    exact .inr rfl
  · left
    show update (update (fun _ => XaEntry.null) 0 (.value 0)) 8 (.value 8) i = _
    rw [update_of_ne h8, update_of_ne h0]

end

end LinuxKernelTest
