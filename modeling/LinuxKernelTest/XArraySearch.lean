import LinuxKernelTest.XArrayScanMarks

/-!
# XArray : `xa_find`, `xa_find_after` and iteration

Both calls search, skip reserved entries, and answer with the first entry that is asked for among
the indices from the given one on or behind it.
-/

namespace LinuxKernelTest

section

variable {xa : XArray} {T : Layout} {j s max : ℕ}
  {xas : XaState} {t : XaMap}

/-! ## `xa_find` and `xa_find_after` -/

/-- The indices a search with the filter stops at. -/
def Selected (xa : XArray) (T : Layout) : XaFilter → ℕ → Prop
  | .present, j => entryAt xa T j ≠ .null
  | .mark m, j => markAt xa T m j = true

theorem xasFindFilter_spec (h : XaInv xa T) (hfrom : SearchFrom xa T xas s) (max : ℕ)
    (filter : XaFilter) :
    ∃ r, xasFindFilter xa xas max filter = some r ∧
      SearchEnd xa T (Selected xa T filter) s max r := by
  rcases filter with _ | m
  · exact xasFind_spec h.body hfrom max
  · exact xasFindMarked_spec h hfrom max

/-- The entries a caller of `xa_find` asks for : present, not reserved, and with the mark. -/
def XaMap.Matches (t : XaMap) : XaFilter → ℕ → Prop
  | .present, j => xaVisible (t.get j) ≠ .null
  | .mark m, j => xaVisible (t.get j) ≠ .null ∧ t.mark m j = true

instance (t : XaMap) (filter : XaFilter) (j : ℕ) : Decidable (t.Matches filter j) :=
  match filter with
  | .present => inferInstanceAs (Decidable (xaVisible (t.get j) ≠ .null))
  | .mark m => inferInstanceAs (Decidable (xaVisible (t.get j) ≠ .null ∧ t.mark m j = true))

theorem xaVisible_ne_null {e : XaEntry} : xaVisible e ≠ .null ↔ e ≠ .null ∧ e ≠ .zero := by
  cases e <;> simp [xaVisible]

/-- A search stops at what is asked for and at reserved entries. -/
theorem matches_iff (h : XaInv xa T) (hE : entryAt xa T = t.get) (hM : markAt xa T = t.mark)
    (filter : XaFilter) (j : ℕ) :
    t.Matches filter j ↔ Selected xa T filter j ∧ entryAt xa T j ≠ .zero := by
  rcases filter with _ | m
  · rw [XaMap.Matches, xaVisible_ne_null, Selected, hE]
  rw [XaMap.Matches, xaVisible_ne_null, Selected, hE, ← hM]
  refine ⟨fun ⟨⟨_, hz⟩, hm⟩ => ⟨hm, hz⟩, fun ⟨hm, hz⟩ => ⟨⟨fun hnull => ?_, hz⟩, hm⟩⟩
  rw [h.markAt_of_null (by rw [hE, hnull])] at hm
  cases hm

/-- The answer of `xa_find` and `xa_find_after` from `*indexp = index` : the first match in the
range from `s` to `max`, else `NULL` with the index untouched. -/
def FindAnswer (t : XaMap) (filter : XaFilter) (index s max : ℕ) (r : XaEntry × ℕ) : Prop :=
  (∃ j, IsFirst (· < ·) (InRange (t.Matches filter) s max) (some j) ∧ r = (t.get j, j)) ∨
    IsFirst (· < ·) (InRange (t.Matches filter) s max) none ∧ r = (.null, index)

theorem Body.lt_of_entryAt (h : Body xa T) (hj : entryAt xa T j ≠ .null) : j < 2 ^ 64 := by
  rcases hn : T 0 (j / 4) with _ | n
  · by_contra hge
    refine hj ?_
    simp only [entryAt, readAt, hn]
    rw [if_neg fun hj0 => by omega]
  · have := (h.bound hn).2
    omega

/-- A search that has found something stands at it. -/
theorem SearchFrom.at_found (h : IsTree xa T) (hfrom : SearchFrom xa T xas s)
    (hs : s = xas.xaIndex + 1) : xasInvalid xas = false ∧ xasSibling xa xas = false := by
  rcases hfrom with ⟨hshift, hnode⟩ | ⟨hshift, hn, hnode, hoffset⟩ | ⟨hnode, hi, hhead⟩
  case restart => omega
  case leaf n =>
    refine ⟨by simp [xasInvalid, hnode], ?_⟩
    have hat : ScanAt T 0 (xas.xaIndex / 4) (xas.xaIndex % 4) n xas := by
      refine ⟨hn, by omega, hnode, hoffset, hshift, ?_⟩
      have := (h.bound hn).2
      rw [pow_zero, mul_one, Nat.div_add_mod, Nat.mod_eq_of_lt (by omega)]
    exact hat.not_sibling h
  case head => exact ⟨by simp [xasInvalid, hnode], by simp [xasSibling, hnode]⟩

/-- The loops of `xa_find` and `xa_find_after` : search, and go on while the entry found is a
reserved one. -/
structure IsFindLoop (xa : XArray) (max : ℕ) (filter : XaFilter)
    (round : XaState → Round XaState (Option (XaEntry × ℕ))) : Prop where
  again : ∀ {xas xas'}, xasFindFilter xa xas max filter = some (.zero, xas') →
    xasInvalid xas' = false → xasSibling xa xas' = false → round xas = .again xas'
  found : ∀ {xas xas' e}, xasFindFilter xa xas max filter = some (e, xas') →
    xasInvalid xas' = false → xasSibling xa xas' = false → xaIsPlain e = true → e ≠ .zero →
    round xas = .done (some (e, xas'.xaIndex))
  none : ∀ {xas xas'}, xasFindFilter xa xas max filter = some (.null, xas') →
    (xasInvalid xas' = true ∨ xasSibling xa xas' = false) →
    round xas = .done (some (.null, xas'.xaIndex))

theorem isFindLoop_xaFind (xa : XArray) (max : ℕ) (filter : XaFilter) :
    IsFindLoop xa max filter (xaFindRound xa max filter) where
  again hfind _ _ := by simp [xaFindRound, hfind, xasRetry, xaIsZero]
  found {xas xas' e} hfind _ _ hplain hzero := by
    have hretry : xasRetry xas' e = (false, xas') := by
      rcases e with _ | v | w | c | o | _ | _ <;>
        first | exact absurd rfl hzero | rfl | cases hplain
    simp [xaFindRound, hfind, hretry]
  none hfind _ := by simp [xaFindRound, hfind, xasRetry, xaIsZero, xaIsRetry]

theorem isFindLoop_xaFindAfter (xa : XArray) (max : ℕ) (filter : XaFilter) :
    IsFindLoop xa max filter (xaFindAfterRound xa max filter) where
  again hfind hinv hsib := by simp [xaFindAfterRound, hfind, hinv, hsib, xasRetry, xaIsZero]
  found {xas xas' e} hfind hinv hsib hplain hzero := by
    have hretry : xasRetry xas' e = (false, xas') := by
      rcases e with _ | v | w | c | o | _ | _ <;>
        first | exact absurd rfl hzero | rfl | cases hplain
    simp [xaFindAfterRound, hfind, hinv, hsib, hretry]
  none {xas xas'} hfind hstop := by
    rcases hinv : xasInvalid xas' with _ | _
    · have hsib := hstop.resolve_left (by simp [hinv])
      simp [xaFindAfterRound, hfind, hinv, hsib, xasRetry, xaIsZero, xaIsRetry]
    · simp [xaFindAfterRound, hfind, hinv]

/-- Such a loop ends with the first entry that is asked for. -/
theorem IsFindLoop.spec {round : XaState → Round XaState (Option (XaEntry × ℕ))}
    {filter : XaFilter} (hloop : IsFindLoop xa max filter round) (h : XaInv xa T)
    (hE : entryAt xa T = t.get) (hM : markAt xa T = t.mark) (hs : s < 2 ^ 64)
    (hfrom : SearchFrom xa T xas s) (index : ℕ) :
    ∃ e i, (runLoop round xaFuel xas).join = some (e, i) ∧
      FindAnswer t filter index s max (e, if e = .null then index else i) := by
  have hmatch := matches_iff h hE hM filter
  -- Between `s` and the place `s'` the search has reached there is nothing but reserved entries.
  have hround : RoundKeeps round
      (fun v xas => ∃ s', SearchFrom xa T xas s' ∧ s ≤ s' ∧ s' ≤ 2 ^ 64 ∧ v = 2 ^ 64 - s' ∧
        ∀ x, s ≤ x → x < s' → ¬t.Matches filter x)
      fun b => ∃ e i, b = some (e, i) ∧
        FindAnswer t filter index s max (e, if e = .null then index else i) := by
    rintro v xas ⟨s', hfrom', hs', hle, rfl, hnone⟩
    obtain ⟨⟨e, xas'⟩, hfind, hend⟩ := xasFindFilter_spec h hfrom' max filter
    rcases hend with ⟨hfirst, hne, hi, hfrom''⟩ | ⟨hfirst, hstop⟩
    case found j =>
      obtain ⟨⟨hsj, hjmax, hsel⟩, hbefore⟩ := hfirst
      obtain ⟨hinv, hsib⟩ := hfrom''.at_found h.body.toIsTree (by rw [hi])
      have hj := h.body.lt_of_entryAt hne
      have hnone' : ∀ x, s ≤ x → x < j → ¬t.Matches filter x := fun x hx hxj hmx => by
        rcases Nat.lt_or_ge x s' with hlt | hge
        · exact hnone x hx hlt hmx
        · rcases hbefore x ⟨hge, by omega, ((hmatch x).mp hmx).1⟩ with heq | hlt <;> omega
      by_cases hzero : entryAt xa T j = .zero
      · rw [hzero] at hfind
        refine .inl ⟨xas', _, hloop.again hfind hinv hsib, ?_, j + 1, hfrom'', by omega, by omega,
          rfl, fun x hx hxj => ?_⟩
        · omega
        · rcases (Nat.lt_succ_iff.mp hxj).eq_or_lt with rfl | hlt
          · exact fun hmx => ((hmatch x).mp hmx).2 hzero
          · exact hnone' x hx hlt
      · refine .inr ⟨_, hloop.found hfind hinv hsib (h.body.isPlain_entryAt j) hzero, _, _, rfl,
          .inl ⟨j, isFirst_range (by omega) hjmax ((hmatch j).mpr ⟨hsel, hzero⟩) hnone', ?_⟩⟩
        rw [if_neg hne, hi, hE]
    case none =>
      refine .inr ⟨_, hloop.none hfind hstop, _, _, rfl, .inr ⟨isFirst_range_none ?_, by simp⟩⟩
      intro x hx hxmax hmx
      rcases Nat.lt_or_ge x s' with hlt | hge
      · exact hnone x hx hlt hmx
      · exact hfirst x ⟨hge, hxmax, ((hmatch x).mp hmx).1⟩
  obtain ⟨b, hrun, e, i, rfl, hanswer⟩ := runLoop_of_rank hround
    ⟨s, hfrom, le_rfl, hs.le, rfl, fun x hx hlt => absurd hx (not_le.mpr hlt)⟩ (n := xaFuel)
    (by unfold xaFuel; omega)
  exact ⟨e, i, by rw [hrun]; rfl, hanswer⟩

theorem xaFind_spec (h : Represents xa t) (index : ℕ) (hi : index < 2 ^ 64) (max : ℕ)
    (filter : XaFilter) :
    ∃ r, xaFind xa index max filter = some r ∧ FindAnswer t filter index index max r := by
  obtain ⟨T, hinv, hE, hM⟩ := h.exists_layout
  have hfrom : SearchFrom xa T (xaStateInit index) index := SearchFrom.restart rfl rfl
  obtain ⟨e, i, hrun, hanswer⟩ := (isFindLoop_xaFind xa max filter).spec hinv hE hM hi hfrom index
  exact ⟨_, by rw [xaFind, hrun]; rfl, hanswer⟩

theorem xaFindAfter_spec (h : Represents xa t) (index : ℕ) (hi : index < 2 ^ 64)
    (hmax : max < 2 ^ 64) (filter : XaFilter) :
    ∃ r, xaFindAfter xa index max filter = some r ∧
      FindAnswer t filter index (index + 1) max r := by
  obtain ⟨T, hinv, hE, hM⟩ := h.exists_layout
  rw [xaFindAfter]
  split_ifs with hwrap
  · exact ⟨_, rfl, .inr ⟨isFirst_range_none fun x hx hxmax => by omega, rfl⟩⟩
  · have hi' : (index + 1) % 2 ^ 64 = index + 1 := by omega
    rw [hi']
    have hfrom : SearchFrom xa T (xaStateInit (index + 1)) (index + 1) := SearchFrom.restart rfl rfl
    obtain ⟨e, i, hrun, hanswer⟩ := (isFindLoop_xaFindAfter xa max filter).spec hinv hE hM
      (by omega) hfrom index
    exact ⟨_, by rw [hrun]; rfl, hanswer⟩

/-! ## Iterating -/

/-- The rule for the iteration macros. Where every answer of a search for `P` is the first
element of `P` in the order `r`, and the next answer is one to the search for what is behind it,
the loop lists `P`. The bound on its rounds is above a measure that decreases along `r`. -/
theorem iterate_lists {σ : Type} {index : σ → ℕ} {next : σ → Option (XaEntry × σ)}
    {f : ℕ → XaEntry} {r : ℕ → ℕ → Prop} (Answer : (ℕ → Prop) → XaEntry × σ → Prop) (μ : ℕ → ℕ)
    (hanswer : ∀ P e st, Answer P (e, st) → e = .null ∧ IsFirst r P none ∨
      e ≠ .null ∧ e = f (index st) ∧ IsFirst r P (some (index st)) ∧
        ∃ q, next st = some q ∧ Answer (fun x => P x ∧ r (index st) x) q) :
    ∀ {fuel : ℕ} {P : ℕ → Prop} {q : XaEntry × σ},
      (∀ x y, P x → P y → r x y → μ y < μ x) → (∀ x, P x → μ x < fuel) → Answer P q →
      ∃ l, iterate index next fuel q = some (l.map fun j => (j, f j)) ∧ Lists r P l
  | fuel, P, (e, st), hμ, hfuel, hq => by
    rcases hanswer P e st hq with ⟨rfl, hnone⟩ | ⟨hne, he, hfirst, q, hnext, hq'⟩
    · exact ⟨[], by rcases fuel with _ | fuel <;> simp [iterate], lists_nil hnone⟩
    obtain ⟨fuel, rfl⟩ : ∃ d, fuel = d + 1 := ⟨fuel - 1, by have := hfuel _ hfirst.1; omega⟩
    have hfuel' : ∀ x, P x ∧ r (index st) x → μ x < fuel := fun x hx => by
      have hlt := hμ _ x hfirst.1 hx.1 hx.2
      have hle := hfuel _ hfirst.1
      omega
    obtain ⟨l, hl, hlists⟩ := iterate_lists Answer μ hanswer
      (fun x y hx hy hxy => hμ x y hx.1 hy.1 hxy) hfuel' hq'
    refine ⟨index st :: l, ?_, hlists.cons hfirst⟩
    rw [iterate, if_neg hne, hnext, Option.bind_some, hl, he]
    rfl

/-- `xa_for_each_range` lists the entries that are asked for. -/
theorem xaForEachRange_spec (h : Represents xa t) {start fuel : ℕ} (hstart : start < 2 ^ 64)
    (hmax : max < 2 ^ 64) (filter : XaFilter) (hfuel : max + 1 - start ≤ fuel) :
    ∃ l, xaForEachRange xa start max filter fuel = some (l.map fun j => (j, t.get j)) ∧
      Lists (· < ·) (InRange (t.Matches filter) start max) l := by
  obtain ⟨r, hfind, hanswer⟩ := xaFind_spec h start hstart max filter
  rw [xaForEachRange, hfind, Option.bind_some]
  refine iterate_lists (fun P r => ∃ index s, (∀ x, P x ↔ InRange (t.Matches filter) s max x) ∧
    FindAnswer t filter index s max r) (fun x => max - x) ?_ (fun x y hx hy hxy => ?_)
    (fun x hx => ?_) ⟨start, start, fun x => Iff.rfl, hanswer⟩
  · rintro P e st ⟨index, s, hP, ⟨j, hfirst, hr⟩ | ⟨hnone, hr⟩⟩
    · obtain ⟨rfl, rfl⟩ := Prod.mk.inj hr
      have hne : t.get st ≠ .null := by
        have hmatch := hfirst.1.2.2
        rcases filter with _ | m
        exacts [(xaVisible_ne_null.mp hmatch).1, (xaVisible_ne_null.mp hmatch.1).1]
      obtain ⟨r', hfind', hanswer'⟩ := xaFindAfter_spec h st
        (by have := hfirst.1.2.1; omega) hmax filter
      refine .inr ⟨hne, rfl, hfirst.congr fun x => (hP x).symm, r', hfind', st, st + 1, fun x => ?_,
        hanswer'⟩
      dsimp only [id]
      rw [hP, inRange_behind hfirst.1.1]
    · obtain ⟨rfl, rfl⟩ := Prod.mk.inj hr
      exact .inl ⟨rfl, hnone.congr fun x => (hP x).symm⟩
  · have := hy.2.1
    omega
  · have := hx.1
    have := hx.2.1
    omega

/-- Searches in every array a run reaches. `xa_find` answers with the first matching entry from
the index on and `xa_find_after` with the first one behind it, or with `NULL` and the index
untouched. Iterating the two visits each matching entry once, in ascending order, and ends. -/
theorem xaRun_search {ops : List XaOp} (hops : ∀ o ∈ ops, o.Valid) :
    ∃ xa answers, xaRun ops = some (xa, answers) ∧
      ∀ filter index max, index < 2 ^ 64 → max < 2 ^ 64 →
        (∃ r, xaFind xa index max filter = some r ∧
          FindAnswer (XaMap.run ops).1 filter index index max r) ∧
        (∃ r, xaFindAfter xa index max filter = some r ∧
          FindAnswer (XaMap.run ops).1 filter index (index + 1) max r) ∧
        ∀ fuel, max + 1 - index ≤ fuel → ∃ l, xaForEachRange xa index max filter fuel =
              some (l.map fun j => (j, (XaMap.run ops).1.get j)) ∧
            Lists (· < ·) (InRange ((XaMap.run ops).1.Matches filter) index max) l := by
  obtain ⟨xa, hrun, hrep⟩ := xaRun_refines hops
  refine ⟨xa, _, hrun, fun filter index max hi hmax => ⟨xaFind_spec hrep index hi max filter,
    xaFindAfter_spec hrep index hi hmax filter, fun fuel hfuel => ?_⟩⟩
  exact xaForEachRange_spec hrep hi hmax filter hfuel

/-- An entry at `ULONG_MAX` is found, and nothing behind it. -/
theorem xaRun_search_last :
    (∀ o ∈ [XaOp.store 3 (.value 3), .insert 7 .null, .store (2 ^ 64 - 1) (.value 1)], o.Valid) ∧
    ∃ xa answers, xaRun [XaOp.store 3 (.value 3), .insert 7 .null,
        .store (2 ^ 64 - 1) (.value 1)] = some (xa, answers) ∧
      xaFind xa (2 ^ 64 - 1) (2 ^ 64 - 1) .present = some (.value 1, 2 ^ 64 - 1) ∧
      xaFindAfter xa (2 ^ 64 - 1) (2 ^ 64 - 1) .present = some (.null, 2 ^ 64 - 1) := by
  have hops : ∀ o ∈ [XaOp.store 3 (.value 3), .insert 7 .null, .store (2 ^ 64 - 1) (.value 1)],
      o.Valid := by
    simp [XaOp.Valid]
  obtain ⟨xa, answers, hrun, hsearch⟩ := xaRun_search hops
  obtain ⟨⟨r, hr, hfirst⟩, ⟨r', hr', hafter⟩, -⟩ := hsearch .present (2 ^ 64 - 1) (2 ^ 64 - 1)
    (by norm_num) (by norm_num)
  refine ⟨hops, xa, answers, hrun, ?_, ?_⟩
  · rcases hfirst with ⟨j, ⟨hj, -⟩, rfl⟩ | ⟨hnone, -⟩
    · obtain rfl : j = 2 ^ 64 - 1 := le_antisymm hj.2.1 hj.1
      exact hr
    · exact absurd ⟨le_rfl, le_rfl, by decide⟩ (hnone (2 ^ 64 - 1))
  · rcases hafter with ⟨j, ⟨hj, -⟩, rfl⟩ | ⟨-, rfl⟩
    · exact absurd (hj.1.trans hj.2.1) (by norm_num)
    · exact hr'

end

end LinuxKernelTest
