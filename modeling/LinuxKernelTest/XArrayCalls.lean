import LinuxKernelTest.Machine
import LinuxKernelTest.XArrayAbstract
import LinuxKernelTest.XArrayMap

/-!
# XArray : every call of the normal API refines the map

`Represents xa t` says that `xa` is between two calls and answers as the map `t`. Each call keeps it
(`XaOp.run_refines`) and so does every run (`xaRun_refines`).
-/

namespace LinuxKernelTest

open XaMap

/-- The array `xa` stands for the map `t`. -/
def Represents (xa : XArray) (t : XaMap) : Prop := Holds xa t.get t.mark

section

variable {xa xa' : XArray} {T : Layout} {i l p : ℕ} {n : NodeId} {e : XaEntry} {t : XaMap}
  {xas xas' : XaState} {m : XaMark}

theorem Represents.exists_layout (h : Represents xa t) :
    ∃ T, XaInv xa T ∧ entryAt xa T = t.get ∧ markAt xa T = t.mark := by
  obtain ⟨T, hinv, hE, hM⟩ := h
  exact ⟨T, hinv, funext hE, funext fun m => funext (hM m)⟩

/-- An empty array stands for the empty map. -/
theorem represents_xaInit : Represents xaInit .empty := by
  have htree : IsTree xaInit Layout.empty :=
    { lt := nofun, alive := nofun, shift := nofun, bound := nofun, inj := nofun, slot := nofun
      leaf := nofun, parent := nofun, offset := nofun, root := nofun, head := nofun }
  have hbody : Body xaInit Layout.empty :=
    { toIsTree := htree, count := nofun, nrValues := nofun, interior := nofun, leafSlot := nofun
      headSlot := .inl rfl }
  refine ⟨Layout.empty, ⟨hbody, fun m => ⟨nofun, nofun, nofun, fun _ => rfl⟩,
    ⟨rfl, rfl, fun _ => rfl⟩, ⟨nofun, nofun, nofun⟩, nofun, fun htop => nomatch htop.node⟩,
    fun j => ?_, fun m j => ?_⟩
  · by_cases hj : j = 0 <;> simp [entryAt, readAt, Layout.empty, hj, xaInit, xaInitFlags, empty]
  · by_cases hj : j = 0 <;> simp [markAt, readAt, Layout.empty, hj, xaInit, xaInitFlags, empty]

/-- What a leaf or the head holds is an entry of the user. -/
theorem Body.isPlain_entryAt (h : Body xa T) (i : ℕ) : xaIsPlain (entryAt xa T i) = true := by
  unfold entryAt
  cases hn : T 0 (i / 4) with
  | some n =>
    rw [readAt_leaf hn]
    exact h.leafSlot hn _ (by omega)
  | none =>
    by_cases hbare : i = 0 ∧ xaIsNode xa.xaHead = false
    · have hhead := xaIsNode_eq_false.mp hbare.2
      rw [hbare.1, readAt_head h.toIsTree hhead]
      exact h.headSlot.resolve_right fun ⟨r, hr⟩ => hhead r hr
    · simp [readAt, hn, hbare, xaIsPlain]

theorem isPlain_of_valid (hnode : ∀ n, e ≠ .node n) (hadv : xaIsAdvanced e = false) :
    xaIsPlain e = true := by
  cases e <;> first | rfl | exact absurd rfl (hnode _) | cases hadv

theorem WalkEnd.singleIndex (h : WalkEnd xa T i xas xas') (hxas : SingleIndex xas i) :
    SingleIndex xas' i := by
  cases h with
  | outside => exact hxas.move .bounds _
  | head => exact hxas.move .null _
  | slot => exact hxas.move _ _

theorem WalkEnd.error (h : WalkEnd xa T i xas xas') : xasError xas' = none := by
  cases h <;> rfl

/-- A walk that found an entry stands at it. -/
theorem WalkEnd.atEntry (h : WalkEnd xa T i xas xas') (hbody : Body xa T)
    (hentry : entryAt xa T i ≠ .null) : AtEntry xa T i xas' := by
  cases h with
  | outside hnull => exact absurd (hnull i le_rfl) hentry
  | head hi hhead => exact .inr ⟨hi, hhead, rfl⟩
  | @slot l n hn hstop =>
    obtain rfl : l = 0 := hstop.resolve_right fun hnull =>
      hentry ((entryAt_of_slot hbody hn hstop).trans hnull)
    exact .inl ⟨n, by simpa using hn, rfl, by simp⟩

/-- `xas_load` from the start. -/
theorem xasLoad_init (h : Body xa T) (i : ℕ) :
    ∃ xas', xasLoad xa (xaStateInit i) = some (entryAt xa T i, xas') ∧
      WalkEnd xa T i (xaStateInit i) xas' := by
  have hfrom : WalkFrom xa T (xaStateInit i) := .inl (.inl rfl)
  exact xasLoad_spec h rfl hfrom

/-- A `do … while (__xas_nomem)` loop whose body does not run out of memory is its body. -/
theorem nomemLoop_eq {body : XArray → XaState → Option (XArray × XaState × XaEntry)}
    (xa' : XArray) (xas' : XaState) (e : XaEntry) (hbody : body xa xas = some (xa', xas', e))
    (herr : xas'.xaNode ≠ .error .enomem) :
    nomemLoop body xa xas = some (xa', { xas' with xaAlloc := none }, e) := by
  have hnomem : xasNomem xa' xas' = (false, xa', { xas' with xaAlloc := none }) := by
    simp [xasNomem, herr]
  rw [nomemLoop, runLoop_of_done (b := some (xa', { xas' with xaAlloc := none }, e))
    (by simp [hbody, hnomem]) xaFuel_pos]
  rfl

theorem ne_enomem (herr : xasError xas = none) : xas.xaNode ≠ .error .enomem := by
  intro h
  rw [xasError, h] at herr
  cases herr

theorem xasResult_ok (herr : xasError xas = none) (e : XaEntry) :
    xasResult xas e = .ok (xaVisible e) := by
  cases e <;> simp [xasResult, xaVisible, xaIsZero, herr]

theorem xasError_alloc : xasError { xas with xaAlloc := none } = xasError xas := rfl

/-! ## The calls -/

/-- From `xa` to `xa'` no node is freed, unless `e` is `NULL` and the leaf of `i` has no other
entry. -/
def Spares (xa : XArray) (t : XaMap) (i : ℕ) (e : XaEntry) (xa' : XArray) : Prop :=
  (e = .null → SharesLeaf t.get i) → ∀ c, xa.freed c = false → xa'.freed c = false

section

variable (h : Represents xa t)
include h

/-- `xas_store` at an entry of the user, from a state a walk may start in. -/
theorem Represents.xasStore (hi : i < 2 ^ 64) (he : xaIsPlain e = true) :
    ∃ xa' xas', LinuxKernelTest.xasStore xa (xaStateInit i) e = some (xa', xas', t.get i) ∧
      Represents xa' (t.put i e) ∧ xasError xas' = none ∧ Spares xa t i e xa' := by
  obtain ⟨T, hinv, hE, hM⟩ := h.exists_layout
  obtain ⟨xa', xas', hstore, hholds, herr, hfreed⟩ := xasStore_spec hinv hi (singleIndex_init i)
    (.inl (.inl rfl)) he
  rw [hE, hM] at hholds
  rw [hE] at hfreed
  exact ⟨xa', xas', by rw [hstore, hE], hholds, herr, hfreed⟩

theorem Represents.trackFree : xa.trackFree = false := by
  obtain ⟨T, hinv, -, -⟩ := h
  exact hinv.flags.trackFree

theorem xaErase_spec (hi : i < 2 ^ 64) :
    ∃ xa', xaErase xa i = some (xa', .ok (xaVisible (t.get i))) ∧
      Represents xa' (t.put i .null) ∧ Spares xa t i .null xa' := by
  obtain ⟨xa', xas', hstore, h', herr, hspares⟩ := h.xasStore (e := .null) hi rfl
  refine ⟨xa', ?_, h', hspares⟩
  simp [xaErase, hstore, xasResult_ok herr]

theorem xaStore_spec (hi : i < 2 ^ 64) (hadv : xaIsAdvanced e = false)
    (he : xaIsPlain e = true) :
    ∃ xa', xaStore xa i e = some (xa', .ok (xaVisible (t.get i))) ∧
      Represents xa' (t.put i e) ∧ Spares xa t i e xa' := by
  obtain ⟨xa', xas', hstore, h', herr, hspares⟩ := h.xasStore hi he
  refine ⟨xa', ?_, h', hspares⟩
  simp only [xaStore, hadv, h.trackFree, Bool.false_eq_true, if_false, false_and]
  rw [nomemLoop_eq xa' xas' (t.get i) (by simp only [hstore, Option.bind_some, h'.trackFree,
    Bool.false_eq_true, if_false]) (ne_enomem herr)]
  simp [xasResult_ok (xasError_alloc.trans herr)]

/-- `xas_store` where `xas_load` has ended. -/
theorem Represents.load_store (hi : i < 2 ^ 64) :
    ∃ xas1, xasLoad xa (xaStateInit i) = some (t.get i, xas1) ∧ xasError xas1 = none ∧
      ∀ e, xaIsPlain e = true → ∃ xa' xas', LinuxKernelTest.xasStore xa xas1 e =
        some (xa', xas', t.get i) ∧ Represents xa' (t.put i e) ∧ xasError xas' = none := by
  obtain ⟨T, hinv, hE, hM⟩ := h.exists_layout
  obtain ⟨xas1, hload, hend⟩ := xasLoad_init hinv.body i
  rw [hE] at hload
  refine ⟨xas1, hload, hend.error, fun e he => ?_⟩
  have hxas := hend.singleIndex (singleIndex_init i)
  have hend' : WalkEnd xa T (xaStateInit i).xaIndex (xaStateInit i) xas1 := hend
  obtain ⟨xa', xas', hstore, hholds, herr, -⟩ := xasStore_spec hinv hi hxas hend'.walkFrom he
  rw [hE, hM] at hholds
  exact ⟨xa', xas', by rw [hstore, hE], hholds, herr⟩

theorem xaCmpxchg_spec (hi : i < 2 ^ 64) (hadv : xaIsAdvanced e = false)
    (he : xaIsPlain e = true) (old : XaEntry) :
    ∃ xa', xaCmpxchg xa i old e = some (xa', .ok (xaVisible (t.get i))) ∧
      Represents xa' (if t.get i = old then t.put i e else t) := by
  obtain ⟨xas1, hload, herr1, hstore⟩ := h.load_store hi
  simp only [xaCmpxchg, hadv, Bool.false_eq_true, if_false]
  by_cases hold : t.get i = old
  · obtain ⟨xa', xas', hstore, h', herr⟩ := hstore e he
    refine ⟨xa', ?_, by rwa [if_pos hold]⟩
    rw [nomemLoop_eq xa' xas' (t.get i) (by simp only [hload, Option.bind_some, hold, if_true,
      hstore, h'.trackFree, Bool.false_eq_true, false_and, if_false]) (ne_enomem herr)]
    simp [xasResult_ok (xasError_alloc.trans herr)]
  · refine ⟨xa, ?_, by rwa [if_neg hold]⟩
    rw [nomemLoop_eq xa xas1 (t.get i) (by simp only [hload, Option.bind_some, hold, if_false])
      (ne_enomem herr1)]
    simp [xasResult_ok (xasError_alloc.trans herr1)]

theorem xaInsert_spec (hi : i < 2 ^ 64) (hadv : xaIsAdvanced e = false)
    (he : xaIsPlain e = true) :
    ∃ xa', xaInsert xa i e = some (xa', if t.get i = .null then none else some .ebusy) ∧
      Represents xa' (if t.get i = .null then t.put i (if e = .null then .zero else e) else t) := by
  obtain ⟨xas1, hload, herr1, hstore⟩ := h.load_store hi
  simp only [xaInsert, hadv, Bool.false_eq_true, if_false]
  by_cases hnull : t.get i = .null
  · obtain ⟨xa', xas', hstore, h', herr⟩ := hstore (if e = .null then .zero else e) (by
      split
      · rfl
      · exact he)
    refine ⟨xa', ?_, by rwa [if_pos hnull]⟩
    rw [nomemLoop_eq xa' xas' (t.get i) (by simp only [hload, Option.bind_some, hnull, if_true,
      hstore, h'.trackFree, Bool.false_eq_true, if_false]) (ne_enomem herr), if_pos hnull]
    simp [xasError_alloc.trans herr]
  · refine ⟨xa, ?_, by rwa [if_neg hnull]⟩
    rw [nomemLoop_eq xa { xas1 with xaNode := .error .ebusy } (t.get i)
      (by simp only [hload, Option.bind_some, hnull, if_false]) (by simp), if_neg hnull]
    rfl

/-- A walk to the entry at `i`, then a mark set or cleared there. -/
theorem Represents.mark {b : Bool}
    {f : XArray → XaState → XaMark → Option XArray}
    (hf : ∀ {T i xas}, Body xa T → MarkOk xa T m → AtEntry xa T i xas → entryAt xa T i ≠ .null →
      ∃ xa', f xa xas m = some xa' ∧ MarkSet xa xa' T m i b) :
    ∃ xa', ((xasLoad xa (xaStateInit i)).bind fun
        | (entry, xas) => if entry ≠ .null then f xa xas m else some xa) = some xa' ∧
      Represents xa' (t.setMark i m b) := by
  obtain ⟨T, hinv, hE, hM⟩ := h.exists_layout
  obtain ⟨xas1, hload, hend⟩ := xasLoad_init hinv.body i
  by_cases hnull : entryAt xa T i = .null
  · refine ⟨xa, by simp [hload, hnull], T, hinv, fun j => by rw [hE]; rfl, fun m' j => ?_⟩
    rw [hE] at hnull
    simp [hM, setMark, hnull]
  obtain ⟨xa', hrun, hset⟩ := hf hinv.body (hinv.marks m) (hend.atEntry hinv.body hnull) hnull
  have hmarks : ∀ m', MarkOk xa' T m' := fun m' => by
    by_cases hm : m' = m
    · exact hm ▸ hset.markOk
    · exact hset.only.markOk hm (hinv.marks m')
  refine ⟨xa', by simp [hload, hnull, hrun], T, hinv.withMarking hset.only.1 hmarks,
    fun j => ?_, fun m' j => ?_⟩
  · rw [entryAt_withMarking hset.only.1, hE]
    rfl
  · rw [hE] at hnull
    by_cases hm : m' = m
    · subst hm
      simp [hset.markAt, hM, setMark, hnull]
    · simp [hset.only.markAt_eq hm, hM, setMark, hm]

theorem xaSetMark_spec (i : ℕ) (m : XaMark) :
    ∃ xa', xaSetMark xa i m = some xa' ∧ Represents xa' (t.setMark i m true) :=
  h.mark fun hbody hm hat hne => xasSetMark_spec hbody hm hat hne

theorem xaClearMark_spec (i : ℕ) (m : XaMark) :
    ∃ xa', xaClearMark xa i m = some xa' ∧ Represents xa' (t.setMark i m false) :=
  h.mark fun hbody hm hat _ => xasClearMark_spec hbody hm hat

/-- Every call does to the array what it does to the map, and answers the same. -/
theorem XaOp.run_refines {o : XaOp} (ho : o.Valid) :
    ∃ xa', o.run xa = some (xa', (t.call o).2) ∧ Represents xa' (t.call o).1 := by
  cases o with
  | store i e =>
    cases hadv : xaIsAdvanced e with
    | true => exact ⟨xa, by simp [XaOp.run, xaStore, call, hadv], by simpa [call, hadv]⟩
    | false =>
      obtain ⟨xa', hrun, h', -⟩ := xaStore_spec h ho.1 hadv (isPlain_of_valid ho.2 hadv)
      exact ⟨xa', by simp [XaOp.run, hrun, call, hadv], by simpa [call, hadv]⟩
  | erase i =>
    obtain ⟨xa', hrun, h', -⟩ := xaErase_spec h ho
    exact ⟨xa', by simp [XaOp.run, hrun, call], h'⟩
  | insert i e =>
    cases hadv : xaIsAdvanced e with
    | true => exact ⟨xa, by simp [XaOp.run, xaInsert, call, hadv], by simpa [call, hadv]⟩
    | false =>
      obtain ⟨xa', hrun, h'⟩ := xaInsert_spec h ho.1 hadv (isPlain_of_valid ho.2 hadv)
      by_cases hnull : t.get i = .null
      · exact ⟨xa', by simp [XaOp.run, hrun, call, hadv, hnull],
          by simpa [call, hadv, hnull] using h'⟩
      · exact ⟨xa', by simp [XaOp.run, hrun, call, hadv, hnull],
          by simpa [call, hadv, hnull] using h'⟩
  | cmpxchg i old e =>
    cases hadv : xaIsAdvanced e with
    | true =>
      exact ⟨xa, by simp [XaOp.run, xaCmpxchg, call, hadv], by simpa [call, hadv]⟩
    | false =>
      obtain ⟨xa', hrun, h'⟩ := xaCmpxchg_spec h ho.1 hadv (isPlain_of_valid ho.2 hadv) old
      exact ⟨xa', by simp [XaOp.run, hrun, call, hadv], by simpa [call, hadv]⟩
  | setMark i m =>
    obtain ⟨xa', hrun, h'⟩ := xaSetMark_spec h i m
    exact ⟨xa', by simp [XaOp.run, hrun, call], h'⟩
  | clearMark i m =>
    obtain ⟨xa', hrun, h'⟩ := xaClearMark_spec h i m
    exact ⟨xa', by simp [XaOp.run, hrun, call], h'⟩

end

/-- The calls `ops` on an empty map. -/
def XaMap.run (ops : List XaOp) : XaMap × List XaAnswer := runAbstract XaMap.call .empty ops

/-- The calls `ops` on an empty array. -/
def xaRun (ops : List XaOp) : Option (XArray × List XaAnswer) := runCalls XaOp.run xaInit ops

/-- Every run of valid calls on an empty array refines the run on the empty map. -/
theorem xaRun_refines {ops : List XaOp} (hops : ∀ o ∈ ops, o.Valid) :
    ∃ xa, xaRun ops = some (xa, (XaMap.run ops).2) ∧ Represents xa (XaMap.run ops).1 :=
  runCalls_refines Represents (fun _ o => o.Valid)
    (fun _ _ o h ho => XaOp.run_refines (o := o) h ho) represents_xaInit (specMeets_of_forall hops)

/-! ## Reading -/

/-- `xa_load` shows the entry of the map. -/
theorem xaLoad_spec (h : Represents xa t) (i : ℕ) :
    xaLoad xa i = some (xaVisible (t.get i)) := by
  obtain ⟨T, hinv, hE, -⟩ := h.exists_layout
  obtain ⟨xas1, hload, -⟩ := xasLoad_init hinv.body i
  have hplain := hinv.body.isPlain_entryAt i
  rw [hE] at hload hplain
  rw [xaLoad, runLoop_of_done (b := some (xaVisible (t.get i))) _ xaFuel_pos]
  · rfl
  · cases hs : t.get i <;> rw [hs] at hplain <;>
      first | cases hplain; done | simp [hload, hs, xaIsZero, xasRetry, xaIsRetry, xaVisible]

end

end LinuxKernelTest
