import LinuxKernelTest.XArrayScan

/-!
# XArray : scanning the tree for the next marked entry

`xas_find_marked` skips the slots whose mark is not set. It may enter the tree in the middle of
a slot, so the index it has reached lies somewhere below the slot it stands at (`SlotAt`). No
marked entry lies between the start of the search and that index.
-/

namespace LinuxKernelTest

section

variable {xa : XArray} {T : Layout} {i l p k s max : ℕ} {n : NodeId}
  {xas : XaState} {m : XaMark}

/-- `find_next_bit` stops at the first set bit, or behind the last bit. -/
theorem findNextBit_spec (bits : ℕ → Bool) :
    ∀ d o, o ≤ findNextBit bits d o ∧ findNextBit bits d o ≤ o + d ∧
      (∀ j, o ≤ j → j < findNextBit bits d o → bits j = false) ∧
      (findNextBit bits d o < o + d → bits (findNextBit bits d o) = true)
  | 0, o => ⟨le_rfl, le_rfl, fun j h h' => by rw [findNextBit] at h'; omega, fun h => by
      rw [findNextBit] at h
      omega⟩
  | d + 1, o => by
    obtain ⟨hge, hle, hclear, hset⟩ := findNextBit_spec bits d (o + 1)
    rw [findNextBit]
    split_ifs with hbit
    · exact ⟨le_rfl, by omega, fun j h h' => by omega, fun _ => hbit⟩
    · refine ⟨by omega, by omega, fun j h h' => ?_, fun h => hset (by omega)⟩
      rcases h.eq_or_lt with rfl | hlt
      · simpa using hbit
      · exact hclear j hlt h'

/-- `xas_find_chunk` : the first marked slot from `d` on, where `d` is the slot itself or the
next one. -/
theorem xasFindChunk_spec (xa : XArray) (n : NodeId) (xas : XaState) (advance : Bool) (m : XaMark)
    (hk : xas.xaOffset < 4) :
    let o := xasFindChunk xa n xas advance m
    xas.xaOffset + advance.toNat ≤ o ∧ o ≤ 4 ∧
      (∀ j, xas.xaOffset + advance.toNat ≤ j → j < o → xa.marks n m j = false) ∧
      (o < 4 → xa.marks n m o = true) := by
  have hd : (if advance then xas.xaOffset + 1 else xas.xaOffset) =
      xas.xaOffset + advance.toNat := by
    cases advance <;> rfl
  simp only [xasFindChunk, hd, xaChunkSize]
  have hadv := Bool.toNat_le advance
  split_ifs with hlt
  · obtain ⟨hge, hle, hclear, hset⟩ := findNextBit_spec (xa.marks n m)
      (4 - (xas.xaOffset + advance.toNat)) (xas.xaOffset + advance.toNat)
    rw [Nat.add_sub_cancel' hlt.le] at hle hset
    exact ⟨hge, hle, hclear, hset⟩
  · exact ⟨by omega, le_rfl, fun j h h' => by omega, fun h => by omega⟩

theorem SlotAt.index_div (hat : SlotAt T l p k n xas) : xas.xaIndex / 4 ^ (l + 1) = p := by
  have hk := hat.lt
  rw [div_pow_succ, hat.xaIndex]
  omega

/-- The invariant of the loop of `xas_find_marked` : no marked entry lies between `s` and the
index the search has reached. -/
inductive FindMarkedAt (xa : XArray) (T : Layout) (m : XaMark) (s : ℕ) :
    ℕ → XaState × Bool → Prop
  | slot {l p k : ℕ} {n : NodeId} {xas : XaState} : SlotAt T l p k n xas → s ≤ xas.xaIndex →
      (∀ x, s ≤ x → x < xas.xaIndex → markAt xa T m x = false) →
      FindMarkedAt xa T m s (scanRank (2 ^ 64 - xas.xaIndex) l False) (xas, false)
  | behind {l p : ℕ} {n : NodeId} {xas : XaState} : ScanAt T l p 4 n xas →
      s ≤ (4 * p + 4) * 4 ^ l →
      (∀ x, s ≤ x → x < (4 * p + 4) * 4 ^ l → markAt xa T m x = false) →
      FindMarkedAt xa T m s (scanRank (2 ^ 64 - (4 * p + 4) * 4 ^ l) l True) (xas, false)
  | advance {p k : ℕ} {n : NodeId} {xas : XaState} : SlotAt T 0 p k n xas → s = xas.xaIndex + 1 →
      FindMarkedAt xa T m s (scanRank (2 ^ 64 - xas.xaIndex) 0 False) (xas, true)

/-- Slots whose mark is not set have no marked entry below. -/
theorem MarkOk.markAt_clear (hm : MarkOk xa T m) (h : Body xa T) (hn : T l p = some n) {d o x : ℕ}
    (ho : o ≤ 4) (hclear : ∀ j, d ≤ j → j < o → xa.marks n m j = false)
    (hlo : 4 * p + d ≤ x / 4 ^ l) (hhi : x / 4 ^ l < 4 * p + o) : markAt xa T m x = false := by
  by_contra hmark
  have hset := (hm.mark_iff h hn (x / 4 ^ l - 4 * p) (by omega)).mpr
    ⟨x, by omega, Bool.eq_true_of_not_eq_false hmark⟩
  rw [hclear _ (by omega) (by omega)] at hset
  cases hset

/-- What a round of `xas_find_marked` does. -/
def FindMarkedNext (xa : XArray) (T : Layout) (m : XaMark) (s max v : ℕ)
    (r : Round (XaState × Bool) (Option (XaEntry × XaState))) : Prop :=
  (∃ s' v', r = .again s' ∧ v' < v ∧ FindMarkedAt xa T m s v' s') ∨
    ∃ b, r = .done b ∧ ∃ e, b = some e ∧
      SearchEnd xa T (fun j => markAt xa T m j = true) s max e

variable (h : XaInv xa T) {v : ℕ}
include h

/-- A slot whose mark is set : the entry is found, or lies below the node there. -/
theorem findMarkedSlot_step (hat : SlotAt T l p k n xas)
    (hmark : xa.marks n m k = true) (hs : s ≤ xas.xaIndex) (hmax : xas.xaIndex ≤ max)
    (hnone : ∀ x, s ≤ x → x < xas.xaIndex → markAt xa T m x = false)
    (hv : scanRank (2 ^ 64 - xas.xaIndex) l False ≤ v) :
    FindMarkedNext xa T m s max v (findMarkedSlot xa m n xas false) := by
  rcases l with _ | l
  · have hne := (h.marks m).leaf hat.node k hat.lt hmark
    have hplain := h.body.leafSlot hat.node k hat.lt
    have hround : findMarkedSlot xa m n xas false = .done (some (xa.slots n k, xas)) := by
      rw [findMarkedSlot, hat.xaOffset]
      rcases hslot : xa.slots n k with _ | v | w | c | o | _ | _ <;> rw [hslot] at hplain hne <;>
        first | exact absurd rfl hne | rfl | cases hplain
    refine .inr ⟨_, hround, _, rfl, hat.found hs hmax (hat.readAt_eq.trans hmark) hne
      fun x hx hlt => ?_⟩
    rw [hnone x hx hlt]
    exact Bool.false_ne_true
  · obtain ⟨c, hc, -⟩ := ((h.marks m).interior hat.node k hat.lt).mp hmark
    have hcT := h.body.slot_child hat.node hat.lt hc
    have hround : findMarkedSlot xa m n xas false = .again
        ({ xas with xaNode := .node c, xaOffset := xas.xaIndex / 4 ^ l % 4 }, false) := by
      simp only [findMarkedSlot, hat.xaOffset, hc, xasSetOffset, getOffset_eq h.body.toIsTree hcT]
    refine .inl ⟨_, _, hround, lt_of_lt_of_le ?_ hv,
      .slot ⟨hcT, Nat.mod_lt _ (by norm_num), rfl, rfl, hat.xaShift, ?_⟩ hs hnone⟩
    · exact scanRank_descend le_rfl id id
    · show xas.xaIndex / 4 ^ l = _
      rw [← hat.xaIndex, four_mul_div_add_mod]

omit h in
/-- A round of `xas_find_marked` at a slot. -/
theorem findMarkedRound_slot (h : Body xa T) (hat : SlotAt T l p k n xas)
    (hmax : xas.xaIndex ≤ max) (advance : Bool) :
    findMarkedRound xa max m (xas, advance) =
      let o := xasFindChunk xa n xas advance m
      if o > k then
        if ((4 * p + o) * 4 ^ l % 2 ^ 64 + ulongMax) % 2 ^ 64 ≥ max then
          .done (some (findMarkedMax { xas with xaIndex := (4 * p + o) * 4 ^ l % 2 ^ 64 }))
        else if o = 4 then
          .again ({ xas with xaIndex := (4 * p + o) * 4 ^ l % 2 ^ 64, xaOffset := o }, false)
        else findMarkedSlot xa m n
          { xas with xaIndex := (4 * p + o) * 4 ^ l % 2 ^ 64, xaOffset := o } false
      else findMarkedSlot xa m n xas advance := by
  have hlt := hat.lt
  have hsib : findMarkedSibling xa n xas advance = xas := by
    have hsib := xaIsSibling_of_body h hat.node hat.lt
    rw [findMarkedSibling, hat.xaOffset]
    rcases hs : xa.slots n k with _ | v | w | c | o | _ | _ <;> try simp
    intro _ ho
    rw [hs] at hsib
    simp [xaIsSibling] at hsib
    omega
  have h4 : k ≠ 4 := by omega
  have hgt : ¬k > 4 := by omega
  have hle : ¬xas.xaIndex > max := by omega
  simp only [findMarkedRound, hle, hat.xaNode, hat.xaOffset, h4, hgt, if_false, hsib,
    xasMoveIndex_eq h.toIsTree hat.node hat.index_div]

/-- No slot up to `o` is marked, so the search moves on to `o`. -/
theorem findMarked_move (hat : SlotAt T l p k n xas)
    (hmax : xas.xaIndex ≤ max) {advance : Bool} {o v : ℕ}
    (ho : o = xasFindChunk xa n xas advance m) (hko : k < o) (hs : s ≤ (4 * p + o) * 4 ^ l)
    (hnone : ∀ x, s ≤ x → x < (4 * p + o) * 4 ^ l → markAt xa T m x = false)
    (hv : scanRank (2 ^ 64 - xas.xaIndex) l False ≤ v) :
    FindMarkedNext xa T m s max v (findMarkedRound xa max m (xas, advance)) := by
  obtain ⟨-, ho4, -, hset⟩ := xasFindChunk_spec xa n xas advance m
    (by rw [hat.xaOffset]; exact hat.lt)
  rw [← ho] at ho4 hset
  have hl := (h.body.bound hat.node).1
  have hpos : 0 < 4 ^ l := by positivity
  have hplace : xas.xaIndex < (4 * p + o) * 4 ^ l := by
    rw [← Nat.div_lt_iff_lt_mul hpos, hat.xaIndex]
    omega
  have hle := h.body.place_le hat.node ho4
  rw [findMarkedRound_slot h.body hat hmax]
  simp only [← ho, if_pos hko]
  by_cases hend : ((4 * p + o) * 4 ^ l % 2 ^ 64 + ulongMax) % 2 ^ 64 ≥ max
  · rw [if_pos hend]
    refine .inr ⟨_, rfl, _, rfl, .none (isFirst_range_none fun x hx hxmax => ?_) (.inl rfl)⟩
    rw [hnone x hx (by rw [ulongMax] at hend; omega)]
    exact Bool.false_ne_true
  rw [if_neg hend]
  have hat' : ScanAt T l p o n
      { xas with xaIndex := (4 * p + o) * 4 ^ l % 2 ^ 64, xaOffset := o } :=
    ⟨hat.node, ho4, hat.xaNode, rfl, hat.xaShift, rfl⟩
  rcases ho4.eq_or_lt with rfl | hlt
  · rw [if_pos rfl]
    refine .inl ⟨_, _, rfl, lt_of_lt_of_le ?_ hv, .behind hat' hs hnone⟩
    exact scanRank_lt_of_lt (by omega) (by omega)
  rw [if_neg (by omega)]
  have hi := hat'.index_eq h.body.toHasNodes hlt
  have hplt := h.body.place_lt hat.node hlt
  refine findMarkedSlot_step h (hat'.slotAt h.body.toHasNodes hlt) (hset hlt)
    (by rw [hi]; exact hs) ?_ ?_ (le_trans ?_ hv)
  · rw [hi]
    rw [ulongMax] at hend
    omega
  · rw [hi]
    exact hnone
  · rw [hi]
    exact (scanRank_lt_of_lt (by omega) (by omega)).le

omit h in
/-- The search ends above `max`. -/
theorem findMarkedRound_max (hmax : ¬xas.xaIndex ≤ max) (advance : Bool)
    (hnone : ∀ x, s ≤ x → x < xas.xaIndex → markAt xa T m x = false) (v : ℕ) :
    FindMarkedNext xa T m s max v (findMarkedRound xa max m (xas, advance)) := by
  have hgt : xas.xaIndex > max := by omega
  refine .inr ⟨some (findMarkedMax xas), by simp [findMarkedRound, hgt, findMarkedOut], _, rfl,
    .none (isFirst_range_none fun x hx hxmax => ?_) (.inl rfl)⟩
  rw [hnone x hx (by omega)]
  exact Bool.false_ne_true

/-- Behind the last slot of a node the search goes on in its parent. -/
theorem findMarkedRound_behind (hat : ScanAt T l p 4 n xas)
    (hmax : xas.xaIndex ≤ max) (hs : s ≤ (4 * p + 4) * 4 ^ l)
    (hnone : ∀ x, s ≤ x → x < (4 * p + 4) * 4 ^ l → markAt xa T m x = false) :
    FindMarkedNext xa T m s max (scanRank (2 ^ 64 - (4 * p + 4) * 4 ^ l) l True)
      (findMarkedRound xa max m (xas, false)) := by
  have hl := (h.body.bound hat.node).1
  have hle : ¬xas.xaIndex > max := by omega
  rcases hq : T (l + 1) (p / 4) with _ | q
  · obtain ⟨rfl, hhead⟩ := h.body.root hat.node hq
    have hpar : xa.parent n = none := (h.body.parent hat.node).trans hq
    have hround : findMarkedRound xa max m (xas, false) = .done (some (setBounds
        { xas with xaOffset := xa.offset n + 1, xaNode := .null })) := by
      simp [findMarkedRound, hle, hat.xaNode, hat.xaOffset, hpar, findMarkedOut, XasNode.ofPtr]
    refine .inr ⟨_, hround, _, rfl, .none (isFirst_range_none fun x hx _ => ?_) (.inl rfl)⟩
    rcases Nat.lt_or_ge x ((4 * 0 + 4) * 4 ^ l) with hlt | hge
    · rw [hnone x hx hlt]
      exact Bool.false_ne_true
    · rw [h.markAt_of_null (h.body.entryAt_behind ⟨hhead, hat.node, by simpa using hq⟩ hge)]
      exact Bool.false_ne_true
  have hpar : xa.parent n = some q := (h.body.parent hat.node).trans hq
  have hround : findMarkedRound xa max m (xas, false) = .again
      ({ xas with xaOffset := xa.offset n + 1, xaNode := .ofPtr (xa.parent n) }, false) := by
    simp [findMarkedRound, hle, hat.xaNode, hat.xaOffset, hpar]
  have hat' := hat.climb h.body.toIsTree hq
  rw [← place_climb] at hs hnone
  have hrank : ∀ up : Prop, [Decidable up] →
      scanRank (2 ^ 64 - (4 * (p / 4) + (p % 4 + 1)) * 4 ^ (l + 1)) (l + 1) up <
        scanRank (2 ^ 64 - (4 * p + 4) * 4 ^ l) l True := fun up _ => by
    rw [place_climb]
    exact scanRank_climb trivial (by omega)
  rcases hat'.le.eq_or_lt with hk | hk
  · rw [hk] at hat' hs hnone hrank
    exact .inl ⟨_, _, hround, hrank True, .behind hat' hs hnone⟩
  · have hi := hat'.index_eq h.body.toHasNodes hk
    rw [← hi] at hs hnone hrank
    exact .inl ⟨_, _, hround, hrank False, .slot (hat'.slotAt h.body.toHasNodes hk) hs hnone⟩

theorem findMarkedRound_step (max v : ℕ) (st : XaState × Bool)
    (hst : FindMarkedAt xa T m s v st) :
    FindMarkedNext xa T m s max v (findMarkedRound xa max m st) := by
  rcases hst with ⟨hat, hs, hnone⟩ | ⟨hat, hs, hnone⟩ | ⟨hat, hs⟩
  case slot l p k n xas =>
    by_cases hmax : xas.xaIndex ≤ max
    case neg => exact findMarkedRound_max hmax false hnone _
    have hk := hat.lt
    have hpos : 0 < 4 ^ l := by positivity
    obtain ⟨hge, ho4, hclear, hset⟩ := xasFindChunk_spec xa n xas false m
      (by rw [hat.xaOffset]; exact hat.lt)
    rw [hat.xaOffset, Bool.toNat_false, Nat.add_zero] at hge hclear
    rcases hge.eq_or_lt with heq | hlt
    · -- The slot itself is marked.
      rw [findMarkedRound_slot h.body hat hmax]
      simp only [← heq, gt_iff_lt, lt_irrefl, if_false]
      exact findMarkedSlot_step h hat (heq ▸ hset (heq ▸ hk)) hs hmax hnone le_rfl
    have hplace : xas.xaIndex < (4 * p + xasFindChunk xa n xas false m) * 4 ^ l := by
      rw [← Nat.div_lt_iff_lt_mul hpos, hat.xaIndex]
      omega
    refine findMarked_move h hat hmax rfl hlt (by omega) (fun x hx hxlt => ?_) le_rfl
    rcases Nat.lt_or_ge x xas.xaIndex with hlo | hhi
    · exact hnone x hx hlo
    refine (h.marks m).markAt_clear h.body hat.node ho4 hclear ?_
      ((Nat.div_lt_iff_lt_mul hpos).mpr hxlt)
    rw [← hat.xaIndex]
    exact Nat.div_le_div_right hhi
  case behind l p n xas =>
    by_cases hmax : xas.xaIndex ≤ max
    · exact findMarkedRound_behind h hat hmax hs hnone
    · refine findMarkedRound_max hmax false (fun x hx hlt => hnone x hx (hlt.trans_le ?_)) _
      rw [hat.xaIndex]
      exact Nat.mod_le _ _
  case advance p k n xas =>
    by_cases hmax : xas.xaIndex ≤ max
    case neg => exact findMarkedRound_max hmax true (fun x hx hlt => by omega) _
    have hi : xas.xaIndex = 4 * p + k := by simpa using hat.xaIndex
    obtain ⟨hge, ho4, hclear, -⟩ := xasFindChunk_spec xa n xas true m
      (by rw [hat.xaOffset]; exact hat.lt)
    rw [hat.xaOffset, Bool.toNat_true] at hge hclear
    refine findMarked_move h hat hmax rfl hge (by rw [pow_zero]; omega) (fun x hx hxlt => ?_)
      le_rfl
    rw [pow_zero, mul_one] at hxlt
    exact (h.marks m).markAt_clear h.body hat.node ho4 hclear (by rw [pow_zero, Nat.div_one]; omega)
      (by rw [pow_zero, Nat.div_one]; exact hxlt)

theorem findMarkedLoop_spec {st : XaState × Bool}
    (hst : FindMarkedAt xa T m s v st) (hv : v < xaFuel) :
    ∃ r, (runLoop (findMarkedRound xa max m) xaFuel st).join = some r ∧
      SearchEnd xa T (fun j => markAt xa T m j = true) s max r := by
  obtain ⟨b, hrun, r, rfl, hend⟩ := runLoop_of_rank (findMarkedRound_step h max) hst hv
  exact ⟨r, by rw [hrun]; rfl, hend⟩

omit h in
/-- The search ends outside the tree. -/
theorem findMarkedOut_end (hnone : ∀ x, s ≤ x → markAt xa T m x = false) (max : ℕ) (xas : XaState) :
    SearchEnd xa T (fun j => markAt xa T m j = true) s max (findMarkedOut max xas) := by
  have hfirst : IsFirst (· < ·) (InRange (fun j => markAt xa T m j = true) s max) none :=
    isFirst_range_none fun x hx _ => by
      rw [hnone x hx]
      exact Bool.false_ne_true
  rw [findMarkedOut]
  split_ifs
  · exact .none hfirst (.inl rfl)
  · exact .none hfirst (.inl rfl)

omit h in
theorem scanRank_lt_xaFuel (hi : i ≤ 2 ^ 64) (hl : l < 32) (up : Prop) [Decidable up] :
    scanRank i l up < xaFuel := by
  unfold scanRank xaFuel
  split <;> omega

/-- `xas_find_marked` that was not begun starts at the head. -/
theorem xasFindMarked_restart (hshift : xas.xaShift = 0)
    (hnode : xas.xaNode = .restart) :
    ∃ r, xasFindMarked xa xas max m = some r ∧
      SearchEnd xa T (fun j => markAt xa T m j = true) xas.xaIndex max r := by
  by_cases hmax : xas.xaIndex > max
  · refine ⟨findMarkedMax xas, by simp [xasFindMarked, hnode, hmax], .none ?_ (.inl rfl)⟩
    exact isFirst_range_none fun x hx hxmax => by omega
  have hmark : ∀ {x}, entryAt xa T x = .null → markAt xa T m x = false := fun hx =>
    h.markAt_of_null hx m
  rcases h.body.headSlot with hplain | ⟨r, hr⟩
  · have hhead := ne_node_of_isPlain hplain
    have hbare : ∀ x, x ≠ 0 → markAt xa T m x = false := fun x hx =>
      hmark (h.body.entryAt_bare hhead hx)
    have hmaxIndex : maxIndex xa xa.xaHead = 0 := by
      rcases hs : xa.xaHead with _ | v | w | c | o | _ | _ <;>
        first | exact absurd hs (hhead _) | rfl
    have hfind : xasFindMarked xa xas max m =
        if xas.xaIndex > 0 then some (findMarkedOut max { xas with xaNode := .null })
        else if xa.xaMarked m then some (xa.xaHead, { xas with xaNode := .null })
        else some (findMarkedOut max { xas with xaNode := .null, xaIndex := 1 }) := by
      simp only [xasFindMarked, hnode, hmax, if_false, hmaxIndex]
    have hzero : markAt xa T m 0 = xa.xaMarked m := readAt_head h.body.toIsTree hhead
    rw [hfind]
    split_ifs with hi hset
    · exact ⟨_, rfl, findMarkedOut_end (fun x hx => hbare x (by omega)) max _⟩
    · have hi0 : xas.xaIndex = 0 := by omega
      have hentry : entryAt xa T 0 = xa.xaHead := readAt_head h.body.toIsTree hhead
      have hne : entryAt xa T 0 ≠ .null := fun hnull => by
        rw [(h.marks m).bare (hentry.symm.trans hnull)] at hset
        cases hset
      refine ⟨_, rfl, ?_⟩
      rw [← hentry, hi0]
      refine .found (isFirst_range le_rfl (by omega) (hzero.trans hset) fun x _ hx => ?_) hne rfl
        (.head rfl rfl hhead)
      omega
    · have hclear : ∀ x, markAt xa T m x = false := fun x => by
        by_cases hx : x = 0
        · rw [hx, hzero]
          exact Bool.eq_false_iff.mpr hset
        · exact hbare x hx
      exact ⟨_, rfl, findMarkedOut_end (fun x _ => hclear x) max _⟩
  · obtain ⟨L, htop⟩ := h.body.exists_top hr
    have hL := (h.body.bound htop.node).1
    have hpos : 0 < 4 ^ L := by positivity
    have hmaxIndex := maxIndex_top h.body.toIsTree htop
    by_cases hout : xas.xaIndex > 4 ^ (L + 1) - 1
    · have hdiv : xas.xaIndex / 4 ^ L > 3 := by
        refine (Nat.le_div_iff_mul_le hpos).mpr ?_
        rw [pow_succ] at hout
        omega
      simp only [xasFindMarked, hnode, hmax, if_false, hr, hmaxIndex, hout, if_true]
      refine ⟨_, rfl, findMarkedOut_end (fun x hx => hmark (h.body.entryAt_outside htop ?_)) max _⟩
      exact hdiv.trans_le (Nat.div_le_div_right hx)
    have hdiv : xas.xaIndex / 4 ^ L < 4 := by
      rw [Nat.div_lt_iff_lt_mul hpos]
      rw [pow_succ] at hout
      omega
    have hmod : xas.xaIndex / 4 ^ L % 256 = xas.xaIndex / 4 ^ L := Nat.mod_eq_of_lt (by omega)
    simp only [xasFindMarked, hnode, hmax, if_false, hr, hmaxIndex, hout,
      h.body.shift htop.node, shiftRight_two_mul, hmod]
    refine findMarkedLoop_spec h (.slot ⟨htop.node, hdiv, rfl, rfl, hshift, ?_⟩ le_rfl
      fun x hx hlt => ?_) (scanRank_lt_xaFuel (by omega) hL _)
    · simp
    · exact absurd hx (not_le.mpr hlt)

/-- `xas_find_marked` returns the first marked entry it is asked for. -/
theorem xasFindMarked_spec (hfrom : SearchFrom xa T xas s) (max : ℕ) :
    ∃ r, xasFindMarked xa xas max m = some r ∧
      SearchEnd xa T (fun j => markAt xa T m j = true) s max r := by
  rcases hfrom with ⟨hshift, hnode⟩ | ⟨hshift, hn, hnode, hoffset⟩ | ⟨hnode, hi, hhead⟩
  case restart => exact xasFindMarked_restart h hshift hnode
  case leaf n =>
    by_cases hmax : xas.xaIndex > max
    · refine ⟨findMarkedMax xas, by simp [xasFindMarked, hnode, hmax], .none ?_ (.inl rfl)⟩
      exact isFirst_range_none fun x hx hxmax => by omega
    have hat : SlotAt T 0 (xas.xaIndex / 4) (xas.xaIndex % 4) n xas :=
      ⟨hn, by omega, hnode, hoffset, hshift, by simp; omega⟩
    simp only [xasFindMarked, hnode, hmax, if_false]
    exact findMarkedLoop_spec h (.advance hat rfl) (scanRank_lt_xaFuel (by omega) (by norm_num) _)
  case head =>
    refine ⟨findMarkedOut max { xas with xaIndex := 1 }, by simp [xasFindMarked, hnode, hi], ?_⟩
    exact findMarkedOut_end (fun x hx => h.markAt_of_null (h.body.entryAt_bare hhead (by omega)) m)
      max _

omit h

end

end LinuxKernelTest
