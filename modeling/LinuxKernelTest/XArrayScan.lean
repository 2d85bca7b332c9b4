import LinuxKernelTest.Enumeration
import LinuxKernelTest.XArrayProperties

/-!
# XArray : scanning the tree for the next entry

A search stands somewhere in the array and goes on with the indices from some `s` on
(`SearchFrom`). `xas_find` returns the first entry among the indices from `s` to `max`, and
then stands behind it, or returns `NULL` (`SearchEnd`).

It walks through the tree slot by slot. The slot `k` of the node at level `l` and prefix `p`
starts at the index `(4 * p + k) * 4 ^ l`. The walk keeps the invariant that no entry lies
between `s` and the place it has reached.
-/

namespace LinuxKernelTest

open Nat

/-- The elements of `P` from `s` to `max`. -/
def InRange (P : ℕ → Prop) (s max x : ℕ) : Prop := s ≤ x ∧ x ≤ max ∧ P x

/-- A search in the state `xas` goes on with the indices from the given one on : it was not
begun, or it stands at a slot of a leaf or at a bare head. -/
inductive SearchFrom (xa : XArray) (T : Layout) (xas : XaState) : ℕ → Prop
  | restart : xas.xaShift = 0 → xas.xaNode = .restart → SearchFrom xa T xas xas.xaIndex
  | leaf {n : NodeId} : xas.xaShift = 0 → T 0 (xas.xaIndex / 4) = some n → xas.xaNode = .node n →
      xas.xaOffset = xas.xaIndex % 4 → SearchFrom xa T xas (xas.xaIndex + 1)
  | head : xas.xaNode = .null → xas.xaIndex = 0 → (∀ r, xa.xaHead ≠ .node r) →
      SearchFrom xa T xas 1

/-- What a search for the indices `P` among those from `s` to `max` ends with. -/
inductive SearchEnd (xa : XArray) (T : Layout) (P : ℕ → Prop) (s max : ℕ) :
    XaEntry × XaState → Prop
  | found {j : ℕ} {xas : XaState} : IsFirst (· < ·) (InRange P s max) (some j) →
      entryAt xa T j ≠ .null → xas.xaIndex = j → SearchFrom xa T xas (j + 1) →
      SearchEnd xa T P s max (entryAt xa T j, xas)
  | none {xas : XaState} : IsFirst (· < ·) (InRange P s max) none →
      (xasInvalid xas = true ∨ xasSibling xa xas = false) → SearchEnd xa T P s max (.null, xas)

section

variable {xa : XArray} {T : Layout} {P : ℕ → Prop} {j l p k s max : ℕ} {n : NodeId}
  {xas : XaState} {c : NodeId} {x : ℕ}

theorem isFirst_range (hs : s ≤ j) (hmax : j ≤ max) (hj : P j)
    (hnone : ∀ x, s ≤ x → x < j → ¬P x) : IsFirst (· < ·) (InRange P s max) (some j) := by
  refine ⟨⟨hs, hmax, hj⟩, fun x hx => ?_⟩
  rcases lt_trichotomy x j with hlt | heq | hgt
  exacts [absurd hx.2.2 (hnone x hx.1 hlt), .inl heq, .inr hgt]

theorem isFirst_range_none (hnone : ∀ x, s ≤ x → x ≤ max → ¬P x) :
    IsFirst (· < ·) (InRange P s max) none :=
  fun x hx => hnone x hx.1 hx.2.1 hx.2.2

/-- Behind the first element. -/
theorem inRange_behind (hj : s ≤ j) (x : ℕ) :
    InRange P s max x ∧ j < x ↔ InRange P (j + 1) max x := by
  constructor
  · rintro ⟨⟨-, hmax, hx⟩, hlt⟩
    exact ⟨hlt, hmax, hx⟩
  · rintro ⟨hlt, hmax, hx⟩
    exact ⟨⟨hj.trans (le_of_succ_le hlt), hmax, hx⟩, hlt⟩

/-! ## Places in the tree -/

theorem HasNodes.place_le (h : HasNodes xa T) (hn : T l p = some n) (hk : k ≤ 4) :
    (4 * p + k) * 4 ^ l ≤ 2 ^ 64 := by
  obtain ⟨hl, hp⟩ := h.bound hn
  calc (4 * p + k) * 4 ^ l ≤ (4 * p + 4) * 4 ^ l := mul_le_mul_right _ (by omega)
    _ = (p + 1) * 4 ^ (l + 1) := by ring
    _ ≤ 4 ^ (31 - l) * 4 ^ (l + 1) := mul_le_mul_right _ hp
    _ = 2 ^ 64 := by rw [← pow_add, show 31 - l + (l + 1) = 32 by omega, two_pow_64]

theorem HasNodes.place_lt (h : HasNodes xa T) (hn : T l p = some n) (hk : k < 4) :
    (4 * p + k) * 4 ^ l < 2 ^ 64 :=
  (mul_lt_mul_of_pos_right (by omega) (by positivity)).trans_le
    (h.place_le hn (k := 4) le_rfl)

theorem place_div (hk : k < 4) : (4 * p + k) * 4 ^ l / 4 ^ (l + 1) = p := by
  rw [div_pow_succ, Nat.mul_div_cancel _ (by positivity)]
  omega

/-- `xas_move_index` at a node that covers the index. -/
theorem xasMoveIndex_eq (h : IsTree xa T) (hn : T l p = some n)
    (hi : xas.xaIndex / 4 ^ (l + 1) = p) (k : ℕ) :
    xasMoveIndex xa n xas k = { xas with xaIndex := (4 * p + k) * 4 ^ l % 2 ^ 64 } := by
  have hshift : xa.shift n + 2 = 2 * (l + 1) := by
    rw [h.shift hn]
    ring
  rw [xasMoveIndex, hshift, h.shift hn, shiftRight_two_mul, shiftLeft_two_mul, shiftLeft_two_mul,
    hi, show p * 4 ^ (l + 1) + k * 4 ^ l = (4 * p + k) * 4 ^ l by ring]

/-- `xas_advance` moves to the next slot. -/
theorem xasAdvance_eq (h : IsTree xa T) (hn : T l p = some n)
    (hi : xas.xaIndex / 4 ^ (l + 1) = p) (hoffset : xas.xaOffset = k) (hk : k < 4) :
    xasAdvance xa n xas =
      { xas with xaOffset := k + 1, xaIndex := (4 * p + (k + 1)) * 4 ^ l % 2 ^ 64 } := by
  have hk' : (xas.xaOffset + 1) % 256 = k + 1 := by omega
  have hmove := xasMoveIndex_eq (k := k + 1) h hn
    (show { xas with xaOffset := k + 1 : XaState }.xaIndex / 4 ^ (l + 1) = p from hi)
  rw [xasAdvance, hk', hmove]

/-- The state stands at slot `k` of the node `n` at level `l` and prefix `p`, or behind its last
slot. -/
structure ScanAt (T : Layout) (l p k : ℕ) (n : NodeId) (xas : XaState) : Prop where
  node : T l p = some n
  le : k ≤ 4
  xaNode : xas.xaNode = .node n
  xaOffset : xas.xaOffset = k
  xaShift : xas.xaShift = 0
  xaIndex : xas.xaIndex = (4 * p + k) * 4 ^ l % 2 ^ 64

theorem ScanAt.index_eq (hat : ScanAt T l p k n xas) (h : HasNodes xa T) (hk : k < 4) :
    xas.xaIndex = (4 * p + k) * 4 ^ l := by
  rw [hat.xaIndex, mod_eq_of_lt (h.place_lt hat.node hk)]

/-- One slot further. -/
theorem ScanAt.advance (hat : ScanAt T l p k n xas) (h : IsTree xa T) (hk : k < 4) :
    ScanAt T l p (k + 1) n (xasAdvance xa n xas) := by
  have hi : xas.xaIndex / 4 ^ (l + 1) = p := by
    rw [hat.index_eq h.toHasNodes hk]
    exact place_div hk
  rw [xasAdvance_eq h hat.node hi hat.xaOffset hk]
  exact ⟨hat.node, hk, hat.xaNode, rfl, hat.xaShift, rfl⟩

theorem place_climb (l p : ℕ) :
    (4 * (p / 4) + (p % 4 + 1)) * 4 ^ (l + 1) = (4 * p + 4) * 4 ^ l := by
  rw [show 4 * (p / 4) + (p % 4 + 1) = p + 1 by omega]
  ring

/-- From behind the last slot to the next slot of the parent : the place is the same. -/
theorem ScanAt.climb {q : NodeId} (hat : ScanAt T l p 4 n xas) (h : IsTree xa T)
    (hq : T (l + 1) (p / 4) = some q) :
    ScanAt T (l + 1) (p / 4) (p % 4 + 1) q
      { xas with xaOffset := xa.offset n + 1, xaNode := .ofPtr (xa.parent n) } := by
  refine ⟨hq, by omega, ?_, ?_, hat.xaShift, ?_⟩
  · show XasNode.ofPtr (xa.parent n) = .node q
    rw [h.parent hat.node, hq]
    rfl
  · show xa.offset n + 1 = p % 4 + 1
    rw [h.offset hat.node hq]
  · show xas.xaIndex = _
    rw [hat.xaIndex, place_climb]

/-- To the first slot of the child at slot `k` : the place is the same. -/
theorem ScanAt.descend (hat : ScanAt T (l + 1) p k n xas)
    (hc : T l (4 * p + k) = some c) :
    ScanAt T l (4 * p + k) 0 c { xas with xaNode := .node c, xaOffset := 0 } := by
  refine ⟨hc, by omega, rfl, rfl, hat.xaShift, ?_⟩
  show xas.xaIndex = _
  rw [hat.xaIndex, show (4 * (4 * p + k) + 0) * 4 ^ l = (4 * p + k) * 4 ^ (l + 1) by ring]

/-- Where a scan stops it does not stand at a sibling. -/
theorem ScanAt.not_sibling (hat : ScanAt T l p k n xas) (h : IsTree xa T) :
    xasSibling xa xas = false := by
  have hl := (h.bound hat.node).1
  have hmask : (xaChunkSize * 4 ^ l % 2 ^ 64 + ulongMax) % 2 ^ 64 = 2 ^ (2 * (l + 1)) - 1 := by
    have hpos : 0 < 4 ^ (l + 1) := by positivity
    have hle : 4 ^ (l + 1) ≤ 4 ^ 32 := Nat.pow_le_pow_right (by norm_num) (by omega)
    rw [pow_mul, ← pow_succ', ulongMax]
    norm_num at hle ⊢
    omega
  have hk := hat.le
  rw [xasSibling, hat.xaNode]
  simp only [h.shift hat.node, hat.xaOffset, decide_eq_false_iff_not, not_lt, shiftLeft_two_mul]
  rw [hmask, Nat.and_two_pow_sub_one_eq_mod, hat.xaIndex, pow_mul, two_pow_64]
  have hdvd : 4 ^ (l + 1) ∣ 4 ^ 32 := pow_dvd_pow 4 (by omega)
  rw [show (2 : ℕ) ^ 2 = 4 by norm_num, Nat.mod_mod_of_dvd _ hdvd,
    show (4 * p + k) * 4 ^ l = k * 4 ^ l + 4 ^ (l + 1) * p by ring, Nat.add_mul_mod_self_left]
  rcases Nat.lt_or_ge k 4 with hk4 | hk4
  · have hlt : k * 4 ^ l < 4 ^ 32 := by
      calc k * 4 ^ l < 4 * 4 ^ l := Nat.mul_lt_mul_of_pos_right hk4 (by positivity)
        _ = 4 ^ (l + 1) := by ring
        _ ≤ 4 ^ 32 := Nat.pow_le_pow_right (by norm_num) (by omega)
    rw [Nat.mod_eq_of_lt hlt]
    exact Nat.mod_le _ _
  · obtain rfl : k = 4 := by omega
    rw [show 4 * 4 ^ l = 4 ^ (l + 1) by ring, Nat.mod_self]
    exact Nat.zero_le _

/-! ## `xas_find` -/

/-- Behind an empty slot, or the slot of a leaf without an entry. -/
theorem Body.entryAt_null_slot (h : Body xa T) (hn : T l p = some n) (hk : k < 4)
    (hnull : xa.slots n k = .null) (hlo : (4 * p + k) * 4 ^ l ≤ x)
    (hhi : x < (4 * p + (k + 1)) * 4 ^ l) : entryAt xa T x = .null := by
  have hpos : 0 < 4 ^ l := by positivity
  have hx : x / 4 ^ l = 4 * p + k := by
    have hge := (le_div_iff_mul_le hpos).mpr hlo
    have hlt := (div_lt_iff_lt_mul hpos).mpr hhi
    omega
  have hp : x / 4 ^ (l + 1) = p := by
    rw [div_pow_succ, hx]
    omega
  have hslot : x / 4 ^ l % 4 = k := by omega
  have hend : xa.slots n (x / 4 ^ l % 4) = .null := by rw [hslot, hnull]
  exact (entryAt_of_slot h (by rw [hp]; exact hn) (.inr hend)).trans hend

/-- Behind the root. -/
theorem IsTree.entryAt_behind (h : IsTree xa T) (htop : IsTop xa T l n)
    (hx : (4 * 0 + 4) * 4 ^ l ≤ x) : entryAt xa T x = .null := by
  refine h.entryAt_outside htop ?_
  exact (le_div_iff_mul_le (by positivity)).mpr hx

/-- The invariant of the loop of `xas_find` : no entry lies between `s` and the place the
scan has reached. -/
inductive FindAt (xa : XArray) (T : Layout) (s : ℕ) : ℕ → XaState → Prop
  | node {l p k : ℕ} {n : NodeId} {xas : XaState} : ScanAt T l p k n xas →
      s ≤ (4 * p + k) * 4 ^ l →
      (∀ x, s ≤ x → x < (4 * p + k) * 4 ^ l → entryAt xa T x = .null) →
      FindAt xa T s (scanRank (2 ^ 64 - (4 * p + k) * 4 ^ l) l (k = 4)) xas
  | out {xas : XaState} : xas.xaNode = .null → (∀ x, s ≤ x → entryAt xa T x = .null) →
      FindAt xa T s 0 xas

theorem FindAt.climb (h : Body xa T) (hat : ScanAt T l p 4 n xas)
    (hs : s ≤ (4 * p + 4) * 4 ^ l)
    (hnone : ∀ x, s ≤ x → x < (4 * p + 4) * 4 ^ l → entryAt xa T x = .null) :
    ∃ v < scanRank (2 ^ 64 - (4 * p + 4) * 4 ^ l) l (4 = 4),
      FindAt xa T s v { xas with xaOffset := xa.offset n + 1, xaNode := .ofPtr (xa.parent n) } := by
  have hl := (h.bound hat.node).1
  rcases hq : T (l + 1) (p / 4) with _ | q
  · obtain ⟨rfl, hhead⟩ := h.root hat.node hq
    refine ⟨0, by unfold scanRank; omega, .out ?_ fun x hx => ?_⟩
    · show XasNode.ofPtr (xa.parent n) = .null
      rw [h.parent hat.node, hq]
      rfl
    · rcases lt_or_ge x ((4 * 0 + 4) * 4 ^ l) with hlt | hge
      · exact hnone x hx hlt
      · exact h.entryAt_behind ⟨hhead, hat.node, by simpa using hq⟩ hge
  · rw [← place_climb] at hs hnone
    refine ⟨_, ?_, .node (hat.climb h.toIsTree hq) hs hnone⟩
    rw [place_climb]
    exact scanRank_climb rfl (by omega)

/-- A round of `xas_find` at a slot. -/
theorem findRound_slot (hat : ScanAt T l p k n xas) (hmax : xas.xaIndex ≤ max) (hk : k < 4) :
    findRound xa max xas = match xa.slots n k with
      | .node c => .again { xas with xaNode := .node c, xaOffset := 0 }
      | entry => if entry ≠ .null ∧ ¬xaIsSibling entry then .done (some (entry, xas))
        else .again (xasAdvance xa n xas) := by
  have hk4 : k ≠ 4 := by omega
  have hgt : ¬k > 4 := by omega
  cases hslot : xa.slots n k <;>
    simp only [findRound, hat.xaNode, hat.xaOffset, hmax, hk4, hgt, hslot, if_true, if_false]

/-- The state stands at slot `k` of the node `n`, at some index below it. -/
structure SlotAt (T : Layout) (l p k : ℕ) (n : NodeId) (xas : XaState) : Prop where
  node : T l p = some n
  lt : k < 4
  xaNode : xas.xaNode = .node n
  xaOffset : xas.xaOffset = k
  xaShift : xas.xaShift = 0
  xaIndex : xas.xaIndex / 4 ^ l = 4 * p + k

theorem ScanAt.slotAt (hat : ScanAt T l p k n xas) (h : HasNodes xa T) (hk : k < 4) :
    SlotAt T l p k n xas := by
  refine ⟨hat.node, hk, hat.xaNode, hat.xaOffset, hat.xaShift, ?_⟩
  rw [hat.index_eq h hk, Nat.mul_div_cancel _ (by positivity)]

theorem SlotAt.leaf (hat : SlotAt T 0 p k n xas) :
    T 0 (xas.xaIndex / 4) = some n ∧ xas.xaIndex % 4 = k := by
  have hi := hat.xaIndex
  have hlt := hat.lt
  rw [pow_zero, Nat.div_one] at hi
  rw [hi, show (4 * p + k) / 4 = p by omega]
  exact ⟨hat.node, by omega⟩

theorem SlotAt.readAt_eq {β : Type*} {f : NodeId → ℕ → β} {top d : β}
    (hat : SlotAt T 0 p k n xas) : readAt xa T f top d xas.xaIndex = f n k := by
  rw [readAt_leaf hat.leaf.1, hat.leaf.2]

/-- A slot of a leaf with an entry is what the search looks for. -/
theorem SlotAt.found (hat : SlotAt T 0 p k n xas) (hs : s ≤ xas.xaIndex) (hmax : xas.xaIndex ≤ max)
    (hP : P xas.xaIndex) (hne : xa.slots n k ≠ .null)
    (hnone : ∀ x, s ≤ x → x < xas.xaIndex → ¬P x) :
    SearchEnd xa T P s max (xa.slots n k, xas) := by
  have hentry : entryAt xa T xas.xaIndex = xa.slots n k := hat.readAt_eq
  rw [← hentry] at hne ⊢
  refine .found (isFirst_range hs hmax hP hnone) hne rfl ?_
  exact .leaf hat.xaShift hat.leaf.1 hat.xaNode (by rw [hat.xaOffset, hat.leaf.2])

theorem findRound_step (h : Body xa T) (max : ℕ) :
    RoundKeeps (findRound xa max) (FindAt xa T s)
      fun b => ∃ r, b = some r ∧ SearchEnd xa T (fun j => entryAt xa T j ≠ .null) s max r := by
  intro v xas hs
  rcases hs with ⟨hat, hs, hnone⟩ | ⟨hnode, hnone⟩
  case out =>
    refine .inr ⟨_, by rw [findRound, hnode], _, rfl, .none ?_ (.inl rfl)⟩
    exact isFirst_range_none fun x hx _ => not_not.mpr (hnone x hx)
  case node l p k n =>
    have hl := (h.bound hat.node).1
    by_cases hmax : xas.xaIndex ≤ max
    · rcases hat.le.lt_or_eq with hk | rfl
      · have hlt := h.place_lt hat.node hk
        by_cases hnull : xa.slots n k = .null
        · have hpos : 0 < 4 ^ l := by positivity
          have hstep : (4 * p + (k + 1)) * 4 ^ l = (4 * p + k) * 4 ^ l + 4 ^ l := by ring
          refine .inl ⟨_, _, by simp [findRound_slot hat hmax hk, hnull], ?_,
            .node (hat.advance h.toIsTree hk) (by omega) fun x hx hlt' => ?_⟩
          · exact scanRank_lt_of_lt (by omega) (by omega)
          · rcases lt_or_ge x ((4 * p + k) * 4 ^ l) with hlo | hge
            · exact hnone x hx hlo
            · exact h.entryAt_null_slot hat.node hk hnull hge hlt'
        rcases l with _ | l
        · have hplain := h.leafSlot hat.node k hk
          have hround : findRound xa max xas = .done (some (xa.slots n k, xas)) := by
            rw [findRound_slot hat hmax hk]
            rcases hs : xa.slots n k with _ | v | w | c | o | _ | _ <;> rw [hs] at hplain hnull <;>
              first | exact absurd rfl hnull | rfl | cases hplain
          have hslot := hat.slotAt h.toHasNodes hk
          rw [← hat.index_eq h.toHasNodes hk] at hs hnone
          exact .inr ⟨_, hround, _, rfl, hslot.found hs hmax (ne_of_eq_of_ne hslot.readAt_eq hnull)
            hnull fun x hx hlt => not_not.mpr (hnone x hx hlt)⟩
        · obtain ⟨c, hc⟩ := (h.interior hat.node k hk).resolve_left hnull
          have hcT := h.slot_child hat.node hk hc
          have hplace : (4 * (4 * p + k) + 0) * 4 ^ l = (4 * p + k) * 4 ^ (l + 1) := by ring
          refine .inl ⟨_, _, by rw [findRound_slot hat hmax hk, hc], ?_,
            .node (hat.descend hcT) (by rwa [hplace]) (by rwa [hplace])⟩
          rw [hplace]
          exact scanRank_descend le_rfl (by omega) (by omega)
      · obtain ⟨v', hv', hat'⟩ := FindAt.climb h hat hs hnone
        exact .inl ⟨_, v', by simp [findRound, hat.xaNode, hat.xaOffset, hmax], hv', hat'⟩
    · refine .inr ⟨_, by simp [findRound, hat.xaNode, hmax], _, rfl, .none ?_
        (.inr (hat.not_sibling h.toIsTree))⟩
      refine isFirst_range_none fun x hx hxmax => not_not.mpr (hnone x hx ?_)
      -- The index has not wrapped, for it is above `max`.
      have hle := h.place_le hat.node hat.le
      have hi := hat.xaIndex
      omega

theorem findFrom_spec (h : Body xa T) (hat : ScanAt T l p (k + 1) n (xasAdvance xa n xas))
    (hs : s ≤ (4 * p + (k + 1)) * 4 ^ l)
    (hnone : ∀ x, s ≤ x → x < (4 * p + (k + 1)) * 4 ^ l → entryAt xa T x = .null) :
    ∃ r, findFrom xa max n xas = some r ∧
      SearchEnd xa T (fun j => entryAt xa T j ≠ .null) s max r := by
  have hl := (h.bound hat.node).1
  obtain ⟨b, hrun, r, rfl, hend⟩ := runLoop_of_rank (findRound_step h max)
    (.node hat hs hnone) (n := xaFuel) (by
      unfold scanRank xaFuel
      split <;> omega)
  exact ⟨r, by rw [findFrom, hrun]; rfl, hend⟩

/-- `xas_find` that was not begun : `xas_load` looks at the index itself. -/
theorem xasFind_restart (h : Body xa T) (hshift : xas.xaShift = 0) (hnode : xas.xaNode = .restart) :
    ∃ r, xasFind xa xas max = some r ∧
      SearchEnd xa T (fun j => entryAt xa T j ≠ .null) xas.xaIndex max r := by
  by_cases hmax : xas.xaIndex > max
  · refine ⟨setBounds xas, by simp [xasFind, hnode, hmax], .none ?_ (.inl rfl)⟩
    exact isFirst_range_none fun x hx hxmax => by omega
  obtain ⟨xas', hload, hend⟩ := xasLoad_spec h hshift (.inl (.inl hnode))
  have hhere : entryAt xa T xas.xaIndex ≠ .null →
      IsFirst (· < ·) (InRange (fun j => entryAt xa T j ≠ .null) xas.xaIndex max)
        (some xas.xaIndex) := fun hne =>
    isFirst_range le_rfl (by omega) hne fun x hx hlt => by omega
  simp only [xasFind, hnode, hmax, if_false, hload, Option.bind_some]
  rcases hend with hnull | ⟨hi, hhead⟩ | ⟨hn, hstop⟩
  case outside =>
    rw [hnull _ le_rfl]
    exact ⟨_, rfl, .none (isFirst_range_none fun x hx _ => not_not.mpr (hnull x hx)) (.inl rfl)⟩
  case head =>
    refine ⟨_, rfl, ?_⟩
    by_cases hnull : entryAt xa T xas.xaIndex = .null
    · rw [hnull]
      refine .none (isFirst_range_none fun x hx _ => not_not.mpr ?_) (.inr rfl)
      by_cases hx0 : x = 0
      · rw [hx0, ← hi, hnull]
      · exact h.entryAt_bare hhead hx0
    · exact .found (hhere hnull) hnull rfl (by rw [hi]; exact .head rfl rfl hhead)
  case slot l n =>
    have hslot := entryAt_of_slot h hn hstop
    by_cases hnull : entryAt xa T xas.xaIndex = .null
    case neg =>
      obtain rfl : l = 0 := hstop.resolve_right fun hs => hnull (hslot.trans hs)
      dsimp only
      rw [if_pos hnull]
      refine ⟨_, rfl, .found (hhere hnull) hnull rfl ?_⟩
      have hleaf : T 0 (xas.xaIndex / 4) = some n := by simpa using hn
      exact .leaf hshift hleaf rfl (by simp)
    have hk : xas.xaIndex / 4 ^ l % 4 < 4 := by omega
    have hpos : 0 < 4 ^ l := by positivity
    have hplace := four_mul_div_add_mod xas.xaIndex l
    dsimp only
    rw [if_neg (not_not.mpr hnull)]
    have hadv := xasAdvance_eq h.toIsTree hn (k := xas.xaIndex / 4 ^ l % 4)
      (show { xas with xaNode := .node n, xaOffset := xas.xaIndex / 4 ^ l % 4 : XaState }.xaIndex /
        4 ^ (l + 1) = _ from rfl) rfl hk
    have hlt : xas.xaIndex < (4 * (xas.xaIndex / 4 ^ (l + 1)) + (xas.xaIndex / 4 ^ l % 4 + 1)) *
        4 ^ l := by
      rw [← add_assoc, hplace]
      exact (div_lt_iff_lt_mul hpos).mp (lt_succ_self _)
    refine findFrom_spec h (k := xas.xaIndex / 4 ^ l % 4) ?_ hlt.le fun x hx hxlt => ?_
    · rw [hadv]
      exact ⟨hn, hk, rfl, rfl, hshift, rfl⟩
    · refine h.entryAt_null_slot hn hk (hslot.symm.trans hnull) ?_ hxlt
      rw [hplace]
      exact (div_mul_le_self _ _).trans hx

/-- `xas_find` returns the first entry it is asked for. -/
theorem xasFind_spec (h : Body xa T) (hfrom : SearchFrom xa T xas s) (max : ℕ) :
    ∃ r, xasFind xa xas max = some r ∧
      SearchEnd xa T (fun j => entryAt xa T j ≠ .null) s max r := by
  rcases hfrom with ⟨hshift, hnode⟩ | ⟨hshift, hn, hnode, hoffset⟩ | ⟨hnode, hi, hhead⟩
  case restart => exact xasFind_restart h hshift hnode
  case leaf n =>
    by_cases hmax : xas.xaIndex > max
    · refine ⟨setBounds xas, by simp [xasFind, hnode, hmax], .none ?_ (.inl rfl)⟩
      exact isFirst_range_none fun x hx hxmax => by omega
    have hfind : xasFind xa xas max = findFrom xa max n xas := by
      simp [xasFind, hnode, hmax, hoffset, and_three]
    have hk : xas.xaIndex % 4 < 4 := by omega
    have hadv := xasAdvance_eq h.toIsTree hn (by simp) hoffset hk
    rw [hfind]
    refine findFrom_spec h (l := 0) (p := xas.xaIndex / 4) (k := xas.xaIndex % 4) ?_ ?_
      fun x hx hlt => ?_
    · rw [hadv]
      exact ⟨hn, hk, hnode, rfl, hshift, rfl⟩
    · rw [pow_zero]
      omega
    · rw [pow_zero] at hlt
      omega
  case head =>
    refine ⟨setBounds { xas with xaIndex := 1 }, by simp [xasFind, hnode, hi], .none ?_ (.inl rfl)⟩
    exact isFirst_range_none fun x hx _ => not_not.mpr (h.entryAt_bare hhead (by omega))

end

end LinuxKernelTest
