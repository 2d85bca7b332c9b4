import LinuxKernelTest.OrderedLinks
import LinuxKernelTest.XArrayTree

/-!
# XArray : the leaf list

`xas_node_find_prev` and `xas_node_find_next` climb and descend in the tree until they
meet a leaf. On a tree they return the leaf next to the slot they start from
(`xasNodeFindPrev_spec`, `xasNodeFindNext_spec`), in the sense of `IsPred` and `IsSucc`
over the prefixes of the leaves `T 0`.

`xas_alloc` links a node between these two leaves before the node is in the tree. Where
the node is a leaf this inserts it into the list; where it is not, the two links across
its place are spoiled until a leaf is put there (`linkNode_leaf`, `linkNode_interior`).
`xas_node_delete_link` takes a leaf out again (`xasNodeDeleteLink_leaf`).
-/

namespace LinuxKernelTest

open Nat

section

variable {xa xa' : XArray} {T : Layout} {l p k L : ℕ} {n r c q : NodeId}

/-! ## Leaves below a slot -/

variable (h : IsTree xa T)
include h

variable (hq : T (l + 1) p = some q) {x : ℕ} {slots : ℕ → XaEntry}
include hq

/-- The ancestor at level `l` of a leaf that lies below a node of level `l + 1`. -/
theorem IsTree.leaf_ancestor
    (hn : T 0 x = some n) : ∃ c, T l (x / 4 ^ l) = some c := by
  obtain ⟨r, hr⟩ := h.exists_head hq
  obtain ⟨L, htop⟩ := h.exists_top hr
  have hlL := (h.below_top htop hq).1
  obtain ⟨c, hc⟩ := (h.below_top htop hn).2.2 l (by omega)
  exact ⟨c, by simpa using hc⟩

/-- A slot without a node has no leaves below it. -/
theorem IsTree.no_leaf_below
    (hlo : 4 * p * 4 ^ l ≤ x) (hhi : x < (4 * p + 4) * 4 ^ l)
    (hslot : ∀ c, xa.slots q (x / 4 ^ l - 4 * p) ≠ .node c) : T 0 x = none := by
  cases hn : T 0 x with
  | none => rfl
  | some n =>
    have hpos : 0 < 4 ^ l := by positivity
    have hge : 4 * p ≤ x / 4 ^ l := (le_div_iff_mul_le hpos).mpr hlo
    have hlt : x / 4 ^ l < 4 * p + 4 := (div_lt_iff_lt_mul hpos).mpr hhi
    obtain ⟨c, hc⟩ := h.leaf_ancestor hq hn
    refine absurd (h.child_slot hq (by omega) ?_) (hslot c)
    rw [Nat.add_sub_cancel' hge]
    exact hc

/-- No leaf is below slots without a node. -/
theorem IsTree.no_leaf_slots {a b : ℕ} (hb : b ≤ 4)
    (hslots : ∀ j, a ≤ j → j < b → ∀ c, xa.slots q j ≠ .node c) (x : ℕ)
    (hlo : (4 * p + a) * 4 ^ l ≤ x) (hhi : x < (4 * p + b) * 4 ^ l) : T 0 x = none := by
  have hpos : 0 < 4 ^ l := by positivity
  have hge : 4 * p + a ≤ x / 4 ^ l := (le_div_iff_mul_le hpos).mpr hlo
  have hlt : x / 4 ^ l < 4 * p + b := (div_lt_iff_lt_mul hpos).mpr hhi
  refine h.no_leaf_below hq (le_trans ?_ hlo) (hhi.trans_le ?_) (hslots _ (by omega) (by omega))
  · exact mul_le_mul_right _ (by omega)
  · exact mul_le_mul_right _ (by omega)

theorem IsTree.no_leaf_of_none
    (hnone : T l (4 * p + k) = none) (hlo : (4 * p + k) * 4 ^ l ≤ x)
    (hhi : x < (4 * p + k + 1) * 4 ^ l) : T 0 x = none := by
  cases hn : T 0 x with
  | none => rfl
  | some n =>
    have hpos : 0 < 4 ^ l := by positivity
    have hge : 4 * p + k ≤ x / 4 ^ l := (le_div_iff_mul_le hpos).mpr hlo
    have hlt : x / 4 ^ l < 4 * p + k + 1 := (div_lt_iff_lt_mul hpos).mpr hhi
    obtain ⟨c, hc⟩ := h.leaf_ancestor hq hn
    rw [show x / 4 ^ l = 4 * p + k by omega, hnone] at hc
    cases hc

/-- The prefixes of the leaves below a node. -/
theorem IsTree.prefix_le :
    (4 * p + 4) * 4 ^ l ≤ 4 ^ 31 := by
  obtain ⟨hl, hp⟩ := h.bound hq
  calc (4 * p + 4) * 4 ^ l = (p + 1) * 4 ^ (l + 1) := by ring
    _ ≤ 4 ^ (31 - (l + 1)) * 4 ^ (l + 1) := mul_le_mul_right _ hp
    _ = 4 ^ 31 := by rw [← pow_add]; congr 1; omega

omit hq

omit h

/-! ## The leaf before a slot -/

theorem lastNodeBelow_none (h : lastNodeBelow slots k = none) :
    ∀ j < k, ∀ c, slots j ≠ .node c := by
  induction k with
  | zero => intro j hj; omega
  | succ k ih =>
    intro j hj c hc
    unfold lastNodeBelow at h
    rcases Nat.lt_succ_iff_lt_or_eq.mp hj with hlt | rfl
    · cases hk : slots k <;> simp only [hk] at h <;> first | exact ih h j hlt c hc | cases h
    · simp [hc] at h

theorem lastNodeBelow_some (h : lastNodeBelow slots k = some c) :
    ∃ j < k, slots j = .node c ∧ ∀ j', j < j' → j' < k → ∀ d, slots j' ≠ .node d := by
  induction k with
  | zero => cases h
  | succ k ih =>
    by_cases hk : ∃ d, slots k = .node d
    · obtain ⟨d, hd⟩ := hk
      simp only [lastNodeBelow, hd, Option.some.injEq] at h
      exact ⟨k, k.lt_succ_self, h ▸ hd, fun j' hj hj' => by omega⟩
    have h' : lastNodeBelow slots k = some c := by
      unfold lastNodeBelow at h
      cases hs : slots k <;> simp only [hs] at h <;> first | exact h | exact absurd ⟨_, hs⟩ hk
    obtain ⟨j, hj, hjc, hlast⟩ := ih h'
    refine ⟨j, hj.trans k.lt_succ_self, hjc, fun j' hjj' hj' d hd => ?_⟩
    rcases Nat.lt_succ_iff_lt_or_eq.mp hj' with hlt | rfl
    · exact hlast j' hjj' hlt d hd
    · exact hk ⟨d, hd⟩

/-- The rank of a search : how far its bound `B` still is, then the level, where a scan
that has used up its slots (`up`) still has to climb. -/
def scanRank (B l : ℕ) (up : Prop) [Decidable up] : ℕ :=
  200 * B + (if up then 100 + (64 - l) else l) + 1

variable {up up' : Prop} {d o : ℕ}

theorem scanRank_lt_of_lt {B B' l l' : ℕ} [Decidable up] [Decidable up']
    (hB : B < B') (hl : l < 64) : scanRank B l up < scanRank B' l' up' := by
  unfold scanRank
  split <;> split <;> omega

theorem scanRank_climb {B l : ℕ} [Decidable up] [Decidable up']
    (hup : up') (hl : l < 64) : scanRank B (l + 1) up < scanRank B l up' := by
  unfold scanRank
  rw [if_pos hup]
  split <;> omega

theorem scanRank_descend {B B' l : ℕ} [Decidable up] [Decidable up']
    (hB : B ≤ B') (hup : ¬up) (hup' : ¬up') : scanRank B l up < scanRank B' (l + 1) up' := by
  unfold scanRank
  rw [if_neg hup, if_neg hup']
  omega

/-- The state of the search before `B` : no leaf is between the slot and `B`. -/
def PrevScan (T : Layout) (B v : ℕ) : Option NodeId × ℕ → Prop
  | (none, _) => ∀ x < B, T 0 x = none
  | (some n, k) => ∃ l p, T (l + 1) p = some n ∧ k ≤ 4 ∧ (4 * p + k) * 4 ^ l ≤ B ∧
      (∀ x, (4 * p + k) * 4 ^ l ≤ x → x < B → T 0 x = none) ∧
      v = scanRank ((4 * p + k) * 4 ^ l) (l + 1) (k = 0)

theorem findPrevRound_step (h : IsTree xa T) {B : ℕ} :
    RoundKeeps (findPrevRound xa) (PrevScan T B) (IsPred (T 0) B) := by
  intro v s hs
  obtain ⟨_ | n, k⟩ := s
  · exact .inr ⟨none, rfl, hs⟩
  obtain ⟨l, p, hn, hk, hB, hnone, rfl⟩ := hs
  have hpos : 0 < 4 ^ l := by positivity
  have hl := (h.bound hn).1
  cases hlast : lastNodeBelow (xa.slots n) k with
  | none =>
    have hno := lastNodeBelow_none hlast
    -- No slot below the scan has a node : the search goes on at the node's own slot.
    have hnone' : ∀ x, 4 * p * 4 ^ l ≤ x → x < B → T 0 x = none := by
      intro x hx hxB
      rcases lt_or_ge x ((4 * p + k) * 4 ^ l) with hlt | hge
      · exact h.no_leaf_slots (a := 0) hn hk (fun j _ => hno j) x hx hlt
      · exact hnone x hge hxB
    have hround : findPrevRound xa (some n, k) = .again (xa.parent n, xa.offset n) := by
      simp [findPrevRound, hlast]
    rw [h.parent hn] at hround
    cases hq : T (l + 1 + 1) (p / 4) with
    | none =>
      obtain ⟨rfl, -⟩ := h.root hn hq
      rw [hq] at hround
      exact .inl ⟨_, 0, hround, by unfold scanRank; omega, fun x hx => hnone' x (by simp) hx⟩
    | some q =>
      have hp : (4 * (p / 4) + p % 4) * 4 ^ (l + 1) = 4 * p * 4 ^ l := by
        rw [div_add_mod]
        ring
      rw [hq, h.offset hn hq] at hround
      refine .inl ⟨_, _, hround, ?_, l + 1, p / 4, hq, by omega, ?_, ?_, rfl⟩
      · rw [hp]
        rcases Nat.eq_zero_or_pos k with rfl | hk0
        · exact scanRank_climb rfl (by omega)
        · exact scanRank_lt_of_lt (mul_lt_mul_of_pos_right (by omega) hpos) (by omega)
      · rw [hp]
        exact (Nat.mul_le_mul_right _ (by omega)).trans hB
      · rw [hp]
        exact hnone'
  | some c =>
    obtain ⟨j, hj, hjc, hlast'⟩ := lastNodeBelow_some hlast
    have hc : T l (4 * p + j) = some c := h.slot_child hn (by omega) hjc
    have hle : (4 * p + j + 1) * 4 ^ l ≤ (4 * p + k) * 4 ^ l := mul_le_mul_right _ (by omega)
    have hnone' : ∀ x, (4 * p + j + 1) * 4 ^ l ≤ x → x < B → T 0 x = none := by
      intro x hx hxB
      rcases lt_or_ge x ((4 * p + k) * 4 ^ l) with hlt | hge
      · exact h.no_leaf_slots (a := j + 1) hn hk hlast' x hx hlt
      · exact hnone x hge hxB
    cases l with
    | zero =>
      refine .inr ⟨some c, by simp [findPrevRound, hlast, h.shift hc], ?_⟩
      simp only [pow_zero, mul_one] at hB hle hnone'
      exact ⟨4 * p + j, by omega, hc, fun x hx hx' => hnone' x hx hx'⟩
    | succ l =>
      have hp : (4 * (4 * p + j) + 4) * 4 ^ l = (4 * p + j + 1) * 4 ^ (l + 1) := by ring
      refine .inl ⟨(some c, 4), _, by simp [findPrevRound, hlast, h.shift hc], ?_,
        l, 4 * p + j, hc, le_rfl, hp ▸ hle.trans hB, hp ▸ hnone', rfl⟩
      exact scanRank_descend (hp ▸ hle) (by omega) (by omega)

/-- `xas_node_find_prev` returns the leaf before the slot `k` of `q`. -/
theorem xasNodeFindPrev_spec (h : IsTree xa T) (hq : T (l + 1) p = some q) (hk : k < 4) :
    ∃ o, xasNodeFindPrev xa q k = some o ∧ IsPred (T 0) ((4 * p + k) * 4 ^ l) o := by
  refine runLoop_of_rank (findPrevRound_step h)
    ⟨l, p, hq, hk.le, le_rfl, fun x hx hx' => absurd hx' (not_lt.mpr hx), rfl⟩ ?_
  have hle := h.prefix_le hq
  have hle' : (4 * p + k) * 4 ^ l ≤ (4 * p + 4) * 4 ^ l := mul_le_mul_right _ (by omega)
  have := (h.bound hq).1
  unfold scanRank xaFuel
  split <;> omega

/-! ## The leaf after a slot -/

theorem firstNodeFrom_none
    (h : firstNodeFrom slots d o = none) : ∀ j, o ≤ j → j < o + d → ∀ c, slots j ≠ .node c := by
  induction d generalizing o with
  | zero => intro j hj hj'; omega
  | succ d ih =>
    intro j hj hj' c hc
    unfold firstNodeFrom at h
    rcases eq_or_lt_of_le hj with rfl | hlt
    · simp [hc] at h
    · cases hs : slots o <;> simp only [hs] at h <;>
        first | exact ih h j hlt (by omega) c hc | cases h

theorem firstNodeFrom_some (h : firstNodeFrom slots d o = some c) :
    ∃ j, o ≤ j ∧ j < o + d ∧ slots j = .node c ∧
      ∀ j', o ≤ j' → j' < j → ∀ e, slots j' ≠ .node e := by
  induction d generalizing o with
  | zero => cases h
  | succ d ih =>
    by_cases ho : ∃ e, slots o = .node e
    · obtain ⟨e, he⟩ := ho
      simp only [firstNodeFrom, he, Option.some.injEq] at h
      exact ⟨o, le_rfl, by omega, h ▸ he, fun j' hj hj' => by omega⟩
    have h' : firstNodeFrom slots d (o + 1) = some c := by
      unfold firstNodeFrom at h
      cases hs : slots o <;> simp only [hs] at h <;> first | exact h | exact absurd ⟨_, hs⟩ ho
    obtain ⟨j, hj, hjd, hjc, hfirst⟩ := ih h'
    refine ⟨j, by omega, by omega, hjc, fun j' hoj' hj' e he => ?_⟩
    rcases eq_or_lt_of_le hoj' with rfl | hlt
    · exact ho ⟨e, he⟩
    · exact hfirst j' hlt hj' e he

/-- The state of the search from `A` on : no leaf is between `A` and the slot. -/
def NextScan (T : Layout) (A v : ℕ) : Option NodeId × ℕ → Prop
  | (none, _) => ∀ x, A ≤ x → T 0 x = none
  | (some n, k) => ∃ l p, T (l + 1) p = some n ∧ k ≤ 4 ∧ A ≤ (4 * p + k) * 4 ^ l ∧
      (∀ x, A ≤ x → x < (4 * p + k) * 4 ^ l → T 0 x = none) ∧
      v = scanRank (4 ^ 31 - (4 * p + k) * 4 ^ l) (l + 1) (k = 4)

theorem findNextRound_step (h : IsTree xa T) {A : ℕ} (hA : 0 < A) :
    RoundKeeps (findNextRound xa) (NextScan T A) (IsSucc (T 0) (A - 1)) := by
  intro v s hs
  obtain ⟨_ | n, k⟩ := s
  · exact .inr ⟨none, rfl, fun x hx => hs x (by omega)⟩
  obtain ⟨l, p, hn, hk, hA', hnone, rfl⟩ := hs
  have hpos : 0 < 4 ^ l := by positivity
  have hl := (h.bound hn).1
  have hprefix := h.prefix_le hn
  cases hfirst : firstNodeFrom (xa.slots n) (4 - k) k with
  | none =>
    have hno := firstNodeFrom_none hfirst
    have hnone' : ∀ x, A ≤ x → x < (4 * p + 4) * 4 ^ l → T 0 x = none := by
      intro x hx hxB
      rcases lt_or_ge x ((4 * p + k) * 4 ^ l) with hlt | hge
      · exact hnone x hx hlt
      · exact h.no_leaf_slots hn le_rfl (fun j hj hj' => hno j hj (by omega)) x hge hxB
    have hround : findNextRound xa (some n, k) = .again (xa.parent n, xa.offset n + 1) := by
      simp [findNextRound, hfirst]
    rw [h.parent hn] at hround
    cases hq : T (l + 1 + 1) (p / 4) with
    | none =>
      obtain ⟨rfl, hhead⟩ := h.root hn hq
      rw [hq] at hround
      refine .inl ⟨_, 0, hround, by unfold scanRank; omega, fun x hx => ?_⟩
      -- The node is the root : no leaf is behind its slots.
      rcases lt_or_ge x ((4 * 0 + 4) * 4 ^ l) with hlt | hge
      · exact hnone' x hx hlt
      cases hm : T 0 x with
      | none => rfl
      | some m =>
        have htop : IsTop xa T (l + 1) n := ⟨hhead, hn, by simpa using hq⟩
        have hz := (h.below_top htop hm).2.1
        rw [Nat.sub_zero, Nat.div_eq_zero_iff, pow_succ] at hz
        omega
    | some q =>
      have hp : (4 * (p / 4) + (p % 4 + 1)) * 4 ^ (l + 1) = (4 * p + 4) * 4 ^ l := by
        rw [← add_assoc, div_add_mod]
        ring
      rw [hq, h.offset hn hq] at hround
      refine .inl ⟨_, _, hround, ?_, l + 1, p / 4, hq, by omega, ?_, ?_, rfl⟩
      · rw [hp]
        rcases eq_or_lt_of_le hk with rfl | hk4
        · exact scanRank_climb rfl (by omega)
        · have hlt : (4 * p + k) * 4 ^ l < (4 * p + 4) * 4 ^ l :=
            mul_lt_mul_of_pos_right (by omega) hpos
          exact scanRank_lt_of_lt (by omega) (by omega)
      · rw [hp]
        exact hA'.trans (mul_le_mul_right _ (by omega))
      · rw [hp]
        exact hnone'
  | some c =>
    obtain ⟨j, hkj, hj, hjc, hfirst'⟩ := firstNodeFrom_some hfirst
    have hc : T l (4 * p + j) = some c := h.slot_child hn (by omega) hjc
    have hle : (4 * p + k) * 4 ^ l ≤ (4 * p + j) * 4 ^ l := mul_le_mul_right _ (by omega)
    have hnone' : ∀ x, A ≤ x → x < (4 * p + j) * 4 ^ l → T 0 x = none := by
      intro x hx hxB
      rcases lt_or_ge x ((4 * p + k) * 4 ^ l) with hlt | hge
      · exact hnone x hx hlt
      · exact h.no_leaf_slots hn (by omega) hfirst' x hge hxB
    cases l with
    | zero =>
      refine .inr ⟨some c, by simp [findNextRound, hfirst, h.shift hc], ?_⟩
      simp only [pow_zero, mul_one] at hA' hle hnone'
      exact ⟨4 * p + j, by omega, hc, fun x hx hx' => hnone' x (by omega) hx'⟩
    | succ l =>
      have hp : (4 * (4 * p + j) + 0) * 4 ^ l = (4 * p + j) * 4 ^ (l + 1) := by ring
      refine .inl ⟨(some c, 0), _, by simp [findNextRound, hfirst, h.shift hc], ?_,
        l, 4 * p + j, hc, by omega, hp ▸ hA'.trans hle, hp ▸ hnone', rfl⟩
      exact scanRank_descend (by omega) (by omega) (by omega)

/-- `xas_node_find_next` returns the leaf after the slot `k` of `q`. -/
theorem xasNodeFindNext_spec (h : IsTree xa T) (hq : T (l + 1) p = some q) (hk : k < 4) :
    ∃ o, xasNodeFindNext xa q k = some o ∧ IsSucc (T 0) ((4 * p + k + 1) * 4 ^ l - 1) o := by
  have hpos : 0 < (4 * p + k + 1) * 4 ^ l := mul_pos (by omega) (by positivity)
  refine runLoop_of_rank (findNextRound_step h hpos)
    ⟨l, p, hq, hk, le_rfl, fun x hx hx' => absurd hx' (not_lt.mpr hx), rfl⟩ ?_
  have := (h.bound hq).1
  unfold scanRank xaFuel
  split <;> omega

/-- Next to a slot without a node, the two searches return the leaves next to every
prefix below the slot. -/
theorem exists_neighbours (h : IsTree xa T) (hq : T (l + 1) p = some q) (hk : k < 4)
    (hnone : T l (4 * p + k) = none) {b : ℕ} (hb : b / 4 ^ l = 4 * p + k) :
    ∃ prev next, xasNodeFindPrev xa q k = some prev ∧ xasNodeFindNext xa q k = some next ∧
      IsPred (T 0) b prev ∧ IsSucc (T 0) b next := by
  have hpos : 0 < 4 ^ l := by positivity
  have hlo : (4 * p + k) * 4 ^ l ≤ b := (le_div_iff_mul_le hpos).mp hb.ge
  have hhi : b < (4 * p + k + 1) * 4 ^ l := (div_lt_iff_lt_mul hpos).mp (by omega)
  obtain ⟨prev, hprev, hpred⟩ := xasNodeFindPrev_spec h hq hk
  obtain ⟨next, hnext, hsucc⟩ := xasNodeFindNext_spec h hq hk
  refine ⟨prev, next, hprev, hnext, hpred.mono hlo fun x hx hxb => ?_,
    hsucc.mono (by omega) fun x hx hxb => ?_⟩
  · exact h.no_leaf_of_none hq hnone hx (hxb.trans hhi)
  · exact h.no_leaf_of_none hq hnone (hlo.trans hx.le) (by omega)

end

/-! ## Linking and unlinking -/

/-- The links of `xa` replaced. -/
@[simps -fullyApplied] def XArray.withLinks (xa : XArray) (prev next : NodeId → Option NodeId) :
    XArray :=
  { xa with prev := prev, next := next }

theorem linkNode_eq (xa : XArray) (parent n : NodeId) (prev next : Option NodeId) :
    linkNode xa parent n prev next =
      xa.withLinks (linkNode xa parent n prev next).prev (linkNode xa parent n prev next).next := by
  cases prev <;> cases next <;> rfl

theorem xasNodeDeleteLink_eq (xa : XArray) (n : NodeId) :
    xasNodeDeleteLink xa n =
      xa.withLinks (xasNodeDeleteLink xa n).prev (xasNodeDeleteLink xa n).next := by
  unfold xasNodeDeleteLink linkPrev linkNext
  split
  · cases xa.prev n <;> cases xa.next n <;> rfl
  · rfl

/-- Deleting links reads and writes nothing but links and the shift. -/
theorem xasNodeDeleteLink_congr {xa xa' : XArray} (hshift : xa'.shift = xa.shift)
    (hprev : xa'.prev = xa.prev) (hnext : xa'.next = xa.next) (n : NodeId) :
    (xasNodeDeleteLink xa' n).next = (xasNodeDeleteLink xa n).next ∧
      (xasNodeDeleteLink xa' n).prev = (xasNodeDeleteLink xa n).prev := by
  unfold xasNodeDeleteLink linkPrev linkNext
  rw [hshift, hprev, hnext]
  split
  · cases xa.prev n <;> cases xa.next n <;> simp [hprev, hnext]
  · simp [hprev, hnext]

section

variable {xa : XArray} {m : ℕ → Option NodeId} {parent n : NodeId} {prev next : Option NodeId}
  {b : ℕ}

theorem IsPred.exists_key (h : IsPred m b (some n)) : ∃ k, m k = some n ∧ k < b ∧
    NoneBetween m k b := by
  obtain ⟨k, hk, hm, hnone⟩ := h
  exact ⟨k, hm, hk, hnone⟩

theorem IsSucc.exists_key (h : IsSucc m b (some n)) : ∃ k, m k = some n ∧ b < k ∧
    NoneBetween m b k := by
  obtain ⟨k, hk, hm, hnone⟩ := h
  exact ⟨k, hm, hk, hnone⟩

/-- The links that `linkNode` stores, at the new node and at a leaf. -/
theorem linkNode_next_self (hne : n ≠ parent) (hprev : ∀ c, prev = some c → c ≠ n)
    (hn : xa.next n = none) : (linkNode xa parent n prev next).next n = next := by
  cases next with
  | none =>
    cases prev with
    | none => simp [linkNode, hne, hn]
    | some c => simp [linkNode, hne, (hprev c rfl).symm, hn]
  | some d => cases prev <;> simp [linkNode]

theorem linkNode_prev_self (hne : n ≠ parent) (hnext : ∀ c, next = some c → c ≠ n)
    (hn : xa.prev n = none) : (linkNode xa parent n prev next).prev n = prev := by
  cases prev with
  | none =>
    cases next with
    | none => simp [linkNode, hne, hn]
    | some c => simp [linkNode, hne, (hnext c rfl).symm, hn]
  | some d =>
    cases next with
    | none => simp [linkNode]
    | some c => simp [linkNode, (hnext c rfl).symm]

variable {c : NodeId}

theorem linkNode_next_of_ne (hcn : c ≠ n) (hcp : c ≠ parent) :
    (linkNode xa parent n prev next).next c = if prev = some c then some n else xa.next c := by
  cases prev with
  | none => cases next <;> simp [linkNode, hcn, hcp]
  | some d =>
    by_cases hcd : c = d
    · subst hcd
      cases next <;> simp [linkNode, hcn, hcp]
    · have hdc : d ≠ c := Ne.symm hcd
      cases next <;> simp [linkNode, hcn, hcp, hcd, hdc]

theorem linkNode_prev_of_ne (hcn : c ≠ n) (hcp : c ≠ parent) :
    (linkNode xa parent n prev next).prev c = if next = some c then some n else xa.prev c := by
  cases next with
  | none => cases prev <;> simp [linkNode, hcn, hcp]
  | some d =>
    by_cases hcd : c = d
    · subst hcd
      cases prev <;> simp [linkNode]
    · have hdc : d ≠ c := Ne.symm hcd
      cases prev <;> simp [linkNode, hcn, hcp, hcd, hdc]

/-- Linking a leaf at the prefix `b` inserts it into the list. -/
theorem linkNode_leaf (h : LinkedExcept m xa.next xa.prev b) (hfresh : ∀ k, m k ≠ some n)
    (hparent : ∀ k, m k ≠ some parent) (hne : n ≠ parent) (hpred : IsPred m b prev)
    (hsucc : IsSucc m b next) (hnext : xa.next n = none) (hprev : xa.prev n = none) :
    Linked (Function.update m b (some n)) (linkNode xa parent n prev next).next
      (linkNode xa parent n prev next).prev := by
  have hold : ∀ {k c}, m k = some c → c ≠ n ∧ c ≠ parent := fun {k c} hk =>
    ⟨fun hc => hfresh k (hc ▸ hk), fun hc => hparent k (hc ▸ hk)⟩
  have hp : ∀ c, prev = some c → c ≠ n ∧ c ≠ parent := by
    rintro c rfl
    obtain ⟨k, hk, -⟩ := hpred.exists_key
    exact hold hk
  have hq : ∀ c, next = some c → c ≠ n ∧ c ≠ parent := by
    rintro c rfl
    obtain ⟨k, hk, -⟩ := hsucc.exists_key
    exact hold hk
  refine h.insert hfresh hpred hsucc ?_ ?_ ?_ ?_ ?_ ?_
  · exact linkNode_next_self hne (fun c hc => (hp c hc).1) hnext
  · exact linkNode_prev_self hne (fun c hc => (hq c hc).1) hprev
  · intro c hc
    rw [linkNode_next_of_ne (hp c hc).1 (hp c hc).2, if_pos hc]
  · intro c hc
    rw [linkNode_prev_of_ne (hq c hc).1 (hq c hc).2, if_pos hc]
  · intro k c hk hpc
    rw [linkNode_next_of_ne (hold hk).1 (hold hk).2, if_neg hpc]
  · intro k c hk hqc
    rw [linkNode_prev_of_ne (hold hk).1 (hold hk).2, if_neg hqc]

/-- Linking an interior node spoils only the links across its place. -/
theorem linkNode_interior (h : LinkedExcept m xa.next xa.prev b) (hfresh : ∀ k, m k ≠ some n)
    (hparent : ∀ k, m k ≠ some parent) (hpred : IsPred m b prev) (hsucc : IsSucc m b next) :
    LinkedExcept m (linkNode xa parent n prev next).next
      (linkNode xa parent n prev next).prev b := by
  have hold : ∀ {k c}, m k = some c → c ≠ n ∧ c ≠ parent := fun {k c} hk =>
    ⟨fun hc => hfresh k (hc ▸ hk), fun hc => hparent k (hc ▸ hk)⟩
  refine h.congr (fun {k c} hk => ?_) (fun {k c} hk => ?_)
  · by_cases hpc : prev = some c
    · subst hpc
      obtain ⟨k', hk', hlt, hnone⟩ := hpred.exists_key
      obtain rfl := h.inj hk hk'
      exact .inr ⟨hlt, hnone⟩
    · rw [linkNode_next_of_ne (hold hk).1 (hold hk).2, if_neg hpc]
      exact .inl rfl
  · by_cases hqc : next = some c
    · subst hqc
      obtain ⟨k', hk', hlt, hnone⟩ := hsucc.exists_key
      obtain rfl := h.inj hk hk'
      exact .inr ⟨hlt, hnone⟩
    · rw [linkNode_prev_of_ne (hold hk).1 (hold hk).2, if_neg hqc]
      exact .inl rfl

theorem xasNodeDeleteLink_next (hshift : xa.shift n = 0) (hcn : c ≠ n) :
    (xasNodeDeleteLink xa n).next c = if xa.prev n = some c then xa.next n else xa.next c := by
  cases hprev : xa.prev n with
  | none =>
    cases hnext : xa.next n <;>
      simp [xasNodeDeleteLink, hshift, linkPrev, linkNext, hprev, hnext, hcn]
  | some d =>
    by_cases hcd : c = d
    · subst hcd
      cases hnext : xa.next n <;>
        simp [xasNodeDeleteLink, hshift, linkPrev, linkNext, hprev, hnext, hcn]
    · have hdc : d ≠ c := Ne.symm hcd
      cases hnext : xa.next n <;>
        simp [xasNodeDeleteLink, hshift, linkPrev, linkNext, hprev, hnext, hcn, hcd, hdc]

theorem xasNodeDeleteLink_prev (hshift : xa.shift n = 0) (hcn : c ≠ n) :
    (xasNodeDeleteLink xa n).prev c = if xa.next n = some c then xa.prev n else xa.prev c := by
  cases hnext : xa.next n with
  | none =>
    cases hprev : xa.prev n <;>
      simp [xasNodeDeleteLink, hshift, linkPrev, linkNext, hprev, hnext, hcn]
  | some d =>
    by_cases hcd : c = d
    · subst hcd
      cases hprev : xa.prev n <;>
        simp [xasNodeDeleteLink, hshift, linkPrev, linkNext, hprev, hnext, hcn]
    · have hdc : d ≠ c := Ne.symm hcd
      cases hprev : xa.prev n <;>
        simp [xasNodeDeleteLink, hshift, linkPrev, linkNext, hprev, hnext, hcn, hcd, hdc]

/-- Deleting the links of a leaf takes it out of the list. -/
theorem xasNodeDeleteLink_leaf (h : Linked m xa.next xa.prev) (hb : m b = some n)
    (hshift : xa.shift n = 0) :
    Linked (Function.update m b none) (xasNodeDeleteLink xa n).next
      (xasNodeDeleteLink xa n).prev := by
  have hp : xa.prev n ≠ some n := by
    intro hn
    have hs := h.prev hb
    rw [hn] at hs
    obtain ⟨k, hk, hlt, -⟩ := hs.exists_key
    exact absurd (h.inj hk hb) hlt.ne
  have hq : xa.next n ≠ some n := by
    intro hn
    have hs := h.next hb
    rw [hn] at hs
    obtain ⟨k, hk, hlt, -⟩ := hs.exists_key
    exact absurd (h.inj hk hb) hlt.ne'
  refine h.remove hb ?_ ?_ ?_ ?_
  · intro c hc
    rw [xasNodeDeleteLink_next hshift (by rintro rfl; exact hp hc), if_pos hc]
  · intro c hc
    rw [xasNodeDeleteLink_prev hshift (by rintro rfl; exact hq hc), if_pos hc]
  · intro k c _ hcn hpc
    rw [xasNodeDeleteLink_next hshift hcn, if_neg hpc]
  · intro k c _ hcn hqc
    rw [xasNodeDeleteLink_prev hshift hcn, if_neg hqc]

/-- Deleting the links of an interior node leaves the list alone. -/
theorem xasNodeDeleteLink_interior (h : Linked m xa.next xa.prev) (hn : ∀ k, m k ≠ some n)
    (hshift : xa.shift n ≠ 0) :
    Linked m (xasNodeDeleteLink xa n).next (xasNodeDeleteLink xa n).prev := by
  refine h.congr (fun {k c} hk => ?_) (fun {k c} hk => ?_)
  all_goals
    have hcn : c ≠ n := fun hc => hn k (hc ▸ hk)
    simp [xasNodeDeleteLink, hshift, hcn]

end

end LinuxKernelTest
