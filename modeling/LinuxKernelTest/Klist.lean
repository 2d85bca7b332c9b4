import LinuxKernelTest.Loop
import LinuxKernelTest.Machine
import LinuxKernelTest.FiniteSum
import LinuxKernelTest.ListSplice
import LinuxKernelTest.Rings

/-!
# Lists that may be changed while they are walked

A model of `lib/klist.c`. A klist is a ring of nodes with reference counts. An iterator holds a
reference on the node it stands on, so this node stays on the ring while others are added and
deleted. `klist_del` only marks a node as dead and gives the reference of the list back; the node
leaves the ring when its last reference is gone.

Each step of the model is one section under `k_lock`, or an access that needs no lock : the
initialisation of a node that is not yet on the list, and `kref_get_unless_zero` of
`klist_iter_init_node`. Any number of threads and iterators may take such steps in any order.

The repository never sets `CONFIG_REFCOUNT_FULL`. A reference count is then a plain word that wraps,
and not the one of `Refcount` : `kref_get` adds one, `kref_put` takes one away and tests for zero,
and `kref_get_unless_zero` has an empty body. It takes no reference, and what it returns is whatever
the caller finds (`got` in `klistIterInitNode`).

`phase` records what the callers have done with a node, for the conditions on their calls : a node
is added once, and deleted once after that.
-/

set_option linter.unusedSectionVars false

namespace LinuxKernelTest

open Function List ListHeads

/-- What a link of a node points to. -/
inductive KlistLink (ν : Type*)
  | list
  | node (n : ν)
  | poison
deriving DecidableEq

/-- The word `n_klist` : no list, the list, or the list with the mark `KNODE_DEAD`. -/
inductive KnodeOwner
  | null
  | live
  | dead
deriving DecidableEq

/-- What the callers have done with a node : nothing, `klist_node_init`, a `klist_add` function, or
`klist_del`. -/
inductive KnodePhase
  | fresh
  | ready
  | added
  | deleted
deriving DecidableEq

/-- A klist with its nodes `ν` and the iterators `ι`. -/
structure Klist (ν ι : Type*) where
  links : ListHeads (KlistLink ν)
  ref : ν → BitVec 32
  owner : ν → KnodeOwner
  cur : ι → Option ν
  phase : ν → KnodePhase

namespace Klist

variable {ν ι : Type*} [DecidableEq ν] [DecidableEq ι]

/-! ## Nodes -/

variable (s : Klist ν ι)

/-- `knode_dead`. -/
def knodeDead (n : ν) : Bool := s.owner n = .dead

/-- `klist_node_init`. -/
def klistNodeInit (n : ν) : Klist ν ι :=
  { s with
    links := s.links.initHead (.node n)
    ref := update s.ref n 1
    owner := update s.owner n .live
    phase := update s.phase n .ready }

/-- A section that links the node `n`. -/
def linkNode (n : ν) (links : ListHeads (KlistLink ν)) : Klist ν ι :=
  { s with links := links, phase := update s.phase n .added }

/-- The section of `klist_add_head`. -/
def addHead (n : ν) : Klist ν ι := s.linkNode n (s.links.add (.node n) .list)

/-- The section of `klist_add_tail`. -/
def addTail (n : ν) : Klist ν ι := s.linkNode n (s.links.addTail (.node n) .list)

/-- The section of `klist_add_behind`. -/
def klistAddBehind (n pos : ν) : Klist ν ι :=
  s.linkNode n (s.links.add (.node n) (.node pos))

/-- The section of `klist_add_before`. -/
def klistAddBefore (n pos : ν) : Klist ν ι :=
  s.linkNode n (s.links.addTail (.node n) (.node pos))

/-! ## References -/

/-- `kref_get`. -/
def krefGet (n : ν) : Klist ν ι := { s with ref := update s.ref n (s.ref n + 1) }

/-- `klist_release` : `list_del`, and no list any more. -/
def klistRelease (n : ν) : Klist ν ι :=
  { s with
    links := (s.links.delEntry (.node n)).set (.node n) .poison .poison
    owner := update s.owner n .null }

/-- `klist_dec_and_del`. -/
def klistDecAndDel (n : ν) : Klist ν ι :=
  let count := s.ref n - 1
  let s := { s with ref := update s.ref n count }
  if count = 0 then s.klistRelease n else s

/-- The section of `klist_put`. -/
def klistPut (n : ν) (kill : Bool) : Klist ν ι :=
  (if kill then { s with owner := update s.owner n .dead } else s).klistDecAndDel n

/-- `klist_del`. -/
def klistDel (n : ν) : Klist ν ι :=
  { s.klistPut n true with phase := update s.phase n .deleted }

/-! ## Iterators -/

/-- The iterator stands on `n`. -/
def setCur (i : ι) (n : Option ν) : Klist ν ι :=
  { s with cur := update s.cur i n }

/-- `klist_iter_init_node`, where `kref_get_unless_zero` leaves the count alone and returns
`got`. -/
def klistIterInitNode (i : ι) (n : Option ν) (got : Bool) : Klist ν ι :=
  s.setCur i (if got then n else none)

/-- `klist_iter_init`. -/
def klistIterInit (i : ι) : Klist ν ι := s.klistIterInitNode i none false

/-- `klist_iter_exit`. -/
def klistIterExit (i : ι) : Klist ν ι :=
  match s.cur i with
  | some n => (s.klistPut n false).setCur i none
  | none => s

/-- A round of the search for a node that is not dead, along the links `follow`. It faults at a
poisoned link. -/
def scanRound (follow : KlistLink ν → KlistLink ν) :
    KlistLink ν → Round (KlistLink ν) (Option (Option ν))
  | .list => .done (some none)
  | .node n => if s.knodeDead n then .again (follow (.node n)) else .done (some (some n))
  | .poison => .done none

/-- The section of `klist_next` and `klist_prev`, which differ in the links they follow. -/
def walk (follow : ListHeads (KlistLink ν) → KlistLink ν → KlistLink ν) (fuel : ℕ)
    (s : Klist ν ι) (i : ι) : Option (Klist ν ι × Option ν) :=
  let start := follow s.links ((s.cur i).elim .list .node)
  let s := (s.cur i).elim s s.klistDecAndDel
  (runLoop (s.scanRound (follow s.links)) fuel start).join.map fun found =>
    (((found.elim s s.krefGet).setCur i found), found)

/-- The section of `klist_next`. -/
def klistNext (fuel : ℕ) (s : Klist ν ι) (i : ι) : Option (Klist ν ι × Option ν) :=
  walk ListHeads.next fuel s i

/-- The section of `klist_prev`. -/
def klistPrev (fuel : ℕ) (s : Klist ν ι) (i : ι) : Option (Klist ν ι × Option ν) :=
  walk ListHeads.prev fuel s i

/-! ## Steps -/

/-- The steps of the callers. -/
inductive Step (ν ι : Type*)
  | nodeInit (n : ν)
  | addHead (n : ν)
  | addTail (n : ν)
  | addBehind (n pos : ν)
  | addBefore (n pos : ν)
  | del (n : ν)
  | iterInit (i : ι)
  | iterInitNode (i : ι) (n : ν) (got : Bool)
  | next (i : ι)
  | prev (i : ι)
  | iterExit (i : ι)
deriving DecidableEq

/-- A step, with the node that `klist_next` and `klist_prev` return. -/
def step (fuel : ℕ) (s : Klist ν ι) : Step ν ι → Option (Klist ν ι × Option ν)
  | .nodeInit n => some (s.klistNodeInit n, none)
  | .addHead n => some (s.addHead n, none)
  | .addTail n => some (s.addTail n, none)
  | .addBehind n pos => some (s.klistAddBehind n pos, none)
  | .addBefore n pos => some (s.klistAddBefore n pos, none)
  | .del n => some (s.klistDel n, none)
  | .iterInit i => some (s.klistIterInit i, none)
  | .iterInitNode i n got => some (s.klistIterInitNode i (some n) got, none)
  | .next i => klistNext fuel s i
  | .prev i => klistPrev fuel s i
  | .iterExit i => some (s.klistIterExit i, none)

/-- The node has been added. -/
def Known (n : ν) : Prop := s.phase n = .added ∨ s.phase n = .deleted

instance (s : Klist ν ι) (n : ν) : Decidable (s.Known n) := inferInstanceAs (Decidable (_ ∨ _))

/-- What the callers promise : nodes are added once and deleted once after that, a node to add
another one at has a reference, and an iterator is initialised when it stands on no node. An
iterator must not begin on a node, as it would have no reference there. -/
def StepOk : Step ν ι → Prop
  | .nodeInit n => s.phase n = .fresh
  | .addHead n => s.phase n = .ready
  | .addTail n => s.phase n = .ready
  | .addBehind n pos => s.phase n = .ready ∧ s.Known pos ∧ s.ref pos ≠ 0
  | .addBefore n pos => s.phase n = .ready ∧ s.Known pos ∧ s.ref pos ≠ 0
  | .del n => s.phase n = .added
  | .iterInit i => s.cur i = none
  | .iterInitNode i _ got => s.cur i = none ∧ got = false
  | .next _ => True
  | .prev _ => True
  | .iterExit _ => True

instance (s : Klist ν ι) : (o : Step ν ι) → Decidable (s.StepOk o)
  | .nodeInit _ | .addHead _ | .addTail _ | .del _ | .iterInit _ =>
    inferInstanceAs (Decidable (_ = _))
  | .addBehind _ _ | .addBefore _ _ | .iterInitNode _ _ _ => inferInstanceAs (Decidable (_ ∧ _))
  | .next _ | .prev _ | .iterExit _ => inferInstanceAs (Decidable True)

/-- `klist_init`, nodes that nobody has used, and iterators that stand on no node. -/
def start : Klist ν ι := ⟨⟨id, id⟩, fun _ => 0, fun _ => .null, fun _ => none, fun _ => .fresh⟩

/-! ## The invariant -/

variable [Fintype ι]

/-- How many iterators stand on the node. -/
def standing (n : ν) : ℕ := ∑ i, if s.cur i = some n then 1 else 0

/-- The reference of the list itself. -/
def own (n : ν) : ℕ := if s.phase n = .deleted then 0 else 1

/-- The ring holds the nodes `l`. Every reference belongs to the list or to an iterator, but for one
more on the node `extra` in the middle of a step. -/
structure Holds (s : Klist ν ι) (l : List ν) (extra : Option ν) : Prop where
  ring : s.links.Ring (.list :: l.map .node)
  mem_iff : ∀ n, n ∈ l ↔ s.Known n ∧ s.ref n ≠ 0
  count : ∀ n, s.phase n ≠ .fresh →
    (s.ref n).toNat = s.own n + s.standing n + if extra = some n then 1 else 0
  live : ∀ n, s.phase n = .ready ∨ s.phase n = .added → s.owner n = .live
  dead : ∀ n ∈ l, s.phase n = .deleted → s.owner n = .dead
  stands : ∀ i n, s.cur i = some n → n ∈ l

variable {s s' : Klist ν ι} {l l' l₁ l₂ : List ν} {extra extra' : Option ν} {n pos : ν} {i : ι}
  {v : BitVec 32} {m : ListHeads (KlistLink ν)}

theorem Known.ne_fresh (h : s.Known n) : s.phase n ≠ .fresh := by
  rcases h with h | h <;> rw [h] <;> decide

theorem not_live_of_deleted (h : s.phase n = .deleted) :
    ¬(s.phase n = .ready ∨ s.phase n = .added) := by
  rw [h]
  decide

theorem Holds.nodup (h : s.Holds l extra) : l.Nodup :=
  List.Nodup.of_map _ (nodup_cons.mp h.ring.nodup).2

theorem standing_le (s : Klist ν ι) (n : ν) : s.standing n ≤ Fintype.card ι := by
  rw [standing, ← Finset.card_filter]
  exact Finset.card_filter_le _ _

theorem standing_eq_zero_iff : s.standing n = 0 ↔ ∀ i, s.cur i ≠ some n := by
  simp [standing]

/-- An iterator that leaves a node or comes to one. -/
theorem standing_setCur (s : Klist ν ι) (i : ι) (c : Option ν) (n : ν) :
    (s.setCur i c).standing n + (if s.cur i = some n then 1 else 0) =
      s.standing n + if c = some n then 1 else 0 := by
  have h := sum_add_eq_of_eq_off (f := fun j => if (s.setCur i c).cur j = some n then 1 else 0)
    (g := fun j => if s.cur j = some n then 1 else 0) (i := i) fun j hj => by
      simp [setCur, hj]
  simpa [standing, setCur] using h

/-- No count wraps. -/
theorem Holds.count_lt (h : s.Holds l none) (hι : Fintype.card ι + 2 < 2 ^ 32)
    (hn : s.phase n ≠ .fresh) : (s.ref n).toNat + 1 < 2 ^ 32 := by
  have hs := standing_le s n
  rw [h.count n hn, own]
  simp only [reduceCtorEq, if_false]
  split_ifs <;> omega

/-! ## One reference more or less -/

theorem toNat_inc (hmax : v.toNat + 1 < 2 ^ 32) : (v + 1).toNat = v.toNat + 1 := by
  rw [BitVec.toNat_add, show (1 : BitVec 32).toNat = 1 by decide, Nat.mod_eq_of_lt hmax]

theorem toNat_dec (h0 : v ≠ 0) : (v - 1).toNat + 1 = v.toNat := by
  bv_omega

theorem Holds.known (h : s.Holds l extra) (hn : n ∈ l) : s.Known n := ((h.mem_iff n).mp hn).1

theorem Holds.ref_ne_zero (h : s.Holds l extra) (hn : n ∈ l) : s.ref n ≠ 0 :=
  ((h.mem_iff n).mp hn).2

/-- An iterator leaves its node, and its reference is left over. -/
theorem Holds.leaveCur (h : s.Holds l none) (hc : s.cur i = some n) :
    (s.setCur i none).Holds l (some n) where
  ring := h.ring
  mem_iff := h.mem_iff
  count m hm := by
    have hs := standing_setCur s i none m
    rw [hc] at hs
    have hcount := h.count m hm
    simp only [reduceCtorEq, if_false, add_zero] at hs hcount
    have hown : (s.setCur i none).own m = s.own m := rfl
    have href : (s.setCur i none).ref m = s.ref m := rfl
    rw [href, hown, hcount]
    omega
  live := h.live
  dead := h.dead
  stands j m hj := by
    by_cases hji : j = i
    · simp [setCur, hji] at hj
    · exact h.stands j m (by simpa [setCur, hji] using hj)

/-- An iterator comes to a node, with the reference that was taken. -/
theorem Holds.enterCur (h : s.Holds l (some n)) (hc : s.cur i = none) (hn : n ∈ l) :
    (s.setCur i (some n)).Holds l none where
  ring := h.ring
  mem_iff := h.mem_iff
  count m hm := by
    have hs := standing_setCur s i (some n) m
    rw [hc] at hs
    have hcount := h.count m hm
    simp only [reduceCtorEq, if_false, add_zero] at hs ⊢
    have hown : (s.setCur i (some n)).own m = s.own m := rfl
    have href : (s.setCur i (some n)).ref m = s.ref m := rfl
    rw [href, hown, hcount]
    omega
  live := h.live
  dead := h.dead
  stands j m hj := by
    by_cases hji : j = i
    · have hnm : n = m := by simpa [setCur, hji] using hj
      exact hnm ▸ hn
    · exact h.stands j m (by simpa [setCur, hji] using hj)

/-- A step that changes the node `n` only. -/
theorem Holds.of_off (h : s.Holds l extra) (hcur : s'.cur = s.cur)
    (hring : s'.links.Ring (.list :: l'.map .node))
    (hoff : ∀ m, m ≠ n → s'.phase m = s.phase m ∧ s'.ref m = s.ref m ∧ s'.owner m = s.owner m ∧
      (m ∈ l' ↔ m ∈ l) ∧ (extra' = some m ↔ extra = some m))
    (hmem : n ∈ l' ↔ s'.Known n ∧ s'.ref n ≠ 0)
    (hcount : s'.phase n ≠ .fresh →
      (s'.ref n).toNat = s'.own n + s.standing n + if extra' = some n then 1 else 0)
    (hlive : s'.phase n = .ready ∨ s'.phase n = .added → s'.owner n = .live)
    (hdead : n ∈ l' → s'.phase n = .deleted → s'.owner n = .dead)
    (hstands : ∀ i, s.cur i = some n → n ∈ l') : s'.Holds l' extra' := by
  have hstand : ∀ m, s'.standing m = s.standing m := fun m => by rw [standing, hcur, standing]
  refine ⟨hring, fun m => ?_, fun m hm => ?_, fun m hm => ?_, fun m hm hdel => ?_, fun i m hi => ?_⟩
  all_goals
    by_cases hmn : m = n
    · subst hmn
      first
        | exact hmem
        | exact hstand m ▸ hcount hm
        | exact hlive hm
        | exact hdead hm hdel
        | exact hstands i (hcur ▸ hi)
    obtain ⟨hphase, href, howner, hl, hextra⟩ := hoff m hmn
  · rw [hl, h.mem_iff m, Known, Known, hphase, href]
  · rw [hphase] at hm
    rw [href, h.count m hm, own, own, hphase, hstand]
    simp only [hextra]
  · exact howner.trans (h.live m (hphase ▸ hm))
  · exact howner.trans (h.dead m (hl.mp hm) (hphase ▸ hdel))
  · exact hl.mpr (h.stands i m (hcur ▸ hi))

/-- `kref_get` of a node on the ring. -/
theorem Holds.krefGet (h : s.Holds l none) (hι : Fintype.card ι + 2 < 2 ^ 32) (hn : n ∈ l) :
    (s.krefGet n).Holds l (some n) := by
  have hnat := toNat_inc (h.count_lt hι (h.known hn).ne_fresh)
  have hrefn : (s.krefGet n).ref n = s.ref n + 1 := update_self _ _ _
  refine h.of_off rfl h.ring (fun m hm => ?_) (iff_of_true hn ⟨h.known hn, fun h0 => ?_⟩)
    (fun hfresh => ?_) (h.live n) (h.dead n) fun i => h.stands i n
  · simp [Klist.krefGet, hm, Ne.symm hm]
  · rw [hrefn] at h0
    rw [h0, show (0 : BitVec 32).toNat = 0 by decide] at hnat
    omega
  · rw [hrefn, hnat, h.count n hfresh, if_pos rfl]
    rfl

/-- The node is marked as dead and deleted by its caller. -/
def kill (s : Klist ν ι) (n : ν) : Klist ν ι :=
  { s with
    owner := update s.owner n .dead
    phase := update s.phase n .deleted }

/-- The reference of the list is left over. -/
theorem Holds.kill (h : s.Holds l none) (hn : s.phase n = .added) :
    (s.kill n).Holds l (some n) := by
  have hphase : (s.kill n).phase n = .deleted := update_self _ _ _
  refine h.of_off rfl h.ring (fun m hm => ?_) ?_ (fun _ => ?_)
    (fun hm => absurd hm (not_live_of_deleted hphase)) (fun _ _ => update_self _ _ _)
    fun i => h.stands i n
  · simp [Klist.kill, hm, Ne.symm hm]
  · rw [h.mem_iff n, Known, Known, hphase, hn]
    simp [Klist.kill]
  · have hcount := h.count n (by rw [hn]; decide)
    rw [own, hn] at hcount
    rw [own, hphase, show (s.kill n).ref n = s.ref n from rfl, hcount]
    simp [add_comm]

/-- A reference that is left over, and not the last one, is given back. -/
theorem Holds.dropSome (h : s.Holds l (some n)) (hn : n ∈ l) (hlast : s.ref n - 1 ≠ 0) :
    (s.klistDecAndDel n).Holds l none := by
  have hnat := toNat_dec (h.ref_ne_zero hn)
  have hs : s.klistDecAndDel n = { s with ref := update s.ref n (s.ref n - 1) } := if_neg hlast
  rw [hs]
  refine h.of_off rfl h.ring (fun m hm => ?_) (iff_of_true hn ⟨h.known hn, ?_⟩) (fun hfresh => ?_)
    (h.live n) (h.dead n) fun i => h.stands i n
  · simp [hm, Ne.symm hm]
  · simpa using hlast
  · have hcount := h.count n hfresh
    rw [if_pos rfl, ← hnat] at hcount
    simp only [update_self, reduceCtorEq, if_false]
    exact Nat.succ_inj.mp hcount

theorem Holds.ring_at {o : Option ν} (h : s.Holds (l₁ ++ n :: l₂) o) :
    s.links.Ring ((.list :: l₁.map .node) ++ .node n :: l₂.map .node) := by
  simpa using h.ring

/-- The last reference of a deleted node is given back. -/
theorem Holds.dropLast (h : s.Holds (l₁ ++ n :: l₂) (some n)) (hlast : s.ref n - 1 = 0) :
    (s.klistDecAndDel n).Holds (l₁ ++ l₂) none ∧ s.phase n = .deleted := by
  have hn : n ∈ l₁ ++ n :: l₂ := by simp
  have hnat := toNat_dec (h.ref_ne_zero hn)
  have hcount := h.count n (h.known hn).ne_fresh
  rw [hlast, show (0 : BitVec 32).toNat = 0 by decide] at hnat
  rw [if_pos rfl] at hcount
  have hphase : s.phase n = .deleted := by
    by_contra hne
    rw [own, if_neg hne] at hcount
    omega
  have hstand : s.standing n = 0 := by omega
  have hrest : n ∉ l₁ ++ l₂ := (nodup_cons.mp (nodup_middle.mp h.nodup)).1
  have hs : s.klistDecAndDel n =
      ({ s with ref := update s.ref n (s.ref n - 1) } : Klist ν ι).klistRelease n := if_pos hlast
  have href : (s.klistDecAndDel n).ref n = 0 := by
    rw [hs]
    exact (update_self _ _ _).trans hlast
  rw [hs] at href ⊢
  refine ⟨h.of_off rfl ?_ (fun m hm => ?_) (iff_of_false hrest fun hm => hm.2 href) (fun _ => ?_)
    (fun hm => ?_) (fun hm => absurd hm hrest) fun i hi => ?_, hphase⟩
  · rw [map_append]
    exact h.ring_at.delEntry.set h.ring_at.not_mem_delEntry .poison .poison
  · simp [klistRelease, hm, Ne.symm hm]
  · have hown : s.own n = 0 := by omega
    rw [href, hstand]
    exact hown.symm
  · exact absurd hm (not_live_of_deleted hphase)
  · exact absurd hi (standing_eq_zero_iff.mp hstand i)

/-- What a step does to the list : nothing, or it adds a node that was ready, or it removes one that
is deleted. -/
def Edits (s s' : Klist ν ι) (l l' : List ν) : Prop :=
  l' = l ∨ (∃ l₁ l₂ n, l = l₁ ++ l₂ ∧ l' = l₁ ++ n :: l₂ ∧ s.phase n = .ready) ∨
    ∃ l₁ l₂ n, l = l₁ ++ n :: l₂ ∧ l' = l₁ ++ l₂ ∧ s'.phase n = .deleted

/-! ## Leaving a node -/

@[simp] theorem klistDecAndDel_cur (s : Klist ν ι) (n : ν) : (s.klistDecAndDel n).cur = s.cur := by
  rw [klistDecAndDel]
  split <;> rfl

@[simp] theorem klistDecAndDel_phase (s : Klist ν ι) (n : ν) :
    (s.klistDecAndDel n).phase = s.phase := by
  rw [klistDecAndDel]
  split <;> rfl

theorem klistDecAndDel_setCur (s : Klist ν ι) (n : ν) (i : ι) (c : Option ν) :
    (s.setCur i c).klistDecAndDel n = (s.klistDecAndDel n).setCur i c := by
  symm
  exact apply_ite (fun s : Klist ν ι => s.setCur i c) (s.ref n - 1 = 0) _ _

/-- The iterator gives its reference back and stands on no node. -/
def leave (s : Klist ν ι) (i : ι) : Klist ν ι :=
  ((s.cur i).elim s s.klistDecAndDel).setCur i none

theorem klistIterExit_eq (s : Klist ν ι) (i : ι) : s.klistIterExit i = s.leave i := by
  rw [klistIterExit, leave]
  cases hc : s.cur i with
  | none =>
    have : update s.cur i none = s.cur := by rw [← hc, update_eq_self]
    simp [setCur, this]
  | some n => simp [klistPut]

@[simp] theorem leave_phase (s : Klist ν ι) (i : ι) : (s.leave i).phase = s.phase := by
  rw [leave]
  cases s.cur i <;> simp [setCur]

theorem leave_cur (s : Klist ν ι) (i : ι) :
    (s.leave i).cur = update s.cur i none := by
  rw [leave]
  cases s.cur i <;> simp [setCur]

theorem Holds.leave (h : s.Holds l none) (hc : s.cur i = some n) (hl : l = l₁ ++ n :: l₂) :
    ∃ l', (s.leave i).Holds l' none ∧
      (l' = l₁ ++ n :: l₂ ∨ l' = l₁ ++ l₂ ∧ s.phase n = .deleted) := by
  have hn := h.stands i n hc
  have hleft := h.leaveCur hc
  have hs : s.leave i = (s.setCur i none).klistDecAndDel n := by
    rw [Klist.leave, hc, klistDecAndDel_setCur]
    rfl
  rw [hs]
  by_cases hlast : s.ref n - 1 = 0
  · subst hl
    obtain ⟨h', hphase⟩ := hleft.dropLast hlast
    exact ⟨l₁ ++ l₂, h', .inr ⟨rfl, hphase⟩⟩
  · exact ⟨l, hleft.dropSome hn hlast, .inl hl⟩

theorem leave_of_none (hc : s.cur i = none) : s.leave i = s := by
  have : update s.cur i none = s.cur := by rw [← hc, update_eq_self]
  rw [Klist.leave, hc]
  simp [setCur, this]

/-! ## The search -/

/-- The link to the first node of a list, or to the list head. -/
def linkTo (l : List ν) : KlistLink ν := l.head?.elim .list .node

theorem next_list (h : m.Ring (.list :: l.map .node)) :
    m.next .list = linkTo l := by
  cases l with
  | nil => exact (ring_singleton.mp h).1
  | cons n l => exact (Ring.adj (a := []) h).1

theorem next_node (h : m.Ring (.list :: (l₁ ++ n :: l₂).map .node)) :
    m.next (.node n) = linkTo l₂ := by
  have hturn : m.Ring (.node n :: (l₂.map .node ++ .list :: l₁.map .node)) := by
    have : m.Ring ((.list :: l₁.map .node) ++ .node n :: l₂.map .node) := by simpa using h
    exact this.turn
  cases l₂ with
  | nil => exact (Ring.adj (a := []) hturn).1
  | cons y l₂ => exact (Ring.adj (a := []) hturn).1

/-- The search ends at the first node that is not dead. -/
theorem scan_spec {t : Klist ν ι} {follow : KlistLink ν → KlistLink ν} : ∀ {B : List ν} {fuel : ℕ},
    (∀ A n B', B = A ++ n :: B' → follow (.node n) = linkTo B') → B.length < fuel →
      runLoop (t.scanRound follow) fuel (linkTo B) = some (some (B.find? fun n => !t.knodeDead n))
  | [], fuel, _, hfuel => runLoop_of_done (by rfl) (by omega)
  | n :: B, fuel, hfollow, hfuel => by
    cases hn : t.knodeDead n with
    | false =>
      have hround : t.scanRound follow (linkTo (n :: B)) = .done (some (some n)) := by
        simp [scanRound, linkTo, hn]
      rw [runLoop_of_done hround (by omega), List.find?_cons_of_pos (by simp [hn])]
    | true =>
      have hround : t.scanRound follow (linkTo (n :: B)) = .again (linkTo B) := by
        rw [← hfollow [] n B rfl]
        simp [scanRound, linkTo, hn]
      obtain ⟨fuel, rfl⟩ : ∃ k, fuel = k + 1 := ⟨fuel - 1, by omega⟩
      rw [runLoop_again hround, List.find?_cons_of_neg (by simp [hn])]
      refine scan_spec (fun A m B' hB => hfollow (n :: A) m B' ?_) (by simpa using hfuel)
      rw [hB, cons_append]

/-- A node of the ring is dead exactly if it is deleted. -/
theorem Holds.knodeDead_iff (h : s.Holds l extra) (hn : n ∈ l) :
    s.knodeDead n = true ↔ s.phase n = .deleted := by
  rw [knodeDead, decide_eq_true_iff]
  refine ⟨fun hdead => ?_, h.dead n hn⟩
  rcases h.known hn with hadded | hdel
  · rw [h.live n (.inr hadded)] at hdead
    cases hdead
  · exact hdel

theorem Holds.find_alive (h : s.Holds l extra) {B : List ν} (hB : ∀ n ∈ B, n ∈ l) :
    (B.find? fun n => !s.knodeDead n) = B.find? fun n => s.phase n = .added := by
  refine List.find?_congr fun n hn => ?_
  have hdead := h.knodeDead_iff (hB n hn)
  rcases h.known (hB n hn) with hphase | hphase
  · rw [hphase] at hdead ⊢
    simpa using hdead
  · rw [hphase] at hdead ⊢
    simpa using hdead

/-- The iterator has left its node, and the search starts behind it. -/
theorem Holds.leave_behind (h : s.Holds l none) (i : ι) :
    ∃ l' A A', (s.leave i).Holds l' none ∧ l = A ++ behind (s.cur i) l ∧
      l' = A' ++ behind (s.cur i) l ∧ s.links.next ((s.cur i).elim .list .node) =
        linkTo (behind (s.cur i) l) ∧
      (A' = A ∨ ∃ A1 n, A = A1 ++ [n] ∧ A' = A1 ∧ s.phase n = .deleted) := by
  cases hc : s.cur i with
  | none =>
    rw [leave_of_none hc]
    exact ⟨l, [], [], h, rfl, rfl, next_list h.ring, .inl rfl⟩
  | some c =>
    obtain ⟨l₁, l₂, rfl⟩ := append_of_mem (h.stands i c hc)
    have hcl : c ∉ l₁ := fun hcl => (nodup_append.mp h.nodup).2.2 c hcl c (by simp) rfl
    rw [behind_append hcl]
    have hnext := next_node h.ring
    obtain ⟨l', hl', hcase⟩ := h.leave hc rfl
    rcases hcase with rfl | ⟨rfl, hphase⟩
    · exact ⟨_, l₁ ++ [c], l₁ ++ [c], hl', by simp, by simp, hnext, .inl rfl⟩
    · exact ⟨_, l₁ ++ [c], l₁, hl', by simp, rfl, hnext, .inr ⟨l₁, c, rfl, rfl, hphase⟩⟩

theorem setCur_setCur (s : Klist ν ι) (i : ι) (c c' : Option ν) :
    (s.setCur i c).setCur i c' = s.setCur i c' := by
  simp [setCur]

/-- `klist_next` in terms of the state in which the iterator has left its node. -/
theorem klistNext_eq (fuel : ℕ) (s : Klist ν ι) (i : ι) : klistNext fuel s i =
    (runLoop ((s.leave i).scanRound (s.leave i).links.next) fuel
      (s.links.next ((s.cur i).elim .list .node))).join.map fun found =>
        ((found.elim (s.leave i) (s.leave i).krefGet).setCur i found, found) := by
  have hfinal : ∀ (t : Klist ν ι) (found : Option ν), (found.elim t t.krefGet).setCur i found =
        (found.elim (t.setCur i none) (t.setCur i none).krefGet).setCur i found := by
    intro t found
    cases found with
    | none => exact (setCur_setCur t i none none).symm
    | some n => exact (setCur_setCur (t.krefGet n) i none (some n)).symm
  have hmap := funext fun found : Option ν =>
    congrArg (·, found) (hfinal ((s.cur i).elim s s.klistDecAndDel) found)
  exact congrArg (fun f => Option.map f _) hmap

/-- What `klist_next` does. It returns the first node behind the place of the iterator that is not
deleted. The node that the iterator leaves may go. -/
theorem klistNext_spec (h : s.Holds l none) (hι : Fintype.card ι + 2 < 2 ^ 32) {fuel : ℕ}
    (hfuel : l.length < fuel) (i : ι) :
    ∃ s' l' found, klistNext fuel s i = some (s', found) ∧
      found = ((behind (s.cur i) l).find? fun n => s.phase n = .added) ∧
      s'.Holds l' none ∧ s'.phase = s.phase ∧ s'.cur = update s.cur i found ∧
      ∃ A A', l = A ++ behind (s.cur i) l ∧ l' = A' ++ behind (s.cur i) l ∧
        (A' = A ∨ ∃ A1 n, A = A1 ++ [n] ∧ A' = A1 ∧ s.phase n = .deleted) := by
  obtain ⟨l', A, A', hleave, hl, hl', hstart, hA⟩ := h.leave_behind i
  have hfollow : ∀ C n B', behind (s.cur i) l = C ++ n :: B' →
      (s.leave i).links.next (.node n) = linkTo B' := fun C n B' hB => by
    have hring := hleave.ring
    rw [hl', hB, ← append_assoc] at hring
    exact next_node hring
  have hfind := hleave.find_alive (B := behind (s.cur i) l) fun n hn => by
    rw [hl']
    exact mem_append_right _ hn
  rw [leave_phase] at hfind
  have hrun := scan_spec (t := s.leave i) hfollow
    (lt_of_le_of_lt (behind_sublist (s.cur i) l).length_le hfuel)
  rw [hfind] at hrun
  obtain ⟨found, hfound⟩ : ∃ found, found =
    ((behind (s.cur i) l).find? fun n => s.phase n = .added) := ⟨_, rfl⟩
  refine ⟨(found.elim (s.leave i) (s.leave i).krefGet).setCur i found, l', found, ?_, hfound, ?_,
    ?_, ?_, A, A', hl, hl', hA⟩
  · rw [klistNext_eq, hstart, hrun, ← hfound]
    rfl
  · have hcur : (s.leave i).cur i = none := by rw [leave_cur, update_self]
    cases found with
    | none =>
      change ((s.leave i).setCur i none).Holds l' none
      rwa [Klist.leave, setCur_setCur]
    | some n =>
      have hn : n ∈ l' := by
        rw [hl']
        exact mem_append_right _ (mem_of_find?_eq_some hfound.symm)
      exact (hleave.krefGet hι hn).enterCur hcur hn
  · cases found <;> exact leave_phase s i
  · cases found with
    | none => simp [setCur, leave_cur]
    | some n => simp [setCur, Klist.krefGet, leave_cur]

end Klist

end LinuxKernelTest
