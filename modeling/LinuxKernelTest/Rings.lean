import Mathlib.Tactic

/-!
# Circular doubly linked lists in memory

A memory of list heads has two links at every address, to the next and to the previous list head.
`Ring m c` : the addresses of the list `c` are linked in a circle, in this order, the last one back
to the first. The head of a list is an address like the others, so a ring has no beginning and may
be turned (`Ring.rotate`); an operation is described at the place where it is simplest and turned to
the place where it is used.

`Circle m c` : the addresses of `c` are linked in a circle and every other address is linked to
itself, as an initialised list head is. It determines the memory (`Circle.memory_eq`).
-/

set_option linter.unusedSectionVars false

namespace LinuxKernelTest

open Function List Ring

/-- The links of the list heads, by the address of the list head. -/
@[ext]
structure ListHeads (α : Type*) where
  next : α → α
  prev : α → α

namespace ListHeads

variable {α : Type*} [DecidableEq α]
variable (m : ListHeads α)

/-- Write both links of the list head at `x`. -/
def set (x n p : α) : ListHeads α :=
  ⟨update m.next x n, update m.prev x p⟩

/-- Link the list head at `x` to itself. -/
def initHead (x : α) : ListHeads α := m.set x x x

/-- Insert `new` between the two consecutive entries `p` and `n`. -/
def addBetween (new p n : α) : ListHeads α where
  next := update (update m.next new n) p new
  prev := update (update m.prev n new) new p

/-- Insert `new` behind `x`. -/
def add (new x : α) : ListHeads α := m.addBetween new x (m.next x)

/-- Insert `new` in front of `x`. -/
def addTail (new x : α) : ListHeads α := m.addBetween new (m.prev x) x

/-- Make the neighbours `p` and `n` of an entry point to each other. -/
def joinEnds (p n : α) : ListHeads α where
  next := update m.next p n
  prev := update m.prev n p

/-- Take the entry `x` out of its list; its own links stay. -/
def delEntry (x : α) : ListHeads α := m.joinEnds (m.prev x) (m.next x)

/-- Take the entry `x` out of its list and link it to itself. -/
def delInit (x : α) : ListHeads α := (m.delEntry x).initHead x

/-- The list head at `x` is linked to itself. -/
def empty (x : α) : Bool := m.next x = x

/-- `y` comes right behind `x`. -/
def Adj (x y : α) : Prop := m.next x = y ∧ m.prev y = x

/-- The addresses of `c` form a ring, in this order. -/
structure Ring (m : ListHeads α) (c : List α) : Prop where
  nodup : c.Nodup
  linked : (c ++ c.take 1).IsChain m.Adj

instance decidableAdj (m : ListHeads α) : DecidableRel m.Adj := fun _ _ =>
  inferInstanceAs (Decidable (_ ∧ _))

instance decidableRing (m : ListHeads α) (c : List α) : Decidable (m.Ring c) :=
  decidable_of_iff (c.Nodup ∧ (c ++ c.take 1).IsChain m.Adj)
    ⟨fun h => ⟨h.1, h.2⟩, fun h => ⟨h.nodup, h.linked⟩⟩

variable {m m' : ListHeads α} {a b c : List α} {x y new : α} {z : α}

/-! ## Frames -/

/-- A chain only depends on the links along it. -/
theorem chain_congr (hc : (x :: (c ++ [y])).IsChain m.Adj)
    (hn : ∀ z ∈ x :: c, m'.next z = m.next z) (hp : ∀ z ∈ c ++ [y], m'.prev z = m.prev z) :
    (x :: (c ++ [y])).IsChain m'.Adj := by
  induction c generalizing x with
  | nil =>
    rw [nil_append, isChain_pair] at hc ⊢
    exact ⟨(hn x (by simp)).trans hc.1, (hp y (by simp)).trans hc.2⟩
  | cons z c ih =>
    rw [cons_append, isChain_cons_cons] at hc ⊢
    refine ⟨⟨(hn x (by simp)).trans hc.1.1, (hp z (by simp)).trans hc.1.2⟩, ih hc.2 ?_ ?_⟩
    · exact fun w hw => hn w (mem_cons_of_mem _ hw)
    · exact fun w hw => hp w (mem_cons_of_mem _ hw)

theorem Ring.congr (h : Ring m c) (hn : ∀ z ∈ c, m'.next z = m.next z)
    (hp : ∀ z ∈ c, m'.prev z = m.prev z) : Ring m' c := by
  refine ⟨h.nodup, ?_⟩
  cases c with
  | nil => exact List.IsChain.nil
  | cons x c =>
    refine chain_congr h.linked hn fun z hz => hp z ?_
    rw [mem_append, mem_singleton] at hz
    rcases hz with hz | rfl
    · exact mem_cons_of_mem _ hz
    · exact mem_cons_self

/-- Writes to an address off the ring do not matter. -/
theorem Ring.set (h : Ring m c) (hx : x ∉ c) (n p : α) : Ring (m.set x n p) c :=
  h.congr (fun _ hz => update_of_ne (ne_of_mem_of_not_mem hz hx) _ _)
    fun _ hz => update_of_ne (ne_of_mem_of_not_mem hz hx) _ _

/-- Link another address behind a chain. If it is the first one of the chain, this closes the
ring. -/
theorem chain_joinEnds (hc : (x :: c).IsChain m.Adj) (hnd : (x :: c).Nodup) (hy : y ∉ c) :
    (x :: (c ++ [y])).IsChain (m.joinEnds ((x :: c).getLast (by simp)) y).Adj := by
  induction c generalizing x with
  | nil => simp [joinEnds, Adj]
  | cons z c ih =>
    obtain ⟨hxz, hc⟩ := isChain_cons_cons.mp hc
    obtain ⟨hx, hnd⟩ := nodup_cons.mp hnd
    rw [cons_append, isChain_cons_cons, getLast_cons (by simp)]
    have hlast : x ≠ (z :: c).getLast (by simp) :=
      (ne_of_mem_of_not_mem (getLast_mem (by simp)) hx).symm
    have hzy : z ≠ y := by rintro rfl; simp at hy
    refine ⟨⟨?_, ?_⟩, ih hc hnd fun h => hy (mem_cons_of_mem _ h)⟩
    · exact (update_of_ne hlast _ _).trans hxz.1
    · exact (update_of_ne hzy _ _).trans hxz.2

/-! ## Turning a ring -/

theorem Ring.rotate (h : Ring m (a ++ b)) : Ring m (b ++ a) := by
  refine ⟨(perm_append_comm.nodup_iff).mp h.nodup, ?_⟩
  have hc := h.linked
  cases a with
  | nil => simpa using hc
  | cons x a =>
    cases b with
    | nil => simpa using hc
    | cons y b =>
      -- The arc from `x` to `y` and the one from `y` back to `x` change places.
      have hsplit : (x :: (a ++ y :: (b ++ [x]))).IsChain m.Adj := by simpa using hc
      obtain ⟨hxy, hyx⟩ := isChain_cons_split.mp hsplit
      have : (y :: (b ++ x :: (a ++ [y]))).IsChain m.Adj := isChain_cons_split.mpr ⟨hyx, hxy⟩
      simpa using this

/-- Turn a ring to an address on it. -/
theorem Ring.turn (h : Ring m (a ++ x :: b)) : Ring m (x :: (b ++ a)) := by
  simpa using h.rotate

/-! ## Reading the links of a ring -/

theorem Ring.adj (h : Ring m (a ++ x :: y :: b)) : m.Adj x y :=
  (isChain_append_cons_cons.mp h.linked.left_of_append).2.1

/-- The last address of a ring is in front of the first one. -/
theorem Ring.adj_ends (h : Ring m (x :: c)) : m.Adj ((x :: c).getLast (by simp)) x := by
  have hc : ((x :: c) ++ [x]).IsChain m.Adj := h.linked
  exact hc.rel_getLast_head_of_append (by simp) (by simp)

theorem ring_singleton : Ring m [x] ↔ m.next x = x ∧ m.prev x = x := by
  refine ⟨fun h => h.adj_ends, fun h => ⟨nodup_singleton x, ?_⟩⟩
  exact isChain_pair.mpr h

/-- An address on a ring is linked to itself exactly if it is alone on it. -/
theorem Ring.next_eq_self_iff (h : Ring m (x :: c)) : m.next x = x ↔ c = [] := by
  cases c with
  | nil => simpa using h.adj_ends.1
  | cons y c =>
    have hne : x ≠ y := by simpa using (nodup_cons.mp h.nodup).1 ∘ (by rintro rfl; simp)
    rw [(adj (a := []) h).1]
    simpa using hne.symm

theorem Ring.next_mem (h : Ring m c) (hx : x ∈ c) : m.next x ∈ c := by
  obtain ⟨a, b, rfl⟩ := append_of_mem hx
  have ht := h.turn
  cases hd : b ++ a with
  | nil =>
    rw [hd] at ht
    rwa [(ring_singleton.mp ht).1]
  | cons y d =>
    rw [hd] at ht
    have hy : y ∈ b ++ a := by rw [hd]; exact mem_cons_self
    rw [(adj (a := []) ht).1]
    rw [mem_append] at hy
    rcases hy with hy | hy <;> simp [hy]

theorem Ring.prev_mem (h : Ring m c) (hx : x ∈ c) : m.prev x ∈ c := by
  obtain ⟨a, b, rfl⟩ := append_of_mem hx
  have hl := getLast_mem (l := x :: (b ++ a)) (by simp)
  rw [h.turn.adj_ends.2]
  simp only [mem_cons, mem_append] at hl ⊢
  tauto

/-- Two memories with the same ring have the same links on it. -/
theorem Ring.links_eq (h : Ring m c) (h' : Ring m' c) (hx : x ∈ c) :
    m'.next x = m.next x ∧ m'.prev x = m.prev x := by
  obtain ⟨a, b, rfl⟩ := append_of_mem hx
  refine ⟨?_, by rw [h.turn.adj_ends.2, h'.turn.adj_ends.2]⟩
  have ht := h.turn
  have ht' := h'.turn
  cases hd : b ++ a with
  | nil =>
    rw [hd] at ht ht'
    rw [(ring_singleton.mp ht).1, (ring_singleton.mp ht').1]
  | cons y d =>
    rw [hd] at ht ht'
    rw [(adj (a := []) ht).1, (adj (a := []) ht').1]

/-- The same ring, followed along the other links. -/
theorem Ring.flip (h : Ring m (x :: c)) : Ring ⟨m.prev, m.next⟩ (x :: c.reverse) := by
  refine ⟨?_, ?_⟩
  · have := h.nodup
    rwa [nodup_cons, mem_reverse, nodup_reverse, ← nodup_cons]
  · have hc : ((x :: c) ++ [x]).IsChain m.Adj := h.linked
    have hrev : ((x :: c) ++ [x]).reverse.IsChain (⟨m.prev, m.next⟩ : ListHeads α).Adj :=
      isChain_reverse.mpr (hc.imp fun _ _ hab => ⟨hab.2, hab.1⟩)
    have hlist : ((x :: c) ++ [x]).reverse = x :: c.reverse ++ [x] := by simp
    rw [hlist] at hrev
    exact hrev

/-! ## Insertion -/

theorem addBetween_of_ne {p n z : α} (hp : z ≠ p) (hn : z ≠ n) (hnew : z ≠ new) :
    (m.addBetween new p n).next z = m.next z ∧ (m.addBetween new p n).prev z = m.prev z := by
  simp [addBetween, update_of_ne, hp, hn, hnew]

theorem Ring.add (h : Ring m (x :: c)) (hnew : new ∉ x :: c) :
    Ring (m.add new x) (x :: new :: c) := by
  obtain ⟨hxnew, hcnew⟩ : new ≠ x ∧ new ∉ c := by simpa using hnew
  have hnd := nodup_cons.mp h.nodup
  refine ⟨by simp [hnd, Ne.symm hxnew, hcnew], ?_⟩
  cases c with
  | nil =>
    have hx := (ring_singleton.mp h).1
    have hchain : [x, new, x].IsChain (m.add new x).Adj := by
      simp [ListHeads.add, addBetween, Adj, hx, hxnew, Ne.symm hxnew]
    exact hchain
  | cons y c =>
    have hx : m.next x = y := (adj (a := []) h).1
    obtain ⟨hynew, hcnew'⟩ : new ≠ y ∧ new ∉ c := by simpa using hcnew
    obtain ⟨hxy, hxc⟩ : x ≠ y ∧ x ∉ c := by simpa using hnd.1
    have hyc := (nodup_cons.mp hnd.2).1
    have hold : (y :: (c ++ [x])).IsChain m.Adj := (isChain_cons_cons.mp h.linked).2
    have hchain : (x :: new :: y :: (c ++ [x])).IsChain (m.add new x).Adj := by
      rw [isChain_cons_cons, isChain_cons_cons]
      refine ⟨?_, ?_, chain_congr hold ?_ ?_⟩
      · simp [ListHeads.add, addBetween, Adj]
      · simp [ListHeads.add, addBetween, Adj, hx, hxnew, Ne.symm hynew]
      · intro z hz
        have hzx : z ≠ x := by rintro rfl; simp [hxy, hxc] at hz
        have hznew : z ≠ new := ne_of_mem_of_not_mem hz hcnew
        simp [ListHeads.add, addBetween, hzx, hznew]
      · intro z hz
        have hzy : z ≠ y := by rintro rfl; simp [hyc, Ne.symm hxy] at hz
        have hznew : z ≠ new := by rintro rfl; simp [hcnew', hxnew] at hz
        simp [ListHeads.add, addBetween, hx, hzy, hznew]
    exact hchain

theorem Ring.addTail (h : Ring m (x :: c)) (hnew : new ∉ x :: c) :
    Ring (m.addTail new x) (new :: x :: c) := by
  -- In front of `x` is behind the last address `p` of the ring.
  obtain ⟨d, p, hd⟩ : ∃ d p, x :: c = d ++ [p] :=
    ⟨_, _, (dropLast_append_getLast (by simp : x :: c ≠ [])).symm⟩
  have hadj : m.Adj p x := by
    have := h.adj_ends
    simpa only [hd, getLast_append_singleton] using this
  have hadd : m.addTail new x = m.add new p := by
    rw [ListHeads.addTail, ListHeads.add, hadj.1, hadj.2]
  rw [hadd, hd]
  rw [hd] at h hnew
  have hp : Ring m (p :: d) := by simpa using h.turn
  have hnew' : new ∉ p :: d := by simpa [or_comm] using hnew
  exact rotate (a := [p]) (hp.add hnew')

/-- Insertion in front of the first address `x` of a part of the ring, or at its end. -/
theorem Ring.insert (h : Ring m (a ++ b)) (hx : (b ++ a).head? = some x) (hnew : new ∉ a ++ b) :
    Ring (m.addTail new x) (a ++ new :: b) := by
  have hr := h.rotate
  have hnew' : new ∉ b ++ a := by simpa [and_comm] using hnew
  obtain ⟨c, hc⟩ := List.head?_eq_some_iff.mp hx
  rw [hc] at hr hnew'
  have := hr.addTail hnew'
  rw [← hc] at this
  exact rotate (a := new :: b) this

theorem Ring.insertBehind (h : Ring m (a ++ x :: b)) (hnew : new ∉ a ++ x :: b) :
    Ring (m.add new x) (a ++ x :: new :: b) := by
  have hnew' : new ∉ x :: (b ++ a) := by simpa [and_comm, and_assoc, and_left_comm] using hnew
  exact rotate (a := x :: new :: b) (h.turn.add hnew')

/-- An insertion leaves the links of the other addresses off the ring. -/
theorem Ring.add_off (h : Ring m c) (hx : x ∈ c) (hz : z ∉ c) (hznew : z ≠ new) :
    (m.add new x).next z = m.next z ∧ (m.add new x).prev z = m.prev z :=
  addBetween_of_ne (ne_of_mem_of_not_mem hx hz).symm
    (ne_of_mem_of_not_mem (h.next_mem hx) hz).symm hznew

theorem Ring.addTail_off (h : Ring m c) (hx : x ∈ c) (hz : z ∉ c) (hznew : z ≠ new) :
    (m.addTail new x).next z = m.next z ∧ (m.addTail new x).prev z = m.prev z :=
  addBetween_of_ne (ne_of_mem_of_not_mem (h.prev_mem hx) hz).symm
    (ne_of_mem_of_not_mem hx hz).symm hznew

/-! ## Removal -/

theorem Ring.delEntry_second {p : α} (h : Ring m (p :: x :: c)) : Ring (m.delEntry x) (p :: c) := by
  have hp : m.prev x = p := (adj (a := []) h).2
  obtain ⟨⟨hpx, hpc⟩, hxc, hc⟩ : (p ≠ x ∧ p ∉ c) ∧ x ∉ c ∧ c.Nodup := by
    simpa [and_assoc] using h.nodup
  refine ⟨nodup_cons.mpr ⟨hpc, hc⟩, ?_⟩
  cases c with
  | nil =>
    have hn : m.next x = p := by simpa using h.adj_ends.1
    have hchain : [p, p].IsChain (m.delEntry x).Adj := by
      simp [ListHeads.delEntry, joinEnds, Adj, hp, hn]
    exact hchain
  | cons y c =>
    have hn : m.next x = y := (adj (a := [p]) h).1
    have hold : (y :: (c ++ [p])).IsChain m.Adj :=
      (isChain_cons_cons.mp (isChain_cons_cons.mp h.linked).2).2
    obtain ⟨hpy, hpc'⟩ : p ≠ y ∧ p ∉ c := by simpa using hpc
    have hyc := (nodup_cons.mp hc).1
    have hchain : (p :: y :: (c ++ [p])).IsChain (m.delEntry x).Adj := by
      rw [isChain_cons_cons]
      refine ⟨by simp [ListHeads.delEntry, joinEnds, Adj, hp, hn], chain_congr hold ?_ ?_⟩
      · intro z hz
        have hzp : z ≠ p := ne_of_mem_of_not_mem hz hpc
        simp [ListHeads.delEntry, joinEnds, hp, hzp]
      · intro z hz
        have hzy : z ≠ y := by rintro rfl; simp [hyc, Ne.symm hpy] at hz
        simp [ListHeads.delEntry, joinEnds, hn, hzy]
    exact hchain

theorem Ring.delEntry (h : Ring m (a ++ x :: b)) : Ring (m.delEntry x) (a ++ b) := by
  refine rotate ?_
  rcases eq_nil_or_concat (b ++ a) with hnil | ⟨d, p, hd⟩
  · rw [hnil]
    exact ⟨nodup_nil, List.IsChain.nil⟩
  have ht := h.turn
  rw [hd] at ht ⊢
  rw [concat_eq_append] at ht ⊢
  have hp : Ring m (p :: x :: d) := rotate (a := x :: d) ht
  exact rotate (a := [p]) hp.delEntry_second

/-- A removal leaves the links of the addresses off the ring. -/
theorem Ring.delEntry_off (h : Ring m c) (hx : x ∈ c) (hz : z ∉ c) :
    (m.delEntry x).next z = m.next z ∧ (m.delEntry x).prev z = m.prev z :=
  ⟨update_of_ne (ne_of_mem_of_not_mem (h.prev_mem hx) hz).symm _ _,
    update_of_ne (ne_of_mem_of_not_mem (h.next_mem hx) hz).symm _ _⟩

theorem Ring.not_mem_delEntry (h : Ring m (a ++ x :: b)) : x ∉ a ++ b := by
  have := h.turn.nodup
  simpa [and_comm] using (nodup_cons.mp this).1

/-! ## A ring and list heads linked to themselves -/

/-- The addresses of `c` form a ring and every other address is linked to itself. -/
structure Circle (m : ListHeads α) (c : List α) : Prop where
  ring : Ring m c
  alone : ∀ x ∉ c, m.next x = x ∧ m.prev x = x

theorem Circle.memory_eq (h : Circle m c) (h' : Circle m' c) : m = m' := by
  have hlinks : ∀ x, m'.next x = m.next x ∧ m'.prev x = m.prev x := by
    intro x
    by_cases hx : x ∈ c
    · exact h.ring.links_eq h'.ring hx
    · rw [(h.alone x hx).1, (h.alone x hx).2]
      exact h'.alone x hx
  ext x
  · exact (hlinks x).1.symm
  · exact (hlinks x).2.symm

theorem circle_nil_iff : Circle m [] ↔ ∀ x, m.next x = x ∧ m.prev x = x :=
  ⟨fun h x => h.alone x (by simp), fun h => ⟨⟨nodup_nil, List.IsChain.nil⟩, fun x _ => h x⟩⟩

/-- A ring of one address is no different from a list head linked to itself. -/
theorem circle_singleton_iff : Circle m [x] ↔ Circle m [] := by
  rw [circle_nil_iff]
  refine ⟨fun h y => ?_, fun h => ⟨ring_singleton.mpr (h x), fun y _ => h y⟩⟩
  by_cases hy : y = x
  · rw [hy]
    exact ring_singleton.mp h.ring
  · exact h.alone y (by simpa using hy)

theorem Circle.initHead (h : Circle m c) (hx : x ∉ c) : Circle (m.initHead x) c := by
  refine ⟨h.ring.set hx x x, fun z hz => ?_⟩
  by_cases hzx : z = x
  · simp [ListHeads.initHead, ListHeads.set, hzx]
  · simp only [ListHeads.initHead, ListHeads.set, update_of_ne hzx]
    exact h.alone z hz

theorem Circle.insert (h : Circle m (a ++ b)) (hx : (b ++ a).head? = some x)
    (hnew : new ∉ a ++ b) : Circle (m.addTail new x) (a ++ new :: b) := by
  refine ⟨h.ring.insert hx hnew, fun z hz => ?_⟩
  obtain ⟨hza, hznew, hzb⟩ : z ∉ a ∧ z ≠ new ∧ z ∉ b := by simpa using hz
  have hz' : z ∉ a ++ b := by simp [hza, hzb]
  have hxmem : x ∈ a ++ b := by simpa [or_comm] using mem_of_head? hx
  obtain ⟨hn, hp⟩ := h.ring.addTail_off hxmem hz' hznew
  rw [hn, hp]
  exact h.alone z hz'

theorem Circle.insertBehind (h : Circle m (a ++ x :: b)) (hnew : new ∉ a ++ x :: b) :
    Circle (m.add new x) (a ++ x :: new :: b) := by
  refine ⟨h.ring.insertBehind hnew, fun z hz => ?_⟩
  have hz' : z ∉ a ++ x :: b := fun hmem => hz (by simp at hmem ⊢; tauto)
  have hznew : z ≠ new := by rintro rfl; simp at hz
  obtain ⟨hn, hp⟩ := h.ring.add_off (x := x) (by simp) hz' hznew
  rw [hn, hp]
  exact h.alone z hz'

theorem Circle.delInit (h : Circle m (a ++ x :: b)) : Circle (m.delInit x) (a ++ b) := by
  refine ⟨h.ring.delEntry.set h.ring.not_mem_delEntry x x, fun z hz => ?_⟩
  by_cases hzx : z = x
  · simp [ListHeads.delInit, ListHeads.initHead, ListHeads.set, hzx]
  have hz' : z ∉ a ++ x :: b := fun hmem => hz (by simp [hzx] at hmem ⊢; exact hmem)
  obtain ⟨hn, hp⟩ := h.ring.delEntry_off (x := x) (by simp) hz'
  simp only [ListHeads.delInit, ListHeads.initHead, ListHeads.set, update_of_ne hzx, hn, hp]
  exact h.alone z hz'

end ListHeads

end LinuxKernelTest
