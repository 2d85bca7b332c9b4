import LinuxKernelTest.Loop
import LinuxKernelTest.Machine
import LinuxKernelTest.ListSplice
import LinuxKernelTest.Rings

/-!
# Priority sorted lists

A model of `lib/plist.c`. A priority list keeps its nodes on two rings : `node_list`, with the list
head, links every node in the order of the priorities; `prio_list`, without a head, links the first
node of every priority, so that `plist_add` only has to look at one node of each priority. A node
that is not the first of its priority has an empty `prio_list`.

`Plist.Holds` says what the two rings hold : a list of nodes sorted by priority, and the first nodes
of it (`firsts`). `plist_run` is the result about every sequence of calls.
-/

set_option linter.unusedSectionVars false

namespace LinuxKernelTest

open ListHeads
open List hiding next prev

/-- A `struct plist_head` and the nodes. In `nodeList` the address `none` is that of the list
head. -/
structure Plist (ν : Type*) where
  nodeList : ListHeads (Option ν)
  prioList : ListHeads ν
  prio : ν → ℤ

section

variable {ν : Type*} [DecidableEq ν]

namespace Plist

variable (s : Plist ν)

variable (node : ν)

/-- `plist_node_init`. -/
def nodeInit (prio : ℤ) : Plist ν where
  prio := Function.update s.prio node prio
  prioList := s.prioList.initHead node
  nodeList := s.nodeList.initHead (some node)

/-- `plist_head_empty`. -/
def headEmpty : Bool := s.nodeList.empty none

/-- `plist_node_empty`. -/
def nodeEmpty : Bool := s.nodeList.empty (some node)

/-! ## `plist_add` -/

/-- One round of the search of `plist_add`, with `iter` and `prev`. It leaves with `iter`, `prev`
and `node_next`. -/
def addRound (node first : ν) : ν × Option ν → Round (ν × Option ν) (ν × Option ν × Option ν)
  | (iter, prev) =>
    if s.prio node < s.prio iter then .done (iter, prev, some iter)
    else if s.prioList.next iter = first then .done (s.prioList.next iter, some iter, none)
    else .again (s.prioList.next iter, some iter)

/-- `if (!prev || prev->prio != node->prio)` : the node is the first of its priority. -/
def newPrio : Option ν → Bool
  | none => true
  | some prev => s.prio prev ≠ s.prio node

/-- Link the node with the outcome of the search. -/
def linkNode : ν × Option ν × Option ν → Plist ν
  | (iter, prev, nodeNext) =>
    { s with
      prioList := if s.newPrio node prev then s.prioList.addTail node iter else s.prioList
      nodeList := s.nodeList.addTail (some node) nodeNext }

/-- The search takes at most `fuel` rounds. -/
def plistAdd (fuel : ℕ) (s : Plist ν) (node : ν) : Option (Plist ν) :=
  match s.nodeList.next none with
  | none => some { s with nodeList := s.nodeList.addTail (some node) none }
  | some first =>
    (runLoop (s.addRound node first) fuel (first, none)).map (s.linkNode node)

/-! ## `plist_del` -/

/-- The new `prio_list` links : the next node takes the place of a first node. -/
def delPrio : ListHeads ν :=
  if s.prioList.empty node then s.prioList
  else
    let promoted :=
      match s.nodeList.next (some node) with
      | none => s.prioList
      | some next => if s.prioList.empty next then s.prioList.add next node else s.prioList
    promoted.delInit node

/-- `plist_del`. -/
def plistDel : Plist ν :=
  { s with prioList := s.delPrio node, nodeList := s.nodeList.delInit (some node) }

/-! ## `plist_requeue` -/

/-- One round of `plist_for_each_continue`. It leaves with `node_next`. -/
def requeueRound (node iter : ν) : Round ν (Option ν) :=
  match s.nodeList.next (some iter) with
  | none => .done none
  | some iter => if s.prio node ≠ s.prio iter then .done (some iter) else .again iter

/-- The two `BUG_ON`s are the answer `none`. A node in front of the list head is the last one, and
the third `none` does not occur on a ring. -/
def plistRequeue (fuel : ℕ) (s : Plist ν) (node : ν) : Option (Plist ν) :=
  if s.headEmpty then none
  else if s.nodeEmpty node then none
  else if s.nodeList.prev none = some node then some s
  else
    match s.nodeList.next (some node) with
    | none => none
    | some iter =>
      if s.prio node ≠ s.prio iter then some s
      else
        let s' := s.plistDel node
        (runLoop (s'.requeueRound node) fuel iter).map fun nodeNext =>
          { s' with nodeList := s'.nodeList.addTail (some node) nodeNext }

/-! ## The first nodes of the priorities -/

/-- The first node of every priority, in the order of the list. -/
def firsts (prio : ν → ℤ) : List ν → List ν
  | [] => []
  | n :: l => n :: (firsts prio l).filter (prio · ≠ prio n)

/-- No node of `l` has the priority of `n`. -/
def freshIn (prio : ν → ℤ) (l : List ν) (n : ν) : Bool := l.all (prio · ≠ prio n)

variable {prio : ν → ℤ} {l l1 l2 : List ν} {n : ν} {y : ν}

theorem freshIn_iff : freshIn prio l n = true ↔ ∀ a ∈ l, prio a ≠ prio n := by
  simp [freshIn]

theorem firsts_append (l1 l2 : List ν) : firsts prio (l1 ++ l2) =
    firsts prio l1 ++ (firsts prio l2).filter (freshIn prio l1) := by
  induction l1 with
  | nil => exact (filter_eq_self.mpr fun _ _ => rfl).symm
  | cons n l1 ih =>
    simp only [cons_append, firsts, ih, filter_append, filter_filter]
    congr 2
    refine filter_congr fun x _ => ?_
    simp [freshIn, eq_comm]

theorem firsts_sublist (prio : ν → ℤ) (l : List ν) : (firsts prio l).Sublist l := by
  induction l with
  | nil => exact List.Sublist.slnil
  | cons n l ih => exact ((filter_sublist).trans ih).cons_cons n

theorem mem_of_mem_firsts (h : n ∈ firsts prio l) : n ∈ l := (firsts_sublist prio l).subset h

/-- A node is a first one if no node before it has its priority. -/
theorem mem_firsts_append_cons (h : n ∉ l1) :
    n ∈ firsts prio (l1 ++ n :: l2) ↔ freshIn prio l1 n = true := by
  rw [firsts_append, mem_append, mem_filter, firsts]
  have : n ∉ firsts prio l1 := fun hn => h (mem_of_mem_firsts hn)
  simp [this]

/-- Every priority has a first node. -/
theorem exists_firsts (prio : ν → ℤ) (h : n ∈ l) : ∃ g ∈ firsts prio l, prio g = prio n := by
  induction l with
  | nil => simp at h
  | cons a l ih =>
    by_cases ha : prio a = prio n
    · exact ⟨a, by simp [firsts], ha⟩
    have hl : n ∈ l := by
      rcases mem_cons.mp h with rfl | hl
      · exact absurd rfl ha
      · exact hl
    obtain ⟨g, hg, hgn⟩ := ih hl
    refine ⟨g, ?_, hgn⟩
    simp only [firsts, mem_cons, mem_filter]
    exact Or.inr ⟨hg, by simpa [hgn] using Ne.symm ha⟩

/-- The same with the nodes before it as those that form a sublist with it. -/
theorem mem_firsts_iff (hl : l.Nodup) :
    n ∈ firsts prio l ↔ n ∈ l ∧ ∀ a, [a, n].Sublist l → prio a ≠ prio n := by
  by_cases hn : n ∈ l
  · obtain ⟨l1, l2, rfl⟩ := append_of_mem hn
    have hnot := (nodup_cons.mp (nodup_middle.mp hl)).1
    rw [mem_firsts_append_cons fun h => hnot (mem_append_left _ h), freshIn_iff]
    simp [pair_sublist_append_cons_iff hnot, hn]
  · exact ⟨fun h => absurd (mem_of_mem_firsts h) hn, fun h => absurd h.1 hn⟩

/-- The first nodes have different priorities. -/
theorem firsts_pairwise_ne (l : List ν) : (firsts prio l).Pairwise (prio · ≠ prio ·) := by
  induction l with
  | nil => exact List.Pairwise.nil
  | cons n l ih =>
    refine pairwise_cons.mpr ⟨fun a ha => ?_, ih.filter _⟩
    exact (of_decide_eq_true (mem_filter.mp ha).2).symm

theorem firsts_eq_nil_iff : firsts prio l = [] ↔ l = [] := by
  cases l <;> simp [firsts]

theorem head?_firsts (l : List ν) : (firsts prio l).head? = l.head? := by
  cases l <;> rfl

/-- Two parts of a list with different priorities. -/
theorem firsts_append_of_ne (h : ∀ a ∈ l1, ∀ b ∈ l2, prio a ≠ prio b) :
    firsts prio (l1 ++ l2) = firsts prio l1 ++ firsts prio l2 := by
  rw [firsts_append, filter_eq_self.mpr]
  exact fun b hb => freshIn_iff.mpr fun a ha => h a ha b (mem_of_mem_firsts hb)

/-- A node behind others of its priority is not a first one. -/
theorem firsts_of_not_fresh (h : freshIn prio l1 n = false) :
    firsts prio (l1 ++ n :: l2) = firsts prio (l1 ++ l2) := by
  rw [firsts_append, firsts_append, firsts, filter_cons_of_neg (by simp [h]), filter_filter]
  congr 1
  refine filter_congr fun x _ => ?_
  by_cases hx : freshIn prio l1 x = true
  · have hne : prio x ≠ prio n := by
      intro heq
      have : freshIn prio l1 n = true := by rw [freshIn_iff] at hx ⊢; rwa [← heq]
      rw [h] at this
      cases this
    simp [hx, hne]
  · simp [hx]

/-- The next node takes the place of a first node of its priority. -/
theorem firsts_promote (h : freshIn prio l1 n = true) (hy : prio y = prio n)
    (l2 : List ν) :
    ∃ P Q, firsts prio (l1 ++ n :: y :: l2) = P ++ n :: Q ∧
      firsts prio (l1 ++ y :: l2) = P ++ y :: Q := by
  have hy' : freshIn prio l1 y = true := by rw [freshIn_iff] at h ⊢; rwa [hy]
  refine ⟨firsts prio l1, ((firsts prio l2).filter (prio · ≠ prio n)).filter (freshIn prio l1),
    ?_, ?_⟩
  · rw [firsts_append, firsts, firsts, filter_cons_of_pos h, filter_cons_of_neg (by simp [hy]), hy,
      filter_eq_self.mpr fun x hx => (mem_filter.mp hx).2]
  · rw [firsts_append, firsts, filter_cons_of_pos hy', hy]

/-- The only node of its priority. -/
theorem firsts_alone (h : freshIn prio l1 n = true) (h2 : ∀ b ∈ l2, prio b ≠ prio n) :
    ∃ P Q, firsts prio (l1 ++ n :: l2) = P ++ n :: Q ∧ firsts prio (l1 ++ l2) = P ++ Q := by
  refine ⟨firsts prio l1, (firsts prio l2).filter (freshIn prio l1), ?_, firsts_append _ _⟩
  rw [firsts_append, firsts, filter_cons_of_pos h]
  congr 3
  refine filter_eq_self.mpr fun b hb => ?_
  simpa using h2 b (mem_of_mem_firsts hb)

/-! ## What the rings hold -/

/-- The rings of `s` hold the nodes `l`. -/
structure Holds (s : Plist ν) (l : List ν) : Prop where
  nodes : s.nodeList.Circle (none :: l.map some)
  prios : s.prioList.Circle (firsts s.prio l)
  sorted : l.Pairwise (s.prio · ≤ s.prio ·)

variable {s s' : Plist ν}

/-- The nodes and their priorities determine all links. -/
theorem Holds.eq_of_prio (h : s.Holds l) (h' : s'.Holds l) (hp : s'.prio = s.prio) : s = s' := by
  have hn := h.nodes.memory_eq h'.nodes
  have hpr : s.prioList = s'.prioList := h.prios.memory_eq (hp ▸ h'.prios)
  cases s
  cases s'
  simp_all

theorem Holds.nodup (h : s.Holds l) : l.Nodup :=
  List.Nodup.of_map _ (nodup_cons.mp h.nodes.ring.nodup).2

theorem Holds.not_mem_rest (h : s.Holds (l1 ++ n :: l2)) : n ∉ l1 ++ l2 :=
  (nodup_cons.mp (nodup_middle.mp h.nodup)).1

/-- The ring of the nodes, cut in front of a part of the list. -/
theorem Holds.nodes_append (h : s.Holds (l1 ++ l2)) :
    s.nodeList.Circle ((none :: l1.map some) ++ l2.map some) := by
  simpa using h.nodes

theorem Holds.next_head (h : s.Holds l) : s.nodeList.next none = l.head? := by
  cases l with
  | nil => exact (ring_singleton.mp h.nodes.ring).1
  | cons n l => exact (Ring.adj (a := []) h.nodes.ring).1

theorem Holds.next_node (h : s.Holds (l1 ++ n :: l2)) :
    s.nodeList.next (some n) = l2.head? := by
  have hring := h.nodes_append.ring.turn
  cases l2 with
  | nil => exact (Ring.adj (a := []) hring).1
  | cons y l2 => exact (Ring.adj (a := []) hring).1

theorem Holds.prev_head (h : s.Holds l) : s.nodeList.prev none = l.getLast? := by
  rcases eq_nil_or_concat l with rfl | ⟨l, n, rfl⟩
  · exact (ring_singleton.mp h.nodes.ring).2
  · have := h.nodes.ring.adj_ends.2
    rw [this]
    simp

/-- A node is on the list exactly if its `node_list` is not empty. -/
theorem Holds.nodeEmpty_iff (h : s.Holds l) : s.nodeEmpty n = true ↔ n ∉ l := by
  rw [nodeEmpty, empty, decide_eq_true_iff]
  refine ⟨fun hn hmem => ?_, fun hn => (h.nodes.alone _ (by simpa using hn)).1⟩
  obtain ⟨l1, l2, rfl⟩ := append_of_mem hmem
  rw [h.next_node] at hn
  have hmem2 : n ∈ l2 := mem_of_head? hn
  have hnd := h.nodup
  rw [nodup_append] at hnd
  exact (nodup_cons.mp hnd.2.1).1 hmem2

/-! ## `plist_add` keeps the rings -/

/-- The search of `plist_add` among the first nodes : `F₁` are the ones up to the priority of the
node and `F₂` the others. The induction is on the part `R` of `F₁` that is still to be seen. -/
theorem addLoop {F1 F2 : List ν} {first : ν} (hring : s.prioList.Ring (F1 ++ F2))
    (hfirst : (F1 ++ F2).head? = some first) (hle : ∀ g ∈ F1, s.prio g ≤ s.prio n)
    (hgt : ∀ g ∈ F2, s.prio n < s.prio g) :
    ∀ {R G H : List ν} {iter : ν} {fuel : ℕ}, F1 = G ++ R → R ++ F2 = iter :: H →
      R.length < fuel → ∃ it, (F2 ++ F1).head? = some it ∧
        runLoop (s.addRound n first) fuel (iter, G.getLast?) = some (it, F1.getLast?, F2.head?)
  | [], G, H, iter, fuel, hG, hH, hfuel => by
    have hF2 : F2 = iter :: H := hH
    have hlt : s.prio n < s.prio iter := hgt iter (by rw [hF2]; exact mem_cons_self)
    refine ⟨iter, by rw [hF2]; rfl, ?_⟩
    have hround : s.addRound n first (iter, G.getLast?) = .done (iter, G.getLast?, some iter) := by
      rw [addRound, if_pos hlt]
    rw [runLoop_of_done hround (by omega), hF2, hG, append_nil]
    rfl
  | r :: R, G, H, iter, fuel, hG, hH, hfuel => by
    obtain ⟨rfl, hrest⟩ : r = iter ∧ R ++ F2 = H := by simpa using hH
    have hge : ¬ s.prio n < s.prio r := not_lt.mpr (hle r (by simp [hG]))
    have hturn : s.prioList.Ring (r :: (H ++ G)) := by
      have := hring
      rw [hG, append_assoc, cons_append, hrest] at this
      exact this.turn
    cases H with
    | nil =>
      obtain ⟨rfl, rfl⟩ := append_eq_nil_iff.mp hrest
      have hnext : s.prioList.next r = first := by
        cases G with
        | nil =>
          have hfr : r = first := by simpa [hG] using hfirst
          rw [← hfr]
          exact (ring_singleton.mp hturn).1
        | cons g G =>
          have hgf : g = first := by simpa [hG] using hfirst
          rw [← hgf]
          exact (Ring.adj (a := []) hturn).1
      have hround : s.addRound n first (r, G.getLast?) = .done (first, some r, none) := by
        rw [addRound, if_neg hge, if_pos hnext, hnext]
      refine ⟨first, by simpa using hfirst, ?_⟩
      rw [runLoop_of_done hround (by omega), hG]
      simp
    | cons y H =>
      have hnext : s.prioList.next r = y := (Ring.adj (a := []) hturn).1
      have hne : y ≠ first := by
        rintro rfl
        have hnd := hring.nodup
        rw [hG, append_assoc, cons_append, hrest] at hnd hfirst
        cases G with
        | nil =>
          obtain rfl : r = y := by simpa using hfirst
          simp at hnd
        | cons g G =>
          obtain rfl : g = y := by simpa using hfirst
          simp at hnd
      have hround : s.addRound n first (r, G.getLast?) = .again (y, some r) := by
        rw [addRound, if_neg hge, hnext, if_neg hne]
      obtain ⟨fuel, rfl⟩ : ∃ k, fuel = k + 1 := ⟨fuel - 1, by omega⟩
      have hrec := addLoop hring hfirst hle hgt (R := R) (G := G ++ [r]) (by simpa using hG) hrest
        (show R.length < fuel by simpa using hfuel)
      rw [runLoop_again hround]
      simpa using hrec

/-- The node is new to its priority exactly if the last first node in front of it is not of its
priority. -/
theorem newPrio_getLast (hl : l.Pairwise (s.prio · ≤ s.prio ·))
    (hle : ∀ a ∈ l, s.prio a ≤ s.prio n) :
    s.newPrio n (firsts s.prio l).getLast? = freshIn s.prio l n := by
  cases hlast : (firsts s.prio l).getLast? with
  | none =>
    rw [List.getLast?_eq_none_iff, firsts_eq_nil_iff] at hlast
    rw [hlast]
    rfl
  | some g =>
    have hg : g ∈ l := mem_of_mem_firsts (mem_of_getLast? hlast)
    have hmax : ∀ a ∈ l, s.prio a ≤ s.prio g := by
      intro a ha
      obtain ⟨f, hf, hfa⟩ := exists_firsts s.prio ha
      obtain ⟨F, hF⟩ := List.getLast?_eq_some_iff.mp hlast
      have hsorted := hl.sublist (firsts_sublist s.prio l)
      rw [hF] at hf hsorted
      rcases mem_append.mp hf with hf | hf
      · rw [← hfa]
        exact (pairwise_append.mp hsorted).2.2 f hf g (by simp)
      · rw [← hfa, mem_singleton.mp hf]
    rw [newPrio, Bool.eq_iff_iff, decide_eq_true_iff, freshIn_iff]
    refine ⟨fun hne a ha heq => hne (le_antisymm (hle g hg) ?_), fun h => h g hg⟩
    rw [← heq]
    exact hmax a ha

/-- The new `prio_list` links of `plist_add`. -/
theorem linkPrio_spec {it : ν} (h : s.Holds (l1 ++ l2)) (hle : ∀ a ∈ l1, s.prio a ≤ s.prio n)
    (hgt : ∀ b ∈ l2, s.prio n < s.prio b) (hn : n ∉ l1 ++ l2)
    (hit : (firsts s.prio l2 ++ firsts s.prio l1).head? = some it) :
    (if freshIn s.prio l1 n then s.prioList.addTail n it else s.prioList).Circle
      (firsts s.prio (l1 ++ n :: l2)) := by
  have hne : ∀ a ∈ l1 ++ [n], ∀ b ∈ l2, s.prio a ≠ s.prio b := by
    intro a ha b hb
    rcases mem_append.mp ha with ha | ha
    · exact ((hle a ha).trans_lt (hgt b hb)).ne
    · rw [mem_singleton.mp ha]
      exact (hgt b hb).ne
  by_cases hfresh : freshIn s.prio l1 n = true
  case neg =>
    rw [if_neg hfresh, firsts_of_not_fresh (by simpa using hfresh)]
    exact h.prios
  have hold : firsts s.prio (l1 ++ l2) = firsts s.prio l1 ++ firsts s.prio l2 :=
    firsts_append_of_ne fun a ha => hne a (mem_append_left _ ha)
  have hnew : firsts s.prio (l1 ++ n :: l2) = firsts s.prio l1 ++ n :: firsts s.prio l2 := by
    rw [append_cons, firsts_append_of_ne hne, firsts_append, firsts, firsts,
      filter_nil, filter_cons_of_pos hfresh, filter_nil, ← append_cons]
  have hprios := h.prios
  rw [if_pos hfresh, hnew]
  rw [hold] at hprios
  exact hprios.insert hit fun hmem => hn (mem_of_mem_firsts (hold ▸ hmem))

/-- A node with another one put in front of the nodes of later priorities. -/
theorem Holds.sorted_insert (h : s.Holds (l1 ++ l2)) (hle : ∀ a ∈ l1, s.prio a ≤ s.prio n)
    (hgt : ∀ b ∈ l2, s.prio n < s.prio b) : (l1 ++ n :: l2).Pairwise (s.prio · ≤ s.prio ·) := by
  obtain ⟨h1, h2, h12⟩ := pairwise_append.mp h.sorted
  refine pairwise_append.mpr ⟨h1, pairwise_cons.mpr ⟨fun b hb => (hgt b hb).le, h2⟩, ?_⟩
  intro a ha b hb
  rcases mem_cons.mp hb with rfl | hb
  · exact hle a ha
  · exact h12 a ha b hb

/-- The new `node_list` links of `plist_add` and `plist_requeue`. -/
theorem Holds.nodes_insert (h : s.Holds (l1 ++ l2)) (hn : n ∉ l1 ++ l2) :
    (s.nodeList.addTail (some n) l2.head?).Circle (none :: (l1 ++ n :: l2).map some) := by
  have hx : (l2.map some ++ none :: l1.map some).head? = some l2.head? := by
    cases l2 <;> rfl
  simpa using h.nodes_append.insert hx (by simpa using hn)

/-- `plist_add` puts the node in front of the nodes of later priorities. -/
theorem plistAdd_spec (fuel : ℕ) (h : s.Holds (l1 ++ l2)) (hle : ∀ a ∈ l1, s.prio a ≤ s.prio n)
    (hgt : ∀ b ∈ l2, s.prio n < s.prio b) (hn : n ∉ l1 ++ l2) (hfuel : (l1 ++ l2).length < fuel) :
    ∃ s', plistAdd fuel s n = some s' ∧ s'.prio = s.prio ∧ s'.Holds (l1 ++ n :: l2) := by
  have hsorted := h.sorted_insert hle hgt
  have hnodes := h.nodes_insert hn
  cases hhead : (l1 ++ l2).head? with
  | none =>
    obtain ⟨rfl, rfl⟩ : l1 = [] ∧ l2 = [] := by simpa using hhead
    refine ⟨{ s with nodeList := s.nodeList.addTail (some n) none }, ?_, rfl, hnodes, ?_, hsorted⟩
    · rw [plistAdd, h.next_head, hhead]
    · exact circle_singleton_iff.mpr h.prios
  | some first =>
    have hF : firsts s.prio (l1 ++ l2) = firsts s.prio l1 ++ firsts s.prio l2 :=
      firsts_append_of_ne fun a ha b hb => ((hle a ha).trans_lt (hgt b hb)).ne
    have hfirst : (firsts s.prio l1 ++ firsts s.prio l2).head? = some first := by
      rw [← hF, head?_firsts, hhead]
    obtain ⟨H, hH⟩ := List.head?_eq_some_iff.mp hfirst
    have hrounds : (firsts s.prio l1).length < fuel := by
      have := (firsts_sublist s.prio l1).length_le
      rw [length_append] at hfuel
      omega
    obtain ⟨it, hit, hrun⟩ := addLoop (hF ▸ h.prios.ring) hfirst
      (fun g hg => hle g (mem_of_mem_firsts hg)) (fun g hg => hgt g (mem_of_mem_firsts hg))
      (G := []) rfl hH hrounds
    refine ⟨s.linkNode n (it, (firsts s.prio l1).getLast?, (firsts s.prio l2).head?), ?_, rfl,
      ?_, ?_, hsorted⟩
    · rw [plistAdd, h.next_head, hhead]
      simp only
      rw [← List.getLast?_nil, hrun, Option.map_some]
    · rw [linkNode, head?_firsts]
      exact hnodes
    · have hl1 := (pairwise_append.mp h.sorted).1
      simp only [linkNode, newPrio_getLast hl1 hle]
      exact linkPrio_spec h hle hgt hn hit

/-! ## `plist_del` keeps the rings -/

/-- A first node that is alone on the ring of the first nodes. -/
theorem delPrio_alone {P Q : List ν} (h : s.prioList.Circle (P ++ n :: Q))
    (hempty : s.prioList.empty n = true) : P = [] ∧ Q = [] ∧ s.prioList.Circle [] := by
  have hQP : Q ++ P = [] := by
    rw [← h.ring.turn.next_eq_self_iff]
    simpa [empty] using hempty
  obtain ⟨rfl, rfl⟩ := append_eq_nil_iff.mp hQP
  exact ⟨rfl, rfl, circle_singleton_iff.mp h⟩

/-- The next node has the priority of the deleted one and takes its place. -/
theorem delPrio_promote (h : s.Holds (l1 ++ n :: y :: l2))
    (hfresh : freshIn s.prio l1 n = true) (hyn : s.prio y = s.prio n) :
    (s.delPrio n).Circle (firsts s.prio (l1 ++ y :: l2)) := by
  have hprios := h.prios
  have hyF : y ∉ firsts s.prio (l1 ++ n :: y :: l2) := by
    have hnd := h.nodup
    rw [append_cons] at hnd ⊢
    rw [mem_firsts_append_cons fun hy => (nodup_append.mp hnd).2.2 y hy y (by simp) rfl,
      freshIn_iff]
    exact fun hall => hall n (by simp) hyn.symm
  have hyempty : s.prioList.empty y = true := by
    simpa [empty] using (hprios.alone y hyF).1
  obtain ⟨P, Q, hold, hnew⟩ := firsts_promote hfresh hyn l2
  rw [hold] at hprios hyF
  rw [hnew, delPrio]
  by_cases hempty : s.prioList.empty n = true
  · obtain ⟨rfl, rfl, hc⟩ := delPrio_alone hprios hempty
    rw [if_pos hempty]
    exact circle_singleton_iff.mpr hc
  · rw [if_neg hempty, h.next_node]
    simp only [List.head?_cons, if_pos hyempty]
    exact (hprios.insertBehind hyF).delInit

variable (h : s.Holds (l1 ++ n :: l2)) {fuel : ℕ} {q : List ν}
include h

/-- The next node, if there is one, is the first one of a later priority. -/
theorem delPrio_last (hfresh : freshIn s.prio l1 n = true)
    (hgt : ∀ b ∈ l2, s.prio n < s.prio b) :
    (s.delPrio n).Circle (firsts s.prio (l1 ++ l2)) := by
  have hprios := h.prios
  obtain ⟨P, Q, hold, hnew⟩ := firsts_alone hfresh fun b hb => (hgt b hb).ne'
  have hnmem : n ∈ firsts s.prio (l1 ++ n :: l2) := by rw [hold]; simp
  rw [hold] at hprios
  rw [hnew, delPrio]
  by_cases hempty : s.prioList.empty n = true
  · obtain ⟨rfl, rfl, hc⟩ := delPrio_alone hprios hempty
    rw [if_pos hempty]
    exact hc
  rw [if_neg hempty, h.next_node]
  cases l2 with
  | nil => exact hprios.delInit
  | cons y l2 =>
    have hlt := hgt y (by simp)
    have hyF : y ∈ firsts s.prio (l1 ++ n :: y :: l2) := by
      have hnd := h.nodup
      rw [append_cons] at hnd ⊢
      rw [mem_firsts_append_cons fun hy => (nodup_append.mp hnd).2.2 y hy y (by simp) rfl,
        freshIn_iff]
      intro a ha
      rcases mem_append.mp ha with ha | ha
      · exact (((pairwise_append.mp h.sorted).2.2 a ha n (by simp)).trans_lt hlt).ne
      · rw [mem_singleton.mp ha]
        exact hlt.ne
    have hyempty : ¬ s.prioList.empty y = true := by
      intro hemp
      obtain ⟨P', Q', hPQ⟩ := append_of_mem hyF
      obtain ⟨rfl, rfl, -⟩ := delPrio_alone (hPQ ▸ h.prios) hemp
      rw [hPQ, nil_append, mem_singleton] at hnmem
      rw [hnmem] at hlt
      exact lt_irrefl _ hlt
    simp only [List.head?_cons, if_neg hyempty]
    exact hprios.delInit

theorem delPrio_spec :
    (s.delPrio n).Circle (firsts s.prio (l1 ++ l2)) := by
  have hsorted := (pairwise_append.mp h.sorted).2.1
  by_cases hfresh : freshIn s.prio l1 n = true
  · cases l2 with
    | nil => exact delPrio_last h hfresh (by simp)
    | cons y l2 =>
      by_cases hyn : s.prio y = s.prio n
      · exact delPrio_promote h hfresh hyn
      obtain ⟨hn, hy⟩ := pairwise_cons.mp hsorted
      have hlt : s.prio n < s.prio y := lt_of_le_of_ne (hn y (by simp)) (Ne.symm hyn)
      refine delPrio_last h hfresh fun b hb => ?_
      rcases mem_cons.mp hb with rfl | hb
      · exact hlt
      · exact hlt.trans_le ((pairwise_cons.mp hy).1 b hb)
  · -- The node has an empty `prio_list` and no part in it.
    have hmem : n ∉ firsts s.prio (l1 ++ n :: l2) := fun hmem => hfresh
      ((mem_firsts_append_cons fun hn => (nodup_append.mp h.nodup).2.2 n hn n (by simp)
        rfl).mp hmem)
    have hempty : s.prioList.empty n = true := by
      simpa [empty] using (h.prios.alone n hmem).1
    rw [delPrio, if_pos hempty, ← firsts_of_not_fresh (by simpa using hfresh)]
    exact h.prios

theorem plistDel_spec : (s.plistDel n).Holds (l1 ++ l2) where
  nodes := by simpa [plistDel] using h.nodes_append.delInit
  prios := delPrio_spec h
  sorted := h.sorted.sublist (List.Sublist.append_left (sublist_cons_self n l2) l1)

omit h

/-! ## `plist_requeue` is `plist_del` and `plist_add` -/

/-- The search of `plist_requeue` passes the nodes `R` of the priority of the node. -/
theorem requeueLoop : ∀ {R : List ν} {iter : ν} {fuel : ℕ} {l1 : List ν},
    s.Holds (l1 ++ iter :: (R ++ l2)) → (∀ a ∈ R, s.prio n = s.prio a) →
      (∀ b ∈ l2, s.prio n ≠ s.prio b) → R.length < fuel →
      runLoop (s.requeueRound n) fuel iter = some l2.head?
  | [], iter, fuel, l1, h, _, hne, hfuel => by
    have hround : s.requeueRound n iter = .done l2.head? := by
      rw [requeueRound, h.next_node]
      cases l2 with
      | nil => rfl
      | cons b l2 => simp [hne b (by simp)]
    exact runLoop_of_done hround (by omega)
  | r :: R, iter, fuel, l1, h, heq, hne, hfuel => by
    have hround : s.requeueRound n iter = .again r := by
      rw [requeueRound, h.next_node]
      simp [heq r (by simp)]
    obtain ⟨fuel, rfl⟩ : ∃ k, fuel = k + 1 := ⟨fuel - 1, by omega⟩
    rw [runLoop_again hround]
    have h' : s.Holds ((l1 ++ [iter]) ++ r :: (R ++ l2)) := by simpa using h
    exact requeueLoop h' (fun a ha => heq a (mem_cons_of_mem _ ha)) hne
      (by simpa using hfuel)

/-- `plist_requeue` moves the node behind the nodes `l2` of its priority. -/
theorem plistRequeue_spec (fuel : ℕ) {l3 : List ν} (h : s.Holds (l1 ++ n :: (l2 ++ l3)))
    (heq : ∀ a ∈ l2, s.prio n = s.prio a) (hgt : ∀ b ∈ l3, s.prio n < s.prio b)
    (hfuel : l2.length < fuel) :
    ∃ s', plistRequeue fuel s n = some s' ∧ s'.prio = s.prio ∧ s'.Holds (l1 ++ l2 ++ n :: l3) := by
  have hhead : s.headEmpty = false := by
    rw [headEmpty, empty, h.next_head]
    cases l1 <;> simp
  have hnode : s.nodeEmpty n = false := by
    rw [← Bool.not_eq_true, h.nodeEmpty_iff]
    simp
  rw [plistRequeue, if_neg (by simp [hhead]), if_neg (by simp [hnode]), h.prev_head, h.next_node]
  cases l2 with
  | nil =>
    -- The node is already the last one of its priority.
    refine ⟨s, ?_, rfl, by simpa using h⟩
    cases l3 with
    | nil => simp
    | cons b l3 => simp [(hgt b (by simp)).ne]
  | cons y l2 =>
    have hdel := plistDel_spec h
    have hlast : ¬ (l1 ++ n :: (y :: l2 ++ l3)).getLast? = some n := by
      intro hlast
      have hmem : n ∈ y :: l2 ++ l3 := by
        refine mem_of_getLast? ?_
        simpa using hlast
      exact (nodup_cons.mp (nodup_append.mp h.nodup).2.1).1 hmem
    have hrun : runLoop ((s.plistDel n).requeueRound n) fuel y = some l3.head? :=
      requeueLoop hdel (fun a ha => heq a (mem_cons_of_mem _ ha)) (fun b hb => (hgt b hb).ne)
        (Nat.lt_of_succ_lt hfuel)
    rw [if_neg hlast]
    simp only [cons_append, List.head?_cons, heq y (by simp), ne_eq, not_true_eq_false,
      if_false, hrun, Option.map_some]
    have hdel' : (s.plistDel n).Holds (l1 ++ y :: l2 ++ l3) := by simpa using hdel
    have hn : n ∉ l1 ++ y :: l2 ++ l3 := by
      rw [append_assoc]
      exact h.not_mem_rest
    have hle : ∀ a ∈ l1 ++ y :: l2, s.prio a ≤ s.prio n := by
      intro a ha
      rcases mem_append.mp ha with ha | ha
      · exact (pairwise_append.mp h.sorted).2.2 a ha n (by simp)
      · exact (heq a ha).ge
    refine ⟨_, rfl, rfl, hdel'.nodes_insert hn, ?_, hdel'.sorted_insert hle hgt⟩
    rw [firsts_of_not_fresh]
    · exact hdel'.prios
    · rw [← Bool.not_eq_true, freshIn_iff]
      exact fun hall => hall y (by simp) (heq y (by simp)).symm

/-- Where to insert a node in a list sorted by priority. -/
theorem exists_split (hl : l.Pairwise (prio · ≤ prio ·)) (p : ℤ) :
    ∃ l1 l2, l = l1 ++ l2 ∧ (∀ a ∈ l1, prio a ≤ p) ∧ ∀ b ∈ l2, p < prio b := by
  induction l with
  | nil => exact ⟨[], [], rfl, by simp, by simp⟩
  | cons n l ih =>
    obtain ⟨hn, hl⟩ := pairwise_cons.mp hl
    by_cases hp : prio n ≤ p
    · obtain ⟨l1, l2, rfl, hle, hgt⟩ := ih hl
      refine ⟨n :: l1, l2, rfl, fun a ha => ?_, hgt⟩
      rcases mem_cons.mp ha with rfl | ha
      · exact hp
      · exact hle a ha
    · refine ⟨[], n :: l, rfl, by simp, fun b hb => ?_⟩
      rcases mem_cons.mp hb with rfl | hb
      · exact not_le.mp hp
      · exact (not_le.mp hp).trans_le (hn b hb)

/-- `plist_requeue` leaves the links that `plist_del` and `plist_add` leave. -/
theorem requeue_eq_del_add (h : s.Holds l) (hn : n ∈ l) (hfuel : l.length < fuel) :
    plistRequeue fuel s n = plistAdd fuel (s.plistDel n) n := by
  obtain ⟨l1, l', rfl⟩ := append_of_mem hn
  obtain ⟨-, hsorted, hle1⟩ := pairwise_append.mp h.sorted
  obtain ⟨hle2, hl'⟩ := pairwise_cons.mp hsorted
  obtain ⟨l2, l3, rfl, hle, hgt⟩ := exists_split hl' (s.prio n)
  have hlen : l1.length + (l2.length + l3.length + 1) < fuel := by simpa using hfuel
  obtain ⟨s1, hreq, hp1, h1⟩ := plistRequeue_spec fuel h
    (fun a ha => le_antisymm (hle2 a (mem_append_left _ ha)) (hle a ha)) hgt (by omega)
  have hdel : (s.plistDel n).Holds (l1 ++ l2 ++ l3) := by simpa using plistDel_spec h
  have hle' : ∀ a ∈ l1 ++ l2, s.prio a ≤ s.prio n := by
    intro a ha
    rcases mem_append.mp ha with ha | ha
    · exact hle1 a ha n (by simp)
    · exact hle a ha
  have hn' : n ∉ l1 ++ l2 ++ l3 := by
    rw [append_assoc]
    exact h.not_mem_rest
  obtain ⟨s2, hadd, hp2, h2⟩ := plistAdd_spec fuel hdel hle' hgt hn' (by simp; omega)
  rw [hreq, hadd, h1.eq_of_prio h2 (hp2.trans hp1.symm)]

/-! ## Calls -/

/-- A call on a priority list. The priority of a node is set while it is not on the list. -/
inductive Call (ν : Type*)
  | init (node : ν) (prio : ℤ)
  | add (node : ν)
  | del (node : ν)
  | requeue (node : ν)

/-- An empty list, and nodes with the priorities `prio`. -/
def start (prio : ν → ℤ) : Plist ν := ⟨⟨id, id⟩, ⟨id, id⟩, prio⟩

/-- Run one call. -/
def step (fuel : ℕ) (s : Plist ν) : Call ν → Option (Plist ν × Unit)
  | .init node prio => some (s.nodeInit node prio, ())
  | .add node => (plistAdd fuel s node).map (·, ())
  | .del node => some (s.plistDel node, ())
  | .requeue node => (plistRequeue fuel s node).map (·, ())

/-- What the callers promise : nodes are unlinked when they are added, and linked when they are
deleted or requeued. -/
def CallOk (s : Plist ν) : Call ν → Prop
  | .init node _ => s.nodeEmpty node = true
  | .add node => s.nodeEmpty node = true
  | .del node => s.nodeEmpty node = false
  | .requeue node => s.nodeEmpty node = false

instance (s : Plist ν) : (c : Call ν) → Decidable (s.CallOk c)
  | .init _ _ | .add _ | .del _ | .requeue _ => inferInstanceAs (Decidable (_ = _))

/-- The nodes on the list in the order of their last insertion, after one more call. -/
def inserted (q : List ν) : Call ν → List ν
  | .init _ _ => q
  | .add node => q ++ [node]
  | .del node => q.erase node
  | .requeue node => q.erase node ++ [node]

/-- The order of the list : by priority, and by insertion for equal priorities. -/
def Before (prio : ν → ℤ) (q : List ν) (a b : ν) : Prop :=
  prio a < prio b ∨ prio a = prio b ∧ [a, b].Sublist q

/-- The list holds the nodes `q` in the order of priority and insertion. -/
def Ordered (s : Plist ν) (q : List ν) : Prop :=
  ∃ l, s.Holds l ∧ l.Perm q ∧ l.Pairwise (Before s.prio q)

theorem Before.insert (h : (l1 ++ l2).Pairwise (Before prio q)) (hq : ∀ a ∈ l1, a ∈ q)
    (hle : ∀ a ∈ l1, prio a ≤ prio n) (hgt : ∀ b ∈ l2, prio n < prio b) :
    (l1 ++ n :: l2).Pairwise (Before prio (q ++ [n])) := by
  have hold : (l1 ++ l2).Pairwise (Before prio (q ++ [n])) := h.imp fun hab => hab.imp id fun hab =>
      ⟨hab.1, hab.2.trans (sublist_append_left q [n])⟩
  obtain ⟨h1, h2, h12⟩ := pairwise_append.mp hold
  refine pairwise_append.mpr
    ⟨h1, pairwise_cons.mpr ⟨fun b hb => Or.inl (hgt b hb), h2⟩, fun a ha b hb => ?_⟩
  rcases mem_cons.mp hb with rfl | hb
  · rcases (hle a ha).lt_or_eq with hlt | heq
    · exact Or.inl hlt
    · exact Or.inr ⟨heq, pair_sublist_append (hq a ha) (by simp)⟩
  · exact h12 a ha b hb

theorem Before.erase (h : (l1 ++ n :: l2).Pairwise (Before prio q)) (hn : n ∉ l1 ++ l2) :
    (l1 ++ l2).Pairwise (Before prio (q.erase n)) := by
  have hsub := List.Sublist.append_left (sublist_cons_self n l2) l1
  refine (h.sublist hsub).imp_of_mem fun {a b} ha hb hab => hab.imp id fun hab => ⟨hab.1, ?_⟩
  have herase : [a, b].erase n = [a, b] := erase_of_not_mem (by
    rintro hmem
    rcases mem_pair.mp hmem with rfl | rfl
    · exact hn ha
    · exact hn hb)
  rw [← herase]
  exact hab.2.erase n

theorem firsts_congr {prio' : ν → ℤ} (h : ∀ a ∈ l, prio' a = prio a) :
    firsts prio' l = firsts prio l := by
  induction l with
  | nil => rfl
  | cons n l ih =>
    rw [firsts, firsts, ih fun a ha => h a (mem_cons_of_mem _ ha), h n (by simp)]
    congr 1
    refine filter_congr fun a ha => ?_
    rw [h a (mem_cons_of_mem _ (mem_of_mem_firsts ha))]

/-- The priority of a node off the list may change. -/
theorem Ordered.nodeInit (h : s.Ordered q) {p : ℤ} (hn : s.nodeEmpty n = true) :
    (s.nodeInit n p).Ordered q := by
  obtain ⟨l, hl, hperm, hord⟩ := h
  have hnl : n ∉ l := hl.nodeEmpty_iff.mp hn
  have hprio : ∀ a ∈ l, (s.nodeInit n p).prio a = s.prio a := fun a ha =>
    Function.update_of_ne (ne_of_mem_of_not_mem ha hnl) _ _
  refine ⟨l, ⟨?_, ?_, ?_⟩, hperm, ?_⟩
  · exact hl.nodes.initHead (by simpa using hnl)
  · rw [firsts_congr hprio]
    exact hl.prios.initHead fun hmem => hnl (mem_of_mem_firsts hmem)
  · refine hl.sorted.imp_of_mem fun ha hb hab => ?_
    rwa [hprio _ ha, hprio _ hb]
  · refine hord.imp_of_mem fun ha hb hab => ?_
    rwa [Before, hprio _ ha, hprio _ hb]

theorem Ordered.plistAdd (h : s.Ordered q) (hfuel : q.length < fuel)
    (hn : s.nodeEmpty n = true) :
    ∃ s', plistAdd fuel s n = some s' ∧ s'.Ordered (q ++ [n]) := by
  obtain ⟨l, hl, hperm, hord⟩ := h
  obtain ⟨l1, l2, rfl, hle, hgt⟩ := exists_split hl.sorted (s.prio n)
  obtain ⟨s', hadd, hp, hl'⟩ := plistAdd_spec fuel hl hle hgt (hl.nodeEmpty_iff.mp hn)
    (hperm.length_eq ▸ hfuel)
  refine ⟨s', hadd, _, hl', ?_, ?_⟩
  · exact perm_middle.trans ((hperm.cons n).trans (perm_append_singleton n q).symm)
  · rw [hp]
    exact Before.insert hord (fun a ha => hperm.subset (mem_append_left _ ha)) hle hgt

theorem Ordered.plistDel (h : s.Ordered q) (hn : s.nodeEmpty n = false) :
    (s.plistDel n).Ordered (q.erase n) := by
  obtain ⟨l, hl, hperm, hord⟩ := h
  have hmem : n ∈ l := by
    by_contra hmem
    rw [hl.nodeEmpty_iff.mpr hmem] at hn
    cases hn
  obtain ⟨l1, l2, rfl⟩ := append_of_mem hmem
  refine ⟨_, plistDel_spec hl, ?_, Before.erase hord hl.not_mem_rest⟩
  have hcons := (perm_middle.symm.trans hperm).erase n
  rwa [erase_cons_head] at hcons

theorem Ordered.plistRequeue (h : s.Ordered q) (hfuel : q.length < fuel)
    (hn : s.nodeEmpty n = false) :
    ∃ s', plistRequeue fuel s n = some s' ∧ s'.Ordered (q.erase n ++ [n]) := by
  have hdel := h.plistDel hn
  have hunlinked : (s.plistDel n).nodeEmpty n = true := by
    simp [nodeEmpty, Plist.plistDel, ListHeads.empty, ListHeads.delInit, ListHeads.initHead,
      ListHeads.set]
  obtain ⟨l, hl, hperm, -⟩ := h
  have hmem : n ∈ l := by
    by_contra hmem
    rw [hl.nodeEmpty_iff.mpr hmem] at hn
    cases hn
  rw [requeue_eq_del_add hl hmem (hperm.length_eq ▸ hfuel)]
  exact hdel.plistAdd (lt_of_le_of_lt (length_erase_le) hfuel) hunlinked

/-- A call keeps the order. -/
theorem Ordered.step (h : s.Ordered q) (hfuel : q.length < fuel) {c : Call ν}
    (hc : s.CallOk c) : ∃ s', step fuel s c = some (s', ()) ∧ s'.Ordered (inserted q c) := by
  cases c with
  | init n p => exact ⟨_, rfl, h.nodeInit hc⟩
  | add n =>
    obtain ⟨s', hs', h'⟩ := h.plistAdd hfuel hc
    exact ⟨s', by rw [Plist.step, hs']; rfl, h'⟩
  | del n => exact ⟨_, rfl, h.plistDel hc⟩
  | requeue n =>
    obtain ⟨s', hs', h'⟩ := h.plistRequeue hfuel hc
    exact ⟨s', by rw [Plist.step, hs']; rfl, h'⟩

theorem length_inserted_le (q : List ν) (c : Call ν) : (inserted q c).length ≤ q.length + 1 := by
  cases c with
  | init n p => exact Nat.le_succ _
  | add n => simp [inserted]
  | del n => exact (length_erase_le).trans (Nat.le_succ _)
  | requeue n => simpa [inserted] using length_erase_le

/-- A run keeps the order, as long as the searches have a round for every node. -/
theorem Ordered.run : ∀ {ops : List (Call ν)} {s : Plist ν} {q : List ν}, s.Ordered q →
    q.length + ops.length < fuel → CallsMeet (Plist.step fuel) CallOk s ops →
      ∃ r, runCalls (Plist.step fuel) s ops = some r ∧ r.1.Ordered (ops.foldl inserted q) ∧
        (ops.foldl inserted q).length < fuel
  | [], s, _, h, hfuel, _ => ⟨(s, []), rfl, h, hfuel⟩
  | c :: ops, s, q, h, hfuel, hok => by
    rw [length_cons] at hfuel
    have hlen := length_inserted_le q c
    obtain ⟨s1, hs1, h1⟩ := h.step (show q.length < fuel by omega) hok.1
    obtain ⟨r, hrun, h', hfuel'⟩ := h1.run
      (show (inserted q c).length + ops.length < fuel by omega) (hok.2 _ hs1)
    exact ⟨(r.1, () :: r.2), by rw [runCalls_cons hs1, hrun]; rfl, h', hfuel'⟩

theorem start_ordered (prio : ν → ℤ) : (start prio).Ordered [] := by
  refine ⟨[], ⟨?_, ?_, List.Pairwise.nil⟩, List.Perm.nil, List.Pairwise.nil⟩
  · exact circle_singleton_iff.mpr (circle_nil_iff.mpr fun _ => ⟨rfl, rfl⟩)
  · exact circle_nil_iff.mpr fun _ => ⟨rfl, rfl⟩

/-- After every sequence of calls : `node_list` links the nodes of the list in the order of their
priorities, and nodes of one priority in the order of their insertion; `prio_list` links the first
node of every priority in ascending order and is empty for every other node; and requeueing a node
is deleting and adding it. -/
theorem plist_run (prio : ν → ℤ) (ops : List (Call ν)) (fuel : ℕ) (hfuel : ops.length < fuel)
    (hok : CallsMeet (step fuel) CallOk (start prio) ops) :
    ∃ s answers l, runCalls (step fuel) (start prio) ops = some (s, answers) ∧
      s.nodeList.Circle (none :: l.map some) ∧
      l.Perm (ops.foldl inserted []) ∧ l.Pairwise (Before s.prio (ops.foldl inserted [])) ∧
      s.prioList.Circle (firsts s.prio l) ∧ (firsts s.prio l).Pairwise (s.prio · < s.prio ·) ∧
      (∀ n, n ∈ firsts s.prio l ↔ n ∈ l ∧ ∀ a, [a, n].Sublist l → s.prio a ≠ s.prio n) ∧
      ∀ n ∈ l, ∃ s', plistRequeue fuel s n = some s' ∧
        plistAdd fuel (s.plistDel n) n = some s' := by
  obtain ⟨⟨s, answers⟩, hrun, ⟨l, hl, hperm, hord⟩, hlen⟩ :=
    (start_ordered prio).run (show [].length + ops.length < fuel by simpa using hfuel) hok
  have hlt : (firsts s.prio l).Pairwise (s.prio · < s.prio ·) :=
    ((hl.sorted.sublist (firsts_sublist s.prio l)).and (firsts_pairwise_ne l)).imp
      fun h => lt_of_le_of_ne h.1 h.2
  refine ⟨s, answers, l, hrun, hl.nodes, hperm, hord, hl.prios, hlt,
    fun n => mem_firsts_iff hl.nodup, fun n hn => ?_⟩
  have hlinked : s.nodeEmpty n = false := by
    rw [← Bool.not_eq_true, hl.nodeEmpty_iff]
    exact not_not.mpr hn
  obtain ⟨s', hs', -⟩ := Ordered.plistRequeue ⟨l, hl, hperm, hord⟩ hlen hlinked
  exact ⟨s', hs', by rw [← requeue_eq_del_add hl hn (hperm.length_eq ▸ hlen), hs']⟩

/-- Two nodes of one priority with one of an earlier priority, requeued and deleted. -/
theorem plist_run_requeue :
    ∃ s answers, ∃ l : List ℕ, runCalls (step 8) (start fun n : ℕ => (n % 2 : ℤ))
        [.add 1, .add 3, .add 2, .requeue 1, .init 5 1, .add 5, .del 3] = some (s, answers) ∧
      s.nodeList.Circle (none :: l.map some) ∧ l.Perm [2, 1, 5] := by
  obtain ⟨s, answers, l, hrun, hnodes, hperm, -⟩ := plist_run (fun n : ℕ => (n % 2 : ℤ))
    [.add 1, .add 3, .add 2, .requeue 1, .init 5 1, .add 5, .del 3] 8 (by decide)
    (by decide +kernel)
  exact ⟨s, answers, l, hrun, hnodes, hperm⟩

end Plist

end

end LinuxKernelTest
