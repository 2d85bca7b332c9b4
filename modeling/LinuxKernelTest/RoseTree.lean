import Mathlib.Tactic

/-!
# Trees with lists of children

A tree as a label and the list of the trees below it. `subtrees` lists a tree and everything below
it, a tree before its children, and what holds at every place of a tree is a statement about its
`subtrees`. `firstError` is the walk in this order that stops at the first error. `edit` changes the
labels and the lists of children of a whole tree.
-/

namespace LinuxKernelTest

/-- A tree with labels from `α`. -/
inductive RoseTree (α : Type*)
  | node (label : α) (children : List (RoseTree α))

namespace RoseTree

variable {α ε : Type*}

/-- The label of the root. -/
def label : RoseTree α → α
  | node a _ => a

/-- The subtrees of the root. -/
def children : RoseTree α → List (RoseTree α)
  | node _ cs => cs

mutual

/-- The tree and everything below it, a tree before its children. -/
def subtrees : RoseTree α → List (RoseTree α)
  | node a cs => node a cs :: subtreesAll cs

/-- The trees of a list and everything below them. -/
def subtreesAll : List (RoseTree α) → List (RoseTree α)
  | [] => []
  | t :: ts => subtrees t ++ subtreesAll ts

end

mutual

/-- Visit the subtrees, a tree before its children, and stop at the first error. -/
def firstError (visit : RoseTree α → Option ε) : RoseTree α → Option ε
  | node a cs => (visit (node a cs)).or (firstErrorAll visit cs)

/-- The same for the trees of a list. -/
def firstErrorAll (visit : RoseTree α → Option ε) : List (RoseTree α) → Option ε
  | [] => none
  | t :: ts => (firstError visit t).or (firstErrorAll visit ts)

end

mutual

/-- Change every label by `f`, and every list of children by `g` at the label above it. -/
def edit (f : α → α) (g : α → List (RoseTree α) → List (RoseTree α)) : RoseTree α → RoseTree α
  | node a cs => node (f a) (g a (editAll f g cs))

/-- The same for the trees of a list. -/
def editAll (f : α → α) (g : α → List (RoseTree α) → List (RoseTree α)) :
    List (RoseTree α) → List (RoseTree α)
  | [] => []
  | t :: ts => edit f g t :: editAll f g ts

end

@[simp] theorem label_node (a : α) (cs : List (RoseTree α)) : (node a cs).label = a := rfl

@[simp] theorem children_node (a : α) (cs : List (RoseTree α)) : (node a cs).children = cs := rfl

mutual

variable {motive : RoseTree α → Prop} {ts : List (RoseTree α)} {s : RoseTree α}
  {visit : RoseTree α → Option ε}

/-- Induction with the children of a tree. -/
theorem induction
    (h : ∀ a cs, (∀ c ∈ cs, motive c) → motive (node a cs)) : ∀ t, motive t
  | node a cs => h a cs (inductionAll h cs)

theorem inductionAll
    (h : ∀ a cs, (∀ c ∈ cs, motive c) → motive (node a cs)) :
    ∀ ts : List (RoseTree α), ∀ c ∈ ts, motive c
  | [] => List.forall_mem_nil motive
  | t :: ts => List.forall_mem_cons.mpr ⟨induction h t, inductionAll h ts⟩

end

/-! ## Subtrees -/

theorem mem_subtreesAll :
    s ∈ subtreesAll ts ↔ ∃ t ∈ ts, s ∈ t.subtrees := by
  induction ts with
  | nil => simp [subtreesAll]
  | cons t ts ih => simp [subtreesAll, ih]

theorem mem_subtrees {a : α} {cs : List (RoseTree α)} :
    s ∈ (node a cs).subtrees ↔ s = node a cs ∨ ∃ c ∈ cs, s ∈ c.subtrees := by
  rw [subtrees, List.mem_cons, mem_subtreesAll]

theorem mem_subtrees_self (t : RoseTree α) : t ∈ t.subtrees := by
  cases t
  exact mem_subtrees.mpr (.inl rfl)

theorem mem_subtrees_trans {t s r : RoseTree α} (hs : s ∈ t.subtrees) (hr : r ∈ s.subtrees) :
    r ∈ t.subtrees := by
  induction t using induction with
  | h a cs ih =>
    rcases mem_subtrees.mp hs with rfl | ⟨c, hc, hs⟩
    · exact hr
    · exact mem_subtrees.mpr (.inr ⟨c, hc, ih c hc hs⟩)

/-- A child of a subtree is a subtree. -/
theorem child_mem_subtrees {t s c : RoseTree α} (hs : s ∈ t.subtrees) (hc : c ∈ s.children) :
    c ∈ t.subtrees := by
  refine mem_subtrees_trans hs ?_
  cases s
  exact mem_subtrees.mpr (.inr ⟨c, hc, mem_subtrees_self c⟩)

/-! ## Walks and edits -/

theorem firstErrorAll_eq_none :
    firstErrorAll visit ts = none ↔ ∀ t ∈ ts, firstError visit t = none := by
  induction ts with
  | nil => simp [firstErrorAll]
  | cons t ts ih => simp [firstErrorAll, ih]

/-- A walk that meets no error has visited every subtree. -/
theorem firstError_eq_none {t : RoseTree α} :
    firstError visit t = none ↔ ∀ s ∈ t.subtrees, visit s = none := by
  induction t using induction with
  | h a cs ih =>
    rw [firstError, Option.or_eq_none_iff, firstErrorAll_eq_none]
    constructor
    · rintro ⟨ha, hcs⟩ s hs
      rcases mem_subtrees.mp hs with rfl | ⟨c, hc, hs⟩
      · exact ha
      · exact (ih c hc).mp (hcs c hc) s hs
    · intro h
      refine ⟨h _ (mem_subtrees_self _), fun c hc => (ih c hc).mpr fun s hs => ?_⟩
      exact h s (mem_subtrees.mpr (.inr ⟨c, hc, hs⟩))

variable {f : α → α} {g : α → List (RoseTree α) → List (RoseTree α)}

theorem editAll_eq_map (ts : List (RoseTree α)) : editAll f g ts = ts.map (edit f g) := by
  induction ts with
  | nil => rfl
  | cons t ts ih => rw [editAll, ih, List.map_cons]

@[simp] theorem label_edit (t : RoseTree α) : (t.edit f g).label = f t.label := by
  cases t
  rfl

@[simp] theorem children_edit (t : RoseTree α) :
    (t.edit f g).children = g t.label (t.children.map (edit f g)) := by
  cases t
  rw [edit, editAll_eq_map]
  rfl

/-- The subtrees of an edited tree, where an edit keeps children or puts in trees with `E`. -/
theorem mem_subtrees_edit {E : RoseTree α → Prop} (hE : ∀ c, E c → ∀ s ∈ c.subtrees, E s)
    (hg : ∀ a cs, ∀ c ∈ g a cs, c ∈ cs ∨ E c) {t s : RoseTree α} (hs : s ∈ (t.edit f g).subtrees) :
    E s ∨ ∃ s0 ∈ t.subtrees, s = s0.edit f g := by
  induction t using induction with
  | h a cs ih =>
    rw [edit, editAll_eq_map] at hs
    rcases mem_subtrees.mp hs with rfl | ⟨c, hc, hs⟩
    · refine .inr ⟨node a cs, mem_subtrees_self _, ?_⟩
      rw [edit, editAll_eq_map]
    rcases hg a _ c hc with hmem | hnew
    · obtain ⟨c0, hc0, rfl⟩ := List.mem_map.mp hmem
      rcases ih c0 hc0 hs with hnew | ⟨s0, hs0, rfl⟩
      · exact .inl hnew
      · exact .inr ⟨s0, mem_subtrees.mpr (.inr ⟨c0, hc0, hs0⟩), rfl⟩
    · exact .inl (hE c hnew s hs)

end RoseTree

end LinuxKernelTest
