import Mathlib.Tactic

/-!
# Red-black trees and places in them

Trees with a color at every node, over any type of labels. A side is a parameter throughout : `join`
puts a subtree `near` on one side of a label and a subtree `far` on the other, so a statement about
one side is a statement about its mirror image.

A place in a tree is the path up from it, a list of frames : a label with its color, the side the
path comes up from, and the subtree on the other side. `plug` closes the tree over a subtree at the
place. What a tree has (its sequence, its labels, that they are distinct) splits into what the path
has and what the subtree has.

`RedBlack t` says in the usual words that `t` is a red-black tree. `Balanced c n t` says so by
recursion, of a tree with a root of color `c` and `n` black nodes on every path, and `Fits c n k`
says that the place `k` takes such a tree.
-/

namespace LinuxKernelTest

open List

/-- A side of a node. -/
inductive Side
  | left
  | right
deriving DecidableEq

/-- The other side. -/
def Side.other : Side → Side
  | .left => .right
  | .right => .left

@[simp] theorem Side.other_other (d : Side) : d.other.other = d := by cases d <;> rfl

@[simp] theorem Side.other_ne (d : Side) : d.other ≠ d := by cases d <;> decide

@[simp] theorem Side.ne_other (d : Side) : d ≠ d.other := by cases d <;> decide

/-- The color of a node. -/
inductive Color
  | red
  | black
deriving DecidableEq

/-- A binary tree with a color at every node. -/
inductive ColorTree (α : Type*)
  | nil
  | node (c : Color) (l : ColorTree α) (a : α) (r : ColorTree α)
deriving DecidableEq

namespace ColorTree

variable {α : Type*}

/-- The tree with `near` on the side `d` of `a`, and `far` on the other. -/
def join (d : Side) (c : Color) (a : α) (near far : ColorTree α) : ColorTree α :=
  match d with
  | .left => .node c near a far
  | .right => .node c far a near

/-- The root in the color `c`. -/
def paint (c : Color) : ColorTree α → ColorTree α
  | nil => nil
  | node _ l a r => node c l a r

/-- The color of the root; the empty tree is black. -/
def rootColor : ColorTree α → Color
  | nil => .black
  | node c _ _ _ => c

/-- The tree in one color. -/
def uncolored : ColorTree α → ColorTree α
  | nil => nil
  | node _ l a r => node .red l.uncolored a r.uncolored

/-- The labels from left to right. -/
def toList : ColorTree α → List α
  | nil => []
  | node _ l a r => l.toList ++ a :: r.toList

/-- The number of nodes on the longest path. -/
def height : ColorTree α → ℕ
  | nil => 0
  | node _ l _ r => max l.height r.height + 1

instance : Membership α (ColorTree α) := ⟨fun t a => a ∈ t.toList⟩

theorem mem_def {a : α} {t : ColorTree α} : a ∈ t ↔ a ∈ t.toList := Iff.rfl

/-- No label occurs twice. -/
def Distinct (t : ColorTree α) : Prop := t.toList.Nodup

variable {d : Side} {c c' : Color} {a x : α} {t near far : ColorTree α} {l r : ColorTree α}

/-- A tree with a root is not empty. -/
theorem join_ne_nil : join d c a near far ≠ nil := by cases d <;> simp [join]

/-- Naming the other side first exchanges the two subtrees. -/
theorem join_other : join d.other c a near far = join d c a far near := by cases d <;> rfl

@[simp] theorem paint_join : (join d c a near far).paint c' = join d c' a near far := by
  cases d <;> rfl

@[simp] theorem paint_rootColor : t.paint t.rootColor = t := by cases t <;> rfl

@[simp] theorem rootColor_join : (join d c a near far).rootColor = c := by cases d <;> rfl

@[simp] theorem uncolored_paint : (t.paint c).uncolored = t.uncolored := by cases t <;> rfl

@[simp] theorem uncolored_join :
    (join d c a near far).uncolored = join d .red a near.uncolored far.uncolored := by
  cases d <;> rfl

/-- The colors play no part in the sequence. -/
@[simp] theorem toList_uncolored : t.uncolored.toList = t.toList := by
  induction t with
  | nil => rfl
  | node c l a r ihl ihr => rw [uncolored, toList, ihl, ihr, toList]

@[simp] theorem toList_paint : (t.paint c).toList = t.toList := by cases t <;> rfl

@[simp] theorem not_mem_nil : x ∉ (nil : ColorTree α) := List.not_mem_nil

@[simp] theorem mem_paint : x ∈ t.paint c ↔ x ∈ t := by rw [mem_def, toList_paint, ← mem_def]

/-- The labels of a tree, whichever side is named first. -/
@[simp] theorem mem_join : x ∈ join d c a near far ↔ x = a ∨ x ∈ near ∨ x ∈ far := by
  cases d <;> simp only [mem_def, join, toList, mem_append, mem_cons] <;> tauto

theorem mem_node : x ∈ node c l a r ↔ x = a ∨ x ∈ l ∨ x ∈ r :=
  mem_join (d := .left)

@[simp] theorem distinct_nil : (nil : ColorTree α).Distinct := nodup_nil

@[simp] theorem distinct_paint : (t.paint c).Distinct ↔ t.Distinct := by
  rw [Distinct, toList_paint, Distinct]

/-- The labels are distinct if the root and the two subtrees share none. -/
@[simp] theorem distinct_join : (join d c a near far).Distinct ↔
    a ∉ near ∧ a ∉ far ∧ (∀ x ∈ near, x ∉ far) ∧ near.Distinct ∧ far.Distinct := by
  cases d
  all_goals
    simp only [Distinct, join, toList, nodup_append, nodup_cons, mem_def, mem_cons,
      ne_eq, forall_eq_or_imp]
    grind

theorem distinct_node : (node c l a r).Distinct ↔
    a ∉ l ∧ a ∉ r ∧ (∀ x ∈ l, x ∉ r) ∧ l.Distinct ∧ r.Distinct :=
  distinct_join (d := .left)

/-- A path down has no more nodes than the tree. -/
theorem height_le_length : t.height ≤ t.toList.length := by
  induction t with
  | nil => exact Nat.le_refl 0
  | node c l a r ihl ihr =>
    rw [height, toList, length_append, length_cons]
    omega

/-! ## Places -/

/-- One step of the path up from a place. -/
structure Frame (α : Type*) where
  side : Side
  color : Color
  label : α
  rest : ColorTree α

/-- The tree over a subtree at the place `k`. -/
def plug : List (Frame α) → ColorTree α → ColorTree α
  | [], t => t
  | f :: k, t => plug k (join f.side f.color f.label t f.rest)

/-- The labels left of a place. -/
def before : List (Frame α) → List α
  | [] => []
  | f :: k => before k ++ match f.side with
    | .left => []
    | .right => f.rest.toList ++ [f.label]

/-- The labels right of a place. -/
def after : List (Frame α) → List α
  | [] => []
  | f :: k => (match f.side with
    | .left => f.label :: f.rest.toList
    | .right => []) ++ after k

/-- The label `x` stands on or beside the path up. -/
def InPath (x : α) (k : List (Frame α)) : Prop := ∃ f ∈ k, x = f.label ∨ x ∈ f.rest

/-- No label occurs twice on or beside the path up. -/
def DistinctPath : List (Frame α) → Prop
  | [] => True
  | f :: k => f.label ∉ f.rest ∧ f.rest.Distinct ∧ ¬InPath f.label k ∧ (∀ x ∈ f.rest, ¬InPath x k) ∧
    DistinctPath k

variable {f : Frame α} {k k' : List (Frame α)} {t' : ColorTree α}

/-- Going up two paths, one after the other. -/
theorem plug_append : plug (k ++ k') t = plug k' (plug k t) := by
  induction k generalizing t with
  | nil => rfl
  | cons f k ih => exact ih

/-- A subtree that is replaced by one of other colors changes nothing but colors. -/
theorem uncolored_plug (h : t.uncolored = t'.uncolored) :
    (plug k t).uncolored = (plug k t').uncolored := by
  induction k generalizing t t' with
  | nil => exact h
  | cons f k ih => exact ih (by rw [uncolored_join, uncolored_join, h])

theorem uncolored_plug_paint : (plug k (t.paint c)).uncolored = (plug k t).uncolored :=
  uncolored_plug uncolored_paint

/-- The sequence of a tree, split at a place. -/
theorem toList_plug : (plug k t).toList = before k ++ t.toList ++ after k := by
  induction k generalizing t with
  | nil => simp [plug, before, after]
  | cons f k ih =>
    rw [plug, ih]
    rcases f with ⟨_ | _, _, _, _⟩ <;> simp [join, toList, before, after]

/-- Nothing comes before a place that is reached by going left only. -/
theorem before_eq_nil (h : ∀ f ∈ k, f.side = .left) : before k = [] := by
  induction k with
  | nil => rfl
  | cons f k ih =>
    rw [before, ih fun g hg => h g (mem_cons_of_mem f hg), h f mem_cons_self]
    rfl

/-- Taking a label out of the sequence. -/
theorem erase_toList_plug [DecidableEq α]
    (h : (plug k (node c l a r)).Distinct) :
    (plug k (node c l a r)).toList.erase a = before k ++ (l.toList ++ r.toList) ++ after k := by
  have hsplit : (plug k (node c l a r)).toList =
      (before k ++ l.toList) ++ a :: (r.toList ++ after k) := by
    rw [toList_plug, toList]
    simp
  rw [Distinct, hsplit, nodup_append] at h
  rw [hsplit, erase_append_right _ fun hmem => h.2.2 a hmem a mem_cons_self rfl, erase_cons_head]
  simp

/-- Trees that differ in colors only have one sequence. -/
theorem toList_recolor (h : t.uncolored = t'.uncolored) :
    t.toList = t'.toList := by
  rw [← toList_uncolored, h, toList_uncolored]

/-- A rotation keeps the sequence. -/
theorem toList_rotate (k : List (Frame α)) (d : Side) (c1 c2 c1' c2' : Color) (old new : α)
    (a t b : ColorTree α) :
    (plug k (join d c1 new a (join d c2 old t b))).toList =
      (plug k (join d c1' old (join d c2' new a t) b)).toList := by
  rw [toList_plug, toList_plug]
  cases d <;> simp [join, toList]

/-- The nodes above a place are nodes of the tree. -/
theorem length_le_toList_plug : k.length + t.toList.length ≤ (plug k t).toList.length := by
  induction k generalizing t with
  | nil => exact (Nat.zero_add _).le
  | cons f k ih =>
    refine Nat.le_trans ?_ ih
    rcases f with ⟨_ | _, _, _, _⟩ <;>
      simp only [join, toList, length_append, length_cons] <;> omega

@[simp] theorem inPath_nil : ¬InPath x ([] : List (Frame α)) := by simp [InPath]

@[simp] theorem inPath_cons : InPath x (f :: k) ↔ x = f.label ∨ x ∈ f.rest ∨ InPath x k := by
  simp only [InPath, mem_cons, exists_eq_or_imp]
  exact or_assoc

/-- The labels of a tree, split at a place. -/
@[simp] theorem mem_plug : x ∈ plug k t ↔ x ∈ t ∨ InPath x k := by
  induction k generalizing t with
  | nil => simp [plug]
  | cons f k ih =>
    rw [plug, ih, mem_join, inPath_cons]
    tauto

/-- The labels of a tree are distinct if those below and those around a place are. -/
@[simp] theorem distinct_plug : (plug k t).Distinct ↔
    t.Distinct ∧ DistinctPath k ∧ ∀ x ∈ t, ¬InPath x k := by
  induction k generalizing t with
  | nil => simp [plug, DistinctPath]
  | cons f k ih =>
    simp only [plug, ih, distinct_join, mem_join, DistinctPath, inPath_cons]
    grind

/-- Every label has its place. -/
theorem exists_plug_of_mem (h : x ∈ t) :
    ∃ k c near far, t = plug k (node c near x far) := by
  induction t with
  | nil => exact absurd h List.not_mem_nil
  | node c l a r ihl ihr =>
    rcases mem_node.mp h with rfl | hl | hr
    · exact ⟨[], c, l, r, rfl⟩
    · obtain ⟨k, c', near, far, rfl⟩ := ihl hl
      exact ⟨k ++ [⟨.left, c, a, r⟩], c', near, far, by rw [plug_append]; rfl⟩
    · obtain ⟨k, c', near, far, rfl⟩ := ihr hr
      exact ⟨k ++ [⟨.right, c, a, l⟩], c', near, far, by rw [plug_append]; rfl⟩

/-! ## Balance -/

/-- A red-black tree with a root of color `c`, and `n` black nodes on every path. -/
inductive Balanced : Color → ℕ → ColorTree α → Prop
  | nil : Balanced .black 0 nil
  | red {n : ℕ} {l r : ColorTree α} {a : α} :
      Balanced .black n l → Balanced .black n r → Balanced .red n (node .red l a r)
  | black {n : ℕ} {cl cr : Color} {l r : ColorTree α} {a : α} :
      Balanced cl n l → Balanced cr n r → Balanced .black (n + 1) (node .black l a r)

/-- No red node has a red child. -/
def NoRedRed : ColorTree α → Prop
  | nil => True
  | node c l _ r =>
    (c = .red → l.rootColor = .black ∧ r.rootColor = .black) ∧ l.NoRedRed ∧ r.NoRedRed

/-- The numbers of black nodes on the paths from the root down to an empty tree. -/
def blackCounts : ColorTree α → List ℕ
  | nil => [0]
  | node c l _ r => (l.blackCounts ++ r.blackCounts).map (· + if c = .black then 1 else 0)

/-- A red-black tree. -/
structure RedBlack (t : ColorTree α) : Prop where
  root : t.rootColor = .black
  noRedRed : t.NoRedRed
  counts : ∃ n, ∀ i ∈ t.blackCounts, i = n

/-- The place `k` takes a red-black tree with a root of color `c` and `n` black nodes on every
path. -/
def Fits (c : Color) (n : ℕ) : List (Frame α) → Prop
  | [] => c = .black
  | f :: k => match f.color with
    | .red => c = .black ∧ Balanced .black n f.rest ∧ Fits .red n k
    | .black => (∃ c', Balanced c' n f.rest) ∧ Fits .black (n + 1) k

variable {n : ℕ} {cn cf : Color}

/-- There is a path down. -/
theorem exists_mem_blackCounts : ∃ i, i ∈ t.blackCounts := by
  induction t with
  | nil => exact ⟨0, mem_singleton.mpr rfl⟩
  | node c l a r ihl _ =>
    obtain ⟨i, hi⟩ := ihl
    exact ⟨_, mem_map.mpr ⟨i, mem_append_left _ hi, rfl⟩⟩

/-- What `Balanced` says in terms of colors and of paths. -/
theorem Balanced.parts (h : Balanced c n t) :
    t.rootColor = c ∧ t.NoRedRed ∧ ∀ i ∈ t.blackCounts, i = n := by
  induction h with
  | nil => exact ⟨rfl, trivial, by simp [blackCounts]⟩
  | red _ _ ihl ihr =>
    obtain ⟨hlc, hl, hln⟩ := ihl
    obtain ⟨hrc, hr, hrn⟩ := ihr
    refine ⟨rfl, ⟨fun _ => ⟨hlc, hrc⟩, hl, hr⟩, ?_⟩
    simp only [blackCounts, mem_map, mem_append]
    rintro _ ⟨i, hi | hi, rfl⟩
    · rw [hln i hi]; rfl
    · rw [hrn i hi]; rfl
  | black _ _ ihl ihr =>
    obtain ⟨-, hl, hln⟩ := ihl
    obtain ⟨-, hr, hrn⟩ := ihr
    refine ⟨rfl, ⟨nofun, hl, hr⟩, ?_⟩
    simp only [blackCounts, mem_map, mem_append]
    rintro _ ⟨i, hi | hi, rfl⟩
    · rw [hln i hi]; rfl
    · rw [hrn i hi]; rfl

/-- The converse of `Balanced.parts`. -/
theorem Balanced.of_parts (hred : t.NoRedRed) (hn : ∀ i ∈ t.blackCounts, i = n) :
    Balanced t.rootColor n t := by
  induction t generalizing n with
  | nil =>
    rw [← hn 0 (mem_singleton.mpr rfl)]
    exact .nil
  | node c l a r ihl ihr =>
    obtain ⟨hc, hl, hr⟩ := hred
    simp only [blackCounts, mem_map, mem_append] at hn
    cases c with
    | red =>
      have hblack := hc rfl
      have hleft := ihl hl fun i hi => hn i ⟨i, .inl hi, rfl⟩
      have hright := ihr hr fun i hi => hn i ⟨i, .inr hi, rfl⟩
      rw [hblack.1] at hleft
      rw [hblack.2] at hright
      exact .red hleft hright
    | black =>
      -- Every path counts the root.
      obtain ⟨j, hj⟩ := exists_mem_blackCounts (t := l)
      obtain rfl : j + 1 = n := hn (j + 1) ⟨j, .inl hj, rfl⟩
      exact .black (ihl hl fun i hi => Nat.succ.inj (hn (i + 1) ⟨i, .inl hi, rfl⟩))
        (ihr hr fun i hi => Nat.succ.inj (hn (i + 1) ⟨i, .inr hi, rfl⟩))

/-- The two ways to say what a red-black tree is. -/
theorem redBlack_iff : t.RedBlack ↔ ∃ n, Balanced .black n t := by
  constructor
  · rintro ⟨hroot, hred, n, hn⟩
    exact ⟨n, hroot ▸ Balanced.of_parts hred hn⟩
  · rintro ⟨n, h⟩
    obtain ⟨hroot, hred, hn⟩ := h.parts
    exact ⟨hroot, hred, n, hn⟩

/-- A red root stands on black subtrees of the same black height. -/
theorem balanced_join_red : Balanced c n (join d .red a near far) ↔
    c = .red ∧ Balanced .black n near ∧ Balanced .black n far := by
  constructor
  · intro h
    cases d
    · obtain ⟨⟩ | ⟨hl, hr⟩ := h
      exact ⟨rfl, hl, hr⟩
    · obtain ⟨⟩ | ⟨hl, hr⟩ := h
      exact ⟨rfl, hr, hl⟩
  · rintro ⟨rfl, hn, hf⟩
    cases d
    · exact .red hn hf
    · exact .red hf hn

/-- A black root stands on subtrees of any color, one lower. -/
theorem balanced_join_black : Balanced c n (join d .black a near far) ↔
    c = .black ∧ ∃ m cn cf, n = m + 1 ∧ Balanced cn m near ∧ Balanced cf m far := by
  constructor
  · intro h
    cases d
    · obtain ⟨⟩ | ⟨⟩ | ⟨hl, hr⟩ := h
      exact ⟨rfl, _, _, _, rfl, hl, hr⟩
    · obtain ⟨⟩ | ⟨⟩ | ⟨hl, hr⟩ := h
      exact ⟨rfl, _, _, _, rfl, hr, hl⟩
  · rintro ⟨rfl, m, cn, cf, rfl, hn, hf⟩
    cases d
    · exact .black hn hf
    · exact .black hf hn

theorem Balanced.joinRed (hn : Balanced .black n near) (hf : Balanced .black n far) :
    Balanced .red n (join d .red a near far) :=
  balanced_join_red.mpr ⟨rfl, hn, hf⟩

theorem Balanced.joinBlack (hn : Balanced cn n near) (hf : Balanced cf n far) :
    Balanced .black (n + 1) (join d .black a near far) :=
  balanced_join_black.mpr ⟨rfl, n, cn, cf, rfl, hn, hf⟩

/-- On black subtrees a root may have either color. -/
theorem Balanced.joinColored (hn : Balanced .black n near) (hf : Balanced .black n far)
    (c : Color) :
    Balanced c (if c = .red then n else n + 1) (join d c a near far) := by
  cases c with
  | red => exact hn.joinRed hf
  | black => exact hn.joinBlack hf

theorem Balanced.rootColor (h : Balanced c n t) : t.rootColor = c := by cases h <;> rfl

theorem Balanced.paint_eq (h : Balanced c n t) : t.paint c = t := by
  rw [← h.rootColor, paint_rootColor]

/-- A red root can be painted black. -/
theorem Balanced.paint (h : Balanced .red n t) : Balanced .black (n + 1) (t.paint .black) := by
  obtain ⟨⟩ | ⟨hl, hr⟩ := h
  exact .black hl hr

/-- A red root has black subtrees, and either one can be named first. -/
theorem Balanced.exists_join_red (h : Balanced .red n t) (d : Side) :
    ∃ a near far, t = join d .red a near far ∧ Balanced .black n near ∧ Balanced .black n far := by
  obtain ⟨⟩ | ⟨hl, hr⟩ := h
  cases d
  · exact ⟨_, _, _, rfl, hl, hr⟩
  · exact ⟨_, _, _, rfl, hr, hl⟩

/-- A black tree that is not empty has a root. -/
theorem Balanced.exists_join_black (h : Balanced .black (n + 1) t) (d : Side) :
    ∃ a near far cn cf, t = join d .black a near far ∧ Balanced cn n near ∧ Balanced cf n far := by
  obtain ⟨⟩ | ⟨⟩ | ⟨hl, hr⟩ := h
  cases d
  · exact ⟨_, _, _, _, _, rfl, hl, hr⟩
  · exact ⟨_, _, _, _, _, rfl, hr, hl⟩

/-- Where a red root may stand, a black one may. -/
theorem Fits.black (h : Fits c n k) : Fits .black n k := by
  cases k with
  | nil => rfl
  | cons f k =>
    rcases f with ⟨d, _ | _, a, t⟩
    · exact ⟨rfl, h.2⟩
    · exact h

/-- The sibling of a place has the black height of the place. -/
theorem Fits.rest {f : Frame α} (h : Fits c n (f :: k)) : ∃ c', Balanced c' n f.rest := by
  rcases f with ⟨d, _ | _, a, t⟩
  · exact ⟨.black, h.2.1⟩
  · exact h.1

/-- A tree that fits a place makes a red-black tree of the whole. -/
theorem Fits.balanced (h : Fits c n k) (ht : Balanced c n t) : ∃ m, Balanced .black m
    (plug k t) := by
  induction k generalizing c n t with
  | nil => exact ⟨n, by rw [← show c = .black from h]; exact ht⟩
  | cons f k ih =>
    rcases f with ⟨d, _ | _, a, r⟩
    · obtain ⟨rfl, hr, hk⟩ := h
      exact ih hk (ht.joinRed hr)
    · obtain ⟨⟨_, hr⟩, hk⟩ := h
      exact ih hk (ht.joinBlack hr)

/-- The converse of `Fits.balanced` : every subtree of a red-black tree fits its place. -/
theorem exists_fits {m : ℕ} (h : Balanced .black m (plug k t)) :
    ∃ c n, Balanced c n t ∧ Fits c n k := by
  induction k generalizing t with
  | nil => exact ⟨.black, m, h, rfl⟩
  | cons f k ih =>
    obtain ⟨c, n, ht, hk⟩ := ih h
    rcases f with ⟨d, _ | _, a, r⟩
    · obtain ⟨rfl, hnear, hfar⟩ := balanced_join_red.mp ht
      exact ⟨.black, n, hnear, rfl, hfar, hk⟩
    · obtain ⟨rfl, n, cn, cf, rfl, hnear, hfar⟩ := balanced_join_black.mp ht
      exact ⟨cn, n, hnear, ⟨cf, hfar⟩, hk⟩

/-- The one subtree of a red node is empty. -/
theorem Balanced.paint_cut
    (h : Balanced c n (join d c' a .nil t)) : t.paint c' = t.paint .black := by
  cases c' with
  | red =>
    obtain ⟨rfl, hnil, ht⟩ := balanced_join_red.mp h
    cases hnil
    cases ht
    rfl
  | black => rfl

/-- A node with one subtree at most is cut out : the place lacks a black node, or the subtree
painted black fits. -/
theorem Balanced.cut (h : Balanced c n (join d c' a .nil t)) (hk : Fits c n k) :
    (t = .nil ∧ c' = .black ∧ Fits .black 1 k) ∨
    ((t = .nil → c' = .red) ∧ ∃ m, Balanced .black m (plug k (t.paint .black))) := by
  cases c' with
  | red =>
    obtain ⟨rfl, hnil, ht⟩ := balanced_join_red.mp h
    cases hnil
    cases ht
    exact .inr ⟨fun _ => rfl, hk.black.balanced .nil⟩
  | black =>
    obtain ⟨rfl, m, cn, cf, rfl, hnil, ht⟩ := balanced_join_black.mp h
    cases hnil
    cases cf with
    | red =>
      refine .inr ⟨?_, hk.balanced ht.paint⟩
      rintro rfl
      cases ht
    | black =>
      cases ht
      exact .inl ⟨rfl, rfl, hk⟩

/-- Labels do not matter for what fits. -/
theorem Fits.relabel {d d' : Side} {a a' : α} {cf : Color} {r : ColorTree α}
    (h : Fits c n (k' ++ ⟨d, cf, a, r⟩ :: k)) : Fits c n (k' ++ ⟨d', cf, a', r⟩ :: k) := by
  induction k' generalizing c n with
  | nil => cases cf <;> exact h
  | cons g k' ih =>
    rcases g with ⟨_, _ | _, _, _⟩
    · exact ⟨h.1, h.2.1, ih h.2.2⟩
    · exact ⟨h.1, ih h.2⟩

/-- No two reds in a row : the height is at most twice the black height. -/
theorem Balanced.height_le_two_mul (h : Balanced c n t) :
    t.height ≤ 2 * n + if c = .red then 1 else 0 := by
  induction h with
  | nil => exact Nat.zero_le _
  | red _ _ ihl ihr =>
    simp only [height, reduceCtorEq, if_false, if_true] at *
    omega
  | @black n cl cr l r a _ _ ihl ihr =>
    have hone : ∀ c : Color, (if c = .red then 1 else 0) ≤ 1 := fun c => by cases c <;> decide
    have := hone cl
    have := hone cr
    simp only [height, reduceCtorEq, if_false]
    omega

/-- A tree of black height `n` has at least `2 ^ n - 1` nodes. -/
theorem Balanced.two_pow_le (h : Balanced c n t) : 2 ^ n ≤ t.toList.length + 1 := by
  induction h with
  | nil => exact Nat.le_refl 1
  | red _ _ ihl ihr =>
    rw [toList, length_append, length_cons]
    omega
  | black _ _ ihl ihr =>
    rw [toList, length_append, length_cons, Nat.pow_succ]
    omega

/-- The height of a red-black tree with a black root. -/
theorem Balanced.height_le (h : Balanced .black n t) :
    t.height ≤ 2 * Nat.log 2 (t.toList.length + 1) := by
  have hheight := h.height_le_two_mul
  have hlog := Nat.le_log_of_pow_le (by decide) h.two_pow_le
  simp only [reduceCtorEq, if_false] at hheight
  omega

end ColorTree

end LinuxKernelTest
