import LinuxKernelTest.Loop
import Mathlib.Data.List.TakeWhile

/-!
# Singly linked lists in one memory

The links of lists are a function `link` on places : the place `.head k` is the head of the list
`k`, the place `.next x` is the field of the element `x` for the next one, and the value of a place
is the element it points to or `none`. A pointer to a link, as programs carry one along a list in
order to write to it, is a place. `LinkChain link p l e` says that from the place `p` the links go
through the elements `l`, and that the last of them has the value `e`.
-/

namespace LinuxKernelTest

open Function List

/-- A field that points to an element : the head of a list, or the link of an element. -/
inductive Place (κ α : Type*)
  | head (k : κ)
  | next (x : α)
deriving DecidableEq

section

variable {κ α : Type*}

/-! ## One list -/

/-- From the place `p` the links go through `l`, and the last one is `e`. -/
def LinkChain (link : Place κ α → Option α) : Place κ α → List α → Option α → Prop
  | p, [], e => link p = e
  | p, x :: l, e => link p = some x ∧ LinkChain link (.next x) l e

/-- The place behind the elements `l`. -/
def lastPlace : Place κ α → List α → Place κ α
  | p, [] => p
  | _, x :: l => lastPlace (.next x) l

variable {link link' : Place κ α → Option α} {p p' : Place κ α} {e e' : Option α} {x : α}
  {l l' : List α} {k : κ}

theorem lastPlace_append : ∀ (l : List α) (p : Place κ α) (l' : List α),
    lastPlace p (l ++ l') = lastPlace (lastPlace p l) l'
  | [], _, _ => rfl
  | x :: l, _, l' => lastPlace_append l (.next x) l'

theorem lastPlace_concat (p : Place κ α) (l : List α) (x : α) :
    lastPlace p (l ++ [x]) = .next x := by
  rw [lastPlace_append]
  rfl

/-- The place behind `l` is that of an element of `l`, unless `l` is empty. -/
theorem lastPlace_cases (p : Place κ α) (l : List α) :
    l = [] ∧ lastPlace p l = p ∨ ∃ x ∈ l, lastPlace p l = .next x := by
  induction l using reverseRecOn with
  | nil => exact .inl ⟨rfl, rfl⟩
  | append_singleton l x _ => exact .inr ⟨x, by simp, lastPlace_concat p l x⟩

theorem linkChain_append :
    LinkChain link p (l ++ l') e ↔
      LinkChain link p l (link (lastPlace p l)) ∧ LinkChain link (lastPlace p l) l' e := by
  induction l generalizing p with
  | nil => simp [LinkChain, lastPlace]
  | cons x l ih =>
    rw [cons_append, LinkChain, LinkChain, ih, and_assoc]
    rfl

/-- A list is that of its places, whatever the place it is found from. -/
theorem LinkChain.congr (h : LinkChain link p l e) (hp : link' p' = link p)
    (hl : ∀ x ∈ l, link' (.next x) = link (.next x)) : LinkChain link' p' l e := by
  induction l generalizing p p' with
  | nil => exact hp.trans h
  | cons x l ih =>
    exact ⟨hp.trans h.1, ih h.2 (hl x mem_cons_self) fun y hy => hl y (mem_cons_of_mem x hy)⟩

theorem LinkChain.head_eq (h : LinkChain link p l none) : link p = l.head? := by
  cases l with
  | nil => exact h
  | cons x l => exact h.1

/-- A write to the last link. -/
theorem LinkChain.setEnd (h : LinkChain link p l e) (hl : l.Nodup) (hp : ∀ x ∈ l, p ≠ .next x)
    (hsame : ∀ r, r ≠ lastPlace p l → r = p ∨ (∃ x ∈ l, r = .next x) → link' r = link r)
    (hend : link' (lastPlace p l) = e') : LinkChain link' p l e' := by
  induction l generalizing p with
  | nil => exact hend
  | cons x l ih =>
    rw [nodup_cons] at hl
    have hne : p ≠ lastPlace (.next x) l := by
      rcases lastPlace_cases (.next x) l with ⟨-, hlast⟩ | ⟨y, hy, hlast⟩
      · rw [hlast]
        exact hp x mem_cons_self
      · rw [hlast]
        exact hp y (mem_cons_of_mem x hy)
    refine ⟨(hsame p hne (.inl rfl)).trans h.1,
      ih h.2 hl.2 (fun y hy hxy => ?_) (fun r hr hmem => ?_) hend⟩
    · exact hl.1 (Place.next.inj hxy ▸ hy)
    · refine hsame r hr (.inr ?_)
      rcases hmem with rfl | ⟨y, hy, rfl⟩
      · exact ⟨x, mem_cons_self, rfl⟩
      · exact ⟨y, mem_cons_of_mem x hy, rfl⟩

/-! ## Writes -/

theorem lastPlace_ne_next (hx : x ∉ l) : lastPlace (.head k) l ≠ .next x := by
  rcases lastPlace_cases (.head k) l with ⟨-, h⟩ | ⟨y, hy, h⟩ <;> rw [h]
  · exact fun h => by cases h
  · exact fun h => hx (Place.next.inj h ▸ hy)

section Write

variable [DecidableEq κ] [DecidableEq α]

/-- A write to the end of a list, in front of the elements behind `x`. -/
theorem LinkChain.splice (h : LinkChain link (.head k) l e) (h' : LinkChain link (.next x) l' e')
    (hnodup : (l ++ x :: l').Nodup) :
    LinkChain (update link (lastPlace (.head k) l) (some x)) (.head k) (l ++ x :: l')
      e' := by
  obtain ⟨hl, -, hdisj⟩ := nodup_append'.mp hnodup
  have hoff : ∀ y ∈ x :: l', update link (lastPlace (.head k) l) (some x) (.next y) =
      link (.next y) := fun y hy =>
    update_of_ne (lastPlace_ne_next fun hyl => hdisj hyl hy).symm _ _
  rw [linkChain_append, update_self]
  refine ⟨h.setEnd hl (fun y _ hy => by cases hy) (fun r hr _ => update_of_ne hr _ _)
    (update_self _ _ _), update_self _ _ _, ?_⟩
  exact h'.congr (hoff x mem_cons_self) fun y hy => hoff y (mem_cons_of_mem x hy)

end Write

end

end LinuxKernelTest
