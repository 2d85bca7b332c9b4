import Mathlib.Tactic

/-!
# Places in a list

The order of a list without repetitions is read off its sublists of two elements : `x` comes before
`y` in `l` if `[x, y]` is a sublist of `l`.

`behind c l` is the part of `l` behind the place `c`, or the whole list if there is no place. It is
what one who walks the list from `c` on has still to visit.
-/

set_option linter.unusedSectionVars false

namespace LinuxKernelTest

open List

section

variable {α : Type*} [DecidableEq α] {x y : α} {l l1 l2 : List α}

/-- An element before another one, in the two parts of a list. -/
theorem pair_sublist_append (hx : x ∈ l1) (hy : y ∈ l2) : [x, y].Sublist (l1 ++ l2) :=
  (singleton_sublist.mpr hx).append (singleton_sublist.mpr hy)

/-- The elements before one that occurs once. -/
theorem pair_sublist_append_cons_iff (hy : y ∉ l1 ++ l2) :
    [x, y].Sublist (l1 ++ y :: l2) ↔ x ∈ l1 := by
  rw [mem_append, not_or] at hy
  refine ⟨fun h => ?_, fun hx => pair_sublist_append hx (by simp)⟩
  obtain ⟨r1, r2, hr, h1, h2⟩ := sublist_append_iff.mp h
  cases r1 with
  | nil =>
    obtain rfl : [x, y] = r2 := hr
    have : [y].Sublist l2 := by
      rcases sublist_cons_iff.mp h2 with h2 | ⟨r, hr, h2⟩
      · exact (sublist_cons_self x [y]).trans h2
      · obtain ⟨-, rfl⟩ : x = y ∧ [y] = r := by simpa using hr
        exact h2
    exact absurd (singleton_sublist.mp this) hy.2
  | cons z r1 =>
    obtain ⟨rfl, -⟩ : x = z ∧ [y] = r1 ++ r2 := by simpa using hr
    exact h1.subset mem_cons_self

/-! ## The part behind an element -/

/-- The elements behind a place of the list. -/
def behind : Option α → List α → List α
  | none, l => l
  | some c, l => (l.dropWhile (· ≠ c)).tail

theorem behind_append (hx : x ∉ l1) : behind (some x) (l1 ++ x :: l2) = l2 := by
  rw [behind, dropWhile_append_of_pos]
  · simp
  · intro y hy
    simpa using ne_of_mem_of_not_mem hy hx

theorem behind_sublist (c : Option α) (l : List α) : (behind c l).Sublist l := by
  cases c with
  | none => exact List.Sublist.refl l
  | some c => exact (tail_sublist _).trans (dropWhile_sublist _)

/-- The part behind a place of a list is that of a part of the list with the place in it. -/
theorem behind_filter {c : Option α} {V W : α → Bool} (hW : ∀ x, W x = true → V x = true)
    (hc : ∀ x, c = some x → V x = true) (l : List α) :
    (behind c (l.filter V)).filter W = (behind c l).filter W := by
  have hfilter : ∀ l : List α, (l.filter V).filter W = l.filter W := fun l => by
    rw [filter_filter]
    refine filter_congr fun x _ => ?_
    cases hx : W x with
    | false => rfl
    | true => rw [hW x hx]; rfl
  cases c with
  | none => exact hfilter l
  | some c =>
    induction l with
    | nil => rfl
    | cons x l ih =>
      by_cases hx : x = c
      · subst hx
        rw [filter_cons_of_pos (hc x rfl)]
        simpa [behind] using hfilter l
      have hskip : ∀ l : List α, behind (some c) (x :: l) = behind (some c) l := fun l => by
        simp [behind, hx]
      rw [hskip]
      by_cases hV : V x = true
      · rw [filter_cons_of_pos hV, hskip, ih]
      · rw [filter_cons_of_neg hV, ih]

end

end LinuxKernelTest
