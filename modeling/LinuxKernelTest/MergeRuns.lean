import Mathlib.Tactic

/-!
# Stable sorting by merging runs

`StableSorts le l l'` : the list `l'` holds the elements of `l` in the order of the total preorder
`le`, and elements that may stay in their order do. The merge of the sorted forms of two lists is
the sorted form of the two lists one behind the other (`StableSorts.merge`).

A merge sort from below reads its input from left to right and keeps the sorted forms of consecutive
parts of it, the last part first (`Runs`). It may merge any two neighbours (`Runs.merge`).
-/

namespace LinuxKernelTest

open List

variable {α : Type*} {le : α → α → Bool} {a b : α} {l l' l1 l2 l1' l2' : List α}

/-- `l'` is `l` sorted by `le`, and a pair in the order `le` in `l` is in the same order in `l'`. -/
structure StableSorts (le : α → α → Bool) (l l' : List α) : Prop where
  perm : l'.Perm l
  sorted : l'.Pairwise (le · ·)
  stable : ∀ a b, le a b = true → [a, b].Sublist l → [a, b].Sublist l'

theorem StableSorts.singleton (a : α) : StableSorts le [a] [a] :=
  ⟨List.Perm.refl _, pairwise_singleton _ _, fun _ _ _ h => h⟩

theorem sublist_merge_left (le : α → α → Bool) :
    ∀ l1 l2 : List α, l1.Sublist (l1.merge l2 le)
  | [], _ => nil_sublist _
  | a :: l1, [] => by rw [merge_right]
  | a :: l1, b :: l2 => by
    rw [cons_merge_cons]
    split
    · exact (sublist_merge_left le l1 (b :: l2)).cons_cons a
    · exact (sublist_merge_left le (a :: l1) l2).cons b

theorem sublist_merge_right (le : α → α → Bool) :
    ∀ l1 l2 : List α, l2.Sublist (l1.merge l2 le)
  | [], _ => by rw [nil_merge]
  | a :: l1, [] => nil_sublist _
  | a :: l1, b :: l2 => by
    rw [cons_merge_cons]
    split
    · exact (sublist_merge_right le l1 (b :: l2)).cons a
    · exact (sublist_merge_right le (a :: l1) l2).cons_cons b

/-- The merge prefers its first list. -/
theorem pair_sublist_merge (htrans : ∀ a b c, le a b = true → le b c = true → le a c = true) :
    ∀ {l1 l2 : List α}, l1.Pairwise (le · ·) → a ∈ l1 → b ∈ l2 → le a b = true →
      [a, b].Sublist (l1.merge l2 le)
  | [], _, _, ha, _, _ => by cases ha
  | _, [], _, _, hb, _ => by cases hb
  | x :: l1, y :: l2, h1, ha, hb, hab => by
    obtain ⟨hx, h1'⟩ := pairwise_cons.mp h1
    rw [cons_merge_cons]
    by_cases hxy : le x y = true
    · rw [if_pos hxy]
      rcases mem_cons.mp ha with rfl | ha
      · exact (singleton_sublist.mpr (mem_merge.mpr (Or.inr hb))).cons_cons a
      · exact (pair_sublist_merge htrans h1' ha hb hab).cons x
    rw [if_neg hxy]
    rcases mem_cons.mp hb with rfl | hb
    · -- `x` is not after `a`, so it would go before `b`.
      refine absurd ?_ hxy
      rcases mem_cons.mp ha with rfl | ha
      · exact hab
      · exact htrans x a b (hx a ha) hab
    · exact (pair_sublist_merge htrans h1 ha hb hab).cons y

theorem StableSorts.merge (htrans : ∀ a b c, le a b = true → le b c = true → le a c = true)
    (htotal : ∀ a b, (le a b || le b a) = true) (h1 : StableSorts le l1 l1')
    (h2 : StableSorts le l2 l2') : StableSorts le (l1 ++ l2) (l1'.merge l2' le) where
  perm := (merge_perm_append le).trans (h1.perm.append h2.perm)
  sorted := pairwise_merge htrans htotal _ _ h1.sorted h2.sorted
  stable := by
    intro a b hab h
    obtain ⟨r1, r2, hr, hr1, hr2⟩ := sublist_append_iff.mp h
    -- Both elements are in `l2`, or one in each list, or both in `l1`.
    rcases r1 with - | ⟨x, - | ⟨y, r1⟩⟩
    · obtain rfl : [a, b] = r2 := hr
      exact (h2.stable a b hab hr2).trans (sublist_merge_right le _ _)
    · obtain ⟨rfl, rfl⟩ : a = x ∧ [b] = r2 := by simpa using hr
      exact pair_sublist_merge htrans h1.sorted
        (h1.perm.symm.subset (singleton_sublist.mp hr1))
        (h2.perm.symm.subset (singleton_sublist.mp hr2)) hab
    · obtain ⟨rfl, rfl, rfl, -⟩ : a = x ∧ b = y ∧ r1 = [] ∧ r2 = [] := by simpa [eq_comm] using hr
      exact (h1.stable a b hab hr1).trans (sublist_merge_left le _ _)

/-- The runs `S` are the sorted forms of consecutive parts of the input `l`, the last part
first. -/
inductive Runs (le : α → α → Bool) : List (List α) → List α → Prop
  | nil : Runs le [] []
  | cons {S l part run} : Runs le S l → StableSorts le part run → Runs le (run :: S) (l ++ part)

variable {S T : List (List α)} {r r' : List α}

theorem Runs.push (h : Runs le S l) (a : α) : Runs le ([a] :: S) (l ++ [a]) :=
  h.cons (.singleton a)

/-- Two neighbours may be merged, the older one first. -/
theorem Runs.merge (htrans : ∀ a b c, le a b = true → le b c = true → le a c = true)
    (htotal : ∀ a b, (le a b || le b a) = true) :
    ∀ {S : List (List α)} {l : List α}, Runs le (S ++ r :: r' :: T) l →
      Runs le (S ++ r'.merge r le :: T) l
  | [], l, h => by
    obtain _ | ⟨h, hr⟩ := h
    obtain _ | ⟨h, hr'⟩ := h
    rw [append_assoc]
    exact h.cons (hr'.merge htrans htotal hr)
  | run :: S, l, h => by
    obtain _ | ⟨h, hrun⟩ := h
    exact (Runs.merge htrans htotal h).cons hrun

/-- The runs hold the elements of the input. -/
theorem Runs.flatten_perm (h : Runs le S l) : S.flatten.Perm l := by
  induction h with
  | nil => exact List.Perm.nil
  | cons _ hrun ih => exact (hrun.perm.append ih).trans perm_append_comm

/-- The only run left is the sorted input. -/
theorem Runs.stableSorts (h : Runs le [r] l) : StableSorts le l r := by
  obtain _ | ⟨h, hr⟩ := h
  obtain _ | _ := h
  exact hr

end LinuxKernelTest
