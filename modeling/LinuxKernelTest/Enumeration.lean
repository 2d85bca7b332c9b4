import Mathlib.Tactic

/-!
# Listing the elements of a set in order

`Lists r P l` says that `l` holds the elements of `P`, each after those that are before it in
the order `r`. A list of this kind grows from its end : the first element of `P`, then a
list of the elements behind it (`Lists.cons`). It is determined by `r` and `P`
(`Lists.unique`), so two procedures that list the same elements in the same order agree.

`IsFirst r P o` is the answer of one search : the first element of `P`, or `none` where `P` is
empty.
-/

namespace LinuxKernelTest

open List

variable {κ : Type*} {r : κ → κ → Prop} {P Q : κ → Prop} {l : List κ} {a : κ}

/-- `l` lists the elements of `P` in the order `r`. -/
structure Lists (r : κ → κ → Prop) (P : κ → Prop) (l : List κ) : Prop where
  sorted : l.Pairwise r
  mem : ∀ x, x ∈ l ↔ P x

/-- `o` is the first element of `P` in the order `r`, or `none` if there is none. -/
def IsFirst (r : κ → κ → Prop) (P : κ → Prop) : Option κ → Prop
  | some a => P a ∧ ∀ x, P x → x = a ∨ r a x
  | none => ∀ x, ¬P x

theorem lists_nil (h : IsFirst r P none) : Lists r P [] :=
  ⟨.nil, fun x => iff_of_false not_mem_nil (h x)⟩

theorem Lists.cons (ha : IsFirst r P (some a))
    (hl : Lists r (fun x => P x ∧ r a x) l) : Lists r P (a :: l) where
  sorted := pairwise_cons.mpr ⟨fun x hx => ((hl.mem x).mp hx).2, hl.sorted⟩
  mem x := by
    rw [mem_cons, hl.mem]
    refine ⟨?_, fun hx => ?_⟩
    · rintro (rfl | hx)
      exacts [ha.1, hx.1]
    · rcases ha.2 x hx with rfl | hr
      exacts [.inl rfl, .inr ⟨hx, hr⟩]

theorem Lists.congr (h : Lists r P l) (hPQ : ∀ x, P x ↔ Q x) : Lists r Q l :=
  ⟨h.sorted, fun x => (h.mem x).trans (hPQ x)⟩

theorem IsFirst.congr {o : Option κ} (h : IsFirst r P o) (hPQ : ∀ x, P x ↔ Q x) :
    IsFirst r Q o := by
  obtain rfl : P = Q := funext fun x => propext (hPQ x)
  exact h

/-- A list starts with the first element. -/
theorem Lists.uncons [Std.Asymm r] (h : Lists r P l)
    (ha : IsFirst r P (some a)) : ∃ l', l = a :: l' ∧ Lists r (fun x => P x ∧ r a x) l' := by
  rcases l with _ | ⟨b, l'⟩
  · exact absurd ((h.mem a).mpr ha.1) not_mem_nil
  obtain ⟨hb, hsorted⟩ := pairwise_cons.mp h.sorted
  obtain rfl : b = a := by
    rcases ha.2 b ((h.mem b).mp mem_cons_self) with heq | hab
    · exact heq
    · rcases mem_cons.mp ((h.mem a).mpr ha.1) with heq | hmem
      · exact heq.symm
      · exact absurd (hb a hmem) (Std.Asymm.asymm _ _ hab)
  refine ⟨l', rfl, hsorted, fun x => ⟨fun hx => ?_, fun ⟨hx, hr⟩ => ?_⟩⟩
  · exact ⟨(h.mem x).mp (mem_cons_of_mem _ hx), hb x hx⟩
  · rcases mem_cons.mp ((h.mem x).mpr hx) with rfl | hmem
    · exact absurd hr (Std.Asymm.asymm _ _ hr)
    · exact hmem

theorem Lists.eq_nil (h : Lists r P l) (hnone : IsFirst r P none) : l = [] :=
  eq_nil_iff_forall_not_mem.mpr fun x hx => hnone x ((h.mem x).mp hx)

/-- The elements and their order determine the list. -/
theorem Lists.unique [Std.Asymm r] {l' : List κ} (h : Lists r P l) (h' : Lists r P l') :
    l = l' := by
  have hnodup : ∀ {l : List κ}, l.Pairwise r → l.Nodup := fun hl =>
    hl.imp fun {a b} hab hne => by
      subst hne
      exact Std.Asymm.asymm _ _ hab hab
  have hperm : l.Perm l' := (perm_ext_iff_of_nodup (hnodup h.sorted) (hnodup h'.sorted)).mpr
    fun x => (h.mem x).trans (h'.mem x).symm
  exact hperm.eq_of_pairwise (fun a b _ _ hab hba => absurd hba (Std.Asymm.asymm _ _ hab))
    h.sorted h'.sorted

/-- What lies below a bound can be listed from the top. -/
theorem exists_lists_desc (P : ℕ → Prop) (s : ℕ) :
    ∃ l, Lists (· > ·) (fun x => x ≤ s ∧ P x) l := by
  classical
  refine ⟨((List.range (s + 1)).filter fun x => decide (P x)).reverse, ?_, fun x => ?_⟩
  · exact pairwise_reverse.mpr (pairwise_lt_range.filter _)
  · rw [mem_reverse, mem_filter, mem_range, decide_eq_true_iff, Nat.lt_succ_iff]

end LinuxKernelTest
