import Mathlib.Tactic

/-!
# Partial maps as lists of segments

A partial map from addresses to attributes that is constant on finitely many intervals is
written as a list of segments, in ascending order and apart from each other (`Within`). `lookup`
is the map such a list stands for.

The lists are edited in place by programs that walk along them, so the edits are written as
recursions over the list : `fill` gives an attribute to the addresses of an interval that have none,
`cut` splits the segment that goes across an address, and leaves the map alone. With a cut at both
ends of an interval every segment lies inside it or outside (`lookup_outside`, `lookup_inside`).
-/

namespace LinuxKernelTest

open List Nat
open Option (none_or or_none some_or)

/-- The addresses from `base` on, `size` of them, with their attribute. -/
structure Seg (α : Type*) where
  base : ℕ
  size : ℕ
  attr : α

namespace Seg

variable {α : Type*} {x : α} {a b c e lo hi m : ℕ} {s t : Seg α} {l l' : List (Seg α)}

/-- The first address behind the segment. -/
def stop (s : Seg α) : ℕ := s.base + s.size

theorem stop_mk (b n : ℕ) (x : α) : stop ⟨b, n, x⟩ = b + n := rfl

/-- The attribute of the address `a`. -/
def lookup : List (Seg α) → ℕ → Option α
  | [], _ => none
  | s :: l, a => if s.base ≤ a ∧ a < s.stop then some s.attr else lookup l a

/-- The number of addresses in a list of segments. -/
def total (l : List (Seg α)) : ℕ := (l.map Seg.size).sum

/-- The segments are not empty, lie between `lo` and `hi`, and each one behind the one before. -/
def Within : ℕ → ℕ → List (Seg α) → Prop
  | lo, hi, [] => lo ≤ hi
  | lo, hi, s :: l => lo ≤ s.base ∧ 0 < s.size ∧ Within s.stop hi l

@[simp] theorem lookup_nil (a : ℕ) : lookup ([] : List (Seg α)) a = none := rfl

theorem lookup_cons (s : Seg α) (l : List (Seg α)) (a : ℕ) :
    lookup (s :: l) a = if s.base ≤ a ∧ a < s.stop then some s.attr else lookup l a := rfl

/-- The first list of segments is asked first. -/
theorem lookup_append (l l' : List (Seg α)) (a : ℕ) :
    lookup (l ++ l') a = (lookup l a).or (lookup l' a) := by
  induction l with
  | nil => rfl
  | cons s l ih =>
    rw [cons_append, lookup_cons, lookup_cons, ih]
    split_ifs <;> rfl

@[simp] theorem total_nil : total ([] : List (Seg α)) = 0 := rfl

@[simp] theorem total_cons (s : Seg α) (l : List (Seg α)) : total (s :: l) = s.size + total l := by
  simp [total]

@[simp] theorem total_append (l l' : List (Seg α)) : total (l ++ l') = total l + total l' := by
  simp [total]

/-- Fewer segments cover no more. -/
theorem total_le_of_sublist (h : l.Sublist l') : total l ≤ total l' := by
  induction h with
  | slnil => exact le_rfl
  | cons s _ ih =>
    rw [total_cons]
    omega
  | cons_cons s _ ih =>
    rw [total_cons, total_cons]
    omega

/-! ## Segments between two bounds -/

variable (h : Within lo hi l)
include h

theorem Within.le : lo ≤ hi := by
  induction l generalizing lo with
  | nil => exact h
  | cons s l ih =>
    have := ih h.2.2
    have := h.1
    unfold stop at *
    omega

/-- Segments stay within wider bounds. -/
theorem Within.mono {lo' hi' : ℕ} (hlo : lo' ≤ lo) (hhi : hi ≤ hi') :
    Within lo' hi' l := by
  induction l generalizing lo lo' with
  | nil => exact (hlo.trans h).trans hhi
  | cons s l ih => exact ⟨hlo.trans h.1, h.2.1, ih h.2.2 le_rfl⟩

omit h in
/-- Two lists of segments follow each other if there is a bound between them. -/
theorem within_append : Within lo hi (l ++ l') ↔ ∃ m, Within lo m l ∧ Within m hi l' := by
  induction l generalizing lo with
  | nil => exact ⟨fun h => ⟨lo, le_rfl, h⟩, fun ⟨_, hm, h⟩ => h.mono hm le_rfl⟩
  | cons s l ih =>
    rw [cons_append]
    refine ⟨fun h => ?_, fun ⟨m, hl, hl'⟩ => ⟨hl.1, hl.2.1, ih.mpr ⟨m, hl.2.2, hl'⟩⟩⟩
    obtain ⟨m, hl, hl'⟩ := ih.mp h.2.2
    exact ⟨m, ⟨h.1, h.2.1, hl⟩, hl'⟩

/-- Leaving out segments leaves the rest in order. -/
theorem Within.sublist (hsub : l'.Sublist l) : Within lo hi l' := by
  induction hsub generalizing lo with
  | slnil => exact h
  | cons s _ ih =>
    exact (ih h.2.2).mono (by have := h.1; unfold stop; omega) le_rfl
  | cons_cons s _ ih => exact ⟨h.1, h.2.1, ih h.2.2⟩

/-- Every segment has elements, all of them within the bounds. -/
theorem Within.bounds (hs : s ∈ l) :
    lo ≤ s.base ∧ 0 < s.size ∧ s.stop ≤ hi := by
  induction l generalizing lo with
  | nil => exact absurd hs not_mem_nil
  | cons t l ih =>
    rcases mem_cons.mp hs with rfl | hs
    · exact ⟨h.1, h.2.1, h.2.2.le⟩
    obtain ⟨hlo, hsize, hhi⟩ := ih h.2.2 hs
    refine ⟨?_, hsize, hhi⟩
    have := h.1
    unfold stop at hlo
    omega

/-- The segments follow each other without overlap. -/
theorem Within.pairwise : l.Pairwise fun s t => s.stop ≤ t.base := by
  induction l generalizing lo with
  | nil => exact .nil
  | cons s l ih =>
    exact pairwise_cons.mpr ⟨fun t ht => (h.2.2.bounds ht).1, ih h.2.2⟩

/-- The segments do not cover more than there is between the bounds. -/
theorem Within.total_le : lo + total l ≤ hi := by
  induction l generalizing lo with
  | nil => exact h
  | cons s l ih =>
    have := ih h.2.2
    have := h.1
    rw [total_cons]
    unfold stop at *
    omega

omit h

/-- The segment with another attribute. -/
def mapAttr (g : α → α) (s : Seg α) : Seg α := ⟨s.base, s.size, g s.attr⟩

/-- Attributes play no part in the order. -/
theorem Within.mapAttr (h : Within lo hi l) (g : α → α) : Within lo hi (l.map (mapAttr g)) := by
  induction l generalizing lo with
  | nil => exact h
  | cons s l ih => exact ⟨h.1, h.2.1, ih h.2.2⟩

/-! ## Segments outside and inside an interval -/

/-- An address is free if no segment has it. -/
theorem lookup_eq_none_iff : lookup l a = none ↔ ∀ s ∈ l, ¬(s.base ≤ a ∧ a < s.stop) := by
  induction l with
  | nil => simp
  | cons s l ih =>
    rw [lookup_cons, forall_mem_cons, ← ih]
    by_cases h : s.base ≤ a ∧ a < s.stop
    · rw [if_pos h]
      exact iff_of_false (Option.some_ne_none _) fun h' => h'.1 h
    · rw [if_neg h]
      exact (and_iff_right h).symm

/-- Segments outside `[b, e)` say nothing about it. -/
theorem lookup_outside (h : ∀ s ∈ l, s.stop ≤ b ∨ e ≤ s.base) (hb : b ≤ a) (he : a < e) :
    lookup l a = none :=
  lookup_eq_none_iff.mpr fun s hs => by
    have := h s hs
    omega

/-- Segments inside `[b, e)` say nothing about what is not in it. -/
theorem lookup_inside (h : ∀ s ∈ l, b ≤ s.base ∧ s.stop ≤ e) (ha : ¬(b ≤ a ∧ a < e)) :
    lookup l a = none :=
  lookup_eq_none_iff.mpr fun s hs => by
    have := h s hs
    omega

theorem Within.lookup_of_lt (h : Within lo hi l) (ha : a < lo) : lookup l a = none :=
  lookup_outside (b := 0) (e := lo) (fun _ hs => .inr (h.bounds hs).1) (zero_le a) ha

theorem Within.lookup_of_le (h : Within lo hi l) (ha : hi ≤ a) : lookup l a = none :=
  lookup_outside (fun _ hs => .inl (h.bounds hs).2.2) ha (lt_succ_self a)

/-- Dropping segments by their attribute frees their addresses. -/
theorem Within.lookup_filter (h : Within lo hi l) (keep : α → Bool) (a : ℕ) :
    lookup (l.filter fun s => keep s.attr) a = (lookup l a).filter keep := by
  induction l generalizing lo with
  | nil => rfl
  | cons s l ih =>
    have hrest := ih h.2.2
    by_cases hin : s.base ≤ a ∧ a < s.stop
    · -- No other segment has `a`.
      rw [h.2.2.lookup_of_lt hin.2] at hrest
      rw [lookup_cons, if_pos hin, filter_cons, Option.filter_some]
      split_ifs
      exacts [(lookup_cons _ _ _).trans (if_pos hin), hrest]
    · rw [lookup_cons, if_neg hin, ← hrest, filter_cons]
      split_ifs
      exacts [(lookup_cons _ _ _).trans (if_neg hin), rfl]

/-- The addresses get the changed attribute. -/
theorem lookup_mapAttr (g : α → α) (l : List (Seg α)) (a : ℕ) :
    lookup (l.map (mapAttr g)) a = (lookup l a).map g := by
  induction l with
  | nil => rfl
  | cons s l ih =>
    rw [map_cons, lookup_cons, lookup_cons, ih, apply_ite (Option.map g)]
    rfl

/-- The number of addresses below `c` that have an attribute. -/
def coveredBelow (m : ℕ → Option α) (c : ℕ) : ℕ := Nat.count (fun a => (m a).isSome) c

/-- The first segment counts up to `c`, and the others count as before. -/
theorem Within.coveredBelow_cons (h : Within lo hi (s :: l)) (c : ℕ) :
    coveredBelow (lookup (s :: l)) c = min s.size (c - s.base) + coveredBelow (lookup l) c := by
  unfold coveredBelow
  induction c with
  | zero => simp
  | succ c ih =>
    have hstop : s.stop = s.base + s.size := rfl
    rw [count_succ, ih, count_succ, lookup_cons]
    by_cases hc : s.base ≤ c ∧ c < s.stop
    · rw [if_pos hc, h.2.2.lookup_of_lt hc.2, if_pos Option.isSome_some, if_neg (by simp)]
      omega
    · rw [if_neg hc]
      omega

/-- The sizes add up to the number of covered addresses. -/
theorem Within.total_eq (h : Within lo hi l) : total l = coveredBelow (lookup l) hi := by
  induction l generalizing lo with
  | nil => simp [coveredBelow]
  | cons s l ih =>
    have hstop : s.base + s.size ≤ hi := h.2.2.le
    rw [h.coveredBelow_cons, ← ih h.2.2, total_cons]
    omega

theorem total_mapAttr (g : α → α) (l : List (Seg α)) : total (l.map (mapAttr g)) = total l := by
  rw [total, map_map]
  rfl

/-- Two segments that touch and have the same attribute are one. -/
theorem lookup_join (hstop : s.stop = t.base) (hattr : s.attr = t.attr) (l l' : List (Seg α))
    (a : ℕ) :
    lookup (l ++ ⟨s.base, s.size + t.size, s.attr⟩ :: l') a = lookup (l ++ s :: t :: l') a := by
  simp only [lookup_append, lookup_cons, ← hattr, stop_mk]
  unfold stop at *
  congr 1
  split_ifs <;> first | rfl | omega

/-- Two adjacent segments may be joined. -/
theorem Within.join (hstop : s.stop = t.base) (h : Within lo hi (l ++ s :: t :: l')) (x : α) :
    Within lo hi (l ++ ⟨s.base, s.size + t.size, x⟩ :: l') := by
  obtain ⟨m, hl, hs, hsize, -, -, hl'⟩ := within_append.mp h
  refine within_append.mpr ⟨m, hl, hs, by simp only; omega, ?_⟩
  rwa [show stop ⟨s.base, s.size + t.size, x⟩ = t.stop by unfold stop at *; dsimp only; omega]

/-! ## Filling an interval -/

/-- The segment `[b, e)`, if it is not empty. -/
def gap (x : α) (b e : ℕ) : List (Seg α) := if b < e then [⟨b, e - b, x⟩] else []

/-- Give `x` to the addresses of `[b, e)` that have no attribute. -/
def fill (x : α) (e : ℕ) : ℕ → List (Seg α) → List (Seg α)
  | b, [] => gap x b e
  | b, s :: l =>
    if e ≤ s.base then gap x b e ++ s :: l
    else if s.stop ≤ b then s :: fill x e b l
    else gap x b s.base ++ s :: fill x e (min s.stop e) l

theorem fill_cons_before (h : e ≤ s.base) (x : α) (b : ℕ) (l : List (Seg α)) :
    fill x e b (s :: l) = gap x b e ++ s :: l :=
  if_pos h

theorem fill_cons_behind (h : s.base < e) (h' : s.stop ≤ b) (x : α) (l : List (Seg α)) :
    fill x e b (s :: l) = s :: fill x e b l := by
  rw [fill, if_neg (not_le.mpr h), if_pos h']

/-- The part before the segment is filled, and filling goes on at its end. -/
theorem fill_cons_overlap (h : s.base < e) (h' : b < s.stop) (x : α) (l : List (Seg α)) :
    fill x e b (s :: l) = gap x b s.base ++ s :: fill x e (min s.stop e) l := by
  rw [fill, if_neg (not_le.mpr h), if_neg (not_le.mpr h')]

/-- A gap covers its addresses and no others. -/
theorem lookup_gap (x : α) (b e a : ℕ) :
    lookup (gap x b e) a = if b ≤ a ∧ a < e then some x else none := by
  unfold gap
  by_cases h : b < e
  · rw [if_pos h, lookup_cons, lookup_nil, stop_mk]
    exact if_congr (by dsimp only; omega) rfl rfl
  · rw [if_neg h, lookup_nil, if_neg (by omega)]

theorem within_gap (hlo : lo ≤ b) (hbe : b ≤ e) : Within lo e (gap x b e) := by
  unfold gap
  split_ifs with h
  · exact ⟨hlo, by dsimp only; omega, by rw [stop_mk]; show _ ≤ e; omega⟩
  · exact hlo.trans hbe

theorem fill_self (x : α) (e : ℕ) (l : List (Seg α)) : fill x e e l = l := by
  have hgap : ∀ {c}, c ≤ e → gap x e c = [] := fun hc => if_neg (not_lt.mpr hc)
  induction l with
  | nil => exact hgap le_rfl
  | cons s l ih =>
    rw [fill]
    split_ifs with h h'
    · rw [hgap le_rfl, nil_append]
    · rw [ih]
    · rw [hgap (by omega), nil_append, min_eq_right (by omega), ih]

/-- Filling keeps the order and the bounds. -/
theorem within_fill (h : Within lo hi l) (hlo : lo ≤ b) (hbe : b ≤ e) (hhi : e ≤ hi) :
    Within lo hi (fill x e b l) := by
  induction l generalizing lo b with
  | nil => exact (within_gap hlo hbe).mono le_rfl hhi
  | cons s l ih =>
    obtain ⟨hs, hsize, hl⟩ := h
    rw [fill]
    split_ifs with hse hsb
    · exact within_append.mpr ⟨e, within_gap hlo hbe, hse, hsize, hl⟩
    · exact ⟨hs, hsize, ih hl hsb hbe⟩
    · have hrest : Within s.stop hi (fill x e (min s.stop e) l) := by
        rcases le_total s.stop e with hle | hle
        · rw [min_eq_left hle]
          exact ih hl le_rfl hle
        · rw [min_eq_right hle, fill_self]
          exact hl
      rcases le_total b s.base with hb | hb
      · exact within_append.mpr ⟨s.base, within_gap hlo hb, le_rfl, hsize, hrest⟩
      · rw [gap, if_neg (not_lt.mpr hb)]
        exact ⟨hs, hsize, hrest⟩

/-- Filling covers what was free in the range, and leaves the rest. -/
theorem lookup_fill (h : Within lo hi l) (hbe : b ≤ e) (a : ℕ) :
    lookup (fill x e b l) a = (lookup l a).or (if b ≤ a ∧ a < e then some x else none) := by
  induction l generalizing lo b with
  | nil => rw [fill, lookup_gap, lookup_nil, none_or]
  | cons s l ih =>
    obtain ⟨-, hsize, hl⟩ := h
    have hbehind : a < s.stop → lookup l a = none := hl.lookup_of_lt
    rcases lt_or_ge s.base e with hse | hse
    case inr =>
      rw [fill_cons_before hse, lookup_append, lookup_gap]
      by_cases hin : b ≤ a ∧ a < e
      · rw [if_pos hin, some_or, lookup_cons, if_neg (by omega),
          hbehind (by unfold stop; omega), none_or]
      · rw [if_neg hin, none_or, or_none]
    rcases lt_or_ge b s.stop with hsb | hsb
    case inr =>
      rw [fill_cons_behind hse hsb, lookup_cons, lookup_cons, ih hl hbe]
      by_cases hin : s.base ≤ a ∧ a < s.stop
      · rw [if_pos hin, if_pos hin, some_or]
      · rw [if_neg hin, if_neg hin]
    rw [fill_cons_overlap hse hsb, lookup_append, lookup_gap, lookup_cons, lookup_cons,
      ih hl (min_le_right _ _)]
    by_cases hin : s.base ≤ a ∧ a < s.stop
    · rw [if_pos hin, if_pos hin, some_or, if_neg (by omega), none_or]
    rw [if_neg hin, if_neg hin]
    rcases lt_or_ge a s.stop with ha | ha
    · -- Before the segment only the gap counts.
      rw [hbehind ha, none_or, none_or, if_neg (show ¬(min s.stop e ≤ a ∧ a < e) by omega), or_none]
      exact if_congr (by omega) rfl rfl
    · rw [if_neg (show ¬(b ≤ a ∧ a < s.base) by unfold stop at ha; omega), none_or]
      exact congrArg _ (if_congr (by omega) rfl rfl)

/-- Filling adds segments and keeps those that are there. -/
theorem sublist_fill (x : α) (e b : ℕ) (l : List (Seg α)) : l.Sublist (fill x e b l) := by
  induction l generalizing b with
  | nil => exact nil_sublist _
  | cons s l ih =>
    rw [fill]
    split_ifs
    · exact sublist_append_right _ _
    · exact (ih b).cons_cons s
    · exact ((ih _).cons_cons s).trans (sublist_append_right _ _)

/-- Filling an interval that meets no segment adds one segment. -/
theorem length_fill_of_outside (h : ∀ s ∈ l, s.stop ≤ b ∨ e ≤ s.base) (hbe : b < e) :
    (fill x e b l).length = l.length + 1 := by
  have hgap : (gap x b e).length = 1 := by rw [gap, if_pos hbe, length_singleton]
  induction l with
  | nil => exact hgap
  | cons s l ih =>
    rw [fill]
    split_ifs with hse hsb
    · rw [length_append, hgap, add_comm]
    · rw [length_cons, ih fun t ht => h t (mem_cons_of_mem s ht), length_cons]
    · have := h s mem_cons_self
      omega

/-! ## Cutting at an address -/

/-- Split the segment that goes across `c`. -/
def cut (c : ℕ) : List (Seg α) → List (Seg α)
  | [] => []
  | s :: l =>
    if s.base < c ∧ c < s.stop then
      ⟨s.base, c - s.base, s.attr⟩ :: ⟨c, s.stop - c, s.attr⟩ :: l
    else s :: cut c l

theorem cut_cons_of_not (h : ¬(s.base < c ∧ c < s.stop)) (l : List (Seg α)) :
    cut c (s :: l) = s :: cut c l :=
  if_neg h

theorem cut_cons_of_lt (h : s.base < c) (h' : c < s.stop) (l : List (Seg α)) :
    cut c (s :: l) = ⟨s.base, c - s.base, s.attr⟩ :: ⟨c, s.stop - c, s.attr⟩ :: l :=
  if_pos ⟨h, h'⟩

theorem cut_of_le (h : ∀ s ∈ l, c ≤ s.base) : cut c l = l := by
  induction l with
  | nil => rfl
  | cons s l ih =>
    have := h s mem_cons_self
    rw [cut_cons_of_not (by omega), ih fun t ht => h t (mem_cons_of_mem s ht)]

/-- A cut changes no attribute of an address. -/
theorem lookup_cut (c : ℕ) (l : List (Seg α)) (a : ℕ) : lookup (cut c l) a = lookup l a := by
  induction l with
  | nil => rfl
  | cons s l ih =>
    by_cases h : s.base < c ∧ c < s.stop
    · obtain ⟨hb, hc⟩ := h
      rw [cut_cons_of_lt hb hc]
      simp only [lookup_cons, stop_mk, Nat.add_sub_cancel' hb.le, Nat.add_sub_cancel' hc.le]
      split_ifs <;> first | rfl | omega
    · rw [cut_cons_of_not h, lookup_cons, lookup_cons, ih]

/-- A cut adds at most one segment. -/
theorem length_cut_le (c : ℕ) (l : List (Seg α)) : (cut c l).length ≤ l.length + 1 := by
  induction l with
  | nil => exact zero_le _
  | cons s l ih =>
    rw [cut]
    split_ifs
    · simp
    · simpa using ih

/-- A cut drops no segment. -/
theorem length_le_cut (c : ℕ) (l : List (Seg α)) : l.length ≤ (cut c l).length := by
  induction l with
  | nil => exact le_rfl
  | cons s l ih =>
    rw [cut]
    split_ifs
    · simp
    · simpa using ih

/-- A segment is split in two at `c`. -/
theorem Within.split (h : Within lo hi (l ++ s :: l')) (hlow : s.base < c) (hhigh : c < s.stop)
    (x y : α) :
    Within lo hi (l ++ ⟨s.base, c - s.base, x⟩ :: ⟨c, s.stop - c, y⟩ :: l') := by
  obtain ⟨m, hl, hs, -, hl'⟩ := within_append.mp h
  refine within_append.mpr ⟨m, hl, hs, Nat.sub_pos_of_lt hlow, ?_, Nat.sub_pos_of_lt hhigh, ?_⟩
  · rw [stop_mk]
    dsimp only
    omega
  · rwa [stop_mk, Nat.add_sub_cancel' hhigh.le]

/-- A cut keeps the order and the bounds. -/
theorem Within.cut (h : Within lo hi l) (c : ℕ) : Within lo hi (cut c l) := by
  induction l generalizing lo with
  | nil => exact h
  | cons s l ih =>
    by_cases hc : s.base < c ∧ c < s.stop
    · rw [cut_cons_of_lt hc.1 hc.2]
      exact Within.split (l := []) h hc.1 hc.2 _ _
    · rw [cut_cons_of_not hc]
      exact ⟨h.1, h.2.1, ih h.2.2⟩

end Seg

end LinuxKernelTest
