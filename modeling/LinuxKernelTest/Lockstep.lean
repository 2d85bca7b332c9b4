import LinuxKernelTest.Enumeration

/-!
# Two sequences of intervals walked in lockstep

Rows `[lo a, hi a)` and columns `[start b, stop b)` are two sequences of intervals, each in
ascending order. A pair is a hit if the row is accepted and meets the column (`Hit`). A walk along
both sequences finds the hits one by one, in the order of the pairs (`Before`), if it goes on from
a hit with the next row or the next column, whichever of the two ends first.

Each lemma says what one step of such a walk does to the set of hits still to come : from a pair
on (`From`) for a walk upwards, below a pair (`Below`) for a walk downwards.
-/

namespace LinuxKernelTest

/-- Two ascending sequences of intervals, `n` rows and `m` columns. -/
structure Lockstep where
  n : ℕ
  m : ℕ
  accept : ℕ → Prop
  lo : ℕ → ℕ
  hi : ℕ → ℕ
  start : ℕ → ℕ
  stop : ℕ → ℕ
  lo_le_hi : ∀ {a}, a < n → lo a ≤ hi a
  hi_le_lo : ∀ {a a'}, a < a' → a' < n → hi a ≤ lo a'
  start_le_stop : ∀ {b}, b < m → start b ≤ stop b
  stop_le_start : ∀ {b b'}, b < b' → b' < m → stop b ≤ start b'

/-- The order of pairs. -/
def Before (x y : ℕ × ℕ) : Prop := x.1 ≤ y.1 ∧ x.2 ≤ y.2 ∧ x ≠ y

instance : Std.Asymm Before where
  asymm _ _ h h' := h.2.2 (Prod.ext (le_antisymm h.1 h'.1) (le_antisymm h.2.1 h'.2.1))

namespace Lockstep

variable (s : Lockstep) {a b a' b' : ℕ} {x : ℕ × ℕ}

/-- The row of `x` is accepted and meets its column. -/
structure Hit (x : ℕ × ℕ) : Prop where
  row : x.1 < s.n
  col : x.2 < s.m
  accept : s.accept x.1
  start_lt : s.start x.2 < s.hi x.1
  lt_stop : s.lo x.1 < s.stop x.2

/-- The hits from row `a` and column `b` on. -/
def From (a b : ℕ) (x : ℕ × ℕ) : Prop := s.Hit x ∧ a ≤ x.1 ∧ b ≤ x.2

/-- The hits below row `a` and column `b`. -/
def Below (a b : ℕ) (x : ℕ × ℕ) : Prop := s.Hit x ∧ x.1 < a ∧ x.2 < b

theorem from_zero : s.From 0 0 x ↔ s.Hit x :=
  ⟨fun h => h.1, fun h => ⟨h, Nat.zero_le _, Nat.zero_le _⟩⟩

theorem below_all : s.Below s.n s.m x ↔ s.Hit x :=
  ⟨fun h => h.1, fun h => ⟨h, h.row, h.col⟩⟩

variable {s}

/-- In an ascending sequence of intervals both ends ascend. -/
theorem ends_mono {n : ℕ} {lo hi : ℕ → ℕ} (hle : ∀ {a}, a < n → lo a ≤ hi a)
    (hlt : ∀ {a a'}, a < a' → a' < n → hi a ≤ lo a') (h : a ≤ a') (ha' : a' < n) :
    lo a ≤ lo a' ∧ hi a ≤ hi a' := by
  rcases h.eq_or_lt with rfl | hne
  · exact ⟨le_rfl, le_rfl⟩
  · exact ⟨(hle (hne.trans ha')).trans (hlt hne ha'), (hlt hne ha').trans (hle ha')⟩

/-! ## Upwards -/

/-- There is no hit in row `a` : go on with the next row. -/
theorem from_row (h : ∀ x, s.Hit x → x.1 = a → b ≤ x.2 → False) :
    s.From a b x ↔ s.From (a + 1) b x := by
  refine ⟨fun ⟨hx, ha, hb⟩ => ⟨hx, ?_, hb⟩, fun ⟨hx, ha, hb⟩ => ⟨hx, by omega, hb⟩⟩
  rcases ha.eq_or_lt with heq | hlt
  · exact (h x hx heq.symm hb).elim
  · exact hlt

/-- There is no hit in column `b` : go on with the next column. -/
theorem from_col (h : ∀ x, s.Hit x → x.2 = b → a ≤ x.1 → False) :
    s.From a b x ↔ s.From a (b + 1) x := by
  refine ⟨fun ⟨hx, ha, hb⟩ => ⟨hx, ha, ?_⟩, fun ⟨hx, ha, hb⟩ => ⟨hx, ha, by omega⟩⟩
  rcases hb.eq_or_lt with heq | hlt
  · exact (h x hx heq.symm ha).elim
  · exact hlt

theorem from_row_of_not_accept (h : ¬s.accept a) : s.From a b x ↔ s.From (a + 1) b x :=
  from_row fun _ hx ha _ => h (ha ▸ hx.accept)

/-- The row ends before the column starts. -/
theorem from_row_of_le (h : s.hi a ≤ s.start b) :
    s.From a b x ↔ s.From (a + 1) b x :=
  from_row fun y hy ha hle => by
    have := (ends_mono s.start_le_stop s.stop_le_start hle hy.col).1
    have := hy.start_lt
    rw [ha] at this
    omega

/-- The column ends before the row starts. -/
theorem from_col_of_le (h : s.stop b ≤ s.lo a) :
    s.From a b x ↔ s.From a (b + 1) x :=
  from_col fun y hy hb hle => by
    have := (ends_mono s.lo_le_hi s.hi_le_lo hle hy.row).1
    have := hy.lt_stop
    rw [hb] at this
    omega

theorem from_nil_of_row (h : s.n ≤ a) : ¬s.From a b x := fun ⟨hx, ha, _⟩ => by
  have := hx.row
  omega

/-- A hit at `(a, b)` is the first one. -/
theorem isFirst_from (h : s.Hit (a, b)) : IsFirst Before (s.From a b) (some (a, b)) := by
  refine ⟨⟨h, le_rfl, le_rfl⟩, fun x hx => ?_⟩
  by_cases heq : x = (a, b)
  · exact .inl heq
  · exact .inr ⟨hx.2.1, hx.2.2, fun h => heq h.symm⟩

/-- Behind a hit whose row ends first, the hits go on with the next row. -/
theorem from_next_row (hle : s.hi a ≤ s.stop b) :
    s.From a b x ∧ Before (a, b) x ↔ s.From (a + 1) b x := by
  refine ⟨fun ⟨⟨hx, ha, hb⟩, hbefore⟩ => ⟨hx, ?_, hb⟩, fun ⟨hx, ha, hb⟩ =>
    ⟨⟨hx, by omega, hb⟩, by dsimp only; omega, hb,
      fun heq => by rw [← heq] at ha; dsimp only at ha; omega⟩⟩
  rcases ha.eq_or_lt with heq | hlt
  · rcases hb.eq_or_lt with heq' | hlt'
    · exact (hbefore.2.2 (Prod.ext heq heq')).elim
    · have := s.stop_le_start hlt' hx.col
      have := hx.start_lt
      rw [← heq] at this
      omega
  · exact hlt

/-- Behind a hit whose column ends first, the hits go on with the next column. -/
theorem from_next_col (hle : s.stop b ≤ s.hi a) :
    s.From a b x ∧ Before (a, b) x ↔ s.From a (b + 1) x := by
  refine ⟨fun ⟨⟨hx, ha, hb⟩, hbefore⟩ => ⟨hx, ha, ?_⟩, fun ⟨hx, ha, hb⟩ =>
    ⟨⟨hx, ha, by omega⟩, ha, by dsimp only; omega,
      fun heq => by rw [← heq] at hb; dsimp only at hb; omega⟩⟩
  rcases hb.eq_or_lt with heq | hlt
  · rcases ha.eq_or_lt with heq' | hlt'
    · exact (hbefore.2.2 (Prod.ext heq' heq)).elim
    · have := s.hi_le_lo hlt' hx.row
      have := hx.lt_stop
      rw [← heq] at this
      omega
  · exact hlt

/-! ## Downwards -/

theorem below_row (h : ∀ x, s.Hit x → x.1 = a → x.2 < b → False) :
    s.Below (a + 1) b x ↔ s.Below a b x := by
  refine ⟨fun ⟨hx, ha, hb⟩ => ⟨hx, ?_, hb⟩, fun ⟨hx, ha, hb⟩ => ⟨hx, by omega, hb⟩⟩
  rcases (Nat.lt_succ_iff.mp ha).eq_or_lt with heq | hlt
  · exact (h x hx heq hb).elim
  · exact hlt

theorem below_col (h : ∀ x, s.Hit x → x.2 = b → x.1 < a → False) :
    s.Below a (b + 1) x ↔ s.Below a b x := by
  refine ⟨fun ⟨hx, ha, hb⟩ => ⟨hx, ha, ?_⟩, fun ⟨hx, ha, hb⟩ => ⟨hx, ha, by omega⟩⟩
  rcases (Nat.lt_succ_iff.mp hb).eq_or_lt with heq | hlt
  · exact (h x hx heq ha).elim
  · exact hlt

theorem below_row_of_not_accept (h : ¬s.accept a) : s.Below (a + 1) b x ↔ s.Below a b x :=
  below_row fun _ hx ha _ => h (ha ▸ hx.accept)

/-- The column ends before the row starts. -/
theorem below_row_of_le (hb : b < s.m) (h : s.stop b ≤ s.lo a) :
    s.Below (a + 1) (b + 1) x ↔ s.Below a (b + 1) x :=
  below_row fun y hy ha hlt => by
    have := (ends_mono s.start_le_stop s.stop_le_start (Nat.lt_succ_iff.mp hlt) hb).2
    have := hy.lt_stop
    rw [ha] at this
    omega

/-- The row ends before the column starts. -/
theorem below_col_of_le (ha : a < s.n) (h : s.hi a ≤ s.start b) :
    s.Below (a + 1) (b + 1) x ↔ s.Below (a + 1) b x :=
  below_col fun y hy hb hlt => by
    have := (ends_mono s.lo_le_hi s.hi_le_lo (Nat.lt_succ_iff.mp hlt) ha).2
    have := hy.start_lt
    rw [hb] at this
    omega

theorem below_nil_row : ¬s.Below 0 b x := fun ⟨_, ha, _⟩ => Nat.not_lt_zero _ ha

theorem below_nil_col : ¬s.Below a 0 x := fun ⟨_, _, hb⟩ => Nat.not_lt_zero _ hb

theorem isFirst_below (h : s.Hit (a, b)) :
    IsFirst (fun x y => Before y x) (s.Below (a + 1) (b + 1)) (some (a, b)) := by
  refine ⟨⟨h, Nat.lt_succ_self a, Nat.lt_succ_self b⟩, fun x hx => ?_⟩
  by_cases heq : x = (a, b)
  · exact .inl heq
  · exact .inr ⟨Nat.lt_succ_iff.mp hx.2.1, Nat.lt_succ_iff.mp hx.2.2, heq⟩

/-- Before a hit whose row starts last, the hits go on with the row before. -/
theorem below_next_row (h : s.Hit (a, b)) (hle : s.start b ≤ s.lo a) :
    s.Below (a + 1) (b + 1) x ∧ Before x (a, b) ↔ s.Below a (b + 1) x := by
  refine ⟨fun ⟨⟨hx, ha, hb⟩, hbefore⟩ => ⟨hx, ?_, hb⟩, fun ⟨hx, ha, hb⟩ =>
    ⟨⟨hx, by omega, hb⟩, ha.le, Nat.lt_succ_iff.mp hb,
      fun heq => by rw [heq] at ha; exact lt_irrefl _ ha⟩⟩
  rcases (Nat.lt_succ_iff.mp ha).eq_or_lt with heq | hlt
  · rcases (Nat.lt_succ_iff.mp hb).eq_or_lt with heq' | hlt'
    · exact (hbefore.2.2 (Prod.ext heq heq')).elim
    · have := s.stop_le_start hlt' h.col
      have := hx.lt_stop
      rw [heq] at this
      omega
  · exact hlt

/-- Before a hit whose column starts last, the hits go on with the column before. -/
theorem below_next_col (h : s.Hit (a, b)) (hle : s.lo a ≤ s.start b) :
    s.Below (a + 1) (b + 1) x ∧ Before x (a, b) ↔ s.Below (a + 1) b x := by
  refine ⟨fun ⟨⟨hx, ha, hb⟩, hbefore⟩ => ⟨hx, ha, ?_⟩, fun ⟨hx, ha, hb⟩ =>
    ⟨⟨hx, ha, by omega⟩, Nat.lt_succ_iff.mp ha, hb.le,
      fun heq => by rw [heq] at hb; exact lt_irrefl _ hb⟩⟩
  rcases (Nat.lt_succ_iff.mp hb).eq_or_lt with heq | hlt
  · rcases (Nat.lt_succ_iff.mp ha).eq_or_lt with heq' | hlt'
    · exact (hbefore.2.2 (Prod.ext heq' heq)).elim
    · have := s.hi_le_lo hlt' h.row
      have := hx.start_lt
      rw [heq] at this
      omega
  · exact hlt

/-! ## What the hits cover -/

theorem Hit.start_le_stop {x : ℕ × ℕ} (h : s.Hit x) :
    max (s.lo x.1) (s.start x.2) ≤ min (s.hi x.1) (s.stop x.2) :=
  max_le (le_min (s.lo_le_hi h.row) h.lt_stop.le) (le_min h.start_lt.le (s.start_le_stop h.col))

/-- Of two hits, one ends where the other one starts, or before. -/
theorem Hit.apart {x y : ℕ × ℕ} (hy : s.Hit y) (h : Before x y) :
    min (s.hi x.1) (s.stop x.2) ≤ max (s.lo y.1) (s.start y.2) := by
  obtain ⟨hrow, hcol, hne⟩ := h
  rcases hrow.lt_or_eq with hlt | heq
  · exact (min_le_left _ _).trans ((s.hi_le_lo hlt hy.row).trans (le_max_left _ _))
  · have hlt : x.2 < y.2 := lt_of_le_of_ne hcol fun h => hne (Prod.ext heq h)
    exact (min_le_right _ _).trans ((s.stop_le_start hlt hy.col).trans (le_max_right _ _))

/-- The hits cover what is in an accepted row and in a column. -/
theorem exists_hit_iff (p : ℕ) :
    (∃ x, s.Hit x ∧ max (s.lo x.1) (s.start x.2) ≤ p ∧ p < min (s.hi x.1) (s.stop x.2)) ↔
      (∃ a, a < s.n ∧ s.accept a ∧ s.lo a ≤ p ∧ p < s.hi a) ∧
        ∃ b, b < s.m ∧ s.start b ≤ p ∧ p < s.stop b := by
  refine ⟨?_, ?_⟩
  · rintro ⟨x, hx, hle, hlt⟩
    rw [Nat.max_le] at hle
    rw [Nat.lt_min] at hlt
    exact ⟨⟨x.1, hx.row, hx.accept, hle.1, hlt.1⟩, x.2, hx.col, hle.2, hlt.2⟩
  · rintro ⟨⟨a, ha, hacc, hlo, hhi⟩, b, hb, hstart, hstop⟩
    exact ⟨(a, b), ⟨ha, hb, hacc, hstart.trans_lt hhi, hlo.trans_lt hstop⟩, max_le hlo hstart,
      lt_min hhi hstop⟩

end Lockstep

end LinuxKernelTest
