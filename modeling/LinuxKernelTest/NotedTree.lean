import LinuxKernelTest.ColorTree

/-!
# Trees whose nodes note a maximum

Every label has a value, and notes the largest value at or below it. `Exact` says so of all nodes of
a tree. `Noted` says it node by node : a label notes the maximum of its value and of what the roots
of its subtrees note, but for labels in a set `E` that is being brought up to date. With no such
label the two are the same (`exact_iff`).

What a path up needs of the subtree at its lower end is only what the root of the subtree notes
(`noted_plug`), and where the label above is in `E` not even that (`NotedPath.reweight`).
-/

namespace LinuxKernelTest

open WithBot

namespace ColorTree

section

variable {α A : Type*} {note note' : α → A} {d : Side} {c : Color} {a : α}
  {t near far : ColorTree α}

/-- What the root of a tree notes. -/
def weight (note : α → A) : ColorTree α → WithBot A
  | nil => ⊥
  | node _ _ a _ => note a

@[simp] theorem weight_nil : (nil : ColorTree α).weight note = ⊥ := rfl

@[simp] theorem weight_join : (join d c a near far).weight note = note a := by cases d <;> rfl

theorem weight_uncolored : t.uncolored.weight note = t.weight note := by cases t <;> rfl

theorem weight_congr (h : ∀ x ∈ t, note' x = note x) : t.weight note' = t.weight note := by
  cases t with
  | nil => rfl
  | node c l a r => rw [weight, weight, h a (mem_node.mpr (.inl rfl))]

end

variable {α A : Type*} [LinearOrder A]

/-- Every label that is not in `E` notes the maximum of its value and the notes of its children. -/
def Noted (value note : α → A) (E : α → Prop) : ColorTree α → Prop
  | nil => True
  | node _ l a r =>
    (¬E a → (note a : WithBot A) =
      max (value a : WithBot A) (max (l.weight note) (r.weight note))) ∧
      l.Noted value note E ∧ r.Noted value note E

/-- The same on and beside a path up, from a subtree whose root notes `w`. -/
def NotedPath (value note : α → A) (E : α → Prop) : List (Frame α) → WithBot A → Prop
  | [], _ => True
  | f :: k, w =>
    (¬E f.label → (note f.label : WithBot A) =
      max (value f.label : WithBot A) (max w (f.rest.weight note))) ∧
      f.rest.Noted value note E ∧ NotedPath value note E k (note f.label)

/-- Every label notes the largest value at or below it. -/
def Exact (value note : α → A) : ColorTree α → Prop
  | nil => True
  | node c l a r => IsGreatest (value '' {x | x ∈ node c l a r}) (note a) ∧
    l.Exact value note ∧ r.Exact value note

variable {value note note' : α → A} {E E' : α → Prop} {d : Side} {c : Color} {a : α}
  {t near far : ColorTree α} {k : List (Frame α)} {w w' : WithBot A}

@[simp] theorem noted_join : (join d c a near far).Noted value note E ↔
    (¬E a → (note a : WithBot A) =
      max (value a : WithBot A) (max (near.weight note) (far.weight note))) ∧
      near.Noted value note E ∧ far.Noted value note E := by
  cases d
  · exact Iff.rfl
  · rw [join, Noted, max_comm (near.weight note)]
    exact and_congr_right fun _ => and_comm

theorem noted_plug : (plug k t).Noted value note E ↔
    t.Noted value note E ∧ NotedPath value note E k (t.weight note) := by
  induction k generalizing t with
  | nil => simp [plug, NotedPath]
  | cons f k ih =>
    rw [plug, ih, noted_join, weight_join, NotedPath]
    tauto

/-- Labels may join `E`, and labels outside the tree may leave it. -/
theorem Noted.mono (h : t.Noted value note E) (hE : ∀ x ∈ t, E x → E' x) :
    t.Noted value note E' := by
  induction t with
  | nil => trivial
  | node c l a r ihl ihr =>
    exact ⟨fun ha => h.1 fun hx => ha (hE a (mem_node.mpr (.inl rfl)) hx),
      ihl h.2.1 fun x hx => hE x (mem_node.mpr (.inr (.inl hx))),
      ihr h.2.2 fun x hx => hE x (mem_node.mpr (.inr (.inr hx)))⟩

/-- Only the notes in the tree matter. -/
theorem Noted.congr (h : t.Noted value note E) (hnote : ∀ x ∈ t, note' x = note x) :
    t.Noted value note' E := by
  induction t with
  | nil => trivial
  | node c l a r ihl ihr =>
    have hl : ∀ x ∈ l, note' x = note x := fun x hx => hnote x (mem_node.mpr (.inr (.inl hx)))
    have hr : ∀ x ∈ r, note' x = note x := fun x hx => hnote x (mem_node.mpr (.inr (.inr hx)))
    refine ⟨fun ha => ?_, ihl h.2.1 hl, ihr h.2.2 hr⟩
    rw [hnote a (mem_node.mpr (.inl rfl)), weight_congr hl, weight_congr hr]
    exact h.1 ha

variable (h : NotedPath value note E k w) {v : A}
include h

theorem NotedPath.mono (hE : ∀ x, InPath x k → E x → E' x) :
    NotedPath value note E' k w := by
  induction k generalizing w with
  | nil => trivial
  | cons f k ih =>
    exact ⟨fun ha => h.1 fun hx => ha (hE _ (inPath_cons.mpr (.inl rfl)) hx),
      h.2.1.mono fun x hx => hE x (inPath_cons.mpr (.inr (.inl hx))),
      ih h.2.2 fun x hx => hE x (inPath_cons.mpr (.inr (.inr hx)))⟩

theorem NotedPath.congr
    (hnote : ∀ x, InPath x k → note' x = note x) : NotedPath value note' E k w := by
  induction k generalizing w with
  | nil => trivial
  | cons f k ih =>
    have hlabel : note' f.label = note f.label := hnote _ (inPath_cons.mpr (.inl rfl))
    have hrest : ∀ x ∈ f.rest, note' x = note x := fun x hx =>
      hnote x (inPath_cons.mpr (.inr (.inl hx)))
    refine ⟨?_, h.2.1.congr hrest, ?_⟩
    · rw [hlabel, weight_congr hrest]
      exact h.1
    · rw [hlabel]
      exact ih h.2.2 fun x hx => hnote x (inPath_cons.mpr (.inr (.inr hx)))

/-- The label above the lower end need not be right. -/
theorem NotedPath.reweight (hk : ∀ f ∈ k.head?, E f.label) :
    NotedPath value note E k w' := by
  cases k with
  | nil => trivial
  | cons f k => exact ⟨fun ha => absurd (hk f rfl) ha, h.2⟩

omit h

theorem noted_uncolored : t.uncolored.Noted value note E ↔ t.Noted value note E := by
  induction t with
  | nil => rfl
  | node c l a r ihl ihr => simp only [uncolored, Noted, weight_uncolored, ihl, ihr]

/-- A rotation : `new` notes what `old` noted, and `old` the maximum of what is left below it. -/
theorem Noted.rotate {old new : α} {b : ColorTree α}
    (h : (plug k (join d c old (join d c new near t) b)).Noted value note E)
    (hd : (plug k (join d c old (join d c new near t) b)).Distinct) (hE : ¬E old) (hE' : ¬E new)
    (hnew : note' new = note old) (hold : (note' old : WithBot A) =
      max (value old : WithBot A) (max (t.weight note) (b.weight note)))
    (hout : ∀ x, x ≠ old → x ≠ new → note' x = note x) :
    (plug k (join d c new near (join d c old t b))).Noted value note' E := by
  simp only [distinct_plug, distinct_join, mem_join] at hd
  have hnear : ∀ x ∈ near, note' x = note x := fun x hx => hout x (by grind) (by grind)
  have ht : ∀ x ∈ t, note' x = note x := fun x hx => hout x (by grind) (by grind)
  have hb : ∀ x ∈ b, note' x = note x := fun x hx => hout x (by grind) (by grind)
  have hk : ∀ x, InPath x k → note' x = note x := fun x hx => hout x (by grind) (by grind)
  simp only [noted_plug, noted_join, weight_join] at h ⊢
  obtain ⟨⟨hnote, ⟨hinner, hnearN, htN⟩, hbN⟩, hpath⟩ := h
  refine ⟨⟨fun _ => ?_, hnearN.congr hnear, fun _ => ?_, htN.congr ht, hbN.congr hb⟩, ?_⟩
  · rw [hnew, hnote hE, hinner hE', hold, weight_congr hnear]
    simp only [max_assoc, max_comm, max_left_comm]
  · rw [hold, weight_congr ht, weight_congr hb]
  · rw [hnew]
    exact hpath.congr hk

/-- A node with one subtree at most is replaced by it. -/
theorem Noted.cut (h : (plug k (join d c a .nil t)).Noted value note E) (hE : ∀ x, E x → E' x)
    (hk : ∀ f ∈ k.head?, E' f.label) : (plug k t).Noted value note E' := by
  obtain ⟨hjoin, hpath⟩ := noted_plug.mp h
  obtain ⟨-, -, ht⟩ := noted_join.mp hjoin
  exact noted_plug.mpr ⟨ht.mono fun x _ => hE x, (hpath.mono fun x _ => hE x).reweight hk⟩

/-- A label on the way down is raised to a value that is going to be below it. -/
theorem NotedPath.raise (hk : NotedPath value note E k (max (note a : WithBot A) v))
    (h : (join d c a near far).Noted value note E)
    (hd : (plug k (join d c a near far)).Distinct) (hE : ¬E a) (ha : note' a = max (note a) v)
    (hout : ∀ x, x ≠ a → note' x = note x) :
    near.Noted value note' E ∧
      NotedPath value note' E (⟨d, c, a, far⟩ :: k) (max (near.weight note') v) := by
  simp only [distinct_plug, distinct_join, mem_join] at hd
  obtain ⟨hnote, hnear, hfar⟩ := noted_join.mp h
  have hagree : ∀ x ∈ near, note' x = note x := fun x hx => hout x (by grind)
  have hagree' : ∀ x ∈ far, note' x = note x := fun x hx => hout x (by grind)
  refine ⟨hnear.congr hagree, fun _ => ?_, hfar.congr hagree', ?_⟩
  · dsimp only
    rw [ha, coe_max, hnote hE, weight_congr hagree, weight_congr hagree']
    simp only [max_assoc, max_comm, max_left_comm]
  · dsimp only
    rw [ha, coe_max]
    exact hk.congr fun x hx => hout x (by grind)

/-! ## The maximum over a tree -/

/-- The largest value in a tree. -/
def maxValue (value : α → A) : ColorTree α → WithBot A
  | nil => ⊥
  | node _ l a r => max (value a : WithBot A) (max (l.maxValue value) (r.maxValue value))

theorem le_maxValue {x : α} (h : x ∈ t) : (value x : WithBot A) ≤ t.maxValue value := by
  induction t with
  | nil => exact absurd h not_mem_nil
  | node c l a r ihl ihr =>
    rcases mem_node.mp h with rfl | hx | hx
    · exact le_max_left _ _
    · exact (ihl hx).trans ((le_max_left _ _).trans (le_max_right _ _))
    · exact (ihr hx).trans ((le_max_right _ _).trans (le_max_right _ _))

theorem exists_maxValue (h : t.maxValue value ≠ ⊥) :
    ∃ x ∈ t, t.maxValue value = (value x : WithBot A) := by
  induction t with
  | nil => exact absurd rfl h
  | node c l a r ihl ihr =>
    simp only [mem_node]
    rw [maxValue] at h ⊢
    rcases max_choice (value a : WithBot A) (max (l.maxValue value) (r.maxValue value)) with hv | hv
    · exact ⟨a, .inl rfl, hv⟩
    rw [hv] at h ⊢
    rcases max_choice (l.maxValue value) (r.maxValue value) with hv | hv
    · rw [hv] at h ⊢
      obtain ⟨x, hx, hmax⟩ := ihl h
      exact ⟨x, .inr (.inl hx), hmax⟩
    · rw [hv] at h ⊢
      obtain ⟨x, hx, hmax⟩ := ihr h
      exact ⟨x, .inr (.inr hx), hmax⟩

theorem isGreatest_iff :
    IsGreatest (value '' {x | x ∈ t}) v ↔ (v : WithBot A) = t.maxValue value := by
  constructor
  · rintro ⟨⟨x, hx, rfl⟩, hupper⟩
    refine le_antisymm (le_maxValue hx) ?_
    have hne : t.maxValue value ≠ ⊥ := fun hbot =>
      absurd (le_maxValue hx) (by rw [hbot]; exact (bot_lt_coe _).not_ge)
    obtain ⟨y, hy, hmax⟩ := exists_maxValue hne
    rw [hmax]
    exact coe_le_coe.mpr (hupper ⟨y, hy, rfl⟩)
  · intro hv
    have hne : t.maxValue value ≠ ⊥ := hv ▸ coe_ne_bot
    obtain ⟨y, hy, hmax⟩ := exists_maxValue hne
    refine ⟨⟨y, hy, coe_injective (hv.trans hmax).symm⟩, ?_⟩
    rintro _ ⟨x, hx, rfl⟩
    rw [← coe_le_coe, hv]
    exact le_maxValue hx

/-- Node by node or over whole subtrees, it is the same. -/
theorem exact_iff : t.Exact value note ↔ t.Noted value note fun _ => False := by
  have hweight : ∀ t : ColorTree α, t.Exact value note → t.weight note = t.maxValue value := by
    intro t ht
    cases t with
    | nil => rfl
    | node c l a r => exact isGreatest_iff.mp ht.1
  induction t with
  | nil => exact Iff.rfl
  | node c l a r ihl ihr =>
    rw [Exact, Noted, isGreatest_iff, maxValue, ihl.symm, ihr.symm, not_false_eq_true, true_imp_iff]
    refine and_congr_left fun h => ?_
    rw [hweight l h.1, hweight r h.2]

end ColorTree

end LinuxKernelTest
