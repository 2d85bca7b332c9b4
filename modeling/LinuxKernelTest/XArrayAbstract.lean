import LinuxKernelTest.XArrayApi

/-!
# XArray : the map it stands for

What the normal API is for : a total map from indices to entries, with three marks on each
entry that is there. `XaMap` is that map, `XaMap.call` says what each call does to it and
what it answers.

A reserved index holds the zero entry, which is in the map but which a caller reads as
`NULL` (`xaVisible`).
-/

namespace LinuxKernelTest

/-- What a caller is shown of an entry. -/
def xaVisible (e : XaEntry) : XaEntry := if e = .zero then .null else e

/-- A map from indices to entries, with marks on entries that are there. -/
structure XaMap where
  get : ℕ → XaEntry
  mark : XaMark → ℕ → Bool
  mark_null : ∀ m i, get i = .null → mark m i = false

namespace XaMap

/-- No entry anywhere. -/
def empty : XaMap := ⟨fun _ => .null, fun _ _ => false, fun _ _ _ => rfl⟩

/-- Replace the entry at `i`. An entry that goes takes its marks along, an entry that is
replaced leaves them to the new one. -/
def put (t : XaMap) (i : ℕ) (e : XaEntry) : XaMap where
  get := Function.update t.get i e
  mark m j := if e = .null ∧ j = i then false else t.mark m j
  mark_null m j h := by
    by_cases hj : j = i
    · subst hj
      rw [Function.update_self] at h
      simp [h]
    · rw [Function.update_of_ne hj] at h
      simp [hj, t.mark_null m j h]

/-- Give the mark `m` of the entry at `i` the value `b`. Where there is no entry nothing
happens. -/
def setMark (t : XaMap) (i : ℕ) (m : XaMark) (b : Bool) : XaMap where
  get := t.get
  mark m' j := if t.get i ≠ .null ∧ m' = m ∧ j = i then b else t.mark m' j
  mark_null m' j h := by
    by_cases hj : j = i
    · subst hj
      simp [h, t.mark_null m' j h]
    · simp [hj, t.mark_null m' j h]

/-- What a call does to the map, and what it answers. -/
def call (t : XaMap) : XaOp → XaMap × XaAnswer
  | .store i e =>
    if xaIsAdvanced e then (t, .entry (.error .einval))
    else (t.put i e, .entry (.ok (xaVisible (t.get i))))
  | .erase i => (t.put i .null, .entry (.ok (xaVisible (t.get i))))
  | .insert i e =>
    if xaIsAdvanced e then (t, .errno (some .einval))
    else if t.get i = .null then (t.put i (if e = .null then .zero else e), .errno none)
    else (t, .errno (some .ebusy))
  | .cmpxchg i old e =>
    if xaIsAdvanced e then (t, .entry (.error .einval))
    else (if t.get i = old then t.put i e else t, .entry (.ok (xaVisible (t.get i))))
  | .setMark i m => (t.setMark i m true, .unit)
  | .clearMark i m => (t.setMark i m false, .unit)

end XaMap

/-- A call a caller may make : its index is an `unsigned long`, and its entry is not the
address of a node. -/
def XaOp.Valid : XaOp → Prop
  | .store i e | .insert i e | .cmpxchg i _ e => i < 2 ^ 64 ∧ ∀ n, e ≠ .node n
  | .erase i | .setMark i _ | .clearMark i _ => i < 2 ^ 64

end LinuxKernelTest
