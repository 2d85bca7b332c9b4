import LinuxKernelTest.XArrayStore
import LinuxKernelTest.XArrayTree

/-!
# XArray : what the nodes hold, and how one step changes it

`Body xa T` says what an array of single-index entries keeps in the nodes of its tree :
counts, the entries of the leaves, the children of the interior nodes. `MarkOk xa T m` says
that the mark `m` of a slot is set exactly where a marked entry lies below.

The code changes such an array in six ways only : a node is attached below another (`Attached`), a
root is put on top (`RootAdded`), an empty node is taken off (`Detached`), the root is taken off
(`RootRemoved`), and a slot of a leaf (`SlotSet`) or the head is assigned. Each of these structures
lists what the step does to every field.
-/

namespace LinuxKernelTest

open Function

/-! ## Slots of a node -/

/-- An entry of the user, as a leaf or the head can hold it, or `NULL`. -/
def xaIsPlain : XaEntry → Bool
  | .null | .value _ | .pointer _ | .zero => true
  | _ => false

/-- A slot that counts. -/
def xaPresent (e : XaEntry) : Bool := e ≠ .null

/-- The number of slots of a node with the property `P`. -/
def slotSum (P : XaEntry → Bool) (f : ℕ → XaEntry) : ℕ :=
  (P (f 0)).toNat + (P (f 1)).toNat + (P (f 2)).toNat + (P (f 3)).toNat

section

variable {P : XaEntry → Bool} {f g : ℕ → XaEntry} {k : ℕ} {e : XaEntry}

theorem xaPresent_eq_true : xaPresent e = true ↔ e ≠ .null := by
  simp [xaPresent]

theorem xaPresent_eq_false : xaPresent e = false ↔ e = .null := by
  simp [xaPresent]

theorem ne_node_of_isPlain (h : xaIsPlain e = true) (c : NodeId) : e ≠ .node c := by
  rintro rfl
  cases h

theorem slotSum_update (hk : k < 4) :
    slotSum P (update f k e) + (P (f k)).toNat = slotSum P f + (P e).toNat := by
  unfold slotSum
  interval_cases k <;> simp <;> omega

theorem slotSum_le : slotSum P f ≤ 4 := by
  have := Bool.toNat_le (P (f 0))
  have := Bool.toNat_le (P (f 1))
  have := Bool.toNat_le (P (f 2))
  have := Bool.toNat_le (P (f 3))
  unfold slotSum
  omega

theorem slotSum_eq_zero_iff : slotSum P f = 0 ↔ ∀ k < 4, P (f k) = false := by
  constructor
  · intro h k hk
    unfold slotSum at h
    have hz : (P (f k)).toNat = 0 := by interval_cases k <;> omega
    exact Bool.toNat_eq_zero.mp hz
  · intro h
    simp [slotSum, h 0, h 1, h 2, h 3]

theorem slotSum_single (h : ∀ k < 4, k ≠ 0 → P (f k) = false) :
    slotSum P f = (P (f 0)).toNat := by
  simp [slotSum, h 1, h 2, h 3]

theorem slotSum_eq_one (h : slotSum P f = 1) (h0 : P (f 0) = true) :
    ∀ k < 4, k ≠ 0 → P (f k) = false := by
  intro k hk hk0
  simp only [slotSum, h0, Bool.toNat_true] at h
  have hz : (P (f k)).toNat = 0 := by interval_cases k <;> omega
  exact Bool.toNat_eq_zero.mp hz

end

/-! ## The nodes and their marks -/

/-- The nodes of the tree `T` hold single-index entries and count them. -/
structure Body (xa : XArray) (T : Layout) : Prop extends IsTree xa T where
  count : ∀ {l p n}, T l p = some n → xa.count n = slotSum xaPresent (xa.slots n)
  nrValues : ∀ {l p n}, T l p = some n → xa.nrValues n = slotSum xaIsValue (xa.slots n)
  interior : ∀ {l p n}, T (l + 1) p = some n → ∀ k < 4,
    xa.slots n k = .null ∨ ∃ c, xa.slots n k = .node c
  leafSlot : ∀ {p n}, T 0 p = some n → ∀ k < 4, xaIsPlain (xa.slots n k) = true
  headSlot : xaIsPlain xa.xaHead = true ∨ ∃ r, xa.xaHead = .node r

/-- The mark `m` is exact at every slot of an interior node and at the head. -/
structure MarkOk (xa : XArray) (T : Layout) (m : XaMark) : Prop where
  interior : ∀ {l p n}, T (l + 1) p = some n → ∀ k < 4,
    (xa.marks n m k = true ↔ ∃ c, xa.slots n k = .node c ∧ nodeAnyMark xa c m = true)
  leaf : ∀ {p n}, T 0 p = some n → ∀ k < 4, xa.marks n m k = true → xa.slots n k ≠ .null
  top : ∀ {r}, xa.xaHead = .node r → xa.xaMarked m = nodeAnyMark xa r m
  bare : xa.xaHead = .null → xa.xaMarked m = false

theorem nodeAnyMark_iff {xa : XArray} {n : NodeId} {m : XaMark} :
    nodeAnyMark xa n m = true ↔ ∃ k < 4, xa.marks n m k = true := by
  constructor
  · intro h
    simp only [nodeAnyMark, Bool.or_eq_true] at h
    rcases h with ((h | h) | h) | h
    exacts [⟨0, by norm_num, h⟩, ⟨1, by norm_num, h⟩, ⟨2, by norm_num, h⟩, ⟨3, by norm_num, h⟩]
  · rintro ⟨k, hk, h⟩
    interval_cases k <;> simp [nodeAnyMark, h]

theorem nodeAnyMark_congr {xa xa' : XArray} {n : NodeId} {m : XaMark}
    (h : xa'.marks n = xa.marks n) : nodeAnyMark xa' n m = nodeAnyMark xa n m := by
  simp [nodeAnyMark, h]

/-- What the tree answers at the index `i` : `f` at the slot of the leaf that covers `i`,
`top` at index `0` of an array without nodes, and `none` elsewhere. -/
def readAt {β : Type*} (xa : XArray) (T : Layout) (f : NodeId → ℕ → β) (top none : β) (i : ℕ) :
    β :=
  match T 0 (i / 4) with
  | some n => f n (i % 4)
  | Option.none => if i = 0 ∧ xaIsNode xa.xaHead = false then top else none

/-- The entry at index `i`. -/
def entryAt (xa : XArray) (T : Layout) (i : ℕ) : XaEntry :=
  readAt xa T xa.slots xa.xaHead .null i

/-- The mark `m` at index `i`. -/
def markAt (xa : XArray) (T : Layout) (m : XaMark) (i : ℕ) : Bool :=
  readAt xa T (fun n => xa.marks n m) (xa.xaMarked m) false i

theorem xaIsNode_eq_false {e : XaEntry} : xaIsNode e = false ↔ ∀ c, e ≠ .node c := by
  cases e <;> simp [xaIsNode]

section

variable {β : Type*} {xa xa' : XArray} {T T' : Layout} {f f' : NodeId → ℕ → β} {top top' d : β}
  {i p : ℕ} {n : NodeId}

theorem readAt_leaf (hn : T 0 (i / 4) = some n) : readAt xa T f top d i = f n (i % 4) := by
  simp [readAt, hn]

theorem readAt_none (hn : T 0 (i / 4) = none) (hi : i ≠ 0 ∨ ∃ r, xa.xaHead = .node r) :
    readAt xa T f top d i = d := by
  rcases hi with hi | ⟨r, hr⟩
  · simp [readAt, hn, hi]
  · simp [readAt, hn, hr, xaIsNode]

theorem readAt_head (h : IsTree xa T) (hhead : ∀ r, xa.xaHead ≠ .node r) :
    readAt xa T f top d 0 = top := by
  simp [readAt, h.eq_none_of_head hhead, xaIsNode_eq_false.mpr hhead]

/-- Same leaves, same answers. -/
theorem readAt_congr (hT : T' 0 = T 0) (hhead : xaIsNode xa'.xaHead = xaIsNode xa.xaHead)
    (hf : ∀ {p n}, T 0 p = some n → ∀ k < 4, f' n k = f n k) (htop : top' = top) :
    readAt xa' T' f' top' d i = readAt xa T f top d i := by
  unfold readAt
  rw [hT, hhead, htop]
  cases hn : T 0 (i / 4) with
  | none => rfl
  | some n => exact hf hn _ (by omega)

end

/-! ## The steps -/

/-- The flags and the allocator's answers are the same. -/
structure SameFlags (xa xa' : XArray) : Prop where
  trackFree : xa'.trackFree = xa.trackFree
  zeroBusy : xa'.zeroBusy = xa.zeroBusy
  kmemFails : xa'.kmemFails = xa.kmemFails

/-- The content of the node `m` is the same in `xa'` as in `xa`. -/
structure KeepsContent (xa xa' : XArray) (m : NodeId) : Prop where
  slots : xa'.slots m = xa.slots m
  count : xa'.count m = xa.count m
  nrValues : xa'.nrValues m = xa.nrValues m

/-- `xa'` is `xa` with the new empty node `n` of level `l` in slot `k` of `q`. -/
structure Attached (xa xa' : XArray) (l : ℕ) (q : NodeId) (k : ℕ) (n : NodeId) : Prop where
  kmem : xa.kmemNext ≤ xa'.kmemNext ∧ n < xa'.kmemNext
  flags : SameFlags xa xa'
  head : xa'.xaHead = xa.xaHead
  marked : xa'.xaMarked = xa.xaMarked
  keep : ∀ m, m ≠ n → KeepsNode xa xa' m
  content : ∀ m, m ≠ n → m ≠ q → KeepsContent xa xa' m
  freed : xa'.freed n = false
  shift : xa'.shift n = 2 * l
  parent : xa'.parent n = some q
  offset : xa'.offset n = k
  slotsNew : ∀ j, xa'.slots n j = .null
  countNew : xa'.count n = 0
  nrValuesNew : xa'.nrValues n = 0
  slots : xa'.slots q = update (xa.slots q) k (.node n)
  count : xa'.count q = xa.count q + 1
  nrValues : xa'.nrValues q = xa.nrValues q
  marksNew : ∀ m j, xa'.marks n m j = false
  marks : ∀ c, c ≠ n → xa'.marks c = xa.marks c

/-- `xa'` is `xa` with the new root `n` of level `l`, the old head in its slot `0`. -/
structure RootAdded (xa xa' : XArray) (l : ℕ) (n : NodeId) : Prop where
  kmem : xa.kmemNext ≤ xa'.kmemNext ∧ n < xa'.kmemNext
  flags : SameFlags xa xa'
  head : xa'.xaHead = .node n
  marked : xa'.xaMarked = xa.xaMarked
  keep : ∀ m, m ≠ n → xa.xaHead ≠ .node m → KeepsNode xa xa' m
  oldRoot : ∀ r, xa.xaHead = .node r → xa'.shift r = xa.shift r ∧ xa'.freed r = xa.freed r ∧
    xa'.parent r = some n ∧ xa'.offset r = 0
  content : ∀ m, m ≠ n → KeepsContent xa xa' m
  freed : xa'.freed n = false
  shift : xa'.shift n = 2 * l
  parent : xa'.parent n = none
  slotZero : xa'.slots n 0 = xa.xaHead
  slotsNew : ∀ j, j ≠ 0 → xa'.slots n j = .null
  countNew : xa'.count n = (xaPresent xa.xaHead).toNat
  nrValuesNew : xa'.nrValues n = (xaIsValue xa.xaHead).toNat
  markZero : ∀ m, xa'.marks n m 0 = xa.xaMarked m
  marksNew : ∀ m j, j ≠ 0 → xa'.marks n m j = false
  marks : ∀ c, c ≠ n → xa'.marks c = xa.marks c

/-- `xa'` is `xa` without the node `n`, which slot `k` of `q` held. -/
structure Detached (xa xa' : XArray) (q : NodeId) (k : ℕ) (n : NodeId) : Prop where
  kmem : xa'.kmemNext = xa.kmemNext
  flags : SameFlags xa xa'
  head : xa'.xaHead = xa.xaHead
  marked : xa'.xaMarked = xa.xaMarked
  keep : ∀ m, m ≠ n → KeepsNode xa xa' m
  content : ∀ m, m ≠ n → m ≠ q → KeepsContent xa xa' m
  slots : xa'.slots q = update (xa.slots q) k .null
  count : xa'.count q = xa.count q - 1
  nrValues : xa'.nrValues q = xa.nrValues q
  marks : xa'.marks = xa.marks

/-- `xa'` is `xa` without its root `r`, whose slot `0` becomes the head. -/
structure RootRemoved (xa xa' : XArray) (r : NodeId) : Prop where
  kmem : xa'.kmemNext = xa.kmemNext
  flags : SameFlags xa xa'
  head : xa'.xaHead = xa.slots r 0
  marked : xa'.xaMarked = xa.xaMarked
  keep : ∀ m, m ≠ r → xa.slots r 0 ≠ .node m → KeepsNode xa xa' m
  newRoot : ∀ c, xa.slots r 0 = .node c → xa'.shift c = xa.shift c ∧ xa'.freed c = xa.freed c ∧
    xa'.parent c = none
  content : ∀ m, m ≠ r → KeepsContent xa xa' m
  marks : xa'.marks = xa.marks

/-- `xa'` is `xa` with `e` in slot `k` of `n`, counted. -/
structure SlotSet (xa xa' : XArray) (n : NodeId) (k : ℕ) (e : XaEntry) : Prop where
  kmem : xa'.kmemNext = xa.kmemNext
  flags : SameFlags xa xa'
  head : xa'.xaHead = xa.xaHead
  marked : xa'.xaMarked = xa.xaMarked
  keep : ∀ m, KeepsNode xa xa' m
  content : ∀ m, m ≠ n → KeepsContent xa xa' m
  slots : xa'.slots n = update (xa.slots n) k e
  count : xa'.count n + (xaPresent (xa.slots n k)).toNat = xa.count n + (xaPresent e).toNat
  nrValues : xa'.nrValues n + (xaIsValue (xa.slots n k)).toNat =
    xa.nrValues n + (xaIsValue e).toNat
  marks : xa'.marks = xa.marks
  prev : xa'.prev = xa.prev
  next : xa'.next = xa.next

end LinuxKernelTest
