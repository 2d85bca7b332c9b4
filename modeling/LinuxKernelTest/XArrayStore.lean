import LinuxKernelTest.XArrayWalk

/-!
# XArray : creating slots, storing, marking and deleting

The functions of `lib/xarray.c` that change the tree : `xas_shrink`, `xas_delete_node`,
`xas_free_nodes`, `xas_expand`, `xas_create`, `xas_store` and the marks. A function with
a loop answers `none` only when the loop uses up `xaFuel` (or, in `xas_free_nodes`, when
the source would follow a `NULL` parent).
-/

namespace LinuxKernelTest

/-! ## Marks -/

/-- `XA_FREE_MARK` -/
abbrev xaFreeMark : XaMark := 0

/-- The marks in the order of `mark_inc`. -/
def xaMarks : List XaMark := [0, 1, 2]

variable (xa : XArray)

/-- `node_any_mark` -/
def nodeAnyMark (n : NodeId) (m : XaMark) : Bool :=
  xa.marks n m 0 || xa.marks n m 1 || xa.marks n m 2 || xa.marks n m 3

/-- `node_mark_all` -/
def nodeMarkAll (n : NodeId) (m : XaMark) : XArray :=
  (((xa.setMark n m 0 true).setMark n m 1 true).setMark n m 2 true).setMark n m 3 true

variable (xas : XaState)

variable (m : XaMark)

/-- `xas_get_mark` -/
def xasGetMark : Bool :=
  match xas.xaNode with
  | .null => xa.xaMarked m
  | .node n => xa.marks n m xas.xaOffset
  | _ => false

/-- One round of the walk of `xas_set_mark` towards the head. -/
def setMarkRound :
    XArray × Option NodeId × ℕ → Round (XArray × Option NodeId × ℕ) XArray
  | (xa, none, _) => .done (xa.setMarked m true)
  | (xa, some n, k) =>
    if xa.marks n m k then .done xa
    else .again (xa.setMark n m k true, xa.parent n, xa.offset n)

/-- `xas_set_mark` -/
def xasSetMark : Option XArray :=
  if xasInvalid xas then some xa
  else runLoop (setMarkRound m) xaFuel (xa, xas.xaNode.toPtr, xas.xaOffset)

/-- One round of the walk of `xas_clear_mark` towards the head. -/
def clearMarkRound :
    XArray × Option NodeId × ℕ → Round (XArray × Option NodeId × ℕ) XArray
  | (xa, none, _) => .done (xa.setMarked m false)
  | (xa, some n, k) =>
    if ¬xa.marks n m k then .done xa
    else if nodeAnyMark (xa.setMark n m k false) n m then .done (xa.setMark n m k false)
    else .again (xa.setMark n m k false, xa.parent n, xa.offset n)

/-- `xas_clear_mark` -/
def xasClearMark : Option XArray :=
  if xasInvalid xas then some xa
  else runLoop (clearMarkRound m) xaFuel (xa, xas.xaNode.toPtr, xas.xaOffset)

/-- `xas_init_marks` -/
def xasInitMarks : Option XArray :=
  xaMarks.foldlM (fun xa m =>
    if xa.trackFree ∧ m = xaFreeMark then xasSetMark xa xas m else xasClearMark xa xas m) xa

/-- Clear the bits `k, …, k + len - 1` of a mark. -/
def bitmapClear (xa : XArray) (n : NodeId) (m : XaMark) (k : ℕ) : ℕ → XArray
  | 0 => xa
  | len + 1 => (bitmapClear xa n m k len).setMark n m (k + len) false

/-- `xas_squash_marks` with `xas->xa_node = n` -/
def xasSquashMarks (n : NodeId) : XArray :=
  if xas.xaSibs = 0 then xa
  else
    xaMarks.foldl (fun xa m =>
      if (List.range xas.xaSibs).any fun j => xa.marks n m (xas.xaOffset + 1 + j) then
        bitmapClear (xa.setMark n m xas.xaOffset true) n m (xas.xaOffset + 1) xas.xaSibs
      else xa) xa

/-! ## Sizes -/

/-- `xas_size` -/
def xasSize : ℕ := ((xas.xaSibs + 1) <<< xas.xaShift) % 2 ^ 64

/-- `xas_max` -/
def xasMax : ℕ :=
  if xas.xaShift ≠ 0 ∨ xas.xaSibs ≠ 0 then
    let mask := (xasSize xas + ulongMax) % 2 ^ 64
    let max := xas.xaIndex ||| mask
    if mask = max then (max + 1) % 2 ^ 64 else max
  else xas.xaIndex

/-- `max_index` -/
def maxIndex : XaEntry → ℕ
  | .node n => ((xaChunkSize <<< xa.shift n) % 2 ^ 64 + ulongMax) % 2 ^ 64
  | _ => 0

/-! ## Shrinking and deleting -/

/-- One round of `xas_shrink` at the root `node`. -/
def shrinkRound :
    XArray × XaState × NodeId → Round (XArray × XaState × NodeId) (XArray × XaState)
  | (xa, xas, node) =>
    if xa.count node ≠ 1 then .done (xa, xas)
    else
      let entry := xa.slots node 0
      if entry = .null then .done (xa, xas)
      else if ¬xaIsNode entry ∧ xa.shift node ≠ 0 then .done (xa, xas)
      else
        let entry := if xaIsZero entry ∧ xa.zeroBusy then .null else entry
        let xas := { xas with xaNode := .bounds }
        let xa := xa.setHead entry
        let xa :=
          if xa.trackFree ∧ ¬xa.marks node xaFreeMark 0 then xa.setMarked xaFreeMark false
          else xa
        let xa := (xa.setCount node 0).setNrValues node 0
        let xa := if ¬xaIsNode entry then xa.setSlot node 0 .retry else xa
        let xa := xaNodeFree (xasNodeDeleteLink xa node) node
        match entry with
        | .node child => .again (xa.setParent child none, xas, child)
        | _ => .done (xa, xas)

/-- `xas_shrink` with `xas->xa_node = node` -/
def xasShrink (node : NodeId) : Option (XArray × XaState) :=
  runLoop shrinkRound xaFuel (xa, xas, node)

/-- One round of `xas_delete_node`. The loop ends at a node that is not empty, or with
`none` once the root is gone. -/
def deleteRound : XArray × XaState × NodeId →
    Round (XArray × XaState × NodeId) (XArray × XaState × Option NodeId)
  | (xa, xas, node) =>
    if xa.count node ≠ 0 then .done (xa, xas, some node)
    else
      let parent := xa.parent node
      let xas := { xas with xaNode := .ofPtr parent, xaOffset := xa.offset node }
      let xa := xaNodeFree (xasNodeDeleteLink xa node) node
      match parent with
      | none => .done (xa.setHead .null, { xas with xaNode := .bounds }, none)
      | some p =>
        .again ((xa.setSlot p xas.xaOffset .null).setCount p ((xa.count p + 255) % 256), xas, p)

/-- `xas_delete_node` with `xas->xa_node = node` -/
def xasDeleteNode (node : NodeId) : Option (XArray × XaState) :=
  (runLoop deleteRound xaFuel (xa, xas, node)).bind fun
    | (xa, xas, none) => some (xa, xas)
    | (xa, xas, some node) =>
      if xa.parent node = none then xasShrink xa xas node else some (xa, xas)

/-- One round of `xas_free_nodes`. The source tests `offset == XA_CHUNK_SIZE` in an inner
loop right after each `offset++`; here the test opens the round. -/
def freeNodesRound (top : NodeId) :
    XArray × NodeId × ℕ → Round (XArray × NodeId × ℕ) (Option XArray)
  | (xa, node, offset) =>
    if offset = xaChunkSize then
      let parent := xa.parent node
      let offset := xa.offset node + 1
      let xa := (xa.setCount node 0).setNrValues node 0
      let xa := xaNodeFree (xasNodeDeleteLink xa node) node
      if node = top then .done (some xa)
      else
        match parent with
        | none => .done none
        | some p => .again (xa, p, offset)
    else
      let entry := xa.slots node offset
      match entry with
      | .node c =>
        if xa.shift node ≠ 0 then .again (xa, c, 0)
        else .again (xa.setSlot node offset .retry, node, offset + 1)
      | .null => .again (xa, node, offset + 1)
      | _ => .again (xa.setSlot node offset .retry, node, offset + 1)

/-- `xas_free_nodes` -/
def xasFreeNodes (top : NodeId) : Option XArray :=
  (runLoop (freeNodesRound top) xaFuel (xa, top, 0)).join

/-! ## Growing and creating -/

/-- The first loop of `xas_expand` : the shift of the root that covers `max`. -/
def expandShift (max : ℕ) : Option ℕ :=
  runLoop (fun shift => if max >>> shift ≥ xaChunkSize then .again (shift + 2) else .done shift)
    xaFuel 0

/-- The round of the mark loop of `xas_expand` for one mark. -/
def expandMark (node : NodeId) (xa : XArray) (m : XaMark) : XArray :=
  if xa.trackFree ∧ m = xaFreeMark then
    let xa := nodeMarkAll xa node xaFreeMark
    if ¬xa.xaMarked xaFreeMark then
      (xa.setMark node xaFreeMark 0 false).setMarked xaFreeMark true
    else xa
  else if xa.xaMarked m then xa.setMark node m 0 true
  else xa

/-- The state of the loop of `xas_expand`. -/
structure ExpandState where
  xa : XArray
  xas : XaState
  head : XaEntry
  node : Option NodeId
  shift : ℕ

/-- The node `n` becomes the root above the old head. -/
def expandRoot (xa : XArray) (n : NodeId) (head : XaEntry) : XArray :=
  let xa := xa.setCount n 1
  let xa := if xaIsValue head then xa.setNrValues n 1 else xa
  let xa := xa.setSlot n 0 head
  let xa := xaMarks.foldl (expandMark n) xa
  let xa :=
    match head with
    | .node h =>
      (((xa.setOffset h 0).setParent h (some n)).setPrev n (some h)).setNext n (some h)
    | _ => xa
  xa.setHead (.node n)

/-- One round of `xas_expand` : put a new node on top of the tree. The result `none` is
`-ENOMEM`. -/
def expandRound (max : ℕ) (s : ExpandState) :
    Round ExpandState (Option (XArray × XaState × Option ℕ)) :=
  if max > maxIndex s.xa s.head then
    match xasAlloc s.xa s.xas s.shift with
    | none => .done none
    | some (xa, xas, none) => .done (some (xa, xas, none))
    | some (xa, xas, some n) =>
      .again ⟨expandRoot xa n s.head, xas, .node n, some n, s.shift + 2⟩
  else .done (some (s.xa, { s.xas with xaNode := .ofPtr s.node }, some s.shift))

/-- `xas_expand`. The shift `none` is `-ENOMEM`. -/
def xasExpand (head : XaEntry) : Option (XArray × XaState × Option ℕ) :=
  let max := xasMax xas
  match head with
  | .null =>
    if max = 0 then some (xa, xas, some 0)
    else (expandShift max).map fun shift => (xa, xas, some (shift + 2))
  | .node n =>
    (runLoop (expandRound max) xaFuel
      ⟨xa, { xas with xaNode := .null }, head, some n, xa.shift n + 2⟩).join
  | _ =>
    (runLoop (expandRound max) xaFuel ⟨xa, { xas with xaNode := .null }, head, none, 0⟩).join

/-- The target of the pointer `slot` of `xas_create` and `xas_store`. -/
inductive SlotPtr
  | head
  | slot (n : NodeId) (k : ℕ)

/-- `rcu_assign_pointer(*slot, entry)` -/
def assignSlot (entry : XaEntry) : SlotPtr → XArray
  | .head => xa.setHead entry
  | .slot n k => xa.setSlot n k entry

/-- The state of the loop of `xas_create`. -/
structure CreateState where
  xa : XArray
  xas : XaState
  entry : XaEntry
  slot : SlotPtr
  shift : ℕ

/-- One round of `xas_create` : step down, through a new node where the slot is empty. -/
def createRound (s : CreateState) :
    Round CreateState (Option (XArray × XaState × XaEntry)) :=
  if s.shift > s.xas.xaShift then
    match s.entry with
    | .null =>
      match xasAlloc s.xa s.xas (s.shift - 2) with
      | none => .done none
      | some (xa, xas, none) => .done (some (xa, xas, .null))
      | some (xa, xas, some n) =>
        let xa := if xa.trackFree then nodeMarkAll xa n xaFreeMark else xa
        let xa := assignSlot xa (.node n) s.slot
        let (entry, xas) := xasDescend xa xas n
        .again ⟨xa, xas, entry, .slot n xas.xaOffset, s.shift - 2⟩
    | .node n =>
      let (entry, xas) := xasDescend s.xa s.xas n
      .again ⟨s.xa, xas, entry, .slot n xas.xaOffset, s.shift - 2⟩
    | entry => .done (some (s.xa, s.xas, entry))
  else .done (some (s.xa, s.xas, s.entry))

/-- The loop of `xas_create`. -/
def createLoop (s : CreateState) : Option (XArray × XaState × XaEntry) :=
  (runLoop createRound xaFuel s).join

/-- `xas_create` -/
def xasCreate (allowRoot : Bool) : Option (XArray × XaState × XaEntry) :=
  match xas.xaNode with
  | .error _ => some (xa, xas, .null)
  | .node n =>
    createLoop ⟨xa, xas, xa.slots n xas.xaOffset, .slot n xas.xaOffset, xa.shift n⟩
  | .null | .bounds | .restart =>
    let entry := if xa.xaHead = .null ∧ xa.zeroBusy then .zero else xa.xaHead
    (xasExpand xa { xas with xaNode := .null } entry).bind fun
      | (xa, xas, none) => some (xa, xas, .null)
      | (xa, xas, some shift) =>
        let shift := if shift = 0 ∧ ¬allowRoot then 2 else shift
        createLoop ⟨xa, xas, xa.xaHead, .head, shift⟩

/-! ## Storing -/

/-- An `unsigned char` field plus an `int`. -/
def addU8 (c : ℕ) (d : ℤ) : ℕ := (((c : ℤ) + d) % 256).toNat

/-- `update_node` -/
def updateNode (node : Option NodeId) (count values : ℤ) : Option (XArray × XaState) :=
  match node with
  | none => some (xa, xas)
  | some n =>
    if count = 0 ∧ values = 0 then some (xa, xas)
    else
      let xa := (xa.setCount n (addU8 (xa.count n) count)).setNrValues n
        (addU8 (xa.nrValues n) values)
      if count < 0 then xasDeleteNode xa xas n else some (xa, xas)

/-- `!p` as an `int`. -/
def notInt (b : Bool) : ℤ := if b then 0 else 1

/-- The state of the loop of `xas_store`. -/
structure StoreState where
  xa : XArray
  entry : XaEntry
  next : XaEntry
  first : XaEntry
  offset : ℕ
  count : ℤ
  values : ℤ

/-- One round of `xas_store` at `xas->xa_node = node`, with `value` and `max` fixed before
the loop. The result carries the array, `first`, `count` and `values`. -/
def storeRound (node : Option NodeId) (value : Bool) (max : ℕ)
    (s : StoreState) : Round StoreState (Option (XArray × XaEntry × ℤ × ℤ)) :=
  let xa := assignSlot s.xa s.entry (match node with | none => .head | some n => .slot n s.offset)
  let freed :=
    match s.next with
    | .node c =>
      match node with
      | none => xasFreeNodes xa c
      | some n => if xa.shift n ≠ 0 then xasFreeNodes xa c else some xa
    | _ => some xa
  match freed with
  | none => .done none
  | some xa =>
    match node with
    | none => .done (some (xa, s.first, s.count, s.values))
    | some n =>
      let count := s.count + notInt (s.next ≠ .null) - notInt (s.entry ≠ .null)
      let values := s.values + notInt (xaIsValue s.first) - notInt value
      if s.entry ≠ .null ∧ s.offset = max then .done (some (xa, s.first, count, values))
      else if s.entry = .null ∧ s.offset = xaChunkMask then
        .done (some (xa, s.first, count, values))
      else
        let entry :=
          if s.entry ≠ .null ∧ ¬xaIsSibling s.entry then .sibling xas.xaOffset else s.entry
        let next := xa.slots n (s.offset + 1)
        if ¬xaIsSibling next ∧ entry = .null ∧ s.offset + 1 > max then
          .done (some (xa, s.first, count, values))
        else
          .again ⟨xa, entry, next, if xaIsSibling next then s.first else next, s.offset + 1,
            count, values⟩

/-- `xas_store` after the slot was found or created : `first` is its content. -/
def xasStoreAt (entry first : XaEntry) : Option (XArray × XaState × XaEntry) :=
  if xasInvalid xas then some (xa, xas, first)
  else
    let node := xas.xaNode.toPtr
    let xas :=
      match node with
      | some n => if xas.xaShift < xa.shift n then { xas with xaSibs := 0 } else xas
      | none => xas
    if first = entry ∧ xas.xaSibs = 0 then some (xa, xas, first)
    else
      let xa :=
        match node with
        | some n => xasSquashMarks xa xas n
        | none => xa
      (if entry = .null then xasInitMarks xa xas else some xa).bind fun xa =>
        (runLoop (storeRound xas node (xaIsValue entry) (xas.xaOffset + xas.xaSibs)) xaFuel
          ⟨xa, entry, first, first, xas.xaOffset, 0, 0⟩).join.bind fun
            | (xa, first, count, values) =>
              (updateNode xa xas node count values).map fun
                | (xa, xas) => (xa, xas, first)

/-- `xas_store` -/
def xasStore (entry : XaEntry) : Option (XArray × XaState × XaEntry) :=
  if entry = .null then
    (xasLoad xa xas).bind fun
      | (first, xas) => xasStoreAt xa xas entry first
  else
    (xasCreate xa xas (¬xaIsNode entry ∧ ¬xaIsZero entry)).bind fun
      | (xa, xas, first) => xasStoreAt xa xas entry first

end LinuxKernelTest
