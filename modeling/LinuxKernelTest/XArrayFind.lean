import LinuxKernelTest.XArrayStore

/-!
# XArray : searching and iterating

`xas_find` and `xas_find_marked` of `lib/xarray.c` and the inline stepping functions of
`include/linux/xarray.h`, among them the fast iterators over the leaf list that this
repository adds. A search answers `none` where the source reads a
slot outside the node or follows a pointer that is not a node, or when a loop uses up
`xaFuel`.

An iteration macro becomes the list of the pairs `(xas.xa_index, entry)` its body sees
(`xasForEach` and the like).
-/

namespace LinuxKernelTest

/-! ## Present entries -/

variable (xa : XArray)

/-- One round of the loop of `xas_find`. -/
def findRound (max : ℕ) (xas : XaState) : Round XaState (Option (XaEntry × XaState)) :=
  match xas.xaNode with
  | .node n =>
    if xas.xaIndex ≤ max then
      if xas.xaOffset = xaChunkSize then
        .again { xas with xaOffset := xa.offset n + 1, xaNode := .ofPtr (xa.parent n) }
      else if xas.xaOffset > xaChunkSize then .done none
      else
        match xa.slots n xas.xaOffset with
        | .node c => .again { xas with xaNode := .node c, xaOffset := 0 }
        | entry =>
          if entry ≠ .null ∧ ¬xaIsSibling entry then .done (some (entry, xas))
          else .again (xasAdvance xa n xas)
    else .done (some (.null, xas))
  | _ => .done (some (.null, { xas with xaNode := .bounds }))

/-- `xas_find` from the call of `xas_advance` on. -/
def findFrom (max : ℕ) (n : NodeId) (xas : XaState) : Option (XaEntry × XaState) :=
  (runLoop (findRound xa max) xaFuel (xasAdvance xa n xas)).join

variable (xas : XaState)

variable (max : ℕ)

/-- `xas_find` -/
def xasFind : Option (XaEntry × XaState) :=
  match xas.xaNode with
  | .error _ | .bounds => some (.null, xas)
  | .null =>
    if xas.xaIndex > max then some (setBounds xas)
    else some (setBounds { xas with xaIndex := 1 })
  | .restart =>
    if xas.xaIndex > max then some (setBounds xas)
    else
      (xasLoad xa xas).bind fun
        | (entry, xas) =>
          match xas.xaNode with
          | .node n => if entry ≠ .null then some (entry, xas) else findFrom xa max n xas
          | _ => some (entry, xas)
  | .node n =>
    if xas.xaIndex > max then some (setBounds xas)
    else if xa.shift n = 0 ∧ xas.xaOffset ≠ xas.xaIndex &&& xaChunkMask then
      findFrom xa max n
        { xas with xaOffset := (((xas.xaIndex + ulongMax) % 2 ^ 64) &&& xaChunkMask) + 1 }
    else findFrom xa max n xas

/-- One round of `xas_next_entry` at the leaf `n`. -/
def nextEntryRound (n : NodeId) (xas : XaState) :
    Round XaState (Option (XaEntry × XaState)) :=
  if xas.xaIndex ≥ max then .done (xasFind xa xas max)
  else if xas.xaOffset = xaChunkMask then .done (xasFind xa xas max)
  else
    let entry := xa.slots n (xas.xaOffset + 1)
    if xaIsInternal entry then .done (xasFind xa xas max)
    else
      let xas := { xas with xaIndex := xas.xaIndex + 1, xaOffset := xas.xaOffset + 1 }
      if entry = .null then .again xas else .done (some (entry, xas))

/-- `xas_next_entry` -/
def xasNextEntry : Option (XaEntry × XaState) :=
  match xas.xaNode with
  | .node n =>
    if xa.shift n ≠ 0 ∨ xas.xaOffset ≠ xas.xaIndex &&& xaChunkMask then xasFind xa xas max
    else (runLoop (nextEntryRound xa max n) xaFuel xas).join
  | _ => xasFind xa xas max

/-! ## The fast iterators -/

/-- One round of `xas_next_fast`. The last component is the slot to read, the C variable
`offset` plus one. -/
def nextFastRound :
    XaState × XasNode × ℕ → Round (XaState × XasNode × ℕ) (Option (XaEntry × XaState))
  | (xas, node, slot) =>
    if xas.xaIndex ≥ max then .done (xasFind xa xas max)
    else
      let moved : Option (XaState × XasNode × ℕ) :=
        if xas.xaOffset = xaChunkMask then
          match node with
          | .node n =>
            some ({ xas with xaNode := .ofPtr (xa.next n) }, .ofPtr (xa.next n), 0)
          | _ => none
        else some (xas, node, slot)
      match moved with
      | none => .done none
      | some (xas, .node n, slot) =>
        if slot ≥ xaChunkSize then .done none
        else
          let entry := xa.slots n slot
          if xaIsInternal entry then .done (xasFind xa xas max)
          else
            let xas := { xas with xaOffset := slot, xaIndex := xaToValue entry }
            if entry = .null then .again (xas, .node n, slot + 1)
            else .done (some (entry, xas))
      | some (xas, _, _) => .done (xasFind xa xas max)

/-- `xas_next_fast` -/
def xasNextFast : Option (XaEntry × XaState) :=
  (runLoop (nextFastRound xa max) xaFuel (xas, xas.xaNode, xas.xaOffset + 1)).join

/-- One round of `xas_prev_fast`. -/
def prevFastRound :
    XaState × XasNode → Round (XaState × XasNode) (Option (XaEntry × XaState))
  | (xas, node) =>
    if xas.xaIndex > max then .done (xasFind xa xas max)
    else
      let moved : Option (XaState × XasNode) :=
        if xas.xaOffset = 0 then
          match node with
          | .node n =>
            some ({ xas with xaNode := .ofPtr (xa.prev n), xaOffset := xaChunkSize },
              .ofPtr (xa.prev n))
          | _ => none
        else some (xas, node)
      match moved with
      | none => .done none
      | some (xas, .node n) =>
        if xas.xaOffset > xaChunkSize then .done none
        else
          let entry := xa.slots n (xas.xaOffset - 1)
          if xaIsInternal entry then .done (xasFind xa xas max)
          else
            let xas := { xas with xaOffset := xas.xaOffset - 1, xaIndex := xaToValue entry }
            if entry = .null then .again (xas, .node n) else .done (some (entry, xas))
      | some (xas, _) => .done (xasFind xa xas max)

/-- `xas_prev_fast` -/
def xasPrevFast : Option (XaEntry × XaState) :=
  (runLoop (prevFastRound xa max) xaFuel (xas, xas.xaNode)).join

/-! ## Marked entries -/

/-- `find_next_bit` : the first set bit among the `k` bits from `offset` on, else the
position behind them. -/
def findNextBit (bits : ℕ → Bool) : ℕ → ℕ → ℕ
  | 0, offset => offset
  | k + 1, offset => if bits offset then offset else findNextBit bits k (offset + 1)

/-- `xas_find_chunk` with `xas->xa_node = n` -/
def xasFindChunk (n : NodeId) (xas : XaState) (advance : Bool) (m : XaMark) : ℕ :=
  let offset := if advance then xas.xaOffset + 1 else xas.xaOffset
  if offset < xaChunkSize then findNextBit (xa.marks n m) (xaChunkSize - offset) offset
  else xaChunkSize

/-- The end of `xas_find_marked` at the label `max`. -/
def findMarkedMax : XaEntry × XaState :=
  (.null, { xas with xaNode := .restart })

/-- The end of `xas_find_marked` at the label `out`. -/
def findMarkedOut (xas : XaState) : XaEntry × XaState :=
  if xas.xaIndex > max then findMarkedMax xas else setBounds xas

/-- The sibling test of `xas_find_marked` : move to the slot a sibling stands for. -/
def findMarkedSibling (n : NodeId) (xas : XaState) (advance : Bool) : XaState :=
  if advance then xas
  else
    match xa.slots n xas.xaOffset with
    | .sibling o =>
      if o < xaChunkSize - 1 then xasMoveIndex xa n { xas with xaOffset := o } o else xas
    | _ => xas

/-- The last part of a round of `xas_find_marked` : read the slot. -/
def findMarkedSlot (m : XaMark) (n : NodeId) (xas : XaState) (advance : Bool) :
    Round (XaState × Bool) (Option (XaEntry × XaState)) :=
  match xa.slots n xas.xaOffset with
  | .null =>
    if xa.trackFree ∧ m = xaFreeMark then .done (some (.null, xas)) else .again (xas, advance)
  | .node c => .again (xasSetOffset xa c { xas with xaNode := .node c }, advance)
  | entry => .done (some (entry, xas))

/-- One round of the loop of `xas_find_marked`. -/
def findMarkedRound (m : XaMark) :
    XaState × Bool → Round (XaState × Bool) (Option (XaEntry × XaState))
  | (xas, advance) =>
    if xas.xaIndex > max then .done (some (findMarkedOut max xas))
    else
      match xas.xaNode with
      | .node n =>
        if xas.xaOffset = xaChunkSize then
          let xas := { xas with xaOffset := xa.offset n + 1, xaNode := .ofPtr (xa.parent n) }
          if xa.parent n = none then .done (some (findMarkedOut max xas))
          else .again (xas, false)
        else if xas.xaOffset > xaChunkSize then .done none
        else
          let xas := findMarkedSibling xa n xas advance
          let offset := xasFindChunk xa n xas advance m
          if offset > xas.xaOffset then
            let xas := xasMoveIndex xa n xas offset
            if (xas.xaIndex + ulongMax) % 2 ^ 64 ≥ max then .done (some (findMarkedMax xas))
            else if offset = xaChunkSize then .again ({ xas with xaOffset := offset }, false)
            else findMarkedSlot xa m n { xas with xaOffset := offset } false
          else findMarkedSlot xa m n xas advance
      | _ => .done none

/-- `xas_find_marked` -/
def xasFindMarked (m : XaMark) : Option (XaEntry × XaState) :=
  match xas.xaNode with
  | .error _ => some (.null, xas)
  | .null =>
    if xas.xaIndex > max then some (findMarkedMax xas)
    else some (findMarkedOut max { xas with xaIndex := 1 })
  | .node _ =>
    if xas.xaIndex > max then some (findMarkedMax xas)
    else (runLoop (findMarkedRound xa max m) xaFuel (xas, true)).join
  | .bounds | .restart =>
    if xas.xaIndex > max then some (findMarkedMax xas)
    else
      let xas := { xas with xaNode := .null }
      if xas.xaIndex > maxIndex xa xa.xaHead then some (findMarkedOut max xas)
      else
        match xa.xaHead with
        | .node r =>
          (runLoop (findMarkedRound xa max m) xaFuel
            ({ xas with xaNode := .node r, xaOffset := (xas.xaIndex >>> xa.shift r) % 256 },
              false)).join
        | entry =>
          if xa.xaMarked m then some (entry, xas)
          else some (findMarkedOut max { xas with xaIndex := 1 })

/-! ## The iteration macros -/

/-- A `for` loop over entries : the body sees each entry and the index of the state, `next`
steps on, and a `NULL` entry ends the loop. At most `fuel` entries are visited. -/
def iterate {σ : Type} (index : σ → ℕ) (next : σ → Option (XaEntry × σ)) :
    ℕ → XaEntry × σ → Option (List (ℕ × XaEntry))
  | 0, (entry, _) => if entry = .null then some [] else none
  | fuel + 1, (entry, s) =>
    if entry = .null then some []
    else ((next s).bind fun r => iterate index next fuel r).map fun l => (index s, entry) :: l

/-- `xas_for_each` -/
def xasForEach (max fuel : ℕ) : Option (List (ℕ × XaEntry)) :=
  (xasFind xa xas max).bind (iterate XaState.xaIndex (fun xas => xasNextEntry xa xas max) fuel)

/-- `xas_for_each_next_fast` -/
def xasForEachNextFast (max fuel : ℕ) : Option (List (ℕ × XaEntry)) :=
  (xasFind xa xas max).bind (iterate XaState.xaIndex (fun xas => xasNextFast xa xas max) fuel)

/-- `xas_for_each_prev_fast` -/
def xasForEachPrevFast (min fuel : ℕ) : Option (List (ℕ × XaEntry)) :=
  (xasFind xa xas min).bind (iterate XaState.xaIndex (fun xas => xasPrevFast xa xas min) fuel)

end LinuxKernelTest
