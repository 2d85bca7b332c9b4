import LinuxKernelTest.Loop
import LinuxKernelTest.XArrayNode

/-!
# XArray : walking down, the leaf list, and allocating a node

`xas_start`, `xas_descend` and `xas_load` of `lib/xarray.c`, the leaf list this repository adds
(`xas_node_find_prev`, `xas_node_find_next`, `xas_node_delete_link`) and `xas_alloc`, which links a
new node into it.
-/

namespace LinuxKernelTest

variable (xa : XArray)

/-- `get_offset` -/
def getOffset (index : ℕ) (n : NodeId) : ℕ :=
  (index >>> xa.shift n) &&& xaChunkMask

/-- `xas_set_offset` -/
def xasSetOffset (n : NodeId) (xas : XaState) : XaState :=
  { xas with xaOffset := getOffset xa xas.xaIndex n }

/-- `xas_move_index` with `xas->xa_node = n` : the low `shift + 2` bits of the index are
cleared, then `offset << shift` is added modulo `2 ^ 64`. -/
def xasMoveIndex (n : NodeId) (xas : XaState) (offset : ℕ) : XaState :=
  { xas with
    xaIndex := (((xas.xaIndex >>> (xa.shift n + 2)) <<< (xa.shift n + 2)) +
      offset <<< xa.shift n) % 2 ^ 64 }

/-- `xas_advance`, with `xa_offset` an `unsigned char`. -/
def xasAdvance (n : NodeId) (xas : XaState) : XaState :=
  xasMoveIndex xa n { xas with xaOffset := (xas.xaOffset + 1) % 256 }
    ((xas.xaOffset + 1) % 256)

variable (xas : XaState)

/-- `set_bounds` -/
def setBounds : XaEntry × XaState :=
  (.null, { xas with xaNode := .bounds })

/-- `xas_reload` -/
def xasReload : XaEntry :=
  match xas.xaNode with
  | .node n =>
    let entry := xa.slots n (getOffset xa xas.xaIndex n)
    match entry with
    | .sibling o => if xaIsSibling entry then xa.slots n o else entry
    | _ => entry
  | _ => xa.xaHead

/-- `xas_start` -/
def xasStart : XaEntry × XaState :=
  match xas.xaNode with
  | .null | .node _ => (xasReload xa xas, xas)
  | .error _ => (.null, xas)
  | .bounds | .restart =>
    match xa.xaHead with
    | .node r =>
      if xas.xaIndex >>> xa.shift r > xaChunkMask then setBounds xas
      else (.node r, { xas with xaNode := .null })
    | entry =>
      if xas.xaIndex ≠ 0 then setBounds xas else (entry, { xas with xaNode := .null })

/-- `xas_descend` -/
def xasDescend (n : NodeId) : XaEntry × XaState :=
  let offset := getOffset xa xas.xaIndex n
  let entry := xa.slots n offset
  match entry with
  | .sibling o =>
    if xaIsSibling entry then (xa.slots n o, { xas with xaNode := .node n, xaOffset := o })
    else (entry, { xas with xaNode := .node n, xaOffset := offset })
  | _ => (entry, { xas with xaNode := .node n, xaOffset := offset })

/-- One round of the loop of `xas_load`. -/
def xasLoadRound : XaEntry × XaState → Round (XaEntry × XaState) (XaEntry × XaState)
  | (.node n, xas) =>
    if xas.xaShift > xa.shift n then .done (.node n, xas)
    else if xa.shift n = 0 then .done (xasDescend xa xas n)
    else .again (xasDescend xa xas n)
  | (entry, xas) => .done (entry, xas)

/-- `xas_load` -/
def xasLoad : Option (XaEntry × XaState) :=
  runLoop (xasLoadRound xa) xaFuel (xasStart xa xas)

/-- `xa_node_free` -/
def xaNodeFree (n : NodeId) : XArray := xa.setFreed n

/-- The inner loop of `xas_node_find_prev` : the last node among the first `k` slots. -/
def lastNodeBelow (slots : ℕ → XaEntry) : ℕ → Option NodeId
  | 0 => none
  | k + 1 =>
    match slots k with
    | .node c => some c
    | _ => lastNodeBelow slots k

/-- The inner loop of `xas_node_find_next` : the first node among the `k` slots from
`offset` on. -/
def firstNodeFrom (slots : ℕ → XaEntry) : ℕ → ℕ → Option NodeId
  | 0, _ => none
  | k + 1, offset =>
    match slots offset with
    | .node c => some c
    | _ => firstNodeFrom slots k (offset + 1)

/-- One round of `xas_node_find_prev`. The number beside `parent` counts the slots below
the scan, the C variable `offset` plus one. -/
def findPrevRound : Option NodeId × ℕ → Round (Option NodeId × ℕ) (Option NodeId)
  | (none, _) => .done none
  | (some parent, k) =>
    match lastNodeBelow (xa.slots parent) k with
    | none => .again (xa.parent parent, xa.offset parent)
    | some c => if xa.shift c = 0 then .done (some c) else .again (some c, xaChunkSize)

/-- `xas_node_find_prev(xas, parent, offset - 1)` -/
def xasNodeFindPrev (parent : NodeId) (offset : ℕ) : Option (Option NodeId) :=
  runLoop (findPrevRound xa) xaFuel (some parent, offset)

/-- One round of `xas_node_find_next`. -/
def findNextRound : Option NodeId × ℕ → Round (Option NodeId × ℕ) (Option NodeId)
  | (none, _) => .done none
  | (some parent, offset) =>
    match firstNodeFrom (xa.slots parent) (xaChunkSize - offset) offset with
    | none => .again (xa.parent parent, xa.offset parent + 1)
    | some c => if xa.shift c = 0 then .done (some c) else .again (some c, 0)

/-- `xas_node_find_next(xas, parent, offset + 1)` -/
def xasNodeFindNext (parent : NodeId) (offset : ℕ) : Option (Option NodeId) :=
  runLoop (findNextRound xa) xaFuel (some parent, offset + 1)

/-- Store to `p->prev` unless `p` is not a node. -/
def linkPrev (p : Option NodeId) (v : Option NodeId) : XArray :=
  match p with
  | none => xa
  | some n => xa.setPrev n v

/-- Store to `p->next` unless `p` is not a node. -/
def linkNext (p : Option NodeId) (v : Option NodeId) : XArray :=
  match p with
  | none => xa
  | some n => xa.setNext n v

/-- `xas_node_delete_link` -/
def xasNodeDeleteLink (n : NodeId) : XArray :=
  let xa' :=
    if xa.shift n = 0 then
      linkPrev (linkNext xa (xa.prev n) (xa.next n)) (xa.next n) (xa.prev n)
    else xa
  (xa'.setPrev n none).setNext n none

/-- The end of `xas_alloc` for a node with a parent : link the node between the leaves
`prev` and `next`, or store it into the parent where there is no such leaf. -/
def linkNode (parent n : NodeId) (prev next : Option NodeId) : XArray :=
  let xa' :=
    match prev with
    | none => xa.setPrev parent (some n)
    | some p => (xa.setPrev n (some p)).setNext p (some n)
  match next with
  | none => xa'.setNext parent (some n)
  | some q => (xa'.setNext n (some q)).setPrev q (some n)

/-- The node `xas_alloc` works with : the preallocated one, or a new one. -/
def xasAllocNode : XArray × XaState × Option NodeId :=
  match xas.xaAlloc with
  | some n => (xa, { xas with xaAlloc := none }, some n)
  | none =>
    match kmemCacheAlloc xa with
    | (xa', none) => (xa', { xas with xaNode := .error .enomem }, none)
    | (xa', some n) => (xa', xas, some n)

/-- `xas_alloc`. The inner `Option` is the returned pointer. The searches for the
neighbours read no `prev` or `next`, so both run before the links are stored. -/
def xasAlloc (shift : ℕ) : Option (XArray × XaState × Option NodeId) :=
  if xasInvalid xas then some (xa, xas, none)
  else
    match xasAllocNode xa xas with
    | (xa, xas, none) => some (xa, xas, none)
    | (xa, xas, some n) =>
      match xas.xaNode.toPtr with
      | none => some (xa.initNode n shift none, xas, some n)
      | some parent =>
        let xa := (xa.setOffset n xas.xaOffset).setCount parent ((xa.count parent + 1) % 256)
        let xa := xa.initNode n shift (some parent)
        (xasNodeFindPrev xa parent (xa.offset n)).bind fun prev =>
          (xasNodeFindNext xa parent (xa.offset n)).map fun next =>
            (linkNode xa parent n prev next, xas, some n)

end LinuxKernelTest
