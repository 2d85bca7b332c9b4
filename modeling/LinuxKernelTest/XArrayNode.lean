import Mathlib.Tactic

/-!
# XArray : entries, nodes and the operation state

The data of `include/linux/xarray.h` with `XA_CHUNK_SHIFT = 2` on a 64-bit machine. A
word stored in a slot is an `XaEntry` : the low bits of the word tell a value, a
pointer and the internal entries apart, so they are constructors here. Nodes are named
by `NodeId`, and the memory of all nodes is one function per field of `struct xa_node`
(`XArray`), so that a store to one field leaves every other field alone by definition.

`kmem_cache_alloc` hands out a node it never handed out before, with every field zeroed
by the constructor of the cache; `radix_tree_node_rcu_free` zeroes a node again before
it goes back, so a recycled node looks the same. Whether the `n`-th allocation succeeds
is decided by `kmemFails`.
-/

namespace LinuxKernelTest

open Function

/-- The name of a node, standing for its address. -/
abbrev NodeId := ℕ

/-- `xa_mark_t` below `XA_MAX_MARKS`. `XA_FREE_MARK` is mark `0`. -/
abbrev XaMark := Fin 3

/-- `XA_CHUNK_SIZE` -/
abbrev xaChunkSize : ℕ := 4

/-- `XA_CHUNK_MASK` -/
abbrev xaChunkMask : ℕ := 3

/-- `ULONG_MAX` -/
abbrev ulongMax : ℕ := 2 ^ 64 - 1

/-- A word of a slot or of `xa_head`. A `value` holds its 63 bits, a `pointer` its word. -/
inductive XaEntry
  | null
  | value (v : ℕ)
  | pointer (w : ℕ)
  | node (n : NodeId)
  | sibling (offset : ℕ)
  | retry
  | zero
  deriving DecidableEq, Repr

/-- `xa_mk_value` : the word `(v << 1) | 1` keeps the low 63 bits of `v`. -/
def xaMkValue (v : ℕ) : XaEntry := .value (v % 2 ^ 63)

/-- `xa_to_value` : the word shifted right by one, whatever the entry is. Its callers
have excluded internal entries. -/
def xaToValue : XaEntry → ℕ
  | .value v => v
  | .pointer w => w / 2
  | _ => 0

/-- `xa_is_value` -/
def xaIsValue : XaEntry → Bool
  | .value _ => true
  | _ => false

/-- `xa_is_internal` -/
def xaIsInternal : XaEntry → Bool
  | .node _ | .sibling _ | .retry | .zero => true
  | _ => false

/-- `xa_is_node` -/
def xaIsNode : XaEntry → Bool
  | .node _ => true
  | _ => false

/-- `xa_is_sibling` : the comparison leaves out offset `XA_CHUNK_SIZE - 1`. -/
def xaIsSibling : XaEntry → Bool
  | .sibling o => o < xaChunkSize - 1
  | _ => false

/-- `xa_is_zero` -/
def xaIsZero : XaEntry → Bool
  | .zero => true
  | _ => false

/-- `xa_is_retry` -/
def xaIsRetry : XaEntry → Bool
  | .retry => true
  | _ => false

/-- `xa_is_advanced` : internal and not above `XA_RETRY_ENTRY`. -/
def xaIsAdvanced : XaEntry → Bool
  | .sibling _ | .retry => true
  | _ => false

/-- The error numbers an `xa_state` can carry. -/
inductive Errno
  | enomem
  | ebusy
  | einval
  deriving DecidableEq, Repr

/-- The array and the memory of its nodes. -/
structure XArray where
  xaHead : XaEntry
  /-- `XA_FLAGS_TRACK_FREE` -/
  trackFree : Bool
  /-- `XA_FLAGS_ZERO_BUSY` -/
  zeroBusy : Bool
  /-- `XA_FLAGS_MARK` -/
  xaMarked : XaMark → Bool
  shift : NodeId → ℕ
  offset : NodeId → ℕ
  count : NodeId → ℕ
  nrValues : NodeId → ℕ
  parent : NodeId → Option NodeId
  prev : NodeId → Option NodeId
  next : NodeId → Option NodeId
  slots : NodeId → ℕ → XaEntry
  marks : NodeId → XaMark → ℕ → Bool
  /-- `array == XA_RCU_FREE` : the node was handed to `xa_node_free`. -/
  freed : NodeId → Bool
  /-- The node the next successful allocation hands out. -/
  kmemNext : NodeId
  /-- The number of allocations asked for so far. -/
  kmemCalls : ℕ
  /-- Whether the `n`-th allocation fails. -/
  kmemFails : ℕ → Bool

/-- `xa_init_flags` : an empty array. -/
def xaInitFlags (trackFree zeroBusy : Bool) (marked : XaMark → Bool) (fails : ℕ → Bool) :
    XArray where
  xaHead := .null
  trackFree := trackFree
  zeroBusy := zeroBusy
  xaMarked := marked
  shift _ := 0
  offset _ := 0
  count _ := 0
  nrValues _ := 0
  parent _ := none
  prev _ := none
  next _ := none
  slots _ _ := .null
  marks _ _ _ := false
  freed _ := false
  kmemNext := 0
  kmemCalls := 0
  kmemFails := fails

/-- `xa_init` : no flags, and every allocation succeeds. -/
def xaInit : XArray := xaInitFlags false false (fun _ => false) (fun _ => false)

namespace XArray

variable (xa : XArray)

/-- Write `xa_head`. -/
@[simps -fullyApplied] def setHead (e : XaEntry) : XArray :=
  { xa with xaHead := e }

/-- Write a mark of the array. -/
@[simps -fullyApplied] def setMarked (m : XaMark) (b : Bool) : XArray :=
  { xa with xaMarked := update xa.xaMarked m b }

variable (n : NodeId)

/-- Write `offset` of a node. -/
@[simps -fullyApplied] def setOffset (k : ℕ) : XArray :=
  { xa with offset := update xa.offset n k }

/-- Write `count` of a node. -/
@[simps -fullyApplied] def setCount (c : ℕ) : XArray :=
  { xa with count := update xa.count n c }

/-- Write `nr_values` of a node. -/
@[simps -fullyApplied] def setNrValues (c : ℕ) : XArray :=
  { xa with nrValues := update xa.nrValues n c }

variable (p : Option NodeId)

/-- Write `parent` of a node. -/
@[simps -fullyApplied] def setParent : XArray :=
  { xa with parent := update xa.parent n p }

/-- Write `prev` of a node. -/
@[simps -fullyApplied] def setPrev : XArray :=
  { xa with prev := update xa.prev n p }

/-- Write `next` of a node. -/
@[simps -fullyApplied] def setNext : XArray :=
  { xa with next := update xa.next n p }

/-- Write a slot of a node. -/
@[simps -fullyApplied] def setSlot (k : ℕ) (e : XaEntry) : XArray :=
  { xa with slots := update xa.slots n (update (xa.slots n) k e) }

/-- Write a mark of a slot. -/
@[simps -fullyApplied] def setMark (m : XaMark) (k : ℕ) (b : Bool) : XArray :=
  { xa with
    marks := update xa.marks n
      (update (xa.marks n) m (update (xa.marks n m) k b)) }

/-- Note that a node was freed. -/
@[simps -fullyApplied] def setFreed : XArray :=
  { xa with freed := update xa.freed n true }

/-- `radix_tree_node_ctor` : every field of a new node is zero. -/
@[simps -fullyApplied] def zeroNode : XArray :=
  { xa with
    shift := update xa.shift n 0
    offset := update xa.offset n 0
    count := update xa.count n 0
    nrValues := update xa.nrValues n 0
    parent := update xa.parent n none
    prev := update xa.prev n none
    next := update xa.next n none
    slots := update xa.slots n fun _ => .null
    marks := update xa.marks n fun _ _ => false
    freed := update xa.freed n false }

/-- The fields `xas_alloc` sets whether or not the node has a parent. -/
@[simps -fullyApplied] def initNode (shift : ℕ) (parent : Option NodeId) : XArray :=
  { xa with
    shift := update xa.shift n shift
    count := update xa.count n 0
    nrValues := update xa.nrValues n 0
    parent := update xa.parent n parent
    freed := update xa.freed n false }

end XArray

/-- `kmem_cache_alloc` on the node cache. -/
def kmemCacheAlloc (xa : XArray) : XArray × Option NodeId :=
  if xa.kmemFails xa.kmemCalls then ({ xa with kmemCalls := xa.kmemCalls + 1 }, none)
  else
    ({ xa.zeroNode xa.kmemNext with
        kmemNext := xa.kmemNext + 1, kmemCalls := xa.kmemCalls + 1 }, some xa.kmemNext)

/-- The values of `xas->xa_node` : a node, `NULL`, or a tag. -/
inductive XasNode
  | null
  | bounds
  | restart
  | error (e : Errno)
  | node (n : NodeId)
  deriving DecidableEq, Repr

/-- `struct xa_state`. No `xa_update` callback is set by the functions below. -/
structure XaState where
  xaIndex : ℕ
  xaShift : ℕ
  xaSibs : ℕ
  xaOffset : ℕ
  xaNode : XasNode
  xaAlloc : Option NodeId
  deriving DecidableEq, Repr

/-- `XA_STATE` -/
def xaStateInit (index : ℕ) : XaState := ⟨index, 0, 0, 0, .restart, none⟩

/-- A node pointer as a value of `xas->xa_node`. -/
def XasNode.ofPtr : Option NodeId → XasNode
  | none => .null
  | some n => .node n

/-- The pointer itself where `xas->xa_node` is a node. -/
def XasNode.toPtr : XasNode → Option NodeId
  | .node n => some n
  | _ => none

variable (xas : XaState)

/-- `xas_error` -/
def xasError : Option Errno :=
  match xas.xaNode with
  | .error e => some e
  | _ => none

/-- `xas_invalid` : a tag bit is set. -/
def xasInvalid : Bool :=
  match xas.xaNode with
  | .null | .node _ => false
  | _ => true

/-- `xas_set` -/
def xasSet (index : ℕ) : XaState :=
  { xas with xaIndex := index, xaNode := .restart }

/-- The bound on the rounds of every loop of the model. A walk over the tree needs at
most a few hundred rounds for each of the `2 ^ 64` indices. -/
def xaFuel : ℕ := 2 ^ 80

theorem xaFuel_pos : 0 < xaFuel := Nat.two_pow_pos 80

end LinuxKernelTest
