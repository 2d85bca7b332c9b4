import LinuxKernelTest.ColorTree
import LinuxKernelTest.Loop

/-!
# The red-black tree of `lib/rbtree.c`

A model of `lib/rbtree.c` and `include/linux/rbtree_augmented.h`, and of the insertion of
`lib/rbtree_test.c` that uses them. A pointer to a `struct rb_node` is a 64-bit word, and `NULL` is
zero; `__rb_parent_color` is a word too, the pointer to the parent with the color in bit 0. The
places that hold a pointer to a child (`struct rb_node **`) are the root and the two fields of every
node (`RbLink`).

The code that the source writes twice, once for each side, is written once here, with the side as a
parameter : `insertSide` and `eraseColorSide` with the side `left` are the first halves of the loops
of `__rb_insert` and `____rb_erase_color`, and with the side `right` the second ones.

Every store to a child pointer or to the root is recorded : `stores` lists what these places hold
after each store, the last one first. A `NULL` pointer that is followed, and a loop that does not
end, are `none`.

The callbacks of an augmented tree read the nodes and write the augmented field only, so a callback
returns the new augmented fields.
-/

namespace LinuxKernelTest

open Function

/-- A pointer to a `struct rb_node`, or any `unsigned long`. -/
abbrev RbPtr : Type := BitVec 64

/-- Rounds of any loop along a path of distinct nodes. -/
def rbFuel : ℕ := 2 ^ 64

/-! ## Packed words -/

/-- `RB_RED`. -/
def rbRed : RbPtr := 0

/-- `RB_BLACK`. -/
def rbBlack : RbPtr := 1

variable (pc : RbPtr)

/-- `__rb_parent`. -/
def rbParent : RbPtr := pc &&& ~~~3

/-- `__rb_color`. -/
def rbColor : RbPtr := pc &&& 1

/-- `__rb_is_black`. -/
def rbIsBlack : Bool := rbColor pc ≠ 0

/-- `__rb_is_red`. -/
def rbIsRed : Bool := rbColor pc = 0

/-! ## Memory -/

/-- A place that holds a pointer to a child. -/
inductive RbLink
  | root
  | child (d : Side) (node : RbPtr)
deriving DecidableEq

/-- The root, and the fields of all nodes, with the augmented field of type `A`. -/
structure RbMem (A : Type*) where
  link : RbLink → RbPtr
  parentColor : RbPtr → RbPtr
  augmented : RbPtr → A
  stores : List (RbLink → RbPtr)

/-- `struct rb_augment_callbacks`. -/
structure RbAugmentCallbacks (A : Type*) where
  propagate : RbMem A → (node stop : RbPtr) → Option (RbPtr → A)
  copy : RbMem A → (old new : RbPtr) → Option (RbPtr → A)
  rotate : RbMem A → (old new : RbPtr) → Option (RbPtr → A)

section

variable {A : Type*}

namespace RbMem

variable (m : RbMem A)

/-- Store a child pointer or the root. -/
def setLink (place : RbLink) (p : RbPtr) : RbMem A :=
  { m with
    link := update m.link place p
    stores := update m.link place p :: m.stores }

/-- Store to `__rb_parent_color`. -/
def setPc (rb pc : RbPtr) : RbMem A :=
  { m with parentColor := update m.parentColor rb pc }

/-- `rb_set_parent`. -/
def setParent (rb p : RbPtr) : RbMem A :=
  m.setPc rb (rbColor (m.parentColor rb) ||| p)

/-- `rb_set_parent_color`. -/
def setParentColor (rb p color : RbPtr) : RbMem A := m.setPc rb (p ||| color)

/-- `rb_set_parent_color` where the pointer is not `NULL`. -/
def setParentColorIf (rb p color : RbPtr) : RbMem A :=
  if rb ≠ 0 then m.setParentColor rb p color else m

/-- `rb_set_black`. -/
def setBlack (rb : RbPtr) : RbMem A := m.setPc rb (m.parentColor rb ||| rbBlack)

/-- Call a callback. -/
def call (callback : RbMem A → RbPtr → RbPtr → Option (RbPtr → A))
    (p q : RbPtr) : Option (RbMem A) :=
  (callback m p q).map fun augmented => { m with augmented }

/-- `__rb_change_child`. -/
def changeChild (old new parent : RbPtr) : RbMem A :=
  if parent ≠ 0 then
    if m.link (.child .left parent) = old then m.setLink (.child .left parent) new
    else m.setLink (.child .right parent) new
  else m.setLink .root new

/-- `__rb_rotate_set_parents`. -/
def rotateSetParents (old new color : RbPtr) : RbMem A :=
  let parent := rbParent (m.parentColor old)
  let m := m.setPc new (m.parentColor old)
  let m := m.setParentColor old new color
  m.changeChild old new parent

/-- `rb_link_node`. -/
def linkNode (node parent : RbPtr) (place : RbLink) : RbMem A :=
  let m := m.setPc node parent
  let m := m.setLink (.child .right node) 0
  let m := m.setLink (.child .left node) 0
  m.setLink place node

end RbMem

/-- The memory and the loop variables of `__rb_insert`. -/
structure InsertState (A : Type*) where
  mem : RbMem A
  node : RbPtr
  parent : RbPtr

/-- The stores of case 2 of `__rb_insert` : rotate at `parent`. -/
def insertCase2 (d : Side) (m : RbMem A) (node parent : RbPtr) : RbMem A :=
  let tmp := m.link (.child d node)
  let m := m.setLink (.child d.other parent) tmp
  let m := m.setLink (.child d node) parent
  let m := m.setParentColorIf tmp parent rbBlack
  m.setParentColor parent node rbRed

variable (rotate : RbMem A → RbPtr → RbPtr → Option (RbPtr → A))

variable (d : Side)

/-- Case 3 of `__rb_insert` : rotate at `gparent`. -/
def insertCase3 (m : RbMem A) (gparent parent tmp : RbPtr) : Option (RbMem A) :=
  let m := m.setLink (.child d gparent) tmp
  let m := m.setLink (.child d.other parent) gparent
  let m := m.setParentColorIf tmp gparent rbBlack
  let m := m.rotateSetParents gparent parent rbRed
  m.call rotate gparent parent

/-- One side of `__rb_insert`, with a red `parent` on the side `d` of `gparent`, and `tmp` the
uncle. -/
def insertSide (m : RbMem A)
    (node parent gparent tmp : RbPtr) : Round (InsertState A) (Option (RbMem A)) :=
  if tmp ≠ 0 ∧ rbIsRed (m.parentColor tmp) then
    -- Case 1 : the uncle is red.
    let m := m.setParentColor tmp gparent rbBlack
    let m := m.setParentColor parent gparent rbBlack
    let node := gparent
    let parent := rbParent (m.parentColor node)
    .again ⟨m.setParentColor node parent rbRed, node, parent⟩
  else
    let tmp := m.link (.child d.other parent)
    if node = tmp then
      -- Case 2, and on with case 3, where `node` is the parent.
      .done (((insertCase2 d m node parent).call rotate parent node).bind fun m =>
        insertCase3 rotate d m gparent node (m.link (.child d.other node)))
    else .done (insertCase3 rotate d m gparent parent tmp)

/-- One round of the loop of `__rb_insert`. -/
def insertRound (s : InsertState A) : Round (InsertState A) (Option (RbMem A)) :=
  let m := s.mem
  if s.parent = 0 then .done (some (m.setParentColor s.node 0 rbBlack))
  else if rbIsBlack (m.parentColor s.parent) then .done (some m)
  else
    -- `rb_red_parent` : the word of a red node is the pointer to its parent.
    let gparent := m.parentColor s.parent
    if gparent = 0 then .done none
    else
      let tmp := m.link (.child .right gparent)
      if s.parent ≠ tmp then insertSide rotate .left m s.node s.parent gparent tmp
      else insertSide rotate .right m s.node s.parent gparent (m.link (.child .left gparent))

/-- `__rb_insert`. -/
def rbInsert (m : RbMem A) (node : RbPtr) : Option (RbMem A) :=
  if node = 0 then none
  else (runLoop (insertRound rotate) rbFuel ⟨m, node, m.parentColor node⟩).join

/-! ## Erasing -/

/-- The memory and the loop variables of `____rb_erase_color`. -/
structure EraseState (A : Type*) where
  mem : RbMem A
  node : RbPtr
  parent : RbPtr

/-- Case 1 of `____rb_erase_color` : rotate a red sibling up. The new sibling is returned. -/
def eraseCase1 (m : RbMem A) (parent sibling : RbPtr) : Option (RbMem A × RbPtr) :=
  let tmp1 := m.link (.child d sibling)
  if tmp1 = 0 then none
  else
    let m := m.setLink (.child d.other parent) tmp1
    let m := m.setLink (.child d sibling) parent
    let m := m.setParentColor tmp1 parent rbBlack
    let m := m.rotateSetParents parent sibling rbRed
    (m.call rotate parent sibling).map fun m => (m, tmp1)

/-- Case 4 of `____rb_erase_color`. -/
def eraseCase4 (m : RbMem A) (parent sibling tmp1 : RbPtr) : Option (RbMem A) :=
  let tmp2 := m.link (.child d sibling)
  let m := m.setLink (.child d.other parent) tmp2
  let m := m.setLink (.child d sibling) parent
  let m := m.setParentColor tmp1 sibling rbBlack
  let m := if tmp2 ≠ 0 then m.setParent tmp2 parent else m
  let m := m.rotateSetParents parent sibling rbBlack
  m.call rotate parent sibling

/-- Cases 2, 3 and 4 of `____rb_erase_color`, with a black `sibling`. -/
def eraseBlackSibling
    (m : RbMem A) (parent sibling : RbPtr) : Round (EraseState A) (Option (RbMem A)) :=
  let tmp1 := m.link (.child d.other sibling)
  if tmp1 = 0 ∨ rbIsBlack (m.parentColor tmp1) then
    let tmp2 := m.link (.child d sibling)
    if tmp2 = 0 ∨ rbIsBlack (m.parentColor tmp2) then
      -- Case 2 : flip the color of the sibling.
      let m := m.setParentColor sibling parent rbRed
      if rbIsRed (m.parentColor parent) then .done (some (m.setBlack parent))
      else
        let node := parent
        let parent := rbParent (m.parentColor node)
        if parent ≠ 0 then .again ⟨m, node, parent⟩ else .done (some m)
    else
      -- Case 3 : rotate at the sibling, and go on with case 4.
      let tmp1 := m.link (.child d.other tmp2)
      let m := m.setLink (.child d sibling) tmp1
      let m := m.setLink (.child d.other tmp2) sibling
      let m := m.setLink (.child d.other parent) tmp2
      let m := m.setParentColorIf tmp1 sibling rbBlack
      .done ((m.call rotate sibling tmp2).bind fun m => eraseCase4 rotate d m parent tmp2 sibling)
  else .done (eraseCase4 rotate d m parent sibling tmp1)

/-- One side of `____rb_erase_color`, with `node` on the side `d` of `parent`. -/
def eraseColorSide (m : RbMem A)
    (parent sibling : RbPtr) : Round (EraseState A) (Option (RbMem A)) :=
  if sibling = 0 then .done none
  else if rbIsRed (m.parentColor sibling) then
    match eraseCase1 rotate d m parent sibling with
    | none => .done none
    | some (m, sibling) => eraseBlackSibling rotate d m parent sibling
  else eraseBlackSibling rotate d m parent sibling

/-- One round of the loop of `____rb_erase_color`. -/
def eraseColorRound (s : EraseState A) : Round (EraseState A) (Option (RbMem A)) :=
  let sibling := s.mem.link (.child .right s.parent)
  if s.node ≠ sibling then eraseColorSide rotate .left s.mem s.parent sibling
  else eraseColorSide rotate .right s.mem s.parent (s.mem.link (.child .left s.parent))

/-- `____rb_erase_color`. -/
def rbEraseColor (m : RbMem A) (parent : RbPtr) : Option (RbMem A) :=
  if parent = 0 then none else (runLoop (eraseColorRound rotate) rbFuel ⟨m, 0, parent⟩).join

/-- One round of the search for the successor : the variables are `parent`, `successor` and
`tmp`, which is not `NULL`. -/
def successorRound (m : RbMem A) (s : RbPtr × RbPtr × RbPtr) :
    Round (RbPtr × RbPtr × RbPtr) (RbPtr × RbPtr) :=
  let parent := s.2.1
  let successor := s.2.2
  let tmp := m.link (.child .left successor)
  if tmp ≠ 0 then .again (parent, successor, tmp) else .done (parent, successor)

/-- The last part of `__rb_erase_augmented` for a node with two children : `successor` takes the
place of `node`. -/
def eraseReplace (m : RbMem A) (node parent successor child2 : RbPtr) : RbMem A × RbPtr :=
  let tmp := m.link (.child .left node)
  let m := m.setLink (.child .left successor) tmp
  let m := m.setParent tmp successor
  let pc := m.parentColor node
  let m := m.changeChild node successor (rbParent pc)
  if child2 ≠ 0 then
    let m := m.setPc successor pc
    (m.setParentColor child2 parent rbBlack, 0)
  else
    let pc2 := m.parentColor successor
    (m.setPc successor pc, if rbIsBlack pc2 then parent else 0)

variable (augment : RbAugmentCallbacks A)

/-- `__rb_erase_augmented`, with the node to rebalance from, or `NULL`. -/
def rbEraseAugmentedStep (m : RbMem A) (node : RbPtr) :
    Option (RbMem A × RbPtr) :=
  if node = 0 then none
  else
    let child := m.link (.child .right node)
    let tmp := m.link (.child .left node)
    if tmp = 0 then
      -- Case 1 : no child, or one.
      let pc := m.parentColor node
      let parent := rbParent pc
      let m := m.changeChild node child parent
      let r := if child ≠ 0 then (m.setPc child pc, 0)
        else (m, if rbIsBlack pc then parent else 0)
      (r.1.call augment.propagate parent 0).map fun m => (m, r.2)
    else if child = 0 then
      let pc := m.parentColor node
      let m := m.setPc tmp pc
      let parent := rbParent pc
      let m := m.changeChild node tmp parent
      (m.call augment.propagate parent 0).map fun m => (m, 0)
    else
      let tmp := m.link (.child .left child)
      if tmp = 0 then
        -- Case 2 : the successor is the right child.
        let successor := child
        let child2 := m.link (.child .right successor)
        (m.call augment.copy node successor).bind fun m =>
          let r := eraseReplace m node successor successor child2
          (r.1.call augment.propagate successor 0).map fun m => (m, r.2)
      else
        -- Case 3 : the successor is leftmost under the right child.
        (runLoop (successorRound m) rbFuel (child, child, tmp)).bind fun (parent, successor) =>
          let child2 := m.link (.child .right successor)
          let m := m.setLink (.child .left parent) child2
          let m := m.setLink (.child .right successor) child
          let m := m.setParent child successor
          (m.call augment.copy node successor).bind fun m =>
            (m.call augment.propagate parent successor).bind fun m =>
              let r := eraseReplace m node parent successor child2
              (r.1.call augment.propagate successor 0).map fun m => (m, r.2)

/-! ## The interface -/

/-- `rb_erase_augmented`. -/
def rbEraseAugmented (m : RbMem A) (node : RbPtr) :
    Option (RbMem A) :=
  (rbEraseAugmentedStep augment m node).bind fun (m, rebalance) =>
    if rebalance ≠ 0 then rbEraseColor augment.rotate m rebalance else some m

/-- `rb_insert_augmented`. -/
def rbInsertAugmented (m : RbMem A) (node : RbPtr) :
    Option (RbMem A) :=
  rbInsert augment.rotate m node

/-- `dummy_callbacks`. -/
def dummyCallbacks : RbAugmentCallbacks A where
  propagate m _ _ := some m.augmented
  copy m _ _ := some m.augmented
  rotate m _ _ := some m.augmented

/-- `rb_insert_color`. -/
def rbInsertColor (m : RbMem A) (node : RbPtr) : Option (RbMem A) :=
  rbInsert dummyCallbacks.rotate m node

/-- `rb_erase`. -/
def rbErase (m : RbMem A) (node : RbPtr) : Option (RbMem A) :=
  rbEraseAugmented dummyCallbacks m node

variable (less : RbPtr → Bool)

/-- One round of the search of `insert` : the variables are `new` and `parent`, and `less` says
whether the key is less than the key of a node. -/
def searchRound (m : RbMem A) (s : RbLink × RbPtr) :
    Round (RbLink × RbPtr) (RbLink × RbPtr) :=
  let parent := m.link s.1
  if parent ≠ 0 then
    .again (if less parent then .child .left parent else .child .right parent, parent)
  else .done s

/-- One round of the search of `rb_add_cached` : the variables are `link`, `parent` and
`leftmost`. -/
def searchCachedRound (m : RbMem A) (s : RbLink × RbPtr × Bool) :
    Round (RbLink × RbPtr × Bool) (RbLink × RbPtr × Bool) :=
  let parent := m.link s.1
  if parent ≠ 0 then
    .again (if less parent then (.child .left parent, parent, s.2.2)
      else (.child .right parent, parent, false))
  else .done s

/-- `insert` of `lib/rbtree_test.c`. -/
def rbtreeTestInsert (m : RbMem A) (node : RbPtr) : Option (RbMem A) :=
  (runLoop (searchRound less m) rbFuel (.root, 0)).bind fun (new, parent) =>
    rbInsertColor (m.linkNode node parent new) node

end

/-! ## The callbacks for a maximum -/

section

variable {A : Type*} [LinearOrder A]

/-- The part of `compute_max` for one child. -/
def maxWithChild (m : RbMem A) (d : Side) (node : RbPtr) (max : A) : A :=
  let child := m.link (.child d node)
  if child ≠ 0 then if m.augmented child > max then m.augmented child else max else max

variable (compute : RbPtr → A)

/-- `compute_max` of `RB_DECLARE_CALLBACKS_MAX`, for a node that is not `NULL` : whether to
leave, and the augmented fields. -/
def computeMax (m : RbMem A) (node : RbPtr) (exit : Bool) :
    Bool × (RbPtr → A) :=
  let max := maxWithChild m .right node (maxWithChild m .left node (compute node))
  if exit ∧ m.augmented node = max then (true, m.augmented)
  else (false, update m.augmented node max)

/-- One round of `propagate`. -/
def propagateRound (stop : RbPtr) (s : RbMem A × RbPtr) :
    Round (RbMem A × RbPtr) (Option (RbPtr → A)) :=
  let m := s.1
  let rb := s.2
  if rb = stop then .done (some m.augmented)
  else if rb = 0 then .done none
  else
    let r := computeMax compute m rb true
    if r.1 then .done (some r.2)
    else .again ({ m with augmented := r.2 }, rbParent (m.parentColor rb))

/-- `RB_DECLARE_CALLBACKS_MAX`. -/
def maxCallbacks : RbAugmentCallbacks A where
  propagate m rb stop := (runLoop (propagateRound compute stop) rbFuel (m, rb)).join
  copy m old new :=
    if old = 0 ∨ new = 0 then none
    else some (update m.augmented new (m.augmented old))
  rotate m old new :=
    if old = 0 ∨ new = 0 then none
    else
      let m := { m with augmented := update m.augmented new (m.augmented old) }
      some (computeMax compute m old false).2

/-- One round of the search of `insert_augmented` : the augmented field of every node that is
passed is raised to `val`. -/
def searchAugmentedRound (less : RbPtr → Bool) (val : A) (s : RbMem A × RbLink × RbPtr) :
    Round (RbMem A × RbLink × RbPtr) (RbMem A × RbLink × RbPtr) :=
  let m := s.1
  let parent := m.link s.2.1
  if parent ≠ 0 then
    let m := if m.augmented parent < val then
        { m with augmented := update m.augmented parent val }
      else m
    .again (m, if less parent then .child .left parent else .child .right parent, parent)
  else .done s

/-- `insert_augmented` of `lib/rbtree_test.c`. -/
def rbtreeTestInsertAugmented (less : RbPtr → Bool) (m : RbMem A) (node : RbPtr) :
    Option (RbMem A) :=
  (runLoop (searchAugmentedRound less (compute node)) rbFuel (m, .root, 0)).bind
    fun (m, new, parent) =>
      let m := { m with augmented := update m.augmented node (compute node) }
      rbInsertAugmented (maxCallbacks compute) (m.linkNode node parent new) node

end

end LinuxKernelTest
