import OsKernel.Adt.AvlTree
import OsKernel.Adt.Range
import OsKernel.Lib.List

/-!
# Address spaces (`lib/adt/addrspace.c`)

An address space keeps its nodes twice: in an AVL tree, ordered by their ranges, and
in a circular list in the same order. The memory of one address space is an AVL tree
whose nodes carry, besides their tree links, a range, a list element and the size of
the largest hole below the node's subtree.

There is one address space here, so `node->addrspace` is not modelled.
-/

namespace OsKernel.Adt

/-- `ADDRSPACE_INVALID_ADDR`. -/
def ADDRSPACE_INVALID_ADDR : Nat := U64 - 1

/-- What a `struct addrspace_node` holds beside its `avlnode`, and the head of the list. -/
structure AddrData where
  range : Ptr → Range
  list : ListPtr → RingLinks ListPtr
  largestFreeToPrev : Ptr → Nat

/-- `struct address_space` and the memory it lives in. -/
abbrev AddressSpace := AvlTree AddrData

namespace AddrData

/-- `addrspace_node_prev`, which asserts that the element is on a list. -/
def addrspaceNodePrev (e : AddrData) (node : Ptr) : Result (Option Ptr) :=
  match (e.list (.node node)).prev with
  | none => .error .panic
  | some .head => .ok none
  | some (.node prev) => .ok (some prev)

/-- `prev != NULL ? range_get_end_assert(prev->range) : 0`. -/
def prevEnd (e : AddrData) : Option Ptr → Result Nat
  | none => .ok 0
  | some prev => (e.range prev).getEndAssert

end AddrData

namespace AddressSpace

/-- `align_up_assert`. -/
def alignUpAssert (number boundary : Nat) : Result Nat :=
  match alignUp number boundary with
  | some result => .ok result
  | none => .error .panic

/-! ## The search -/

/-- `enum traversal_result` with the outputs: the address and the node before it, or a node. -/
inductive TraversalResult where
  | done (result : Nat) (prev : Option Ptr)
  | continue_ (node : Ptr)

/--
The front half of the loop of `travserse_tree`: is there room in the hole before the node?
`none` sends the search on.
-/
def tryHole (e : AddrData) (inRange : Range) (size align : Nat) (node : Ptr) :
    Result (Option (Nat × Option Ptr)) := do
  let prev ← e.addrspaceNodePrev node
  let prevEnd ← e.prevEnd prev
  if inRange.isLocAbove prevEnd then pure (some (ADDRSPACE_INVALID_ADDR, none))
  else
    let alignedFront ← alignUpAssert prevEnd align
    let alignedRange : Range := ⟨alignedFront, size⟩
    let holeRange ← Range.createEnd prevEnd (e.range node).front
    if holeRange.has alignedRange && inRange.has alignedRange then
      pure (some (alignedFront, prev))
    else pure none

/-- The search has come back to the root: what is left is the room after the last node. -/
def afterLast (e : AddrData) (inRange : Range) (size align : Nat) :
    Result (Nat × Option Ptr) :=
  match (e.list .head).prev with
  | some (.node rightmost) => do
    let end_ ← (e.range rightmost).getEndAssert
    let inEnd ← inRange.getEndAssert
    if inEnd ≤ end_ then pure (ADDRSPACE_INVALID_ADDR, none)
    else
      match alignUp end_ align with
      | none => pure (ADDRSPACE_INVALID_ADDR, none)
      | some aligned =>
        if aligned + size < U64 then pure (aligned, some rightmost)
        else pure (ADDRSPACE_INVALID_ADDR, none)
  | _ => .error .badMemory

/-- The inner loop of `travserse_tree`: up to the first parent that is reached from its left. -/
def climb (t : AddressSpace) : Nat → Ptr → Result (Option Ptr)
  | 0, _ => .error .outOfFuel
  | fuel + 1, node =>
    match (t.nodes node).parent with
    | none => .ok none
    | some parent =>
      if (t.nodes parent).left = some node then .ok (some parent) else climb t fuel parent

/-- Whether `travserse_tree` goes to the right of a node, and where. -/
def rightOf (t : AddressSpace) (size : Nat) (node : Ptr) : Option Ptr :=
  match (t.nodes node).right with
  | some right => if size ≤ t.ext.largestFreeToPrev right then some right else none
  | none => none

/-- `travserse_tree`. -/
def travserseTree (t : AddressSpace) (inRange : Range) (size align : Nat) :
    Nat → Ptr → Result TraversalResult
  | 0, _ => .error .outOfFuel
  | fuel + 1, node => do
    match ← tryHole t.ext inRange size align node with
    | some (result, prev) => pure (.done result prev)
    | none =>
      match t.rightOf size node with
      | some right => pure (.continue_ right)
      | none =>
        match ← t.climb fuel node with
        | none =>
          let (result, prev) ← afterLast t.ext inRange size align
          pure (.done result prev)
        | some node => travserseTree t inRange size align fuel node

/-- Whether `find_from_start` goes to the left of a node, and where. -/
def leftOf (t : AddressSpace) (inRange : Range) (size : Nat) (node : Ptr) : Option Ptr :=
  match (t.nodes node).left with
  | some left =>
    if inRange.isLocAbove (t.ext.range node).front ∧ size ≤ t.ext.largestFreeToPrev left then
      some left
    else none
  | none => none

/-- The loop of `find_from_start`. -/
def findLoop (t : AddressSpace) (inRange : Range) (size align fuel : Nat) :
    Nat → Ptr → Result (Nat × Option Ptr)
  | 0, _ => .error .outOfFuel
  | turns + 1, node =>
    match t.leftOf inRange size node with
    | some left => findLoop t inRange size align fuel turns left
    | none => do
      match ← t.travserseTree inRange size align fuel node with
      | .done result prev => pure (result, prev)
      | .continue_ right => findLoop t inRange size align fuel turns right

/-- `find_from_start`: the address and the node before it. -/
def findFromStart (t : AddressSpace) (fuel : Nat) (inRange : Range) (size align : Nat) :
    Result (Nat × Option Ptr) :=
  match t.root with
  | none => do
    let alignedFront ← alignUpAssert inRange.front align
    if inRange.has ⟨alignedFront, size⟩ then pure (alignedFront, none)
    else pure (ADDRSPACE_INVALID_ADDR, none)
  | some root => t.findLoop inRange size align fuel fuel root

/-! ## Adding and removing -/

/-- `avltree_update`: recompute `largest_free_to_prev` from the hole and the children. -/
def avltreeUpdate : AvlCallback AddrData := fun t node => do
  let prev ← t.ext.addrspaceNodePrev node
  let prevEnd ← t.ext.prevEnd prev
  let largest := ((t.ext.range node).front + U64 - prevEnd) % U64
  let largest := match (t.nodes node).left with
    | some left => max largest (t.ext.largestFreeToPrev left)
    | none => largest
  let largest := match (t.nodes node).right with
    | some right => max largest (t.ext.largestFreeToPrev right)
    | none => largest
  pure { t.ext with
    largestFreeToPrev := Function.update t.ext.largestFreeToPrev node largest }

/-- `avltree_compare`. -/
def avltreeCompare (e : AddrData) (ours theirs : Ptr) : Int :=
  if (e.range ours).overlaps (e.range theirs) then 0
  else if (e.range ours).above (e.range theirs) then -1 else 1

/-- Write `node->range`. -/
def setRange (t : AddressSpace) (node : Ptr) (range : Range) : AddressSpace :=
  { t with ext := { t.ext with range := Function.update t.ext.range node range } }

/-- Write the list elements. -/
def setList (t : AddressSpace) (list : ListPtr → RingLinks ListPtr) : AddressSpace :=
  { t with ext := { t.ext with list := list } }

/-- `node = ADDRSPACE_NODE_INIT(node, addrspace)`. -/
def nodeInit (t : AddressSpace) (node : Ptr) : AddressSpace :=
  { t.modify node fun _ => { parent := none, left := none, right := none, height := 0 } with
    ext :=
      { range := Function.update t.ext.range node ⟨0, 0⟩
        list := listInit t.ext.list (.node node)
        largestFreeToPrev := Function.update t.ext.largestFreeToPrev node 0 } }

/-- `addrspace_find_space_and_add_node`, after the search. -/
def addAt (t : AddressSpace) (fuel : Nat) (node : Ptr) (addr : Nat) (prev : Option Ptr) :
    Result AddressSpace :=
  let t := t.setRange node ⟨addr, (t.ext.range node).size⟩
  match prev with
  | some prev => do
    let list ← listAdd t.ext.list (.node prev) (.node node)
    (t.setList list).avltreeInsertAtLoc fuel node (some prev) (.right prev) (some avltreeUpdate)
  | none => do
    let (result, t) ← t.avltreeInsert fuel node avltreeCompare (some avltreeUpdate) none
    if result then do
      let list ← listAdd t.ext.list .head (.node node)
      pure (setList t list)
    else .error .panic

/-- `addrspace_find_space_and_add_node`. -/
def addrspaceFindSpaceAndAddNode (t : AddressSpace) (fuel : Nat) (inRange : Range) (node : Ptr)
    (align : Nat) : Result (Nat × AddressSpace) := do
  let (addr, prev) ← t.findFromStart fuel inRange (t.ext.range node).size align
  if addr = ADDRSPACE_INVALID_ADDR then pure (ADDRSPACE_INVALID_ADDR, t)
  else
    let t ← t.addAt fuel node addr prev
    pure (addr, t)

/-- `add_node_cb`: put the node on the list, by its place in the tree. -/
def addNodeCb : AvlCallback AddrData := fun t node =>
  let add (after : ListPtr) : Result AddrData := do
    let list ← listAdd t.ext.list after (.node node)
    pure { t.ext with list := list }
  match (t.nodes node).parent with
  | none => add .head
  | some parent =>
    if (t.nodes parent).right = some node then add (.node parent)
    else do
      match ← t.ext.addrspaceNodePrev parent with
      | some prev => add (.node prev)
      | none => .error .nullDeref

/-- `addrspace_add_node`. -/
def addrspaceAddNode (t : AddressSpace) (fuel : Nat) (node : Ptr) : Result (Bool × AddressSpace) :=
  t.avltreeInsert fuel node avltreeCompare (some avltreeUpdate) (some addNodeCb)

/-- `addrspace_remove_node`: from the tree only. -/
def addrspaceRemoveNode (t : AddressSpace) (fuel : Nat) (node : Ptr) : Result AddressSpace :=
  t.avltreeDeleteNode fuel node (some avltreeUpdate)

end AddressSpace

end OsKernel.Adt
