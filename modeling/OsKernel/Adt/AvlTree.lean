import OsKernel.Base.Fault
import OsKernel.Base.LinkedTree

/-!
# The AVL tree (`lib/adt/avltree.c`)

The tree is intrusive: a `struct avlnode` sits inside a larger structure, and what
that structure holds is the caller's business. Memory is therefore a map from node
pointers to `struct avlnode`s together with everything else, `ext`, of a type the
caller chooses. Comparators read `ext`; the callbacks `update` and `added_node` see
the whole memory and may write `ext`, but not the links.

Loops that follow links take fuel. Following a NULL pointer is a fault.
-/

namespace OsKernel.Adt

open LinkedTree

/-- A `struct avlnode *` that is not NULL. -/
abbrev Ptr := Nat

/-- `struct avlnode`. -/
structure AvlNode extends TreeLinks Ptr where
  height : Nat

/-- `struct avltree` and the memory it lives in. -/
structure AvlTree (α : Type) where
  nodes : Ptr → AvlNode
  root : Option Ptr
  ext : α

/-- `avlnode_update_t` and `avlnode_added_node_t`. -/
abbrev AvlCallback (α : Type) := AvlTree α → Ptr → Result α

/-- A `struct avlnode **`. -/
inductive AvlLink where
  | root
  | left (p : Ptr)
  | right (p : Ptr)
  deriving DecidableEq

namespace AvlTree

variable {α κ : Type}

/-! ## Reading and writing nodes -/

/-- Write one node. -/
def modify (t : AvlTree α) (p : Ptr) (f : AvlNode → AvlNode) : AvlTree α :=
  { t with nodes := Function.update t.nodes p (f (t.nodes p)) }

def setLeft (t : AvlTree α) (p : Ptr) (v : Option Ptr) : AvlTree α :=
  t.modify p fun n => { n with left := v }

def setRight (t : AvlTree α) (p : Ptr) (v : Option Ptr) : AvlTree α :=
  t.modify p fun n => { n with right := v }

def setParent (t : AvlTree α) (p : Ptr) (v : Option Ptr) : AvlTree α :=
  t.modify p fun n => { n with parent := v }

def setHeight (t : AvlTree α) (p : Ptr) (v : Nat) : AvlTree α :=
  t.modify p fun n => { n with height := v }

/-- `if (p != NULL) p->parent = v`. -/
def setParentOf (t : AvlTree α) (p v : Option Ptr) : AvlTree α :=
  match p with
  | none => t
  | some p => t.setParent p v

/-- `*link = v`. -/
def store (t : AvlTree α) (link : AvlLink) (v : Option Ptr) : AvlTree α :=
  match link with
  | .root => { t with root := v }
  | .left p => t.setLeft p v
  | .right p => t.setRight p v

/-! ## Rotations -/

/-- `rotate_left`. -/
def rotateLeft (t : AvlTree α) (node : Ptr) : Result (Ptr × AvlTree α) :=
  match (t.nodes node).right with
  | none => .error .nullDeref
  | some newTop =>
    let newTopParent := (t.nodes node).parent
    let newTopLeftRight := (t.nodes newTop).left
    let t := t.setRight node newTopLeftRight
    let t := t.setParent node (some newTop)
    let t := t.setParentOf newTopLeftRight (some node)
    let t := t.setParent newTop newTopParent
    let t := t.setLeft newTop (some node)
    .ok (newTop, t)

/-- `rotate_right`. -/
def rotateRight (t : AvlTree α) (node : Ptr) : Result (Ptr × AvlTree α) :=
  match (t.nodes node).left with
  | none => .error .nullDeref
  | some newTop =>
    let newTopParent := (t.nodes node).parent
    let newTopRightLeft := (t.nodes newTop).right
    let t := t.setLeft node newTopRightLeft
    let t := t.setParent node (some newTop)
    let t := t.setParentOf newTopRightLeft (some node)
    let t := t.setParent newTop newTopParent
    let t := t.setRight newTop (some node)
    .ok (newTop, t)

/-- `node_height`. -/
def nodeHeight (t : AvlTree α) : Option Ptr → Nat
  | none => 0
  | some p => (t.nodes p).height

/-- `node_balance`. -/
def nodeBalance (t : AvlTree α) (node : Ptr) : Int :=
  (t.nodeHeight (t.nodes node).right : Int) - t.nodeHeight (t.nodes node).left

/-- `reset_node_height`, in 32 bits. -/
def resetNodeHeight (t : AvlTree α) (node : Ptr) : AvlTree α :=
  t.setHeight node
    ((1 + max (t.nodeHeight (t.nodes node).left) (t.nodeHeight (t.nodes node).right)) % 2 ^ 32)

/-- `get_node_link`. -/
def getNodeLink (t : AvlTree α) (node : Ptr) : AvlLink :=
  match (t.nodes node).parent with
  | none => .root
  | some parent => if (t.nodes parent).left = some node then .left parent else .right parent

/-- `avlnode_update`: a callback that is NULL does nothing. -/
def avlnodeUpdate (t : AvlTree α) (node : Ptr) : Option (AvlCallback α) → Result (AvlTree α)
  | none => .ok t
  | some update => do
    let ext ← update t node
    pure { t with ext := ext }

/-! ## Rebalancing -/

/-- The right-heavy case of `avltree_fixup`: the node that is on top now. -/
def fixRightHeavy (t : AvlTree α) (node : Ptr) (update : Option (AvlCallback α)) :
    Result (Ptr × AvlTree α) :=
  match (t.nodes node).right with
  | none => .error .nullDeref
  | some newNode => do
    let doubleRotate :=
      t.nodeHeight (t.nodes newNode).right < t.nodeHeight (t.nodes newNode).left
    let (newNode, t) ←
      if doubleRotate then do
        let (newNode, t) ← t.rotateRight newNode
        let t := t.setRight node (some newNode)
        let t := t.resetNodeHeight newNode
        let t ← t.avlnodeUpdate newNode update
        pure (newNode, t)
      else pure (newNode, t)
    let link := t.getNodeLink node
    let (top, t) ← t.rotateLeft node
    let t := t.store link (some top)
    let t := t.resetNodeHeight node
    let t ← t.avlnodeUpdate node update
    pure (newNode, t)

/-- The left-heavy case. The double rotation does not call `update` on the new top here. -/
def fixLeftHeavy (t : AvlTree α) (node : Ptr) (update : Option (AvlCallback α)) :
    Result (Ptr × AvlTree α) :=
  match (t.nodes node).left with
  | none => .error .nullDeref
  | some newNode => do
    let doubleRotate :=
      t.nodeHeight (t.nodes newNode).left < t.nodeHeight (t.nodes newNode).right
    let (newNode, t) ←
      if doubleRotate then do
        let (newNode, t) ← t.rotateLeft newNode
        let t := t.setLeft node (some newNode)
        let t := t.resetNodeHeight newNode
        pure (newNode, t)
      else pure (newNode, t)
    let link := t.getNodeLink node
    let (top, t) ← t.rotateRight node
    let t := t.store link (some top)
    let t := t.resetNodeHeight node
    let t ← t.avlnodeUpdate node update
    pure (newNode, t)

/-- The three cases of the loop body of `avltree_fixup`. -/
def rebalance (t : AvlTree α) (node : Ptr) (update : Option (AvlCallback α)) :
    Result (Ptr × AvlTree α) :=
  let balance := t.nodeBalance node
  if balance > 1 then t.fixRightHeavy node update
  else if balance < -1 then t.fixLeftHeavy node update
  else .ok (node, t.resetNodeHeight node)

/-- One turn of the loop of `avltree_fixup`: the node at which it ends. -/
def fixupStep (t : AvlTree α) (node : Ptr) (update : Option (AvlCallback α)) :
    Result (Ptr × AvlTree α) := do
  let (node, t) ← t.rebalance node update
  let t ← t.avlnodeUpdate node update
  pure (node, t)

/-- `avltree_fixup`. -/
def avltreeFixup (update : Option (AvlCallback α)) : Nat → AvlTree α → Option Ptr →
    Result (AvlTree α)
  | _, t, none => .ok t
  | 0, _, some _ => .error .outOfFuel
  | fuel + 1, t, some node => do
    let (node, t) ← t.fixupStep node update
    avltreeFixup update fuel t (t.nodes node).parent

/-! ## Insertion -/

/-- `insert_at_loc`. -/
def insertAtLoc (t : AvlTree α) (fuel : Nat) (node : Ptr) (parent : Option Ptr) (link : AvlLink)
    (update addedNode : Option (AvlCallback α)) : Result (AvlTree α) := do
  let t := t.modify node fun _ => { parent := parent, left := none, right := none, height := 1 }
  let t := t.store link (some node)
  let t ← t.avlnodeUpdate node addedNode
  let t ← t.avlnodeUpdate node update
  avltreeFixup update fuel t parent

/--
The descent of `avltree_insert`: the place of the new node, or `none` when the comparator
found an equal one.
-/
def findPlace (t : AvlTree α) (node : Ptr) (comparator : α → Ptr → Ptr → Int) :
    Nat → Option Ptr → Option Ptr → AvlLink → Result (Option (Option Ptr × AvlLink))
  | _, none, parent, link => .ok (some (parent, link))
  | 0, some _, _, _ => .error .outOfFuel
  | fuel + 1, some curr, _, _ =>
    let compare := comparator t.ext node curr
    if compare = 0 then .ok none
    else if compare < 0 then
      findPlace t node comparator fuel (t.nodes curr).left (some curr) (.left curr)
    else findPlace t node comparator fuel (t.nodes curr).right (some curr) (.right curr)

/-- `avltree_insert`. -/
def avltreeInsert (t : AvlTree α) (fuel : Nat) (node : Ptr) (comparator : α → Ptr → Ptr → Int)
    (update addedNode : Option (AvlCallback α)) : Result (Bool × AvlTree α) := do
  match ← t.findPlace node comparator fuel t.root none .root with
  | none => pure (false, t)
  | some (parent, link) =>
    let t ← t.insertAtLoc fuel node parent link update addedNode
    pure (true, t)

/-- `avltree_insert_at_loc`. -/
def avltreeInsertAtLoc (t : AvlTree α) (fuel : Nat) (node : Ptr) (parent : Option Ptr)
    (link : AvlLink) (update : Option (AvlCallback α)) : Result (AvlTree α) :=
  t.insertAtLoc fuel node parent link update none

/-! ## Deletion -/

/-- The `do … while` loop of `avltree_delete_node`: the successor and the node above it. -/
def leftEnd (t : AvlTree α) : Nat → Ptr → Result (Ptr × Ptr)
  | 0, _ => .error .outOfFuel
  | fuel + 1, successor =>
    match (t.nodes successor).left with
    | none => .error .nullDeref
    | some next =>
      if (t.nodes next).left = none then .ok (successor, next) else leftEnd t fuel next

/-- The successor is further down: it changes places with the node. -/
def swapFar (t : AvlTree α) (node left parent successor : Ptr) (nodeLink : AvlLink) :
    Result (AvlTree α) :=
  let t := t.setLeft successor (some left)
  let t := t.setParent left (some successor)
  let t := t.setLeft node none
  let nodeRight := (t.nodes node).right
  let t := t.setRight node (t.nodes successor).right
  let t := t.setRight successor nodeRight
  match nodeRight with
  | none => .error .nullDeref
  | some nodeRight =>
    let t := t.setParent nodeRight (some successor)
    let t := t.setParentOf (t.nodes node).right (some node)
    let t := t.setLeft parent (some node)
    let t := t.store nodeLink (some successor)
    let t := t.setParent successor (t.nodes node).parent
    let t := t.setParent node (some parent)
    let nodeHeight := (t.nodes node).height
    let t := t.setHeight node (t.nodes successor).height
    .ok (t.setHeight successor nodeHeight)

/-- The successor is the right child itself. -/
def swapNear (t : AvlTree α) (node left successor : Ptr) (nodeLink : AvlLink) : AvlTree α :=
  let t := t.setLeft node none
  let t := t.setRight node (t.nodes successor).right
  let t := t.setLeft successor (some left)
  let t := t.setRight successor (some node)
  let t := t.setParent left (some successor)
  let t := t.setParentOf (t.nodes node).right (some node)
  let t := t.setRight successor (some node)
  let t := t.setParent successor (t.nodes node).parent
  let t := t.setParent node (some successor)
  let t := t.store nodeLink (some successor)
  let nodeHeight := (t.nodes node).height
  let t := t.setHeight node (t.nodes successor).height
  t.setHeight successor nodeHeight

/-- `avltree_delete_node` up to the point where the node has at most one child. -/
def swapWithSuccessor (t : AvlTree α) (fuel : Nat) (node : Ptr) :
    Result (AvlLink × Option Ptr × AvlTree α) :=
  let nodeLink := t.getNodeLink node
  let parent := (t.nodes node).parent
  match (t.nodes node).left, (t.nodes node).right with
  | some left, some successor =>
    if (t.nodes successor).left = none then
      .ok (.right successor, some successor, t.swapNear node left successor nodeLink)
    else do
      let (parent, successor) ← t.leftEnd fuel successor
      let t ← t.swapFar node left parent successor nodeLink
      pure (.left parent, some parent, t)
  | _, _ => .ok (nodeLink, parent, t)

/-- `avltree_delete_node`. -/
def avltreeDeleteNode (t : AvlTree α) (fuel : Nat) (node : Ptr) (update : Option (AvlCallback α)) :
    Result (AvlTree α) := do
  let (nodeLink, parent, t) ← t.swapWithSuccessor fuel node
  let firstChild := (t.nodes node).left <|> (t.nodes node).right
  let t := t.store nodeLink firstChild
  let t := t.setParentOf firstChild parent
  avltreeFixup update fuel t parent

/-- The descent of `avltree_delete`. -/
def findKey (t : AvlTree α) (key : κ) (comparator : α → Ptr → κ → Int) :
    Nat → Option Ptr → Result (Option Ptr)
  | _, none => .ok none
  | 0, some _ => .error .outOfFuel
  | fuel + 1, some curr =>
    let compare := comparator t.ext curr key
    if compare = 0 then .ok (some curr)
    else findKey t key comparator fuel
      (if compare < 0 then (t.nodes curr).left else (t.nodes curr).right)

/-- `avltree_delete`. -/
def avltreeDelete (t : AvlTree α) (fuel : Nat) (key : κ) (comparator : α → Ptr → κ → Int)
    (update : Option (AvlCallback α)) : Result (AvlTree α) := do
  match ← t.findKey key comparator fuel t.root with
  | none => pure t
  | some node => t.avltreeDeleteNode fuel node update

end AvlTree

end OsKernel.Adt
