import WorkflowModel.Lib.RedBlack
import Mathlib.Logic.Function.Basic

/-!
# The red-black tree

`rbtree.c` keeps a tree of nodes with pointers to the parent and to both children. The nodes belong to the
caller, who finds the place of a new one and links it; `rb_insert_color` and `rb_erase` restore the balance.

A node is known by its address, and a null pointer is `none`. Following a null pointer has no result. The
source writes out what it does on the left and the same with the sides exchanged; here the side is a
parameter. A loop is given more rounds than it can take, and has no result when they do not suffice.
-/

namespace WorkflowModel.Kernel.RBTree

open RedBlack

structure RbNode where
  parent : Option Nat
  right : Option Nat
  left : Option Nat
  color : Color
  deriving DecidableEq, Repr

def RbNode.child (node : RbNode) : Side → Option Nat
  | .left => node.left
  | .right => node.right

def RbNode.withChild (node : RbNode) (side : Side) (child : Option Nat) : RbNode :=
  match side with
  | .left => { node with left := child }
  | .right => { node with right := child }

/-- The nodes, and `rb_node` of `struct rb_root`. -/
structure Memory where
  node : Nat → RbNode
  root : Option Nat

namespace Memory

def set (m : Memory) (x : Nat) (node : RbNode) : Memory := { m with node := Function.update m.node x node }

def setParent (m : Memory) (x : Nat) (parent : Option Nat) : Memory := m.set x { m.node x with parent := parent }

def setColor (m : Memory) (x : Nat) (color : Color) : Memory := m.set x { m.node x with color := color }

def setChild (m : Memory) (x : Nat) (side : Side) (child : Option Nat) : Memory :=
  m.set x ((m.node x).withChild side child)

/-- `if (child) child->rb_parent = parent`. -/
def adopt (m : Memory) (child parent : Option Nat) : Memory :=
  match child with
  | some x => m.setParent x parent
  | none => m

/-- The child that was `old` becomes `new`: a test of the left child of the parent, or the root where there is no
parent. -/
def relink (m : Memory) (parent old new : Option Nat) : Memory :=
  match parent with
  | some p => if (m.node p).left = old then m.setChild p .left new else m.setChild p .right new
  | none => { m with root := new }

/-- `!node || node->rb_color == RB_BLACK`. -/
def isBlack (m : Memory) : Option Nat → Bool
  | some x => (m.node x).color = .black
  | none => true

/-- The side of the parent that a child is on, by a test of the left child. -/
def sideOf (m : Memory) (parent : Nat) (child : Option Nat) : Side :=
  if (m.node parent).left = child then .left else .right

end Memory

/-- The child on the other side takes the place of the node, and the node becomes its child on this side. -/
def rotate (side : Side) (node : Nat) (m : Memory) : Option Memory := do
  let other ← (m.node node).child side.other
  let inner := (m.node other).child side
  let m := (m.setChild node side.other inner).adopt inner (some node)
  let m := m.setChild other side (some node)
  let m := m.setParent other (m.node node).parent
  let m := m.relink (m.node node).parent (some node) (some other)
  return m.setParent node (some other)

def rbRotateLeft : Nat → Memory → Option Memory := rotate .left

def rbRotateRight : Nat → Memory → Option Memory := rotate .right

/-- What `rb_link_node` gets for its argument `link`: where the pointer to the new node goes. -/
inductive Link where
  | root
  | child (parent : Nat) (side : Side)
  deriving DecidableEq, Repr

def Memory.deref (m : Memory) : Link → Option Nat
  | .root => m.root
  | .child parent side => (m.node parent).child side

def Memory.store (m : Memory) (link : Link) (node : Nat) : Memory :=
  match link with
  | .root => { m with root := some node }
  | .child parent side => m.setChild parent side (some node)

def rbLinkNode (node : Nat) (parent : Option Nat) (link : Link) (m : Memory) : Memory :=
  (m.set node { parent := parent, color := .red, left := none, right := none }).store link node

/-- The end of a round of `rb_insert_color` in which the uncle is black: a node on the inner side is first rotated
to the outer one, where it and its parent exchange their names. -/
def insertRotate (side : Side) (node parent gparent : Nat) (m : Memory) : Option (Nat × Memory) := do
  let (node, parent, m) ←
    if (m.node parent).child side.other = some node then do
      let m ← rotate side parent m
      pure (parent, node, m)
    else pure (node, parent, m)
  let m := (m.setColor parent .black).setColor gparent .red
  let m ← rotate side.other gparent m
  return (node, m)

def rbInsertColor : Nat → Nat → Memory → Option Memory
  | 0, _, _ => none
  | fuel + 1, node, m =>
      match (m.node node).parent with
      | some parent =>
          if (m.node parent).color = .red then do
            let gparent ← (m.node parent).parent
            let side := m.sideOf gparent (some parent)
            match (m.node gparent).child side.other with
            | some uncle =>
                if (m.node uncle).color = .red then
                  rbInsertColor fuel gparent
                    (((m.setColor uncle .black).setColor parent .black).setColor gparent .red)
                else do
                  let (node, m) ← insertRotate side node parent gparent m
                  rbInsertColor fuel node m
            | none => do
                let (node, m) ← insertRotate side node parent gparent m
                rbInsertColor fuel node m
          else m.root.map fun root => m.setColor root .black
      | none => m.root.map fun root => m.setColor root .black

/-- What follows the loop of `__rb_erase_color`. -/
def blacken (node : Option Nat) (m : Memory) : Memory :=
  match node with
  | some x => m.setColor x .black
  | none => m

/-- The part of a round of `__rb_erase_color` for a red sibling. -/
def eraseRedSibling (side : Side) (parent other : Nat) (m : Memory) : Option (Nat × Memory) :=
  if (m.node other).color = .red then do
    let m ← rotate side parent ((m.setColor other .black).setColor parent .red)
    let other ← (m.node parent).child side.other
    pure (other, m)
  else pure (other, m)

/-- The part of a round of `__rb_erase_color` for a sibling with a red child, after which the loop ends. -/
def eraseRedNephew (side : Side) (parent other : Nat) (m : Memory) : Option Memory := do
  let (other, m) ←
    if m.isBlack ((m.node other).child side.other) = true then do
      let m := (blacken ((m.node other).child side) m).setColor other .red
      let m ← rotate side.other other m
      let other ← (m.node parent).child side.other
      pure (other, m)
    else pure (other, m)
  let m := (m.setColor other (m.node parent).color).setColor parent .black
  rotate side parent (blacken ((m.node other).child side.other) m)

def rbEraseColor : Nat → Option Nat → Option Nat → Memory → Option Memory
  | 0, _, _, _ => none
  | fuel + 1, node, parent, m =>
      if m.isBlack node = true ∧ node ≠ m.root then do
        let parent ← parent
        let side := m.sideOf parent node
        let other ← (m.node parent).child side.other
        let (other, m) ← eraseRedSibling side parent other m
        if m.isBlack (m.node other).left = true ∧ m.isBlack (m.node other).right = true then
          rbEraseColor fuel (some parent) (m.node parent).parent (m.setColor other .red)
        else do
          let m ← eraseRedNephew side parent other m
          return blacken m.root m
      else some (blacken node m)

/-- `while (node->child) node = node->child`. -/
def extreme (side : Side) : Nat → Nat → Memory → Option Nat
  | 0, _, _ => none
  | fuel + 1, node, m =>
      match (m.node node).child side with
      | some next => extreme side fuel next m
      | none => some node

/-- A node with at most one child is taken out, and the child takes its place. The result has its parent. -/
def unlink (node : Nat) (child : Option Nat) (m : Memory) : Memory :=
  (m.adopt child (m.node node).parent).relink (m.node node).parent (some node) child

def rbErase (fuel node : Nat) (m : Memory) : Option Memory :=
  let finish (color : Color) (child parent : Option Nat) (m : Memory) : Option Memory :=
    if color = .black then rbEraseColor fuel child parent m else some m
  match (m.node node).left, (m.node node).right with
  | none, child | child, none => finish (m.node node).color child (m.node node).parent (unlink node child m)
  | some _, some right => do
      let old := node
      let node ← extreme .left fuel right m
      let child := (m.node node).right
      let parent := (m.node node).parent
      let color := (m.node node).color
      let m := unlink node child m
      let parent := if parent = some old then some node else parent
      let m := m.set node (m.node old)
      let m := m.relink (m.node old).parent (some old) (some node)
      let left ← (m.node old).left
      let m := (m.setParent left (some node)).adopt (m.node old).right (some node)
      finish color child parent m

def endNode (side : Side) (fuel : Nat) (m : Memory) : Option (Option Nat) :=
  match m.root with
  | none => some none
  | some root => (extreme side fuel root m).map some

/-- `while (node->rb_parent && node == node->rb_parent->child) node = node->rb_parent`, and the parent at the end. -/
def climb (side : Side) : Nat → Nat → Memory → Option (Option Nat)
  | 0, _, _ => none
  | fuel + 1, node, m =>
      match (m.node node).parent with
      | none => some none
      | some parent => if some node = (m.node parent).child side then climb side fuel parent m else some (some parent)

def neighbour (side : Side) (fuel node : Nat) (m : Memory) : Option (Option Nat) :=
  match (m.node node).child side with
  | some child => (extreme side.other fuel child m).map some
  | none => climb side fuel node m

def rbFirst : Nat → Memory → Option (Option Nat) := endNode .left

def rbLast : Nat → Memory → Option (Option Nat) := endNode .right

def rbNext : Nat → Nat → Memory → Option (Option Nat) := neighbour .right

def rbPrev : Nat → Nat → Memory → Option (Option Nat) := neighbour .left

/-- The nodes from one on. -/
def nodesFrom (fuel : Nat) : Nat → Option Nat → Memory → Option (List Nat)
  | _, none, _ => some []
  | 0, some _, _ => none
  | rounds + 1, some node, m => do
      let next ← rbNext fuel node m
      let nodes ← nodesFrom fuel rounds next m
      return node :: nodes

/-- The nodes that a loop goes through, from `cur = rb_first(root)` and with `cur = rb_next(cur)` while there
is one. -/
def nodes (fuel : Nat) (m : Memory) : Option (List Nat) := do
  let first ← rbFirst fuel m
  nodesFrom fuel fuel first m

/-- How the way down a tree ends: at a node with the key, or at a free place. -/
inductive Descent where
  | found (node : Nat)
  | free (parent : Option Nat) (link : Link)
  deriving DecidableEq, Repr

/-- The loop that looks for a place. `compare` compares the key of the new node with the one of a node. -/
def descend (compare : Nat → Ordering) : Nat → Option Nat → Link → Memory → Option Descent
  | 0, _, _, _ => none
  | fuel + 1, parent, link, m =>
      match m.deref link with
      | none => some (.free parent link)
      | some node =>
          match compare node with
          | .lt => descend compare fuel (some node) (.child node .left) m
          | .gt => descend compare fuel (some node) (.child node .right) m
          | .eq => some (.found node)

/-- `insert_my_data`: nothing is inserted when there is the key already. -/
def insertMyData (fuel : Nat) (compare : Nat → Ordering) (data : Nat) (m : Memory) : Option Memory := do
  match ← descend compare fuel none .root m with
  | .found _ => return m
  | .free parent link => rbInsertColor fuel data (rbLinkNode data parent link m)

/-- `delete_my_data`, without the `free` of the node. -/
def deleteMyData (fuel data : Nat) (m : Memory) : Option Memory := rbErase fuel data m

end WorkflowModel.Kernel.RBTree
