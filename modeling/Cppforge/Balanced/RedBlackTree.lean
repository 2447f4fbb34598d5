import Cppforge.Lib.Links
import Cppforge.Lib.RedBlack
import Mathlib.Data.Multiset.AddSub

namespace Cppforge.Balanced
open BinaryTree (Side)
open TreeLinks RedBlack

/-- Pointers are addresses, a null pointer is `none`; nodes are shared, so that every address
once made refers to one. -/
structure RedBlackTree (T : Type) extends Links Nat where
  data : Nat → Option T
  color : Nat → Color
  fresh : Nat

namespace RedBlackTree
variable {T : Type}

def create : RedBlackTree T := ⟨⟨fun _ _ => none, fun _ => none, none⟩, fun _ => none, fun _ => .red, 0⟩

section Nodes

/-- `none` here and below is the use of a null pointer. -/
def getData (t : RedBlackTree T) (node : Option Nat) : Option T := node.bind t.data

def getChild (s : Side) (t : RedBlackTree T) (node : Option Nat) : Option (Option Nat) :=
  node.map (t.child s)

def getLeft (t : RedBlackTree T) : Option Nat → Option (Option Nat) := getChild .left t

def getRight (t : RedBlackTree T) : Option Nat → Option (Option Nat) := getChild .right t

def getParent (t : RedBlackTree T) (node : Option Nat) : Option (Option Nat) := node.map t.parent

def getColor (t : RedBlackTree T) (node : Option Nat) : Option Color := node.map t.color

def setChild (s : Side) (t : RedBlackTree T) (node x : Option Nat) : Option (RedBlackTree T) :=
  node.map fun a => { t with toLinks := t.toLinks.setChild s a x }

def setLeft (t : RedBlackTree T) : Option Nat → Option Nat → Option (RedBlackTree T) :=
  setChild .left t

def setRight (t : RedBlackTree T) : Option Nat → Option Nat → Option (RedBlackTree T) :=
  setChild .right t

def setParent (t : RedBlackTree T) (node x : Option Nat) : Option (RedBlackTree T) :=
  node.map fun a => { t with toLinks := t.toLinks.setParent a x }

def setColor (t : RedBlackTree T) (node : Option Nat) (c : Color) : Option (RedBlackTree T) :=
  node.map fun a => { t with color := Function.update t.color a c }

/-- `std::make_shared<RedBlackTreeNode<T>>(value)`. -/
def makeNode (t : RedBlackTree T) (value : T) : RedBlackTree T :=
  { t with
    data := Function.update t.data t.fresh (some value)
    color := Function.update t.color t.fresh .red
    toLinks := ((t.toLinks.setChild .left t.fresh none).setChild .right t.fresh none).setParent
      t.fresh none
    fresh := t.fresh + 1 }

/-- `if (node) node->setParent(x)`. -/
def setParentOf (t : RedBlackTree T) (node x : Option Nat) : Option (RedBlackTree T) :=
  if node.isSome then t.setParent node x else some t

/-- `!node || node->getColor() == Color::Black`. -/
def isBlack (t : RedBlackTree T) (node : Option Nat) : Bool :=
  match node with
  | none => true
  | some a => t.color a = .black

/-- What points to a node, the root or a link of its parent, comes to point to `x`. -/
def replaceChild (t : RedBlackTree T) (node x : Option Nat) : Option (RedBlackTree T) := do
  let parent ← t.getParent node
  if parent.isNone then some { t with root := x }
  else do
    let left ← t.getLeft parent
    if node = left then t.setLeft parent x else t.setRight parent x

end Nodes

section Rotation

/-- Both rotations, the node coming down on the side `s`. -/
def rotate (s : Side) (t : RedBlackTree T) (node : Option Nat) : Option (RedBlackTree T) := do
  let child ← getChild s.other t node
  let inner ← getChild s t child
  let t ← setChild s.other t node inner
  let inner ← getChild s t child
  let t ← t.setParentOf inner node
  let t ← t.setParent child (← t.getParent node)
  let t ← t.replaceChild node child
  let t ← setChild s t child node
  t.setParent node child

def leftRotate (t : RedBlackTree T) (node : Option Nat) : Option (RedBlackTree T) :=
  rotate .left t node

def rightRotate (t : RedBlackTree T) (node : Option Nat) : Option (RedBlackTree T) :=
  rotate .right t node

end Rotation

section Insertion

/-- The condition of the loop. -/
def insertGuard (t : RedBlackTree T) (node : Option Nat) : Option Bool :=
  if node = t.root then some false
  else do
    let parent ← t.getParent node
    if parent.isNone then some false
    else do
      let color ← t.getColor parent
      return color = .red

/-- The end of a pass where the uncle is black. -/
def raiseParent (s : Side) (t : RedBlackTree T) (node : Option Nat) : Option (RedBlackTree T) := do
  let parent ← t.getParent node
  let t ← t.setColor parent .black
  let grandparent ← t.getParent parent
  let t ← (if grandparent.isSome then t.setColor grandparent .red else some t)
  rotate s.other t grandparent

/-- One pass of the loop where the parent is the child of its parent on the side `s`; the node
that the next pass starts from comes back. -/
def fixInsertStep (s : Side) (t : RedBlackTree T) (node : Option Nat) :
    Option (RedBlackTree T × Option Nat) := do
  let parent ← t.getParent node
  let grandparent ← t.getParent parent
  let uncle ← getChild s.other t grandparent
  if !t.isBlack uncle then do
    let t ← t.setColor parent .black
    let t ← t.setColor uncle .black
    let t ← t.setColor grandparent .red
    return (t, grandparent)
  else do
    let inner ← getChild s.other t parent
    if node = inner then do
      let t ← rotate s t parent
      return (← raiseParent s t parent, parent)
    else return (← raiseParent s t node, node)

/-- The loop, at most `fuel` passes. -/
def fixInsertLoop : Nat → RedBlackTree T → Option Nat → Option (RedBlackTree T)
  | 0, _, _ => none
  | fuel + 1, t, node => do
    if ← t.insertGuard node then do
      let parent ← t.getParent node
      let left ← t.getLeft (← t.getParent parent)
      let (t, node) ← fixInsertStep (if parent = left then .left else .right) t node
      fixInsertLoop fuel t node
    else some t

def fixInsert (t : RedBlackTree T) (node : Option Nat) : Option (RedBlackTree T) := do
  let t ← fixInsertLoop t.fresh t node
  t.setColor t.root .black

variable [LinearOrder T]

/-- The way down to a null pointer; the last node comes back. -/
def insertLoop (t : RedBlackTree T) (value : T) :
    Nat → Option Nat → Option Nat → Option (Option Nat)
  | _, none, parent => some parent
  | 0, some _, _ => none
  | fuel + 1, some current, _ => do
    let data ← t.getData (some current)
    let next ← (if value < data then t.getLeft (some current) else t.getRight (some current))
    insertLoop t value fuel next (some current)

def insert (t : RedBlackTree T) (value : T) : Option (RedBlackTree T) := do
  let node := some t.fresh
  let t := t.makeNode value
  if t.root.isNone then setColor { t with root := node } node .black
  else do
    let parent ← t.insertLoop value t.fresh t.root none
    let t ← t.setParent node parent
    let data ← t.getData parent
    let t ← (if value < data then t.setLeft parent node else t.setRight parent node)
    t.fixInsert node

end Insertion

section Removal

def deleteGuard (t : RedBlackTree T) (node : Option Nat) : Bool :=
  node ≠ t.root && t.isBlack node

/-- A red sibling goes up; the new sibling comes back. -/
def raiseSibling (s : Side) (t : RedBlackTree T) (parent sibling : Option Nat) :
    Option (RedBlackTree T × Option Nat) := do
  let t ← t.setColor sibling .black
  let t ← t.setColor parent .red
  let t ← rotate s t parent
  return (t, ← getChild s.other t parent)

/-- The near child of the sibling goes up; the new sibling comes back. -/
def turnSibling (s : Side) (t : RedBlackTree T) (parent sibling : Option Nat) :
    Option (RedBlackTree T × Option Nat) := do
  let near ← getChild s t sibling
  let t ← (if near.isSome then t.setColor near .black else some t)
  let t ← t.setColor sibling .red
  let t ← rotate s.other t sibling
  return (t, ← getChild s.other t parent)

/-- The last rotation. -/
def closeDelete (s : Side) (t : RedBlackTree T) (parent sibling : Option Nat) :
    Option (RedBlackTree T) := do
  let t ← (if sibling.isSome then do
      let color ← (if parent.isSome then t.getColor parent else some .black)
      let t ← t.setColor sibling color
      let far ← getChild s.other t sibling
      if far.isSome then t.setColor far .black else some t
    else some t)
  let t ← (if parent.isSome then t.setColor parent .black else some t)
  if parent.isSome then rotate s t parent else some t

/-- The pass once the sibling is black; the node and the parent that the next one starts from
come back. -/
def fixDeleteBlack (s : Side) (t : RedBlackTree T) (parent sibling : Option Nat) :
    Option (RedBlackTree T × Option Nat × Option Nat) :=
  if sibling.isNone || (t.isBlack (sibling.bind (t.child s)) &&
      t.isBlack (sibling.bind (t.child s.other))) then do
    let t ← (if sibling.isSome then t.setColor sibling .red else some t)
    let next ← (if parent.isSome then t.getParent parent else some none)
    return (t, parent, next)
  else do
    let (t, sibling) ← (if t.isBlack (sibling.bind (t.child s.other)) then
        turnSibling s t parent sibling
      else some (t, sibling))
    let t ← closeDelete s t parent sibling
    return (t, t.root, parent)

/-- One pass of the loop where the node is the child of its parent on the side `s`. -/
def fixDeleteStep (s : Side) (t : RedBlackTree T) (parent : Option Nat) :
    Option (RedBlackTree T × Option Nat × Option Nat) := do
  let sibling ← (if parent.isSome then getChild s.other t parent else some none)
  let (t, sibling) ← (if !t.isBlack sibling then raiseSibling s t parent sibling
    else some (t, sibling))
  fixDeleteBlack s t parent sibling

/-- The loop, at most `fuel` passes. -/
def fixDeleteLoop : Nat → RedBlackTree T → Option Nat → Option Nat →
    Option (RedBlackTree T × Option Nat)
  | 0, _, _, _ => none
  | fuel + 1, t, node, parent =>
    if t.deleteGuard node then do
      let left := parent.isSome && node = parent.bind (t.child .left)
      let (t, node, parent) ← fixDeleteStep (if left then .left else .right) t parent
      fixDeleteLoop fuel t node parent
    else some (t, node)

def fixDelete (t : RedBlackTree T) (node parent : Option Nat) : Option (RedBlackTree T) := do
  let (t, node) ← fixDeleteLoop (t.fresh + 1) t node parent
  if node.isSome then t.setColor node .black else some t

def findMinLoop (t : RedBlackTree T) : Nat → Option Nat → Option (Option Nat)
  | 0, _ => none
  | fuel + 1, node => do
    let left ← t.getLeft node
    if left.isSome then findMinLoop t fuel left else some node

def findMinNode (t : RedBlackTree T) (node : Option Nat) : Option (Option Nat) :=
  if node.isNone then some none else findMinLoop t t.fresh node

/-- `replacement` takes the place of the node, on the side of the parent that the search took. -/
def unlink (t : RedBlackTree T) (parent : Option Nat) (side : Side) (replacement : Option Nat) :
    Option (RedBlackTree T) :=
  if parent.isSome then setChild side t parent replacement else some { t with root := replacement }

/-- The way down to the value: the node, its parent and its side. -/
def findLoop [LinearOrder T] (t : RedBlackTree T) (value : T) :
    Nat → Option Nat → Option Nat → Side → Option (Option Nat × Option Nat × Side)
  | _, none, parent, side => some (none, parent, side)
  | 0, some _, _, _ => none
  | fuel + 1, some node, parent, side => do
    let data ← t.getData (some node)
    if value = data then some (some node, parent, side)
    else if value < data then findLoop t value fuel (← t.getLeft (some node)) (some node) .left
    else findLoop t value fuel (← t.getRight (some node)) (some node) .right

/-- The successor leaves its place; the replacement's parent comes back. -/
def detachSuccessor (t : RedBlackTree T) (node successor replacement : Option Nat) :
    Option (RedBlackTree T × Option Nat) := do
  let parent ← t.getParent successor
  if parent = node then do
    let t ← t.setParentOf replacement successor
    return (t, successor)
  else do
    let t ← (if (← t.getLeft parent) = successor then t.setLeft parent replacement
      else t.setRight parent replacement)
    let t ← t.setParentOf replacement (← t.getParent successor)
    let replParent ← t.getParent successor
    let t ← t.setRight successor (← t.getRight node)
    let t ← t.setParentOf (← t.getRight node) successor
    return (t, replParent)

/-- The successor takes the links and the color of the node. -/
def replaceNode (t : RedBlackTree T) (node successor : Option Nat) : Option (RedBlackTree T) := do
  let t ← t.setLeft successor (← t.getLeft node)
  let t ← t.setParentOf (← t.getLeft node) successor
  let t ← t.setParent successor (← t.getParent node)
  let t ← t.setColor successor (← t.getColor node)
  t.replaceChild node successor

def remove [LinearOrder T] (t : RedBlackTree T) (value : T) : Option (RedBlackTree T) :=
  if t.root.isNone then some t
  else do
    let (node, parent, side) ← t.findLoop value t.fresh t.root none .right
    if node.isNone then some t
    else do
      let deletedColor ← t.getColor node
      let left ← t.getLeft node
      let right ← t.getRight node
      if left.isNone && right.isNone then do
        let t ← t.unlink parent side none
        if deletedColor = .black then t.fixDelete none parent else some t
      else if left.isNone then do
        let t ← t.unlink parent side right
        let t ← t.setParent right parent
        if deletedColor = .black then t.fixDelete right parent else some t
      else if right.isNone then do
        let t ← t.unlink parent side left
        let t ← t.setParent left parent
        if deletedColor = .black then t.fixDelete left parent else some t
      else do
        let successor ← t.findMinNode right
        let deletedColor ← t.getColor successor
        let replacement ← t.getRight successor
        let (t, replParent) ← t.detachSuccessor node successor replacement
        let t ← t.replaceNode node successor
        if deletedColor = .black then t.fixDelete replacement replParent else some t

end Removal

inductive Op (T : Type) where
  | insert (value : T)
  | remove (value : T)
deriving DecidableEq

section Runs
variable [LinearOrder T]

def apply (t : RedBlackTree T) : Op T → Option (RedBlackTree T)
  | .insert value => t.insert value
  | .remove value => t.remove value

def run (ops : List (Op T)) : Option (RedBlackTree T) := ops.foldlM apply create

/-- A call on the values: a removal takes one that is there. -/
def effect (s : Multiset T) : Op T → Multiset T
  | .insert value => value ::ₘ s
  | .remove value => s.erase value

def contents (ops : List (Op T)) : Multiset T := ops.foldl effect 0

end Runs

end RedBlackTree
end Cppforge.Balanced
