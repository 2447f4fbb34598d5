import Cppforge.Lib.Avl
import Mathlib.Data.Finset.Insert
import Mathlib.Data.Finset.Basic
import Cppforge.Lib.SearchTree

namespace Cppforge.Balanced
open BinaryTree

/-- The value and `height_` of a `TreeNode`. -/
structure Cell (T : Type) where
  data : T
  height : Int
deriving DecidableEq

abbrev TreeNode (T : Type) := BinaryTree (Cell T)

section Search
variable {T : Type} [LinearOrder T]

def TreeNode.findNode (node : TreeNode T) (value : T) : Option (Cell T) :=
  BinaryTree.findNode Cell.data value node

end Search

namespace BSTBase
variable {T : Type} [LinearOrder T] (postInsert : TreeNode T → T → Option (TreeNode T))
  (postRemove : TreeNode T → Option (TreeNode T))

/-- `none` here and below is the use of a null pointer. -/
def insertImpl (value : T) : TreeNode T → Option (TreeNode T)
  | .nil => some (.node ⟨value, 1⟩ .nil .nil)
  | .node c l r =>
    if value < c.data then do
      let l ← insertImpl value l
      postInsert (.node c l r) value
    else if c.data < value then do
      let r ← insertImpl value r
      postInsert (.node c l r) value
    else some (.node c l r)

/-- A node with two children takes over the least value on its right. -/
def removeImpl (value : T) : TreeNode T → Option (TreeNode T)
  | .nil => some .nil
  | .node c l r =>
    if value < c.data then do
      let l ← removeImpl value l
      postRemove (.node c l r)
    else if c.data < value then do
      let r ← removeImpl value r
      postRemove (.node c l r)
    else if l.isNull && r.isNull then some .nil
    else if l.isNull then some r
    else if r.isNull then some l
    else do
      let successor ← r.findMin
      let r ← removeImpl successor.data r
      postRemove (.node { c with data := successor.data } l r)

end BSTBase

/-- `root_`. -/
structure AVLTree (T : Type) where
  root : TreeNode T

namespace AVLTree
variable {T : Type}

def getHeight (node : TreeNode T) : Int := Avl.getHeight Cell.height node

def getBalance (node : TreeNode T) : Int := Avl.getBalance Cell.height node

/-- The cell with `height_` computed from the children. -/
def updated (c : Cell T) (l r : TreeNode T) : Cell T :=
  { c with height := 1 + max (getHeight l) (getHeight r) }

def rotateRight (y : TreeNode T) : Option (TreeNode T) :=
  BinaryTree.rotateRight (Avl.restamp updated) y

def rotateLeft (x : TreeNode T) : Option (TreeNode T) :=
  BinaryTree.rotateLeft (Avl.restamp updated) x

section Hooks
variable [LinearOrder T]

/-- The four tests of the source, by the side that is too high. -/
def postInsert (node : TreeNode T) (value : T) : Option (TreeNode T) :=
  match node with
  | .nil => none
  | .node c l r =>
    let c := updated c l r
    if 1 < getBalance (.node c l r) then
      match l with
      | .nil => none
      | .node x _ _ =>
        if value < x.data then rotateRight (.node c l r)
        else if x.data < value then do
          let l ← rotateLeft l
          rotateRight (.node c l r)
        else some (.node c l r)
    else if getBalance (.node c l r) < -1 then
      match r with
      | .nil => none
      | .node y _ _ =>
        if y.data < value then rotateLeft (.node c l r)
        else if value < y.data then do
          let r ← rotateRight r
          rotateLeft (.node c l r)
        else some (.node c l r)
    else some (.node c l r)

def postRemove : TreeNode T → Option (TreeNode T)
  | .nil => some .nil
  | .node c l r => Avl.rebalance Cell.height updated (.node (updated c l r) l r)

def insert (t : AVLTree T) (value : T) : Option (AVLTree T) := do
  let root ← BSTBase.insertImpl postInsert value t.root
  return ⟨root⟩

def remove (t : AVLTree T) (value : T) : Option (AVLTree T) := do
  let root ← BSTBase.removeImpl postRemove value t.root
  return ⟨root⟩

def find (t : AVLTree T) (value : T) : Bool := (t.root.findNode value).isSome

def findValue (t : AVLTree T) (value : T) : Option T := (t.root.findNode value).map Cell.data

end Hooks

def create : AVLTree T := ⟨.nil⟩

def inorder (t : AVLTree T) : List T := BinaryTree.inorder Cell.data t.root

section Runs
variable [LinearOrder T]

inductive Op (T : Type) where
  | insert (value : T)
  | remove (value : T)
deriving DecidableEq

def apply (t : AVLTree T) : Op T → Option (AVLTree T)
  | .insert value => t.insert value
  | .remove value => t.remove value

def run (ops : List (Op T)) : Option (AVLTree T) := ops.foldlM apply create

/-- What a call does to the set of values. -/
def effect (s : Finset T) : Op T → Finset T
  | .insert value => Insert.insert value s
  | .remove value => s.erase value

/-- The values inserted and not since removed. -/
def contents (ops : List (Op T)) : Finset T := ops.foldl effect ∅

end Runs

/-- Every `height_` is the height of its subtree. -/
def HeightsTrue : TreeNode T → Prop
  | .nil => True
  | .node c l r => c.height = (BinaryTree.node c l r).height ∧ HeightsTrue l ∧ HeightsTrue r

end AVLTree
/-- `root_` and `size_`. -/
structure SplayTree (T : Type) where
  root : BinaryTree T
  size : Nat

namespace SplayTree
variable {T : Type}

def create : SplayTree T := ⟨.nil, 0⟩

def inorder (t : SplayTree T) : List T := t.root.inorder id

/-- The value at the root. -/
def rootValue (t : SplayTree T) : Option T :=
  match t.root with
  | .nil => none
  | .node a _ _ => some a

/-- `none` here and below is the use of a null pointer. -/
def rotateRight (node : BinaryTree T) : Option (BinaryTree T) :=
  BinaryTree.rotateRight .node node

def rotateLeft (node : BinaryTree T) : Option (BinaryTree T) := BinaryTree.rotateLeft .node node

inductive Op (T : Type) where
  | insert (value : T)
  | remove (value : T)
  | find (value : T)
  | findValue (value : T)
deriving DecidableEq

inductive Result (T : Type) where
  | done
  | found (b : Bool)
  | value (v : Option T)
deriving DecidableEq

section Splay
variable [LinearOrder T]

def splay (value : T) : BinaryTree T → Option (BinaryTree T)
  | .nil => some .nil
  | .node a l r =>
    if a = value then some (.node a l r)
    else if value < a then
      match l with
      | .nil => some (.node a .nil r)
      | .node b A B => do
        let node ←
          if value < b then do
            let A ← splay value A
            rotateRight (.node a (.node b A B) r)
          else if b < value then do
            let B ← splay value B
            let l ← if B.isNull then some (.node b A B) else rotateLeft (.node b A B)
            some (.node a l r)
          else some (.node a (.node b A B) r)
        if node.left.isNull then some node else rotateRight node
    else
      match r with
      | .nil => some (.node a l .nil)
      | .node b A B => do
        let node ←
          if b < value then do
            let B ← splay value B
            rotateLeft (.node a l (.node b A B))
          else if value < b then do
            let A ← splay value A
            let r ← if A.isNull then some (.node b A B) else rotateRight (.node b A B)
            some (.node a l r)
          else some (.node a l (.node b A B))
        if node.right.isNull then some node else rotateLeft node

/-- The tree after the insertion and `size_`. -/
def insertImpl (value : T) : BinaryTree T → Nat → Option (BinaryTree T × Nat)
  | .nil, size => some (.node value .nil .nil, size + 1)
  | .node a l r, size =>
    if value < a then do
      let (l, size) ← insertImpl value l size
      let node ← splay value (.node a l r)
      return (node, size)
    else if a < value then do
      let (r, size) ← insertImpl value r size
      let node ← splay value (.node a l r)
      return (node, size)
    else some (.node a l r, size)

def insert (t : SplayTree T) (value : T) : Option (SplayTree T) := do
  let (root, size) ← insertImpl value t.root t.size
  return ⟨root, size⟩

/-- The left subtree is splayed again, and what was on the right is put in the
place of the right child of its root. -/
def remove (t : SplayTree T) (value : T) : Option (SplayTree T) :=
  if t.root.isNull then some t
  else do
    let root ← splay value t.root
    match root with
    | .nil => some ⟨.nil, t.size⟩
    | .node a l r =>
      if a = value then
        if l.isNull then some ⟨r, t.size - 1⟩
        else if r.isNull then some ⟨l, t.size - 1⟩
        else do
          let newRoot ← splay value l
          match newRoot with
          | .nil => none
          | .node b A _ => some ⟨.node b A r, t.size - 1⟩
      else some ⟨.node a l r, t.size⟩

def find (t : SplayTree T) (value : T) : Option (SplayTree T × Bool) :=
  if t.root.isNull then some (t, false)
  else do
    let root ← splay value t.root
    match root with
    | .nil => none
    | .node a l r => some (⟨.node a l r, t.size⟩, decide (a = value))

def findValue (t : SplayTree T) (value : T) : Option (SplayTree T × Option T) :=
  if t.root.isNull then some (t, none)
  else do
    let root ← splay value t.root
    match root with
    | .nil => none
    | .node a l r => some (⟨.node a l r, t.size⟩, if a = value then some a else none)

def apply (t : SplayTree T) : Op T → Option (SplayTree T × Result T)
  | .insert value => do return (← t.insert value, .done)
  | .remove value => do return (← t.remove value, .done)
  | .find value => do
    let (t, b) ← t.find value
    return (t, .found b)
  | .findValue value => do
    let (t, v) ← t.findValue value
    return (t, .value v)

/-- A call on the set of values, and what it returns. -/
def effect (s : Finset T) : Op T → Finset T × Result T
  | .insert value => (Insert.insert value s, .done)
  | .remove value => (s.erase value, .done)
  | .find value => (s, .found (decide (value ∈ s)))
  | .findValue value => (s, .value (if value ∈ s then some value else none))

end Splay

end SplayTree
namespace Treap

structure Node (T : Type) where
  data : T
  priority : Int
deriving DecidableEq

end Treap

/-- `root_` and `size_`. -/
structure Treap (T : Type) where
  root : BinaryTree (Treap.Node T)
  size : Nat

namespace Treap
variable {T : Type} {t t' : BinaryTree (Node T)}

def create : Treap T := ⟨.nil, 0⟩

def inorder (t : Treap T) : List T := t.root.inorder Node.data

/-- `none` here and below is the use of a null pointer. -/
def rotateRight (node : BinaryTree (Node T)) : Option (BinaryTree (Node T)) :=
  BinaryTree.rotateRight .node node

def rotateLeft (node : BinaryTree (Node T)) : Option (BinaryTree (Node T)) :=
  BinaryTree.rotateLeft .node node

def priority : BinaryTree (Node T) → Option Int
  | .nil => none
  | .node a _ _ => some a.priority

/-- No child has a higher priority than its parent. -/
def verifyHeap : BinaryTree (Node T) → Bool
  | .nil => true
  | .node a l r =>
    (priority l).all (· ≤ a.priority) && (priority r).all (· ≤ a.priority) && verifyHeap l &&
      verifyHeap r

/-- The generator's draws, and how many were made. -/
structure Random where
  stream : Nat → Int
  drawn : Nat

def Random.priority (gen : Random) : Int × Random :=
  (gen.stream gen.drawn, { gen with drawn := gen.drawn + 1 })

theorem numNodes_rotateRight {b : Node T} {A right : BinaryTree (Node T)}
    (h : rotateRight t = some (.node b A right)) : right.numNodes < t.numNodes := by
  obtain ⟨x, y, A, B, C, rfl, ht⟩ := rotateRight_cases h
  cases ht
  simp only [numNodes]
  omega

theorem numNodes_rotateLeft {b : Node T} {left B : BinaryTree (Node T)}
    (h : rotateLeft t = some (.node b left B)) : left.numNodes < t.numNodes := by
  obtain ⟨x, y, A, B, C, rfl, ht⟩ := rotateLeft_cases h
  cases ht
  simp only [numNodes]
  omega

inductive Op (T : Type) where
  | insert (value : T)
  | remove (value : T)
deriving DecidableEq

section Operations
variable [LinearOrder T]

/-- The tree, `size_` and the generator after the insertion. -/
def insertImpl (value : T) :
    BinaryTree (Node T) → Nat → Random → Option (BinaryTree (Node T) × Nat × Random)
  | .nil, size, gen =>
    let (priority, gen) := gen.priority
    some (.node ⟨value, priority⟩ .nil .nil, size + 1, gen)
  | .node a l r, size, gen =>
    if value < a.data then do
      let (l, size, gen) ← insertImpl value l size gen
      let left ← priority l
      let node ← (if a.priority < left then rotateRight (.node a l r) else some (.node a l r))
      return (node, size, gen)
    else if a.data < value then do
      let (r, size, gen) ← insertImpl value r size gen
      let right ← priority r
      let node ← (if a.priority < right then rotateLeft (.node a l r) else some (.node a l r))
      return (node, size, gen)
    else some (.node a l r, size, gen)

/-- The tree and `size_` after the removal. -/
def removeImpl (value : T) : BinaryTree (Node T) → Nat → Option (BinaryTree (Node T) × Nat)
  | .nil, size => some (.nil, size)
  | .node a l r, size =>
    if value < a.data then do
      let (l, size) ← removeImpl value l size
      return (.node a l r, size)
    else if a.data < value then do
      let (r, size) ← removeImpl value r size
      return (.node a l r, size)
    else if l.isNull && r.isNull then some (.nil, size - 1)
    else if l.isNull then some (r, size - 1)
    else if r.isNull then some (l, size - 1)
    else do
      let left ← priority l
      let right ← priority r
      if right < left then
        match _h : rotateRight (.node a l r) with
        | some (.node b A r) => do
          let (r, size) ← removeImpl value r size
          return (.node b A r, size)
        | _ => none
      else
        match _h : rotateLeft (.node a l r) with
        | some (.node b l B) => do
          let (l, size) ← removeImpl value l size
          return (.node b l B, size)
        | _ => none
termination_by t => t.numNodes
decreasing_by
  · simp only [numNodes]
    omega
  · simp only [numNodes]
    omega
  · exact numNodes_rotateRight ‹_›
  · exact numNodes_rotateLeft ‹_›

def insert (t : Treap T) (gen : Random) (value : T) : Option (Treap T × Random) := do
  let (root, size, gen) ← insertImpl value t.root t.size gen
  return (⟨root, size⟩, gen)

def remove (t : Treap T) (value : T) : Option (Treap T) := do
  let (root, size) ← removeImpl value t.root t.size
  return ⟨root, size⟩

def find (t : Treap T) (value : T) : Bool := (t.root.findNode Node.data value).isSome

def apply : Treap T × Random → Op T → Option (Treap T × Random)
  | (t, gen), .insert value => t.insert gen value
  | (t, gen), .remove value => do return (← t.remove value, gen)

def run (stream : Nat → Int) (ops : List (Op T)) : Option (Treap T × Random) :=
  ops.foldlM apply (create, ⟨stream, 0⟩)

/-- A call on the set of values. -/
def effect (s : Finset T) : Op T → Finset T
  | .insert value => Insert.insert value s
  | .remove value => s.erase value

def contents (ops : List (Op T)) : Finset T := ops.foldl effect ∅

/-- A call on the priorities handed to the values: a new value draws one. -/
def assign : Finset (Node T) × Random → Op T → Finset (Node T) × Random
  | (s, gen), .insert value =>
    if ∃ n ∈ s, n.data = value then (s, gen)
    else
      let (priority, gen) := gen.priority
      (Insert.insert ⟨value, priority⟩ s, gen)
  | (s, gen), .remove value => (s.filter (·.data ≠ value), gen)

def assigned (stream : Nat → Int) (ops : List (Op T)) : Finset (Node T) :=
  (ops.foldl assign (∅, ⟨stream, 0⟩)).1

end Operations

end Treap
end Cppforge.Balanced
