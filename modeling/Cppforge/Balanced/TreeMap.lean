import Cppforge.Balanced.SearchTrees
import Mathlib.Logic.Function.Basic

namespace Cppforge.Balanced
open BinaryTree

/-- A `TreeMapEntry`; `comp_` is the order of the keys. -/
structure Entry (K V : Type) where
  key : K
  value : V
deriving DecidableEq

/-- The base class is `AVLTree<Entry>`, whose comparisons see the keys only. Arguments are
values, never references into a map. -/
structure TreeMap (K V : Type) where
  root : TreeNode (Entry K V)
  mapSize : Nat

namespace TreeMap
variable {K V : Type}

section Base
variable [LinearOrder K]

def findNode (node : TreeNode (Entry K V)) (key : K) : Option (Cell (Entry K V)) :=
  BinaryTree.findNode (fun c => c.data.key) key node

/-- The four tests of the source, by the side that is too high. -/
def postInsert (node : TreeNode (Entry K V)) (value : Entry K V) :
    Option (TreeNode (Entry K V)) :=
  match node with
  | .nil => none
  | .node c l r =>
    let c := AVLTree.updated c l r
    if 1 < AVLTree.getBalance (.node c l r) then
      match l with
      | .nil => none
      | .node x _ _ =>
        if value.key < x.data.key then AVLTree.rotateRight (.node c l r)
        else if x.data.key < value.key then do
          let l ← AVLTree.rotateLeft l
          AVLTree.rotateRight (.node c l r)
        else some (.node c l r)
    else if AVLTree.getBalance (.node c l r) < -1 then
      match r with
      | .nil => none
      | .node y _ _ =>
        if y.data.key < value.key then AVLTree.rotateLeft (.node c l r)
        else if value.key < y.data.key then do
          let r ← AVLTree.rotateRight r
          AVLTree.rotateLeft (.node c l r)
        else some (.node c l r)
    else some (.node c l r)

def insertImpl (value : Entry K V) : TreeNode (Entry K V) → Option (TreeNode (Entry K V))
  | .nil => some (.node ⟨value, 1⟩ .nil .nil)
  | .node c l r =>
    if value.key < c.data.key then do
      let l ← insertImpl value l
      postInsert (.node c l r) value
    else if c.data.key < value.key then do
      let r ← insertImpl value r
      postInsert (.node c l r) value
    else some (.node c l r)

/-- A node with two children takes over the entry of the least key on its right. -/
def removeImpl (key : K) : TreeNode (Entry K V) → Option (TreeNode (Entry K V))
  | .nil => some .nil
  | .node c l r =>
    if key < c.data.key then do
      let l ← removeImpl key l
      AVLTree.postRemove (.node c l r)
    else if c.data.key < key then do
      let r ← removeImpl key r
      AVLTree.postRemove (.node c l r)
    else if l.isNull && r.isNull then some .nil
    else if l.isNull then some r
    else if r.isNull then some l
    else do
      let successor ← r.findMin
      let r ← removeImpl successor.data.key r
      AVLTree.postRemove (.node { c with data := successor.data } l r)

/-- The value of the node that `findNode` returns, overwritten; `none` is a null node. -/
def modify (key : K) (use : V → V) : TreeNode (Entry K V) → Option (TreeNode (Entry K V))
  | .nil => none
  | .node c l r =>
    if key = c.data.key then
      some (.node { c with data := { c.data with value := use c.data.value } } l r)
    else if key < c.data.key then do
      let l ← modify key use l
      return .node c l r
    else do
      let r ← modify key use r
      return .node c l r

end Base

def create : TreeMap K V := ⟨.nil, 0⟩

def clear (_ : TreeMap K V) : TreeMap K V := create

def toVector (t : TreeMap K V) : List (K × V) :=
  t.root.inorder fun c => (c.data.key, c.data.value)

/-- Every node is made anew from its data, and so with `height_` one. -/
def cloneNode : TreeNode (Entry K V) → TreeNode (Entry K V)
  | .nil => .nil
  | .node c l r => .node ⟨c.data, 1⟩ (cloneNode l) (cloneNode r)

/-- The copy constructor. -/
def copy (other : TreeMap K V) : TreeMap K V := ⟨cloneNode other.root, other.mapSize⟩

def swap (t other : TreeMap K V) : TreeMap K V × TreeMap K V := (other, t)

/-- The copy assignment from another object. -/
def assign (t other : TreeMap K V) : TreeMap K V := (t.swap other.copy).1

section Calls
variable [LinearOrder K]

def contains (t : TreeMap K V) (key : K) : Bool := (findNode t.root key).isSome

def findValue (t : TreeMap K V) (key : K) : Option V :=
  (findNode t.root key).map fun c => c.data.value

/-- `Base::insert` and the count. -/
def insertEntry (t : TreeMap K V) (value : Entry K V) : Option (TreeMap K V) := do
  let root ← insertImpl value t.root
  return ⟨root, t.mapSize + 1⟩

def insert (t : TreeMap K V) (key : K) (value : V) : Option (TreeMap K V × Bool) :=
  if t.contains key then some (t, false)
  else do
    let t ← t.insertEntry ⟨key, value⟩
    return (t, true)

def erase (t : TreeMap K V) (key : K) : Option (TreeMap K V × Bool) :=
  if t.contains key then do
    let root ← removeImpl key t.root
    return (⟨root, t.mapSize - 1⟩, true)
  else some (t, false)

/-- The part of `operator[]` that inserts the key if it is new. -/
def ensure [Inhabited V] (t : TreeMap K V) (key : K) : Option (TreeMap K V) :=
  if t.contains key then some t else t.insertEntry ⟨key, default⟩

/-- `operator[]`: the value it refers to, and what the caller makes of it through the
reference. -/
def index [Inhabited V] (t : TreeMap K V) (key : K) (use : V → V) :
    Option (TreeMap K V × V) := do
  let t ← t.ensure key
  let value ← t.findValue key
  let root ← modify key use t.root
  return ({ t with root }, value)

variable {X : Type}

/-- The statements of a program with the map variables `X`. -/
inductive Op (X K V : Type)
  | insert (x : X) (key : K) (value : V)
  | erase (x : X) (key : K)
  | index (x : X) (key : K) (use : V → V)
  | clear (x : X)
  | copyConstruct (x y : X)
  | copyAssign (x y : X)

inductive Answer (V : Type)
  | done
  | flag (b : Bool)
  | value (v : V)
deriving DecidableEq

def step [DecidableEq X] [Inhabited V] (s : X → TreeMap K V) :
    Op X K V → Option ((X → TreeMap K V) × Answer V)
  | .insert x key value => do
    let (t, inserted) ← (s x).insert key value
    return (Function.update s x t, .flag inserted)
  | .erase x key => do
    let (t, erased) ← (s x).erase key
    return (Function.update s x t, .flag erased)
  | .index x key use => do
    let (t, value) ← (s x).index key use
    return (Function.update s x t, .value value)
  | .clear x => some (Function.update s x (s x).clear, .done)
  | .copyConstruct x y => some (Function.update s x (s y).copy, .done)
  | .copyAssign x y =>
    if x = y then some (s, .done) else some (Function.update s x ((s x).assign (s y)), .done)

end Calls

end TreeMap

end Cppforge.Balanced
