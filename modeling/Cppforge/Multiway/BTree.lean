import Cppforge.Lib.KTree
import Mathlib.Algebra.Group.Int.Defs
import Mathlib.Algebra.Group.Nat.Defs

namespace Cppforge.Multiway
open Ordered

/-- A node with its valid keys; a leaf has no children. -/
abbrev BTree.Node (T : Type) := KTree.Node (List T) T

namespace BTree
variable {T : Type}

/-- In-order traversal: child, key, child, and so on. -/
def traversal : KTree.View (List T) T T := ⟨id, id⟩

namespace Node

def keys : Node T → List T
  | .leaf keys => keys
  | .internal keys _ => keys

/-- `count_`, the number of valid keys. -/
abbrev count (node : Node T) : Nat := traversal.count node

def computeHeight (node : Node T) : Nat := node.depth

end Node
end BTree

/-- `root_` and `size_`, a 32-bit count. -/
structure BTree (T : Type) where
  root : Option (BTree.Node T)
  size : Int

namespace BTree

def toInt32 (n : Int) : Int := n.bmod (2 ^ 32)

section Operations
variable {T : Type} (comp : T → T → Bool) (order : Nat)

def isFull (node : Node T) : Bool := node.count == 2 * order - 1

/-- Index of the first key that is not below the given one. -/
def findKey (keys : List T) (key : T) : Nat := (keys.takeWhile (fun k => comp k key)).length

/-- The test for an equivalent key at the index found. -/
def isAt (keys : List T) (idx : Nat) (key : T) : Bool :=
  match keys[idx]? with
  | none => false
  | some k => !comp k key && !comp key k

/-- The keys and children below and above the median of a full node. -/
def halves : Node T → Node T × Node T
  | .leaf ks => (.leaf (ks.take (order - 1)), .leaf ((ks.drop order).take (order - 1)))
  | .internal ks cs =>
    (.internal (ks.take (order - 1)) (cs.take order),
      .internal ((ks.drop order).take (order - 1)) ((cs.drop order).take order))

/-- A full node as its halves and the median between them. `none` here and below
is an access out of range. -/
def splitFull (child : Node T) : Option (Node T × T × Node T) := do
  let median ← child.keys[order - 1]?
  let (left, sibling) := halves order child
  return (left, median, sibling)

def splitChild (keys : List T) (children : List (Node T)) (idx : Nat) :
    Option (List T × List (Node T)) :=
  KTree.splitAt (splitFull order) keys children idx

/-- Makes room below an internal node before the descent: the keys and children
after a split of a full child, and the index to descend to. -/
def makeRoom (keys : List T) (children : List (Node T)) (idx : Nat) (key : T) :
    Option (List T × List (Node T) × Nat) := do
  let child ← children[idx]?
  if isFull order child then
    let (keys, children) ← splitChild order keys children idx
    let median ← keys[idx]?
    return (keys, children, if comp median key then idx + 1 else idx)
  else return (keys, children, idx)

/-- Insertion below a node that is not full; `fuel` bounds the descent by the
height, and the size is threaded through. -/
def insertNonFull (key : T) : Nat → Node T → Int → Option (Node T × Int)
  | 0, _, _ => none
  | _ + 1, .leaf keys, size =>
    let idx := findKey comp keys key
    if isAt comp keys idx key then some (.leaf keys, size)
    else some (.leaf (keys.insertIdx idx key), toInt32 (size + 1))
  | fuel + 1, .internal keys children, size =>
    let idx := findKey comp keys key
    if isAt comp keys idx key then some (.internal keys children, size)
    else do
      let (keys, children, idx) ← makeRoom comp order keys children idx key
      let child ← children[idx]?
      let (child, size) ← insertNonFull key fuel child size
      return (.internal keys (children.set idx child), size)

/-- The largest key of a subtree. -/
def getPredecessor : Nat → Node T → Option T
  | 0, _ => none
  | _ + 1, .leaf keys => keys.getLast?
  | fuel + 1, .internal keys children => do
    let child ← children[keys.length]?
    getPredecessor fuel child

/-- The smallest key of a subtree. -/
def getSuccessor : Nat → Node T → Option T
  | 0, _ => none
  | _ + 1, .leaf keys => keys.head?
  | fuel + 1, .internal _ children => do
    let child ← children[0]?
    getSuccessor fuel child

/-- Sibling and child after the sibling's last key went up and `key` came down. -/
def rotateRight (key : T) : Node T → Node T → Option (Node T × T × Node T)
  | .leaf sk, .leaf ck => do
    let up ← sk.getLast?
    return (.leaf sk.dropLast, up, .leaf (key :: ck))
  | .internal sk sc, .internal ck cc => do
    let up ← sk.getLast?
    let moved ← sc.getLast?
    return (.internal sk.dropLast sc.dropLast, up, .internal (key :: ck) (moved :: cc))
  | _, _ => none

def borrowFromPrev (keys : List T) (children : List (Node T)) (idx : Nat) :
    Option (List T × List (Node T)) :=
  KTree.onPair rotateRight keys children (idx - 1)

/-- Child and sibling after the sibling's first key went up and `key` came down. -/
def rotateLeft (key : T) : Node T → Node T → Option (Node T × T × Node T)
  | .leaf ck, .leaf (up :: sk) => some (.leaf (ck ++ [key]), up, .leaf sk)
  | .internal ck cc, .internal (up :: sk) (moved :: sc) =>
    some (.internal (ck ++ [key]) (cc ++ [moved]), up, .internal sk sc)
  | _, _ => none

def borrowFromNext (keys : List T) (children : List (Node T)) (idx : Nat) :
    Option (List T × List (Node T)) :=
  KTree.onPair rotateLeft keys children idx

/-- Two siblings and the key between them as one node. -/
def join (key : T) : Node T → Node T → Option (Node T)
  | .leaf lk, .leaf rk => some (.leaf (lk ++ key :: rk))
  | .internal lk lc, .internal rk rc => some (.internal (lk ++ key :: rk) (lc ++ rc))
  | _, _ => none

def merge (keys : List T) (children : List (Node T)) (idx : Nat) :
    Option (List T × List (Node T)) :=
  KTree.joinPair join keys children idx

/-- Does a child that is there hold at least `order` keys? -/
def canLend (children : List (Node T)) (idx : Nat) : Bool :=
  match children[idx]? with
  | none => false
  | some child => decide (order ≤ child.count)

def fill (keys : List T) (children : List (Node T)) (idx : Nat) :
    Option (List T × List (Node T)) :=
  if 0 < idx && canLend order children (idx - 1) then borrowFromPrev keys children idx
  else if decide (idx < keys.length) && canLend order children (idx + 1) then
    borrowFromNext keys children idx
  else if idx < keys.length then merge keys children idx
  else merge keys children (idx - 1)

/-- The way down for a key that is not in the node: the filled node, and the
index to descend to, which moves when the last child was merged away. -/
def prepare (keys : List T) (children : List (Node T)) (idx : Nat) :
    Option (List T × List (Node T) × Nat) := do
  let child ← children[idx]?
  let (keys, children) ← if child.count = order - 1 then fill order keys children idx
    else some (keys, children)
  return (keys, children, if keys.length < idx then keys.length else idx)

def removeFromNode : Nat → Node T → T → Int → Option (Node T × Int)
  | 0, _, _, _ => none
  | _ + 1, .leaf keys, key, size =>
    let idx := findKey comp keys key
    if isAt comp keys idx key then some (.leaf (keys.eraseIdx idx), toInt32 (size - 1))
    else some (.leaf keys, size)
  | fuel + 1, .internal keys children, key, size => do
    let idx := findKey comp keys key
    if isAt comp keys idx key then
      let child ← children[idx]?
      if order ≤ Node.count child then
        let pred ← getPredecessor fuel child
        let (child, size) ← removeFromNode fuel child pred size
        return (.internal (keys.set idx pred) (children.set idx child), size)
      else
        let next ← children[idx + 1]?
        if order ≤ Node.count next then
          let succ ← getSuccessor fuel next
          let (next, size) ← removeFromNode fuel next succ size
          return (.internal (keys.set idx succ) (children.set (idx + 1) next), size)
        else
          let (keys, children) ← merge keys children idx
          let child ← children[idx]?
          let (child, size) ← removeFromNode fuel child key size
          return (.internal keys (children.set idx child), size)
    else
      let (keys, children, idx) ← prepare order keys children idx
      let child ← children[idx]?
      let (child, size) ← removeFromNode fuel child key size
      return (.internal keys (children.set idx child), size)

def containsFrom (key : T) : Nat → Node T → Option Bool
  | 0, _ => none
  | _ + 1, .leaf keys => some (isAt comp keys (findKey comp keys key) key)
  | fuel + 1, .internal keys children =>
    let idx := findKey comp keys key
    if isAt comp keys idx key then some true
    else do
      let child ← children[idx]?
      containsFrom key fuel child

/-- Grows the tree by a level when its root is full. -/
def growRoot (root : Node T) : Option (Node T) :=
  if isFull order root then do
    let (keys, children) ← splitChild order [] [root] 0
    return .internal keys children
  else some root

def empty : BTree T := ⟨none, 0⟩

/-- The first node reserves `2 * Order` slots, an `int32_t` product. -/
def insert (t : BTree T) (key : T) : Option (BTree T) :=
  match t.root with
  | none =>
    if 2 * order < 2 ^ 31 then some ⟨some (.leaf [key]), toInt32 (t.size + 1)⟩ else none
  | some root => do
    let root ← growRoot order root
    let (root, size) ← insertNonFull comp order key root.computeHeight root t.size
    return ⟨some root, size⟩

/-- Drops a root without keys. -/
def shrink : Node T → Option (Node T)
  | .leaf [] => none
  | .internal [] (child :: _) => some child
  | root => some root

def remove (t : BTree T) (key : T) : Option (BTree T × Bool) :=
  match t.root with
  | none => some (t, false)
  | some root => do
    let (root, size) ← removeFromNode comp order root.computeHeight root key t.size
    return (⟨shrink root, size⟩, t.size != size)

def contains (t : BTree T) (key : T) : Option Bool :=
  match t.root with
  | none => some false
  | some root => containsFrom comp key root.computeHeight root

def inorder (t : BTree T) : List T :=
  match t.root with
  | none => []
  | some root => traversal.flat root

/-- A mutating call. -/
inductive Op (T : Type) where
  | insert (key : T)
  | remove (key : T)
deriving DecidableEq

def apply (t : BTree T) : Op T → Option (BTree T)
  | .insert key => t.insert comp order key
  | .remove key => (t.remove comp order key).map Prod.fst

def run (t : BTree T) (ops : List (Op T)) : Option (BTree T) := ops.foldlM (apply comp order) t

end Operations

end BTree

end Cppforge.Multiway
