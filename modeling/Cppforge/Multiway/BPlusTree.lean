import Cppforge.Multiway.BTree
import Cppforge.Lib.Chain

namespace Cppforge.Multiway
open Ordered

/-- A leaf with its valid pairs. The address is what `head_`, `prev_` and `next_`
refer to. -/
structure BPlusTree.Leaf (K V : Type) where
  addr : Nat
  entries : List (K × V)

/-- An internal node holds routing keys only. -/
abbrev BPlusTree.Node (K V : Type) := KTree.Node (BPlusTree.Leaf K V) K

/-- What a call changes besides the nodes: `size_`, and `prev_` and `next_` of the
leaves by address. `fresh` is the address of the next leaf to be allocated. -/
structure BPlusTree.Store where
  size : Int
  prev : Nat → Option Nat
  next : Nat → Option Nat
  fresh : Nat

structure BPlusTree (K V : Type) where
  root : Option (BPlusTree.Node K V)
  head : Option Nat
  store : BPlusTree.Store

namespace BPlusTree

namespace Node
variable {K V : Type}

/-- `count_`: pairs of a leaf, routing keys of an internal node. -/
def count : Node K V → Nat
  | .leaf l => l.entries.length
  | .internal keys _ => keys.length

def isLeaf : Node K V → Bool
  | .leaf _ => true
  | .internal .. => false

end Node

namespace Store

def setSize (s : Store) (n : Int) : Store := { s with size := BTree.toInt32 n }

/-- A new leaf without neighbours. -/
def alloc (s : Store) : Store :=
  { s with
    prev := Function.update s.prev s.fresh none
    next := Function.update s.next s.fresh none
    fresh := s.fresh + 1 }

/-- Links `sibling` into the leaf list behind `child`. -/
def linkAfter (s : Store) (child sibling : Nat) : Store :=
  { s with
    prev := Chain.writeAt (Function.update s.prev sibling (some child)) (s.next child) (some sibling)
    next := Function.update (Function.update s.next sibling (s.next child)) child (some sibling) }

/-- Takes `right` out of the leaf list behind `left`. -/
def unlinkAfter (s : Store) (left right : Nat) : Store :=
  { s with
    prev := Chain.writeAt s.prev (s.next right) (some left)
    next := Function.update s.next left (s.next right) }

end Store

section Operations
variable {K V : Type} (comp : K → K → Bool) (order : Nat)

def isFull (node : Node K V) : Bool := node.count == 2 * order - 1

/-- Index of the first pair whose key is not below the given one. -/
def findKey (entries : List (K × V)) (key : K) : Nat :=
  (entries.takeWhile (fun e => comp e.1 key)).length

def equivalent (a b : K) : Bool := !comp a b && !comp b a

/-- The child to descend to: past every routing key that is not above the key. -/
def childIdx (keys : List K) (key : K) : Nat := (keys.takeWhile (fun k => !comp key k)).length

/-- `none` here and below is an access out of range. -/
def findLeaf (key : K) : Nat → Node K V → Option (Leaf K V)
  | 0, _ => none
  | _ + 1, .leaf l => some l
  | fuel + 1, .internal keys children => do
    let child ← children[childIdx comp keys key]?
    findLeaf key fuel child

/-- A full leaf as its halves and the routing key between them. -/
def leafHalves (sibling : Nat) : Node K V → Option (Node K V × K × Node K V)
  | .leaf ⟨addr, entries⟩ => do
    let (routingKey, _) ← entries[order]?
    return (.leaf ⟨addr, entries.take order⟩, routingKey, .leaf ⟨sibling, entries.drop order⟩)
  | .internal .. => none

def splitLeaf (s : Store) (keys : List K) (children : List (Node K V)) (idx : Nat) :
    Option (List K × List (Node K V) × Store) := do
  let child ← children[idx]?
  let .leaf l := child | none
  let (keys, children) ← KTree.splitAt (leafHalves order s.fresh) keys children idx
  return (keys, children, s.alloc.linkAfter l.addr s.fresh)

/-- A full internal node as its halves and the median between them. -/
def internalHalves : Node K V → Option (Node K V × K × Node K V)
  | .internal ks cs => do
    let median ← ks[order - 1]?
    return (.internal (ks.take (order - 1)) (cs.take order), median,
      .internal ((ks.drop order).take (order - 1)) ((cs.drop order).take order))
  | .leaf _ => none

def splitInternal (keys : List K) (children : List (Node K V)) (idx : Nat) :
    Option (List K × List (Node K V)) :=
  KTree.splitAt (internalHalves order) keys children idx

/-- Splits the child, by its kind. -/
def splitChild (s : Store) (keys : List K) (children : List (Node K V)) (idx : Nat) :
    Option (List K × List (Node K V) × Store) := do
  let child ← children[idx]?
  if child.isLeaf then splitLeaf order s keys children idx
  else
    let (keys, children) ← splitInternal order keys children idx
    return (keys, children, s)

/-- Makes room below an internal node before the descent: the node after a split
of a full child, and the index to descend to. -/
def makeRoom (s : Store) (keys : List K) (children : List (Node K V)) (idx : Nat) (key : K) :
    Option (List K × List (Node K V) × Nat × Store) := do
  let child ← children[idx]?
  if isFull order child then
    let (keys, children, s) ← splitChild order s keys children idx
    let goRight := match keys[idx]? with
      | none => false
      | some k => comp k key
    return (keys, children, if goRight then idx + 1 else idx, s)
  else return (keys, children, idx, s)

/-- The pairs of a leaf with the value of an equivalent key replaced. -/
def replaceValue (entries : List (K × V)) (key : K) (value : V) : Option (List (K × V)) := do
  let i ← entries.findIdx? (fun e => equivalent comp e.1 key)
  return entries.modify i (fun e => (e.1, value))

/-- Insertion in order, from the back past every greater key. -/
def insertEntry (entries : List (K × V)) (key : K) (value : V) : List (K × V) :=
  let greater := (entries.reverse.takeWhile (fun e => comp key e.1)).length
  entries.insertIdx (entries.length - greater) (key, value)

/-- Insertion below a node that is not full; `fuel` bounds the descent by the height. -/
def insertNonFull (key : K) (value : V) : Nat → Node K V → Store → Option (Node K V × Store)
  | 0, _, _ => none
  | _ + 1, .leaf l, s =>
    match replaceValue comp l.entries key value with
    | some entries => some (.leaf ⟨l.addr, entries⟩, s)
    | none => some (.leaf ⟨l.addr, insertEntry comp l.entries key value⟩, s.setSize (s.size + 1))
  | fuel + 1, .internal keys children, s => do
    let idx := childIdx comp keys key
    let (keys, children, idx, s) ← makeRoom comp order s keys children idx key
    let child ← children[idx]?
    let (child, s) ← insertNonFull key value fuel child s
    return (.internal keys (children.set idx child), s)

/-- The last pair of a leaf moved to the front of the next one. -/
def leafRotateRight (_ : K) : Node K V → Node K V → Option (Node K V × K × Node K V)
  | .leaf sibling, .leaf child => do
    let e ← sibling.entries.getLast?
    return (.leaf ⟨sibling.addr, sibling.entries.dropLast⟩, e.1,
      .leaf ⟨child.addr, e :: child.entries⟩)
  | _, _ => none

def borrowLeafFromPrev (keys : List K) (children : List (Node K V)) (idx : Nat) :
    Option (List K × List (Node K V)) :=
  KTree.onPair leafRotateRight keys children (idx - 1)

/-- The first pair of a leaf moved to the end of the previous one. -/
def leafRotateLeft (_ : K) : Node K V → Node K V → Option (Node K V × K × Node K V)
  | .leaf child, .leaf ⟨addr, e :: entries⟩ => do
    let first ← entries.head?
    return (.leaf ⟨child.addr, child.entries ++ [e]⟩, first.1, .leaf ⟨addr, entries⟩)
  | _, _ => none

def borrowLeafFromNext (keys : List K) (children : List (Node K V)) (idx : Nat) :
    Option (List K × List (Node K V)) :=
  KTree.onPair leafRotateLeft keys children idx

def internalRotateRight (key : K) : Node K V → Node K V → Option (Node K V × K × Node K V)
  | .internal sk sc, .internal ck cc => do
    let up ← sk.getLast?
    let moved ← sc.getLast?
    return (.internal sk.dropLast sc.dropLast, up, .internal (key :: ck) (moved :: cc))
  | _, _ => none

def borrowInternalFromPrev (keys : List K) (children : List (Node K V)) (idx : Nat) :
    Option (List K × List (Node K V)) :=
  KTree.onPair internalRotateRight keys children (idx - 1)

def internalRotateLeft (key : K) : Node K V → Node K V → Option (Node K V × K × Node K V)
  | .internal ck cc, .internal (up :: sk) (moved :: sc) =>
    some (.internal (ck ++ [key]) (cc ++ [moved]), up, .internal sk sc)
  | _, _ => none

def borrowInternalFromNext (keys : List K) (children : List (Node K V)) (idx : Nat) :
    Option (List K × List (Node K V)) :=
  KTree.onPair internalRotateLeft keys children idx

def leafJoin (_ : K) : Node K V → Node K V → Option (Node K V)
  | .leaf left, .leaf right => some (.leaf ⟨left.addr, left.entries ++ right.entries⟩)
  | _, _ => none

def mergeLeaf (s : Store) (keys : List K) (children : List (Node K V)) (idx : Nat) :
    Option (List K × List (Node K V) × Store) := do
  let .leaf left ← children[idx]? | none
  let .leaf right ← children[idx + 1]? | none
  let (keys, children) ← KTree.joinPair leafJoin keys children idx
  return (keys, children, s.unlinkAfter left.addr right.addr)

def internalJoin (key : K) : Node K V → Node K V → Option (Node K V)
  | .internal lk lc, .internal rk rc => some (.internal (lk ++ key :: rk) (lc ++ rc))
  | _, _ => none

def mergeInternal (keys : List K) (children : List (Node K V)) (idx : Nat) :
    Option (List K × List (Node K V)) :=
  KTree.joinPair internalJoin keys children idx

/-- Merges the children `idx` and `idx + 1`, by the kind of the first. -/
def mergeChild (s : Store) (keys : List K) (children : List (Node K V)) (idx : Nat) :
    Option (List K × List (Node K V) × Store) := do
  let child ← children[idx]?
  if child.isLeaf then mergeLeaf s keys children idx
  else
    let (keys, children) ← mergeInternal keys children idx
    return (keys, children, s)

/-- Does a child that is there hold at least `order` keys? -/
def canLend (children : List (Node K V)) (idx : Nat) : Bool :=
  match children[idx]? with
  | none => false
  | some child => decide (order ≤ child.count)

def borrowFromPrev (childIsLeaf : Bool) (keys : List K) (children : List (Node K V)) (idx : Nat) :
    Option (List K × List (Node K V)) :=
  if childIsLeaf then borrowLeafFromPrev keys children idx
  else borrowInternalFromPrev keys children idx

def borrowFromNext (childIsLeaf : Bool) (keys : List K) (children : List (Node K V)) (idx : Nat) :
    Option (List K × List (Node K V)) :=
  if childIsLeaf then borrowLeafFromNext keys children idx
  else borrowInternalFromNext keys children idx

/-- Borrowing or merging for the child `idx`, which has one key too few to lose any;
the index follows a merge with the previous child. -/
def fill (s : Store) (keys : List K) (children : List (Node K V)) (idx : Nat)
    (childIsLeaf : Bool) : Option (List K × List (Node K V) × Nat × Store) := do
  if 0 < idx && canLend order children (idx - 1) then
    let (keys, children) ← borrowFromPrev childIsLeaf keys children idx
    return (keys, children, idx, s)
  else if decide (idx < keys.length) && canLend order children (idx + 1) then
    let (keys, children) ← borrowFromNext childIsLeaf keys children idx
    return (keys, children, idx, s)
  else if idx < keys.length then
    let (keys, children, s) ← mergeChild s keys children idx
    return (keys, children, idx, s)
  else
    let (keys, children, s) ← mergeChild s keys children (idx - 1)
    return (keys, children, idx - 1, s)

def prepare (s : Store) (keys : List K) (children : List (Node K V)) (idx : Nat) :
    Option (List K × List (Node K V) × Nat × Store) := do
  let child ← children[idx]?
  let (keys, children, idx, s) ← if child.count = order - 1 then
      fill order s keys children idx child.isLeaf
    else some (keys, children, idx, s)
  return (keys, children, if keys.length < idx then keys.length else idx, s)

/-- The pair of a leaf with an equivalent key. -/
def entryAt (entries : List (K × V)) (key : K) : Option (K × V) :=
  match entries[findKey comp entries key]? with
  | none => none
  | some e => if equivalent comp e.1 key then some e else none

def removeRecursive (key : K) : Nat → Node K V → Store → Option (Node K V × Store)
  | 0, _, _ => none
  | _ + 1, .leaf l, s =>
    if (entryAt comp l.entries key).isSome then
      some (.leaf ⟨l.addr, l.entries.eraseIdx (findKey comp l.entries key)⟩,
        s.setSize (s.size - 1))
    else some (.leaf l, s)
  | fuel + 1, .internal keys children, s => do
    let idx := childIdx comp keys key
    let (keys, children, idx, s) ← prepare order s keys children idx
    let child ← children[idx]?
    let (child, s) ← removeRecursive key fuel child s
    return (.internal keys (children.set idx child), s)

def empty : BPlusTree K V := ⟨none, none, ⟨0, fun _ => none, fun _ => none, 0⟩⟩

def size (t : BPlusTree K V) : Int := t.store.size

/-- Grows the tree by a level when its root is full. -/
def growRoot (s : Store) (root : Node K V) : Option (Node K V × Store) :=
  if isFull order root then do
    let (keys, children, s) ← splitChild order s [] [root] 0
    return (.internal keys children, s)
  else some (root, s)

/-- The first node reserves `2 * Order` slots, an `int32_t` product. -/
def insert (t : BPlusTree K V) (key : K) (value : V) : Option (BPlusTree K V) :=
  match t.root with
  | none =>
    if 2 * order < 2 ^ 31 then
      some ⟨some (.leaf ⟨t.store.fresh, [(key, value)]⟩), some t.store.fresh,
        t.store.alloc.setSize (t.store.size + 1)⟩
    else none
  | some root => do
    let (root, s) ← growRoot order t.store root
    let (root, s) ← insertNonFull comp order key value root.depth root s
    return ⟨some root, t.head, s⟩

/-- Drops a root without keys. -/
def shrink (head : Option Nat) : Node K V → Option (Node K V) × Option Nat
  | .leaf ⟨_, []⟩ => (none, none)
  | .internal [] (child :: _) => (some child, head)
  | root => (some root, head)

def remove (t : BPlusTree K V) (key : K) : Option (BPlusTree K V × Bool) :=
  match t.root with
  | none => some (t, false)
  | some root => do
    let (root, s) ← removeRecursive comp order key root.depth root t.store
    let (root, head) := shrink t.head root
    return (⟨root, head, s⟩, t.store.size != s.size)

def find (t : BPlusTree K V) (key : K) : Option (Option V) :=
  match t.root with
  | none => some none
  | some root => do
    let leaf ← findLeaf comp key root.depth root
    return (entryAt comp leaf.entries key).map Prod.snd

def contains (t : BPlusTree K V) (key : K) : Option Bool :=
  (t.find comp key).map Option.isSome

/-- The walk along `next_` from a leaf; it fails on an address without a leaf and
when it is longer than the number of leaves. -/
def inorderLeaves (leaves : List (Leaf K V)) (next : Nat → Option Nat) :
    Nat → Option Nat → Option (List (K × V))
  | _, none => some []
  | 0, some _ => none
  | fuel + 1, some addr => do
    let leaf ← leaves.find? (fun l => l.addr == addr)
    let rest ← inorderLeaves leaves next fuel (next addr)
    return leaf.entries ++ rest

def leaves (t : BPlusTree K V) : List (Leaf K V) :=
  match t.root with
  | none => []
  | some root => root.leaves

def inorder (t : BPlusTree K V) : Option (List (K × V)) :=
  inorderLeaves t.leaves t.store.next t.leaves.length t.head

/-- The pairs up to the first key that is not below `stop`, and whether there is one. -/
def scanLeaf (stop : K) : List (K × V) → List (K × V) × Bool
  | [] => ([], false)
  | e :: entries =>
    if !comp e.1 stop then ([], true)
    else
      let (found, past) := scanLeaf stop entries
      (e :: found, past)

/-- The walk of `rangeScan` from index `pos` of a leaf; it fails where that of `inorder` does. -/
def scanLeaves (leaves : List (Leaf K V)) (next : Nat → Option Nat) (stop : K) :
    Nat → Option Nat → Nat → Option (List (K × V))
  | _, none, _ => some []
  | 0, some _, _ => none
  | fuel + 1, some addr, pos => do
    let leaf ← leaves.find? (fun l => l.addr == addr)
    let (found, past) := scanLeaf comp stop (leaf.entries.drop pos)
    if past then return found
    let rest ← scanLeaves leaves next stop fuel (next addr) 0
    return found ++ rest

def rangeScan (t : BPlusTree K V) (start stop : K) : Option (List (K × V)) :=
  match t.root with
  | none => some []
  | some root => do
    let leaf ← findLeaf comp start root.depth root
    scanLeaves comp t.leaves t.store.next stop t.leaves.length (some leaf.addr)
      (findKey comp leaf.entries start)

/-- A mutating call. -/
inductive Op (K V : Type) where
  | insert (key : K) (value : V)
  | remove (key : K)
deriving DecidableEq

def apply (t : BPlusTree K V) : Op K V → Option (BPlusTree K V)
  | .insert key value => t.insert comp order key value
  | .remove key => (t.remove comp order key).map Prod.fst

def run (t : BPlusTree K V) (ops : List (Op K V)) : Option (BPlusTree K V) :=
  ops.foldlM (apply comp order) t

end Operations

end BPlusTree

end Cppforge.Multiway
