import Cppforge.Lib.Recency

namespace Cppforge.Hash

structure LRUCache.Node (K V : Type) where
  key : K
  value : V
  prev : Option Nat
  next : Option Nat
deriving DecidableEq

/-- Pointers are addresses, a null pointer is `none`. The heap holds the two sentinels and the
nodes that the map owns; it leads from a key to the address of its node. `head_` and `tail_` are
null in a cache that was moved from only. Keys and values are never references into the cache. -/
structure LRUCache (K V : Type) where
  nodes : Nat → Option (LRUCache.Node K V)
  fresh : Nat
  map : AList (fun _ : K => Nat)
  head : Nat
  tail : Nat
  capacity : Nat
  size : Nat

namespace LRUCache
variable {K V : Type}

abbrev Heap (K V : Type) := Nat → Option (Node K V)

/-- `p->prev = q`. Here and below `none` is the use of a pointer that is null or dangling. -/
def setPrev (nodes : Heap K V) (p q : Option Nat) : Option (Heap K V) := do
  let a ← p
  let node ← nodes a
  return Function.update nodes a (some { node with prev := q })

/-- `p->next = q`. -/
def setNext (nodes : Heap K V) (p q : Option Nat) : Option (Heap K V) := do
  let a ← p
  let node ← nodes a
  return Function.update nodes a (some { node with next := q })

/-- `p->prev` -/
def prev (nodes : Heap K V) (a : Nat) : Option (Option Nat) := (nodes a).map Node.prev

/-- `p->next` -/
def next (nodes : Heap K V) (a : Nat) : Option (Option Nat) := (nodes a).map Node.next

/-- `init_sentinels` on an empty heap. -/
def initSentinels [Inhabited K] [Inhabited V] : Heap K V := fun a =>
  if a = 0 then some ⟨default, default, none, some 1⟩
  else if a = 1 then some ⟨default, default, some 0, none⟩
  else none

/-- The constructor; an exception is its text. -/
def create [Inhabited K] [Inhabited V] (capacity : Nat) : Except String (LRUCache K V) :=
  if capacity = 0 then .error "LRUCache: capacity must be greater than zero"
  else .ok ⟨initSentinels, 2, ∅, 0, 1, capacity, 0⟩

def addToHead (c : LRUCache K V) (node : Nat) : Option (LRUCache K V) := do
  let first ← next c.nodes c.head
  let nodes ← setNext c.nodes (some node) first
  let nodes ← setPrev nodes (some node) (some c.head)
  let first ← next nodes c.head
  let nodes ← setPrev nodes first (some node)
  let nodes ← setNext nodes (some c.head) (some node)
  return { c with nodes }

def removeNode (c : LRUCache K V) (node : Nat) : Option (LRUCache K V) := do
  let left ← prev c.nodes node
  let right ← next c.nodes node
  let nodes ← setNext c.nodes left right
  let right ← next nodes node
  let left ← prev nodes node
  let nodes ← setPrev nodes right left
  return { c with nodes }

def moveToHead (c : LRUCache K V) (node : Nat) : Option (LRUCache K V) := do
  let c ← c.removeNode node
  c.addToHead node

variable [DecidableEq K]

/-- `map_.erase(key)`, which destroys the node of the key. -/
def eraseKey (c : LRUCache K V) (key : K) : LRUCache K V :=
  match c.map.lookup key with
  | none => c
  | some node => { c with
    map := c.map.erase key
    nodes := Function.update c.nodes node none }

def evictTail (c : LRUCache K V) : Option (LRUCache K V) := do
  let lru ← prev c.nodes c.tail
  if lru = some c.head then return c
  else
    let lru ← lru
    let c ← c.removeNode lru
    let node ← c.nodes lru
    return { c.eraseKey node.key with size := c.size - 1 }

def contains (c : LRUCache K V) (key : K) : Bool := (c.map.lookup key).isSome

def get (c : LRUCache K V) (key : K) : Option (LRUCache K V × Option V) :=
  match c.map.lookup key with
  | none => some (c, none)
  | some a => do
    let c ← c.moveToHead a
    let node ← c.nodes a
    return (c, some node.value)

/-- `it->second->value = value`. -/
def assign (c : LRUCache K V) (a : Nat) (value : V) : Option (LRUCache K V) := do
  let node ← c.nodes a
  return { c with nodes := Function.update c.nodes a (some { node with value }) }

def makeRoom (c : LRUCache K V) : Option (LRUCache K V) :=
  if c.size ≥ c.capacity then c.evictTail else some c

/-- `std::make_unique<Node>(key, value)`. -/
def makeNode (c : LRUCache K V) (key : K) (value : V) : LRUCache K V :=
  { c with
    nodes := Function.update c.nodes c.fresh (some ⟨key, value, none, none⟩)
    fresh := c.fresh + 1 }

/-- Both overloads of `put`. -/
def put (c : LRUCache K V) (key : K) (value : V) : Option (LRUCache K V) :=
  match c.map.lookup key with
  | some a => do
    let c ← c.assign a value
    c.moveToHead a
  | none => do
    let c ← c.makeRoom
    let raw := c.fresh
    let c ← (c.makeNode key value).addToHead raw
    return { c with map := c.map.insert key raw, size := c.size + 1 }

def erase (c : LRUCache K V) (key : K) : Option (LRUCache K V × Bool) :=
  match c.map.lookup key with
  | none => some (c, false)
  | some a => do
    let c ← c.removeNode a
    return ({ c.eraseKey key with size := c.size - 1 }, true)

/-- The nodes of the map are destroyed, and the sentinels linked to each other. -/
def clear (c : LRUCache K V) : Option (LRUCache K V) := do
  let owned := c.map.entries.map Sigma.snd
  let nodes := fun a => if a ∈ owned then none else c.nodes a
  let nodes ← setNext nodes (some c.head) (some c.tail)
  let nodes ← setPrev nodes (some c.tail) (some c.head)
  return { c with nodes, map := ∅, size := 0 }

def step (c : LRUCache K V) :
    Recency.Op K V → Option (LRUCache K V × Recency.Answer V)
  | .get key => do
    let (c, value) ← c.get key
    return (c, .value value)
  | .put key value => do
    let c ← c.put key value
    return (c, .done)
  | .contains key => some (c, .flag (c.contains key))
  | .remove key => do
    let (c, erased) ← c.erase key
    return (c, .flag erased)
  | .clear => do
    let c ← c.clear
    return (c, .done)

end LRUCache

end Cppforge.Hash
