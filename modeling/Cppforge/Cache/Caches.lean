import Cppforge.Lib.Recency
import Mathlib.Data.List.AList

namespace Cppforge.Cache

/-- The nodes of the list in order, each with the address that its iterators hold. Keys and
values are never references into the cache. -/
structure LRUCache (K V : Type) where
  cacheList : List (Nat × K × V)
  fresh : Nat
  cacheMap : AList (fun _ : K => Nat)
  capacity : Nat

namespace LRUCache
variable {K V : Type} [DecidableEq K]

/-- The constructor; an exception is its text. -/
def create (capacity : Nat) : Except String (LRUCache K V) :=
  if capacity = 0 then
    .error ("Cache capacity must be greater than 0, got " ++ toString capacity)
  else .ok ⟨[], 0, ∅, capacity⟩

def size (c : LRUCache K V) : Nat := c.cacheList.length

def contains (c : LRUCache K V) (key : K) : Bool := (c.cacheMap.lookup key).isSome

/-- `*it`. Here and below `none` is the use of an iterator that points to no node. -/
def deref (c : LRUCache K V) (it : Nat) : Option (K × V) := c.cacheList.lookup it

/-- `it->second = value`. -/
def assign (c : LRUCache K V) (it : Nat) (value : V) : Option (LRUCache K V) := do
  let _ ← c.deref it
  return { c with
    cacheList := c.cacheList.map fun node =>
      if node.1 = it then (node.1, node.2.1, value) else node }

/-- `cache_list_.erase(it)`. -/
def eraseNode (c : LRUCache K V) (it : Nat) : Option (LRUCache K V) := do
  let _ ← c.deref it
  return { c with cacheList := Recency.drop it c.cacheList }

/-- A node that is not in front yet is spliced there. -/
def moveToFront (c : LRUCache K V) (it : Nat) : Option (LRUCache K V) :=
  if c.cacheList.head?.map Prod.fst = some it then some c
  else do
    let pair ← c.deref it
    let c ← c.eraseNode it
    return { c with cacheList := (it, pair) :: c.cacheList }

/-- `get_impl`, which both overloads of `get` call. -/
def get (c : LRUCache K V) (key : K) : Option (LRUCache K V × Option V) :=
  match c.cacheMap.lookup key with
  | none => some (c, none)
  | some it => do
    let c ← c.moveToFront it
    let pair ← c.deref it
    return (c, some pair.2)

/-- Dropping the last node where the list has reached the capacity. -/
def makeRoom (c : LRUCache K V) : Option (LRUCache K V) :=
  if c.cacheList.length ≥ c.capacity then do
    let last ← c.cacheList.getLast?
    return { c with
      cacheMap := c.cacheMap.erase last.2.1
      cacheList := c.cacheList.dropLast }
  else some c

/-- `put_impl` -/
def put (c : LRUCache K V) (key : K) (value : V) : Option (LRUCache K V × Bool) :=
  match c.cacheMap.lookup key with
  | some it => do
    let c ← c.assign it value
    let c ← c.moveToFront it
    return (c, true)
  | none => do
    let c ← c.makeRoom
    return ({ c with
      cacheList := (c.fresh, key, value) :: c.cacheList
      fresh := c.fresh + 1
      cacheMap := c.cacheMap.insert key c.fresh }, true)

def remove (c : LRUCache K V) (key : K) : Option (LRUCache K V × Bool) :=
  match c.cacheMap.lookup key with
  | none => some (c, false)
  | some it => do
    let c ← c.eraseNode it
    return ({ c with cacheMap := c.cacheMap.erase key }, true)

def clear (c : LRUCache K V) : LRUCache K V := { c with cacheList := [], cacheMap := ∅ }

/-- A put that returns true is done. -/
def step (c : LRUCache K V) :
    Recency.Op K V → Option (LRUCache K V × Recency.Answer V)
  | .get key => do
    let (c, value) ← c.get key
    return (c, .value value)
  | .put key value => do
    let (c, stored) ← c.put key value
    return (c, if stored then .done else .flag false)
  | .contains key => some (c, .flag (c.contains key))
  | .remove key => do
    let (c, removed) ← c.remove key
    return (c, .flag removed)
  | .clear => some (c.clear, .done)

end LRUCache

/-- What a node of a frequency list holds. -/
structure LFUCache.Node (K V : Type) where
  key : K
  value : V
  freq : Nat
deriving DecidableEq

/-- An iterator is the address of a list node. Frequencies and sizes are not bounded. -/
structure LFUCache (K V : Type) where
  nodes : Nat → Option (LFUCache.Node K V)
  fresh : Nat
  freqListMap : AList (fun _ : Nat => List Nat)
  keyMap : AList (fun _ : K => Nat)
  capacity : Nat
  minFreq : Nat

namespace LFUCache
variable {K V : Type} [DecidableEq K]

section Operations

/-- The constructor; `none` is the exception. -/
def create (capacity : Int) : Option (LFUCache K V) :=
  if capacity ≤ 0 then none
  else some ⟨fun _ => none, 0, ∅, ∅, capacity.toNat, 0⟩

/-- `freq_list_map_[freq]`. -/
def freqList (c : LFUCache K V) (freq : Nat) : List Nat := (c.freqListMap.lookup freq).getD []

def size (c : LFUCache K V) : Nat := c.keyMap.keys.length

def contains (c : LFUCache K V) (key : K) : Bool := (c.keyMap.lookup key).isSome

/-- `freq_list_map_[freq].erase(it)`. Here and below `none` is the use of an iterator
that does not point into its list. -/
def eraseNode (c : LFUCache K V) (freq it : Nat) : Option (LFUCache K V) :=
  if it ∈ c.freqList freq then
    some { c with
      nodes := Function.update c.nodes it none
      freqListMap := c.freqListMap.insert freq ((c.freqList freq).erase it) }
  else none

/-- A new node in front of a frequency list, and `key_map_` pointing to it. -/
def pushFront (c : LFUCache K V) (node : Node K V) : LFUCache K V :=
  { c with
    nodes := Function.update c.nodes c.fresh (some node)
    fresh := c.fresh + 1
    freqListMap := c.freqListMap.insert node.freq (c.fresh :: c.freqList node.freq)
    keyMap := c.keyMap.insert node.key c.fresh }

/-- The least frequency is looked up again when its list is dropped. -/
def removeEmptyFreqList (c : LFUCache K V) (freq : Nat) : LFUCache K V :=
  match c.freqListMap.lookup freq with
  | some [] =>
    let rest := c.freqListMap.erase freq
    { c with
      freqListMap := rest
      minFreq := if freq = c.minFreq then rest.keys.min?.getD 0 else c.minFreq }
  | _ => c

def updateFrequency (c : LFUCache K V) (it : Nat) : Option (LFUCache K V) := do
  let node ← c.nodes it
  let c ← c.eraseNode node.freq it
  let c := (c.removeEmptyFreqList node.freq).pushFront { node with freq := node.freq + 1 }
  if c.minFreq = 0 ∨ node.freq + 1 < c.minFreq then return { c with minFreq := node.freq + 1 }
  else return c

/-- The overload for a constant cache only reads. -/
def getImpl (isConst : Bool) (c : LFUCache K V) (key : K) : Option (LFUCache K V × Option V) :=
  match c.keyMap.lookup key with
  | none => some (c, none)
  | some it => do
    let node ← c.nodes it
    let c ← if isConst then some c else c.updateFrequency it
    return (c, some node.value)

def get (c : LFUCache K V) (key : K) : Option (LFUCache K V × Option V) := getImpl false c key

def evictLfuItem (c : LFUCache K V) : Option (LFUCache K V × Bool) :=
  match c.freqListMap.lookup c.minFreq with
  | none => some (c, false)
  | some list => do
    let it ← list.getLast?
    let node ← c.nodes it
    let c ← { c with keyMap := c.keyMap.erase node.key }.eraseNode c.minFreq it
    return (c.removeEmptyFreqList c.minFreq, true)

/-- A new pair with frequency 1. -/
def insertNew (c : LFUCache K V) (key : K) (value : V) : LFUCache K V :=
  { c.pushFront ⟨key, value, 1⟩ with minFreq := 1 }

def put (c : LFUCache K V) (key : K) (value : V) : Option (LFUCache K V × Bool) :=
  match c.keyMap.lookup key with
  | some it => do
    let node ← c.nodes it
    let c := { c with nodes := Function.update c.nodes it (some { node with value := value }) }
    return (← c.updateFrequency it, true)
  | none =>
    if c.capacity ≤ c.size then do
      let (c, evicted) ← c.evictLfuItem
      if evicted then return (c.insertNew key value, true) else return (c, false)
    else some (c.insertNew key value, true)

def remove (c : LFUCache K V) (key : K) : Option (LFUCache K V × Bool) :=
  match c.keyMap.lookup key with
  | none => some (c, false)
  | some it => do
    let node ← c.nodes it
    let c ← c.eraseNode node.freq it
    let c := c.removeEmptyFreqList node.freq
    return ({ c with keyMap := c.keyMap.erase key }, true)

def clear (c : LFUCache K V) : LFUCache K V :=
  { c with freqListMap := ∅, keyMap := ∅, minFreq := 0 }

end Operations

section Specification

/-- The cache as its entries, the one accessed last in front. -/
abbrev Recency (K V : Type) := List (Node K V)

def Recency.drop (items : Recency K V) (key : K) : Recency K V :=
  items.filter (fun i => i.key ≠ key)

/-- An access counts and makes its entry the most recent. -/
def Recency.touch (items : Recency K V) (i : Node K V) : Recency K V :=
  { i with freq := i.freq + 1 } :: items.drop i.key

/-- Among the entries accessed least often, the one longest without access. -/
def Recency.victim (items : Recency K V) : Option (Node K V) :=
  (items.filter (fun i => items.all (fun j => decide (i.freq ≤ j.freq)))).getLast?

inductive Op (K V : Type) where
  | get (key : K)
  | put (key : K) (value : V)
  | remove (key : K)
  | clear

inductive Result (V : Type) where
  | value (v : Option V)
  | flag (b : Bool)

def Recency.apply (capacity : Nat) (items : Recency K V) : Op K V → Recency K V × Result V
  | .get key =>
    match items.find? (fun i => i.key = key) with
    | some i => (items.touch i, .value (some i.value))
    | none => (items, .value none)
  | .put key value =>
    match items.find? (fun i => i.key = key) with
    | some i => (items.touch { i with value := value }, .flag true)
    | none =>
      let kept := if capacity ≤ items.length then
        match items.victim with
        | some i => items.drop i.key
        | none => items
      else items
      (⟨key, value, 1⟩ :: kept, .flag true)
  | .remove key => (items.drop key, .flag (items.any (fun i => i.key = key)))
  | .clear => ([], .flag true)

def apply (c : LFUCache K V) : Op K V → Option (LFUCache K V × Result V)
  | .get key => (c.get key).map (fun r => (r.1, .value r.2))
  | .put key value => (c.put key value).map (fun r => (r.1, .flag r.2))
  | .remove key => (c.remove key).map (fun r => (r.1, .flag r.2))
  | .clear => some (c.clear, .flag true)

/-- The state and the results after some calls. -/
def run (c : LFUCache K V) : List (Op K V) → Option (LFUCache K V × List (Result V))
  | [] => some (c, [])
  | op :: ops => do
    let (c, r) ← c.apply op
    let (c, rs) ← c.run ops
    return (c, r :: rs)

def Recency.run (capacity : Nat) (items : Recency K V) :
    List (Op K V) → Recency K V × List (Result V)
  | [] => (items, [])
  | op :: ops =>
    let (items, r) := items.apply capacity op
    let (items, rs) := Recency.run capacity items ops
    (items, r :: rs)

end Specification

end LFUCache

/-- The operations of a backend on its own state. -/
structure IL2CacheBackend (K V S : Type) where
  get : S → K → S × Option V
  put : S → K → V → S × Bool
  remove : S → K → S × Bool
  clear : S → S

/-- The backend with its state; `none` is the null pointer. -/
structure MultiLevelCache (K V S : Type) where
  l1Cache : LRUCache K V
  l2Backend : Option (IL2CacheBackend K V S × S)

namespace MultiLevelCache
variable {K V S : Type} [DecidableEq K]

/-- Both constructors; an exception is that of the first level. -/
def create (l1Capacity : Nat) (l2Backend : Option (IL2CacheBackend K V S × S)) :
    Except String (MultiLevelCache K V S) := do
  let l1Cache ← LRUCache.create l1Capacity
  return ⟨l1Cache, l2Backend⟩

/-- Here and below `none` is the use of an iterator of the first level that points to no node. -/
def get (c : MultiLevelCache K V S) (key : K) : Option (MultiLevelCache K V S × Option V) := do
  let (l1, l1Result) ← c.l1Cache.get key
  match l1Result, c.l2Backend with
  | some value, _ => return ({ c with l1Cache := l1 }, some value)
  | none, none => return ({ c with l1Cache := l1 }, none)
  | none, some (backend, store) =>
    match backend.get store key with
    | (store, some value) =>
      let (l1, _) ← l1.put key value
      return (⟨l1, some (backend, store)⟩, some value)
    | (store, none) => return (⟨l1, some (backend, store)⟩, none)

def put (c : MultiLevelCache K V S) (key : K) (value : V) :
    Option (MultiLevelCache K V S × Bool) := do
  let (l1, l1Ok) ← c.l1Cache.put key value
  return (⟨l1, c.l2Backend.map fun l2 => (l2.1, (l2.1.put l2.2 key value).1)⟩, l1Ok)

def remove (c : MultiLevelCache K V S) (key : K) : Option (MultiLevelCache K V S × Bool) := do
  let (l1, l1Removed) ← c.l1Cache.remove key
  return (⟨l1, c.l2Backend.map fun l2 => (l2.1, (l2.1.remove l2.2 key).1)⟩, l1Removed)

def clear (c : MultiLevelCache K V S) : MultiLevelCache K V S :=
  ⟨c.l1Cache.clear, c.l2Backend.map fun l2 => (l2.1, l2.1.clear l2.2)⟩

def size (c : MultiLevelCache K V S) : Nat := c.l1Cache.size

def hasL2 (c : MultiLevelCache K V S) : Bool := c.l2Backend.isSome

inductive Op (K V : Type)
  | get (key : K)
  | put (key : K) (value : V)
  | remove (key : K)
  | clear

/-- A call, its result dropped. -/
def step (c : MultiLevelCache K V S) : Op K V → Option (MultiLevelCache K V S)
  | .get key => (c.get key).map Prod.fst
  | .put key value => (c.put key value).map Prod.fst
  | .remove key => (c.remove key).map Prod.fst
  | .clear => some c.clear

end MultiLevelCache

end Cppforge.Cache
