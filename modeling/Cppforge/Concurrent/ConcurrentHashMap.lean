import Cppforge.Lib.KeyMap
import Cppforge.Lib.Run
import Mathlib.Algebra.GroupWithZero.Nat

namespace Cppforge.Concurrent
open KeyMap

/-- A chain is the list of its nodes. -/
structure ConcurrentHashMap.Segment (K V : Type) where
  buckets : List (List (K × V))
  capacity : Nat
  size : Nat

/-- Sizes are not bounded, and memory does not run out. `overloaded` compares the quotient of a
size and a capacity, as doubles, with `max_load_factor_`. -/
structure ConcurrentHashMap (K V : Type) where
  segments : List (ConcurrentHashMap.Segment K V)
  overloaded : Nat → Nat → Bool

namespace ConcurrentHashMap
variable {K V : Type} (h : Hashing K) (segmentBits : Nat)

def segmentCount : Nat := 1 <<< segmentBits

def initialSegmentCapacity : Nat := 16

/-- The index of `segment_for`. -/
def segmentFor (key : K) : Nat := (h.hash key).toNat &&& (segmentCount segmentBits - 1)

/-- `capacity - 1`, which wraps around at 0. -/
def bucketMask (capacity : Nat) : Nat := if capacity = 0 then 2 ^ 64 - 1 else capacity - 1

def bucketIndex (key : K) (capacity : Nat) : Nat :=
  ((h.hash key).toNat >>> segmentBits) &&& bucketMask capacity

/-- The default maximum load factor is 0.75. -/
def defaultOverloaded (size capacity : Nat) : Bool := decide (3 * capacity ≤ 4 * size)

/-- The constructors. -/
def create (overloaded : Nat → Nat → Bool) : ConcurrentHashMap K V where
  segments := List.replicate (segmentCount segmentBits)
    ⟨List.replicate initialSegmentCapacity [], initialSegmentCapacity, 0⟩
  overloaded := overloaded

section Chains

/-- The node at which the scan of a chain ends. -/
def scan : List (K × V) → K → Option (K × V)
  | [], _ => none
  | cur :: next, key => if h.keyEqual cur.1 key then some cur else scan next key

/-- The scan of `insert_or_assign`; `none` if the key is not found. -/
def assignNode (chain : List (K × V)) (key : K) (value : V) : Option (List (K × V)) :=
  match chain with
  | [] => none
  | cur :: next =>
    if h.keyEqual cur.1 key then some ((cur.1, value) :: next)
    else (assignNode next key value).map (cur :: ·)

/-- The scan of `erase`. -/
def unlinkNode (chain : List (K × V)) (key : K) : Option (List (K × V)) :=
  match chain with
  | [] => none
  | cur :: next =>
    if h.keyEqual cur.1 key then some next else (unlinkNode next key).map (cur :: ·)

end Chains

namespace Segment
variable (seg : Segment K V) (overloaded : Nat → Nat → Bool)

def needRehash : Bool := decide (seg.capacity > 0) && overloaded seg.size seg.capacity

/-- The inner loop of `rehash`. Here and below `none` is an access out of bounds. -/
def relink (newCapacity : Nat) (newBuckets : List (List (K × V))) :
    List (K × V) → Option (List (List (K × V)))
  | [] => some newBuckets
  | cur :: next => do
    let newIdx := bucketIndex h segmentBits cur.1 newCapacity
    let chain ← newBuckets[newIdx]?
    relink newCapacity (newBuckets.set newIdx (cur :: chain)) next

def rehash : Option (Segment K V) := do
  let newCapacity := seg.capacity * 2
  let newBuckets ← seg.buckets.foldlM (relink h segmentBits newCapacity)
    (List.replicate newCapacity [])
  return { seg with buckets := newBuckets, capacity := newCapacity }

/-- The insertion at the head of a chain, before the check for a rehash. -/
def link (key : K) (value : V) : Option (Segment K V) := do
  let bucketIdx := bucketIndex h segmentBits key seg.capacity
  let chain ← seg.buckets[bucketIdx]?
  return { seg with
    buckets := seg.buckets.set bucketIdx ((key, value) :: chain), size := seg.size + 1 }

def grow : Option (Segment K V) :=
  if seg.needRehash overloaded then seg.rehash h segmentBits else some seg

def insertNew (key : K) (value : V) : Option (Segment K V × Bool) := do
  let seg ← seg.link h segmentBits key value
  let seg ← seg.grow h segmentBits overloaded
  return (seg, true)

/-- The part of `insert` under the lock. -/
def insert (key : K) (value : V) : Option (Segment K V × Bool) := do
  let bucketIdx := bucketIndex h segmentBits key seg.capacity
  let chain ← seg.buckets[bucketIdx]?
  match scan h chain key with
  | some _ => return (seg, false)
  | none => seg.insertNew h segmentBits overloaded key value

/-- The part of `insert_or_assign` under the lock. -/
def insertOrAssign (key : K) (value : V) : Option (Segment K V × Bool) := do
  let bucketIdx := bucketIndex h segmentBits key seg.capacity
  let chain ← seg.buckets[bucketIdx]?
  match assignNode h chain key value with
  | some chain => return ({ seg with buckets := seg.buckets.set bucketIdx chain }, false)
  | none => seg.insertNew h segmentBits overloaded key value

/-- The part of `erase` under the lock. -/
def erase (key : K) : Option (Segment K V × Bool) := do
  let bucketIdx := bucketIndex h segmentBits key seg.capacity
  let chain ← seg.buckets[bucketIdx]?
  match unlinkNode h chain key with
  | some chain =>
    return ({ seg with buckets := seg.buckets.set bucketIdx chain, size := seg.size - 1 }, true)
  | none => return (seg, false)

/-- The node that `get` and `contains` find. -/
def find (key : K) : Option (Option (K × V)) := do
  let chain ← seg.buckets[bucketIndex h segmentBits key seg.capacity]?
  return scan h chain key

def clear : Segment K V := { seg with buckets := seg.buckets.map (fun _ => []), size := 0 }

/-- The pairs that `for_each` meets in a segment. -/
def pairs : List (K × V) := seg.buckets.flatMap id

end Segment

section Calls
variable (m : ConcurrentHashMap K V)

/-- A call that locks the segment of its key. -/
def lockSegment (key : K) (body : Segment K V → Option (Segment K V × Bool)) :
    Option (ConcurrentHashMap K V × Bool) := do
  let idx := segmentFor h segmentBits key
  let seg ← m.segments[idx]?
  let (seg, result) ← body seg
  return ({ m with segments := m.segments.set idx seg }, result)

def insert (key : K) (value : V) : Option (ConcurrentHashMap K V × Bool) :=
  m.lockSegment h segmentBits key (fun seg => seg.insert h segmentBits m.overloaded key value)

def insertOrAssign (key : K) (value : V) : Option (ConcurrentHashMap K V × Bool) :=
  m.lockSegment h segmentBits key
    (fun seg => seg.insertOrAssign h segmentBits m.overloaded key value)

def erase (key : K) : Option (ConcurrentHashMap K V × Bool) :=
  m.lockSegment h segmentBits key (fun seg => seg.erase h segmentBits key)

/-- The inner `none` is `std::nullopt`. -/
def get (key : K) : Option (Option V) := do
  let seg ← m.segments[segmentFor h segmentBits key]?
  return (← seg.find h segmentBits key).map Prod.snd

def contains (key : K) : Option Bool := do
  let seg ← m.segments[segmentFor h segmentBits key]?
  return (← seg.find h segmentBits key).isSome

def size : Nat := (m.segments.map Segment.size).sum

def clear : ConcurrentHashMap K V := { m with segments := m.segments.map Segment.clear }

/-- The pairs that `for_each` passes to its callable, in this order. -/
def forEach : List (K × V) := m.segments.flatMap Segment.pairs

inductive Op (K V : Type) where
  | insert (key : K) (value : V)
  | insertOrAssign (key : K) (value : V)
  | erase (key : K)
  | clear

def apply : Op K V → Option (ConcurrentHashMap K V × Bool)
  | .insert key value => m.insert h segmentBits key value
  | .insertOrAssign key value => m.insertOrAssign h segmentBits key value
  | .erase key => m.erase h segmentBits key
  | .clear => some (m.clear, true)

/-- The same calls on a finite map. -/
def applyMap (xs : List (K × V)) : Op K V → List (K × V) × Bool
  | .insert key value => KeyMap.insert h xs key value
  | .insertOrAssign key value => KeyMap.assign h xs key value
  | .erase key => KeyMap.erase h xs key
  | .clear => ([], true)

end Calls

section Moves

/-- A segment whose bucket array was taken: the pointer is null. -/
def Segment.taken : Segment K V := ⟨[], 0, 0⟩

/-- What a move leaves of the source. -/
def movedFrom (other : ConcurrentHashMap K V) : ConcurrentHashMap K V :=
  { other with segments := other.segments.map fun _ => Segment.taken }

/-- The move constructor: the new map, and the source afterwards. -/
def moveConstruct (other : ConcurrentHashMap K V) :
    ConcurrentHashMap K V × ConcurrentHashMap K V :=
  (⟨other.segments, other.overloaded⟩, other.movedFrom)

/-- The move assignment to another object, whose own nodes and arrays are released. -/
def moveAssign (m other : ConcurrentHashMap K V) :
    ConcurrentHashMap K V × ConcurrentHashMap K V :=
  ({ m with segments := other.segments, overloaded := other.overloaded }, other.movedFrom)

inductive Call (K V : Type) where
  | insert (key : K) (value : V)
  | insertOrAssign (key : K) (value : V)
  | erase (key : K)
  | get (key : K)
  | contains (key : K)
  | forEach

inductive Reply (K V : Type) where
  | flag (result : Bool)
  | value (result : Option V)
  | pairs (visited : List (K × V))

variable (m : ConcurrentHashMap K V)

def call : Call K V → Option (ConcurrentHashMap K V × Reply K V)
  | .insert key value => (m.insert h segmentBits key value).map (Prod.map id .flag)
  | .insertOrAssign key value => (m.insertOrAssign h segmentBits key value).map (Prod.map id .flag)
  | .erase key => (m.erase h segmentBits key).map (Prod.map id .flag)
  | .get key => (m.get h segmentBits key).map fun result => (m, .value result)
  | .contains key => (m.contains h segmentBits key).map fun result => (m, .flag result)
  | .forEach => some (m, .pairs m.forEach)

/-- The order in which `for_each` visits the pairs does not count. -/
inductive Reply.Agrees : Reply K V → Reply K V → Prop where
  | flag (result : Bool) : Agrees (.flag result) (.flag result)
  | value (result : Option V) : Agrees (.value result) (.value result)
  | pairs {xs ys : List (K × V)} (h : xs.Perm ys) : Agrees (.pairs xs) (.pairs ys)

/-- No call accesses a bucket out of bounds, and the replies are those of a new map. -/
def BehavesAsNew (calls : List (Call K V)) : Prop :=
  ∃ last fresh rs rs', Run.exec (call h segmentBits) m calls = some (last, rs) ∧
    Run.exec (call h segmentBits) (create segmentBits m.overloaded) calls = some (fresh, rs') ∧
    List.Forall₂ Reply.Agrees rs rs'

end Moves

end ConcurrentHashMap

end Cppforge.Concurrent
