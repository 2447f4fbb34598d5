import Cppforge.Lib.Circular
import Mathlib.Logic.Function.Basic
import Mathlib.Algebra.Group.Nat.Defs

namespace Cppforge.Lists

/-- Elements and arguments are values, never references into a buffer. A place of the buffer
keeps its element when it is popped. -/
structure Deque (T : Type) where
  buffer : List T
  head : Nat
  tail : Nat
  dequeSize : Nat
  capacity : Nat
deriving DecidableEq

namespace Deque
variable {T : Type}

def minCapacity : Nat := 8

def create : Deque T := ⟨[], 0, 0, 0, 0⟩

/-- `buffer[i] = value`. Here and below `none` is an access out of range, or a remainder by
zero. -/
def write (buffer : List T) (i : Nat) (value : T) : Option (List T) :=
  if i < buffer.length then some (buffer.set i value) else none

/-- `i % capacity_` -/
def wrap (d : Deque T) (i : Nat) : Option Nat :=
  if d.capacity = 0 then none else some (i % d.capacity)

def empty (d : Deque T) : Bool := d.dequeSize == 0

/-- The unchecked `operator[]`. -/
def get (d : Deque T) (index : Nat) : Option T := do
  let i ← d.wrap (d.head + index)
  d.buffer[i]?

/-- `at`; an exception is its text. -/
def atIndex (d : Deque T) (index : Nat) : Option (Except String T) :=
  if index ≥ d.dequeSize then some (.error "Deque index out of range")
  else (d.get index).map .ok

def front (d : Deque T) : Option (Except String T) :=
  if d.empty then some (.error "Deque is empty")
  else (d.buffer[d.head]?).map .ok

def back (d : Deque T) : Option (Except String T) :=
  if d.empty then some (.error "Deque is empty")
  else (d.buffer[Circular.prev d.capacity d.tail]?).map .ok

/-- The loop that writes the elements from the `i`-th on, `n` in number, to the same places
of another buffer. -/
def unroll (d : Deque T) : Nat → Nat → List T → Option (List T)
  | 0, _, buffer => some buffer
  | n + 1, i, buffer => do
    let value ← d.get i
    let buffer ← write buffer i value
    d.unroll n (i + 1) buffer

def popFront (d : Deque T) : Option (Except String (Deque T)) :=
  if d.empty then some (.error "Deque is empty")
  else do
    let head ← d.wrap (d.head + 1)
    return .ok { d with head, dequeSize := d.dequeSize - 1 }

def popBack (d : Deque T) : Option (Except String (Deque T)) :=
  if d.empty then some (.error "Deque is empty")
  else some (.ok { d with
    tail := Circular.prev d.capacity d.tail
    dequeSize := d.dequeSize - 1 })

def clear (_ : Deque T) : Deque T := create

def swap (d other : Deque T) : Deque T × Deque T := (other, d)

variable [Inhabited T]

/-- The copy constructor. -/
def copy (other : Deque T) : Option (Deque T) :=
  if other.dequeSize > 0 then do
    let buffer ← other.unroll other.dequeSize 0 (List.replicate other.capacity default)
    return ⟨buffer, 0, other.dequeSize, other.dequeSize, other.capacity⟩
  else some create

/-- The copy assignment from another object. -/
def assign (d other : Deque T) : Option (Deque T) := do
  let copy ← other.copy
  return (d.swap copy).1

def reserve (d : Deque T) (newCapacity : Nat) : Option (Deque T) :=
  if newCapacity ≤ d.capacity then some d
  else do
    let buffer ← d.unroll d.dequeSize 0 (List.replicate newCapacity default)
    return { d with buffer, head := 0, tail := d.dequeSize, capacity := newCapacity }

def grow (d : Deque T) : Option (Deque T) :=
  d.reserve (if d.capacity = 0 then minCapacity else d.capacity * 2)

/-- What both pushes begin with. -/
def makeRoom (d : Deque T) : Option (Deque T) :=
  if d.dequeSize = d.capacity then d.grow else some d

def pushFront (d : Deque T) (value : T) : Option (Deque T) := do
  let d ← d.makeRoom
  let head := Circular.prev d.capacity d.head
  let buffer ← write d.buffer head value
  return { d with buffer, head, dequeSize := d.dequeSize + 1 }

def pushBack (d : Deque T) (value : T) : Option (Deque T) := do
  let d ← d.makeRoom
  let buffer ← write d.buffer d.tail value
  let tail ← d.wrap (d.tail + 1)
  return { d with buffer, tail, dequeSize := d.dequeSize + 1 }

variable {V : Type} [DecidableEq V]

/-- The statements of a program with the deque variables `V`. -/
inductive Op (V T : Type)
  | pushFront (x : V) (value : T)
  | pushBack (x : V) (value : T)
  | popFront (x : V)
  | popBack (x : V)
  | clear (x : V)
  | copyConstruct (x y : V)
  | copyAssign (x y : V)

/-- The variables after a call on `x` that may throw. -/
def settle {A : Type} (s : V → A) (x : V) : Except String A → (V → A) × Except String Unit
  | .ok d => (Function.update s x d, .ok ())
  | .error e => (s, .error e)

def step (s : V → Deque T) : Op V T → Option ((V → Deque T) × Except String Unit)
  | .pushFront x value => do return settle s x (.ok (← (s x).pushFront value))
  | .pushBack x value => do return settle s x (.ok (← (s x).pushBack value))
  | .popFront x => do return settle s x (← (s x).popFront)
  | .popBack x => do return settle s x (← (s x).popBack)
  | .clear x => some (settle s x (.ok (s x).clear))
  | .copyConstruct x y => do return settle s x (.ok (← (s y).copy))
  | .copyAssign x y => do
    if x = y then return settle s x (.ok (s x))
    else return settle s x (.ok (← (s x).assign (s y)))

end Deque

/-- `buffer_`, `head_`, `tail_`, and `capacity_` as `slots`, one more than the capacity. -/
structure RingBuffer (T : Type) where
  buffer : List T
  head : Nat
  tail : Nat
  slots : Nat
deriving DecidableEq

namespace RingBuffer
variable {T : Type}

/-- `i % capacity_`. Here and below `none` is a remainder by zero, or an access out of range. -/
def wrap (b : RingBuffer T) (i : Nat) : Option Nat :=
  if b.slots = 0 then none else some (i % b.slots)

def next (b : RingBuffer T) (index : Nat) : Option Nat := b.wrap (index + 1)

def prev (b : RingBuffer T) (index : Nat) : Option Nat := b.wrap (index + b.slots - 1)

/-- `buffer[i] = value` -/
def store (buffer : List T) (i : Nat) (value : T) : Option (List T) :=
  if i < buffer.length then some (buffer.set i value) else none

/-- The unchecked `operator[]`. -/
def get (b : RingBuffer T) (index : Nat) : Option T := do
  b.buffer[← b.wrap (b.head + index)]?

def size (b : RingBuffer T) : Option Nat := b.wrap (b.tail + b.slots - b.head)

def capacity (b : RingBuffer T) : Nat := (b.slots + (2 ^ 64 - 1)) % 2 ^ 64

def empty (b : RingBuffer T) : Bool := b.head == b.tail

def full (b : RingBuffer T) : Option Bool := do return (← b.next b.tail) == b.head

/-- The elements from the `i`-th on, `n` in number. -/
def readFrom (b : RingBuffer T) : Nat → Nat → Option (List T)
  | 0, _ => some []
  | n + 1, i => do return (← b.get i) :: (← b.readFrom n (i + 1))

/-- All elements from front to back. -/
def contents (b : RingBuffer T) : Option (List T) := do b.readFrom (← b.size) 0

def pushBack (b : RingBuffer T) (value : T) : Option (RingBuffer T) := do
  let buffer ← store b.buffer b.tail value
  let tail ← b.next b.tail
  let head ← if tail = b.head then b.next b.head else some b.head
  return { b with buffer, head, tail }

def pushFront (b : RingBuffer T) (value : T) : Option (RingBuffer T) := do
  let head ← b.prev b.head
  let buffer ← store b.buffer head value
  let tail ← if head = b.tail then b.prev b.tail else some b.tail
  return { b with buffer, head, tail }

/-- The exceptions are their texts. -/
def popFront (b : RingBuffer T) : Option (Except String (RingBuffer T)) :=
  if b.empty then some (.error "RingBuffer is empty")
  else do return .ok { b with head := ← b.next b.head }

def popBack (b : RingBuffer T) : Option (Except String (RingBuffer T)) :=
  if b.empty then some (.error "RingBuffer is empty")
  else do return .ok { b with tail := ← b.prev b.tail }

def clear (b : RingBuffer T) : RingBuffer T := { b with head := 0, tail := 0 }

/-- The loop of `resize` from the `i`-th element on, `n` in number. -/
def copyFrom (b : RingBuffer T) : Nat → Nat → List T → Option (List T)
  | 0, _, newBuffer => some newBuffer
  | n + 1, i, newBuffer => do
    let newBuffer ← store newBuffer i (← b.get i)
    b.copyFrom n (i + 1) newBuffer

section Capacities
variable [Inhabited T]

/-- A vector of default elements. No vector is longer than the largest difference of two
pointers. -/
def makeBuffer (count : Nat) : Except String (List T) :=
  if count < 2 ^ 63 then .ok (List.replicate count default) else .error "std::length_error"

/-- The constructor, whose sum is one of `size_t`. -/
def create (capacity : UInt64) : Except String (RingBuffer T) := do
  let buffer ← makeBuffer ((capacity.toNat + 1) % 2 ^ 64)
  if capacity.toNat = 0 then throw "RingBuffer capacity must be > 0"
  return ⟨buffer, 0, 0, (capacity.toNat + 1) % 2 ^ 64⟩

def resize (b : RingBuffer T) (newCapacity : UInt64) : Option (Except String (RingBuffer T)) :=
  if newCapacity.toNat = b.capacity then some (.ok b)
  else if newCapacity.toNat = 0 then some (.error "RingBuffer capacity must be > 0")
  else match makeBuffer ((newCapacity.toNat + 1) % 2 ^ 64) with
    | .error what => some (.error what)
    | .ok newBuffer => do
      let copyCount := min (← b.size) newCapacity.toNat
      let buffer ← b.copyFrom copyCount 0 newBuffer
      return .ok ⟨buffer, 0, copyCount, (newCapacity.toNat + 1) % 2 ^ 64⟩

inductive Op (T : Type) where
  | pushBack (value : T)
  | pushFront (value : T)
  | popFront
  | popBack
  | clear
  | resize (newCapacity : UInt64)

/-- The buffer after a call that may throw. -/
def settle (b : RingBuffer T) : Except String (RingBuffer T) → RingBuffer T × Except String Unit
  | .ok b' => (b', .ok ())
  | .error what => (b, .error what)

def step (b : RingBuffer T) : Op T → Option (RingBuffer T × Except String Unit)
  | .pushBack value => do return b.settle (.ok (← b.pushBack value))
  | .pushFront value => do return b.settle (.ok (← b.pushFront value))
  | .popFront => do return b.settle (← b.popFront)
  | .popBack => do return b.settle (← b.popBack)
  | .clear => some (b.settle (.ok b.clear))
  | .resize newCapacity => do return b.settle (← b.resize newCapacity)

end Capacities

end RingBuffer

end Cppforge.Lists
