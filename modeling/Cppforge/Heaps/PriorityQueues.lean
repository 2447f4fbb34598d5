import Cppforge.Lib.Selection

namespace Cppforge.Heaps

/-- `data_`; the comparison is a parameter of the calls. -/
structure Heap (T : Type) where
  data : List T

namespace Heap
variable {T : Type} (compare : T → T → Bool)

/-- `std::swap(data_[i], data_[j])`, without a value where an index is out of range. -/
def exchange (data : List T) (i j : Nat) : Option (List T) := do
  return (data.set i (← data[j]?)).set j (← data[i]?)

def heapifyUp (data : List T) (index : Nat) : Option (List T) :=
  if index = 0 then some data
  else do
    let parent := (index - 1) / 2
    if compare (← data[parent]?) (← data[index]?) then
      heapifyUp (← exchange data index parent) parent
    else return data
termination_by index

/-- `child < size && compare_(data_[target], data_[child])`. -/
def exceeded (data : List T) (size target child : Nat) : Option Bool :=
  if child < size then do return compare (← data[target]?) (← data[child]?) else some false

def retarget (data : List T) (size target child : Nat) : Option Nat := do
  if ← exceeded compare data size target child then return child else return target

/-- The loop ends where the target is the index itself; it is never in front of it. -/
def heapifyDown (size : Nat) (data : List T) (index : Nat) : Option (List T) := do
  let target ← retarget compare data size index (2 * index + 1)
  let target ← retarget compare data size target (2 * index + 2)
  if target = index then return data
  else if index < target ∧ target < size then
    heapifyDown size (← exchange data index target) target
  else none
termination_by size - index

/-- The turns of the loop for `i`, `i - 1` and so on. -/
def heapifyFrom (data : List T) : Nat → Option (List T)
  | 0 => some data
  | i + 1 => do heapifyFrom (← heapifyDown compare data.length data i) i

def heapify (data : List T) : Option (List T) :=
  if data.length ≤ 1 then some data else heapifyFrom compare data (data.length / 2)

/-- The constructor from a range. -/
def create (range : List T) : Option (Heap T) := do
  return ⟨← heapify compare range⟩

def push (h : Heap T) (value : T) : Option (Heap T) := do
  let data := h.data ++ [value]
  return ⟨← heapifyUp compare data (data.length - 1)⟩

def emplace (h : Heap T) (value : T) : Option (Heap T) := h.push compare value

def empty (h : Heap T) : Bool := h.data.isEmpty

def pop (h : Heap T) : Option (Except String (Heap T)) :=
  if h.empty then some (.error "Heap is empty")
  else do
    let data := (← exchange h.data 0 (h.data.length - 1)).dropLast
    if data.isEmpty then return .ok ⟨data⟩
    else return .ok ⟨← heapifyDown compare data.length data 0⟩

/-- What the reference is to. -/
def top (h : Heap T) : Option (Except String T) :=
  if h.empty then some (.error "Heap is empty") else h.data[0]?.map .ok

def size (h : Heap T) : Nat := h.data.length

def clear (_ : Heap T) : Heap T := ⟨[]⟩

/-- The turns of the loop from `i` on. -/
def validFrom (data : List T) : Nat → Nat → Option Bool
  | 0, _ => some true
  | turns + 1, i => do
    if ← exceeded compare data data.length i (2 * i + 1) then return false
    else if ← exceeded compare data data.length i (2 * i + 2) then return false
    else validFrom data turns (i + 1)

def isValid (h : Heap T) : Option Bool := validFrom compare h.data h.data.length 0

inductive Op (T : Type)
  | push (value : T)
  | emplace (value : T)
  | pop
  | top
  | size
  | empty
  | clear
  | isValid

inductive Answer (T : Type)
  | done
  | value (v : T)
  | count (n : Nat)
  | flag (b : Bool)

/-- A call, and what it returns or throws. What throws leaves the heap as it was. -/
def step (h : Heap T) : Op T → Option (Heap T × Except String (Answer T))
  | .push value => do return (← h.push compare value, .ok .done)
  | .emplace value => do return (← h.emplace compare value, .ok .done)
  | .pop => do
    match ← h.pop compare with
    | .ok h' => return (h', .ok .done)
    | .error what => return (h, .error what)
  | .top => do return (h, (← h.top).map .value)
  | .size => some (h, .ok (.count h.size))
  | .empty => some (h, .ok (.flag h.empty))
  | .clear => some (h.clear, .ok .done)
  | .isValid => do return (h, .ok (.flag (← h.isValid compare)))

end Heap

/-- `max_capacity_` and `minHeap_`, a queue with the smallest number in front. -/
structure TopK (q : PriorityQueue Int fun n => -n) where
  maxCapacity : Int
  minHeap : q.Heap

namespace TopK
variable {q : PriorityQueue Int fun n => -n}

/-- `static_cast<int32_t>(n)`. -/
def toInt32 (n : Nat) : Int := (n : Int).bmod (2 ^ 32)

/-- The constructors; without an argument the capacity is 0. -/
def create (q : PriorityQueue Int fun n => -n) (maxCapacity : Int) : Except String (TopK q) :=
  if maxCapacity < 0 then .error "max_capacity must be non-negative"
  else .ok ⟨maxCapacity, q.empty⟩

/-- Without a value where the queue has no top. -/
def add (t : TopK q) (num : Int) : Option (TopK q) :=
  if 0 < t.maxCapacity ∧ t.maxCapacity ≤ toInt32 (q.size t.minHeap) then do
    if (← q.top t.minHeap) < num then
      return { t with minHeap := q.push num (q.pop t.minHeap) }
    else return t
  else some { t with minHeap := q.push num t.minHeap }

def discard (heap : q.Heap) : Nat → q.Heap
  | 0 => heap
  | n + 1 => discard (q.pop heap) n

/-- The numbers that come out, as many as there are. -/
def extract (heap : q.Heap) : Nat → Option (List Int)
  | 0 => some []
  | n + 1 => do return (← q.top heap) :: (← extract (q.pop heap) n)

/-- A negative number of elements cannot be reserved. -/
def getTopK (t : TopK q) (count : Int) (ascending : Bool) : Option (Except String (List Int)) :=
  if count < 0 then
    some (.error ("TopK::getTopK: count must be non-negative, got " ++ toString count))
  else
    let heapSize := toInt32 (q.size t.minHeap)
    let n := if count ≤ 0 ∨ heapSize < count then heapSize else count
    if n < 0 then some (.error "vector::reserve")
    else do
      let temp := discard t.minHeap (heapSize - n).toNat
      let result ← extract temp (q.size temp)
      return .ok (if ascending then result else result.reverse)

def size (t : TopK q) : Nat := q.size t.minHeap

def empty (t : TopK q) : Bool := q.size t.minHeap == 0

end TopK

end Cppforge.Heaps
