import Cppforge.Lib.Cells

namespace Cppforge.Lists

/-- Pointers are addresses, a null pointer is `none`. The list's nodes are all that the heap
holds; arguments are values, never references into the list. -/
structure LinkedList (T : Type) where
  nodes : Cells.Heap Nat T
  fresh : Nat
  head : Option Nat
  tail : Option Nat
  listSize : Nat

namespace LinkedList
variable {T : Type}

section Operations

def create : LinkedList T := ⟨fun _ => none, 0, none, none, 0⟩

def empty (l : LinkedList T) : Bool := l.listSize == 0

/-- `std::make_unique<Node>(value)`, with the links that are set before it is linked in. -/
def makeNode (l : LinkedList T) (node : Cells.Node Nat T) : LinkedList T :=
  { l with nodes := Function.update l.nodes l.fresh (some node), fresh := l.fresh + 1 }

/-- `head_ = std::move(p)`. Here and below `none` is the use of a pointer that is null or
dangling. -/
def assignHead (l : LinkedList T) (p : Option Nat) : Option (LinkedList T) := do
  let nodes ← Cells.destroy l.fresh l.nodes l.head
  return { l with nodes := nodes, head := p }

/-- `a->next_ = std::move(p)`. -/
def assignNext (l : LinkedList T) (a : Nat) (p : Option Nat) : Option (LinkedList T) := do
  let nodes ← Cells.assignNext l.fresh l.nodes a p
  return { l with nodes := nodes }

/-- `a->prev_ = p`. -/
def setPrev (l : LinkedList T) (a : Nat) (p : Option Nat) : Option (LinkedList T) := do
  let nodes ← Cells.modify l.nodes a (fun node => { node with prev := p })
  return { l with nodes := nodes }

/-- `std::move(a->next_)`. -/
def takeNext (l : LinkedList T) (a : Nat) : Option (LinkedList T × Option Nat) := do
  let node ← l.nodes a
  let nodes ← Cells.modify l.nodes a (fun node => { node with next := none })
  return ({ l with nodes := nodes }, node.next)

def pushFront (l : LinkedList T) (value : T) : Option (LinkedList T) := do
  let newNode := l.fresh
  let next := l.head
  let l := { l with head := none }.makeNode ⟨value, next, none⟩
  let l ← match next with
    | some next => l.setPrev next (some newNode)
    | none => some { l with tail := some newNode }
  let l ← l.assignHead (some newNode)
  return { l with listSize := l.listSize + 1 }

def pushBack (l : LinkedList T) (value : T) : Option (LinkedList T) := do
  let newNode := l.fresh
  let l := l.makeNode ⟨value, none, l.tail⟩
  let l ← match l.tail with
    | some tail => l.assignNext tail (some newNode)
    | none => l.assignHead (some newNode)
  return { l with tail := some newNode, listSize := l.listSize + 1 }

/-- What both removals of the first node do: it owns nothing when it is deleted. -/
def dropHead (l : LinkedList T) (target : Nat) : Option (LinkedList T) := do
  let (l, next) ← l.takeNext target
  let l ← l.assignHead next
  match next with
  | some head => l.setPrev head none
  | none => some { l with tail := none }

/-- The tests for an empty list are in `apply`. -/
def popFront (l : LinkedList T) : Option (LinkedList T) := do
  let l ← l.dropHead (← l.head)
  return { l with listSize := l.listSize - 1 }

def popBack (l : LinkedList T) : Option (LinkedList T) := do
  let l ← if l.head = l.tail then do
      let l ← l.assignHead none
      some { l with tail := none }
    else do
      let tail ← l.nodes (← l.tail)
      let newTail ← tail.prev
      let l ← l.assignNext newTail none
      some { l with tail := some newTail }
  return { l with listSize := l.listSize - 1 }

/-- The iterator of the new element comes back. -/
def insert (l : LinkedList T) (pos : Option Nat) (value : T) :
    Option (LinkedList T × Option Nat) :=
  if pos = l.head then do
    let l ← l.pushFront value
    return (l, l.head)
  else match pos with
    | none => do
      let l ← l.pushBack value
      return (l, l.tail)
    | some nextNode => do
      let prevNode ← (← l.nodes nextNode).prev
      let newNode := l.fresh
      let (l, next) ← l.takeNext prevNode
      let l := l.makeNode ⟨value, next, some prevNode⟩
      let l ← l.assignNext prevNode (some newNode)
      return ({ l with listSize := l.listSize + 1 }, some newNode)

/-- The iterator of the element behind comes back. -/
def erase (l : LinkedList T) (pos : Option Nat) : Option (LinkedList T × Option Nat) :=
  match pos with
  | none => some (l, none)
  | some target => do
    let node ← l.nodes target
    let l ← match node.prev with
      | some prevNode => do
        let (l, next) ← l.takeNext target
        let l ← l.assignNext prevNode next
        match next with
        | some next => l.setPrev next (some prevNode)
        | none => some { l with tail := some prevNode }
      | none => l.dropHead target
    return ({ l with listSize := l.listSize - 1 }, node.next)

/-- The loop of `remove_if`, at `it`; the count is what it returns. -/
def removeLoop (pred : T → Bool) (fuel : Nat) (l : LinkedList T) (it : Option Nat) (count : Nat) :
    Option (LinkedList T × Nat) :=
  match it with
  | none => some (l, count)
  | some a => match fuel with
    | 0 => none
    | fuel + 1 => do
      let node ← l.nodes a
      if pred node.data then
        let (l, it) ← l.erase it
        removeLoop pred fuel l it (count + 1)
      else removeLoop pred fuel l node.next count

def removeIf (l : LinkedList T) (pred : T → Bool) : Option (LinkedList T × Nat) :=
  removeLoop pred l.fresh l l.head 0

def remove [BEq T] (l : LinkedList T) (value : T) : Option (LinkedList T × Nat) :=
  l.removeIf (fun x => x == value)

def clear (l : LinkedList T) : Option (LinkedList T) := do
  let l ← l.assignHead none
  return { l with tail := none, listSize := 0 }

/-- The loop of `reverse` turns the links of one node after the other. -/
def reverseLoop (fuel : Nat) (nodes : Cells.Heap Nat T) (prev current : Option Nat) :
    Option (Cells.Heap Nat T × Option Nat) :=
  match current with
  | none => some (nodes, prev)
  | some a => match fuel with
    | 0 => none
    | fuel + 1 => do
      let next := (← nodes a).next
      let nodes ← Cells.modify nodes a (fun node => { node with next := prev, prev := next })
      reverseLoop fuel nodes (some a) next

def reverse (l : LinkedList T) : Option (LinkedList T) :=
  if l.listSize < 2 then some l
  else do
    let (nodes, head) ← reverseLoop l.fresh l.nodes none l.head
    { l with nodes := nodes, head := head, tail := l.head }.setPrev (← head) none

/-- The loop of the copy constructor: `dst` is the last node of the copy, `src` the next one to
copy. -/
def copyLoop (fuel : Nat) (l : LinkedList T) (dst : Nat) (src : Option Nat) :
    Option (LinkedList T × Nat) :=
  match src with
  | none => some (l, dst)
  | some a => match fuel with
    | 0 => none
    | fuel + 1 => do
      let node ← l.nodes a
      let newNode := l.fresh
      let l := l.makeNode ⟨node.data, none, some dst⟩
      let l ← l.assignNext dst (some newNode)
      copyLoop fuel l newNode node.next

/-- A copy in the same heap; the nodes of `l` stay. -/
def copy (l : LinkedList T) : Option (LinkedList T) :=
  if l.empty then some { l with head := none, tail := none, listSize := 0 }
  else do
    let head ← l.nodes (← l.head)
    let first := l.fresh
    let c := l.makeNode ⟨head.data, none, none⟩
    let (c, dst) ← copyLoop l.fresh c first head.next
    return { c with head := some first, tail := some dst, listSize := l.listSize }

/-- The list becomes its copy, and the original is deleted. -/
def assignCopy (l : LinkedList T) : Option (LinkedList T) := do
  let c ← l.copy
  let nodes ← Cells.destroy l.fresh c.nodes l.head
  return { c with nodes := nodes }

/-- What a traversal from `begin()` to `end()` meets. -/
def cells (l : LinkedList T) : Option (List (Nat × T)) := Cells.walk l.fresh l.nodes l.head

def toVector (l : LinkedList T) : Option (List T) := l.cells.map (List.map Prod.snd)

/-- `begin()` advanced `n` times, at most to `end()`. -/
def iterator (l : LinkedList T) (n : Nat) : Option (Option Nat) :=
  (l.cells).map (fun cells => Cells.first (cells.drop n))

end Operations

section Calls

inductive Op (T : Type) where
  | pushFront (value : T)
  | pushBack (value : T)
  | popFront
  | popBack
  | insert (pos : Nat) (value : T)
  | erase (pos : Nat)
  | remove (value : T)
  | removeIf (pred : T → Bool)
  | reverse
  | copy
  | clear

inductive Result where
  | done
  | outOfRange
  | count (n : Nat)
deriving DecidableEq

def apply [BEq T] (l : LinkedList T) : Op T → Option (LinkedList T × Result)
  | .pushFront value => do return (← l.pushFront value, .done)
  | .pushBack value => do return (← l.pushBack value, .done)
  | .popFront => if l.empty then some (l, .outOfRange) else do return (← l.popFront, .done)
  | .popBack => if l.empty then some (l, .outOfRange) else do return (← l.popBack, .done)
  | .insert pos value => do return ((← l.insert (← l.iterator pos) value).1, .done)
  | .erase pos => do return ((← l.erase (← l.iterator pos)).1, .done)
  | .remove value => do
    let (l, n) ← l.remove value
    return (l, .count n)
  | .removeIf pred => do
    let (l, n) ← l.removeIf pred
    return (l, .count n)
  | .reverse => do return (← l.reverse, .done)
  | .copy => do return (← l.assignCopy, .done)
  | .clear => do return (← l.clear, .done)

def run [BEq T] (l : LinkedList T) : List (Op T) → Option (LinkedList T × List Result)
  | [] => some (l, [])
  | op :: ops => do
    let (l, r) ← l.apply op
    let (l, rs) ← l.run ops
    return (l, r :: rs)

/-- The same calls on a plain list. -/
def applyList [BEq T] (xs : List T) : Op T → List T × Result
  | .pushFront value => (value :: xs, .done)
  | .pushBack value => (xs ++ [value], .done)
  | .popFront => if xs.isEmpty then (xs, .outOfRange) else (xs.tail, .done)
  | .popBack => if xs.isEmpty then (xs, .outOfRange) else (xs.dropLast, .done)
  | .insert pos value => (xs.take pos ++ value :: xs.drop pos, .done)
  | .erase pos => (xs.eraseIdx pos, .done)
  | .remove value => (xs.filter (fun x => !(x == value)), .count (xs.countP (fun x => x == value)))
  | .removeIf pred => (xs.filter (fun x => !pred x), .count (xs.countP pred))
  | .reverse => (xs.reverse, .done)
  | .copy => (xs, .done)
  | .clear => ([], .done)

def runList [BEq T] (xs : List T) : List (Op T) → List T × List Result
  | [] => (xs, [])
  | op :: ops =>
    let (xs, r) := applyList xs op
    let (xs, rs) := runList xs ops
    (xs, r :: rs)

end Calls

end LinkedList

end Cppforge.Lists
