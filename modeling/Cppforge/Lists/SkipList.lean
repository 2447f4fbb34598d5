import Cppforge.Lib.Lanes
import Mathlib.Order.Lattice

namespace Cppforge.Lists

/-- `forward` has one pointer for each level of the tower. -/
structure SkipNode (T : Type) where
  key : T
  forward : List (Option Nat)

/-- The nodes by address; deleted ones are gone. -/
structure SkipList (T : Type) where
  maxLevel : Nat
  nodes : Nat → Option (SkipNode T)
  fresh : Nat
  header : Nat
  currentLevel : Nat
  size : Nat

namespace SkipList
variable {T : Type}

abbrev Heap (T : Type) := Nat → Option (SkipNode T)

/-- `a->forward[i]`, where both exist. -/
def forward (nodes : Heap T) (i a : Nat) : Option (Option Nat) := (nodes a).bind (·.forward[i]?)

/-- `a->forward[i] = p`. -/
def setForward (nodes : Heap T) (i a : Nat) (p : Option Nat) : Option (Heap T) := do
  let node ← nodes a
  if i < node.forward.length then
    return Function.update nodes a (some { node with forward := node.forward.set i p })
  else none

def create [Inhabited T] (maxLevel : Nat) : SkipList T where
  maxLevel := maxLevel
  nodes := Function.update (fun _ => none) 0 (some ⟨default, List.replicate maxLevel none⟩)
  fresh := 1
  header := 0
  currentLevel := 1
  size := 0

/-- A tower height that `randomLevel` may give. -/
abbrev Level (maxLevel : Nat) := { level : Nat // 1 ≤ level ∧ level ≤ maxLevel }

/-- `draws` says of each number drawn whether it is below `probability_`. -/
def randomLevel (maxLevel : Nat) (h : 1 ≤ maxLevel) (draws : List Bool) : Level maxLevel :=
  climb draws ⟨1, Nat.le_refl 1, h⟩
where
  climb : List Bool → Level maxLevel → Level maxLevel
    | true :: draws, level =>
      if hl : level.1 < maxLevel then climb draws ⟨level.1 + 1, Nat.le_add_left 1 _, hl⟩ else level
    | _, level => level

variable [LinearOrder T]

/-- `b->key < key` -/
def below (nodes : Heap T) (key : T) (b : Nat) : Option Bool :=
  (nodes b).map fun node => decide (node.key < key)

/-- The loop over the levels that all operations begin with: the node it ends at, and
`update` for the levels it went through. The inner loop is cut off after as many turns as
there are nodes. -/
def descend (l : SkipList T) (key : T) : Nat → Nat → Option (Nat × List Nat)
  | 0, current => some (current, [])
  | i + 1, current => do
    let current ← Lanes.advance (forward l.nodes i) (below l.nodes key) (l.size + 1) current
    let (last, update) ← l.descend key i current
    return (last, update ++ [current])

/-- `current->forward[0]` after the descent, if its key is the one looked for. -/
def target (l : SkipList T) (key : T) (last : Nat) : Option (Option Nat) := do
  match ← forward l.nodes 0 last with
  | none => some none
  | some current => do
    let node ← l.nodes current
    return if node.key = key then some current else none

def search (l : SkipList T) (key : T) : Option Bool := do
  let (last, _) ← l.descend key l.currentLevel l.header
  let found ← l.target key last
  return found.isSome

/-- The loop that splices a node into the levels from `i` on. -/
def splice (newNode : Nat) : Nat → List Nat → Heap T → Option (Heap T)
  | _, [], nodes => some nodes
  | i, pred :: update, nodes => do
    let next ← forward nodes i pred
    let nodes ← setForward nodes i newNode next
    let nodes ← setForward nodes i pred (some newNode)
    splice newNode (i + 1) update nodes

/-- `newLevel` is what `randomLevel` gives if it is asked. -/
def insert (l : SkipList T) (key : T) (newLevel : Nat) : Option (SkipList T) := do
  let (last, update) ← l.descend key l.currentLevel l.header
  let found ← l.target key last
  if found.isSome then return l
  else
    let update := update ++ List.replicate (newLevel - l.currentLevel) l.header
    let newNode := l.fresh
    let nodes := Function.update l.nodes newNode (some ⟨key, List.replicate newLevel none⟩)
    let nodes ← splice newNode 0 (update.take newLevel) nodes
    return { l with
      nodes
      fresh := l.fresh + 1
      currentLevel := if l.currentLevel < newLevel then newLevel else l.currentLevel
      size := l.size + 1 }

/-- The loop that unlinks a node; it ends at the first level that does not contain it. -/
def unlink (current : Nat) : Nat → List Nat → Heap T → Option (Heap T)
  | _, [], nodes => some nodes
  | i, pred :: update, nodes => do
    let next ← forward nodes i pred
    if next ≠ some current then return nodes
    else
      let next ← forward nodes i current
      let nodes ← setForward nodes i pred next
      unlink current (i + 1) update nodes

/-- The loop that lowers `currentLevel_`. -/
def shrink (nodes : Heap T) (header : Nat) : Nat → Option Nat
  | 0 => some 0
  | level + 1 =>
    if level = 0 then some 1
    else do
      match ← forward nodes level header with
      | none => shrink nodes header level
      | some _ => some (level + 1)

def erase (l : SkipList T) (key : T) : Option (SkipList T × Bool) := do
  let (last, update) ← l.descend key l.currentLevel l.header
  match ← l.target key last with
  | none => return (l, false)
  | some current => do
    let nodes ← unlink current 0 update l.nodes
    let nodes := Function.update nodes current none
    let currentLevel ← shrink nodes l.header l.currentLevel
    return ({ l with nodes, currentLevel, size := l.size - 1 }, true)

/-- The nodes of a level in order. -/
def level (l : SkipList T) (i : Nat) : Option (List Nat) :=
  Lanes.walk (forward l.nodes i) (l.size + 1) l.header

def keys (l : SkipList T) (i : Nat) : Option (List T) := do
  let nodes ← l.level i
  nodes.mapM fun a => (l.nodes a).map (·.key)

def toVector (l : SkipList T) : Option (List T) := l.keys 0

/-- The tower heights of the elements in order. -/
def heights (l : SkipList T) : Option (List Nat) := do
  let nodes ← l.level 0
  nodes.mapM fun a => (l.nodes a).map (·.forward.length)

inductive Op (T : Type) (maxLevel : Nat) where
  | insert (key : T) (newLevel : Level maxLevel)
  | erase (key : T)
  | search (key : T)

/-- The answer is that of the function, where it has one. -/
def step {maxLevel : Nat} (l : SkipList T) : Op T maxLevel → Option (SkipList T × Option Bool)
  | .insert key newLevel => do return (← l.insert key newLevel, none)
  | .erase key => do
    let (l, erased) ← l.erase key
    return (l, some erased)
  | .search key => do return (l, some (← l.search key))

end SkipList

end Cppforge.Lists
