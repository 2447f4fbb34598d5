import Mathlib.Data.List.Basic

namespace Cppforge.Persistent

/-- An internal node has 32 slots, of which the first `count` were constructed. The others are
zero bytes, which read as null. The `count_` of a leaf is the length of its values. -/
inductive Node (T : Type) where
  | leaf (values : List T)
  | internal (count : Nat) (children : List (Option (Node T)))

/-- The tail is given by its values. Sizes are not bounded. -/
structure PersistentVector (T : Type) where
  root : Option (Node T)
  tail : List T
  size : Nat
  shift : Nat

namespace PersistentVector
variable {T : Type}

/-- What a call gives: nothing, where it reads a null child or the wrong kind of node, else an
exception or a value. -/
abbrev Outcome (α : Type) := ExceptT String Option α

section Nodes

def branchBits : Nat := 5

def branchSize : Nat := 1 <<< branchBits

def branchMask : Nat := branchSize - 1

def Node.count : Node T → Nat
  | .leaf values => values.length
  | .internal count _ => count

/-- The slots of a new internal node into which some children were copied. -/
def slots (children : List (Option (Node T))) : List (Option (Node T)) :=
  children ++ List.replicate (branchSize - children.length) none

/-- The child that an index leads to. -/
def childIndex (index level : Nat) : Nat := (index >>> level) &&& branchMask

theorem child_lt {children : List (Option (Node T))} {i count : Nat} {child : Node T}
    (h : children[i]? = some (some child)) :
    sizeOf child < sizeOf (Node.internal count children) := by
  have := List.sizeOf_lt_of_mem (List.mem_of_getElem? h)
  simp only [Option.some.sizeOf_spec, Node.internal.sizeOf_spec] at this ⊢
  omega

/-- The loop of `doGet`. -/
def doGet (node : Node T) (level index : Nat) : Option T :=
  if level > 0 then
    match node with
    | .leaf _ => none
    | .internal _ children =>
      match children[childIndex index level]? with
      | some (some child) => doGet child (level - branchBits) index
      | _ => none
  else
    match node with
    | .leaf values => values[index &&& branchMask]?
    | .internal .. => none
termination_by level
decreasing_by simp only [branchBits]; omega

def newPath (leaf : Node T) (shift idx : Nat) : Node T :=
  if shift = 0 then leaf
  else
    .internal 1
      ((slots []).set (childIndex idx shift) (some (newPath leaf (shift - branchBits) idx)))
termination_by shift
decreasing_by simp only [branchBits]; omega

def pushLeaf (root : Node T) (shift : Nat) (leaf : Node T) (idx : Nat) : Option (Node T) :=
  match root with
  | .leaf _ => none
  | .internal count children =>
    let dest := slots (children.take count)
    let childIdx := childIndex idx shift
    let newCount := if childIdx ≥ count then childIdx + 1 else count
    if shift = branchBits then some (.internal newCount (dest.set childIdx (some leaf)))
    else
      match _hchild : children[childIdx]? with
      | none => none
      | some (some existing) => do
        let child ← pushLeaf existing (shift - branchBits) leaf idx
        return .internal newCount (dest.set childIdx (some child))
      | some none =>
        return .internal newCount (dest.set childIdx (some (newPath leaf (shift - branchBits) idx)))
termination_by sizeOf root
decreasing_by exact child_lt _hchild

def doUpdate (node : Node T) (level index : Nat) (value : T) : Option (Node T) :=
  match node with
  | .leaf values => some (.leaf (values.set (index &&& branchMask) value))
  | .internal count children =>
    let childIdx := childIndex index level
    if childIdx < count then
      match _hchild : children[childIdx]? with
      | some (some child) => do
        let newChild ← doUpdate child (level - branchBits) index value
        return .internal count ((slots (children.take count)).set childIdx (some newChild))
      | _ => none
    else some (.internal count (slots (children.take count)))
termination_by sizeOf node
decreasing_by exact child_lt _hchild

/-- The level is not used. The new root is `none` where the whole subtree goes. -/
def doPopBack (node : Node T) : Option (Option (Node T) × List T) :=
  match node with
  | .leaf values => some (none, values)
  | .internal count children =>
    let lastIdx := count - 1
    match _hchild : children[lastIdx]? with
    | some (some child) => do
      match ← doPopBack child with
      | (none, popped) =>
        if lastIdx = 0 then return (none, popped)
        else return (some (.internal lastIdx (slots (children.take lastIdx))), popped)
      | (some newChild, popped) =>
        return (some (.internal count ((slots (children.take count)).set lastIdx (some newChild))),
          popped)
    | _ => none
termination_by sizeOf node
decreasing_by exact child_lt _hchild

/-- The loop of `pushBackImpl` that adds levels. -/
def elevate (leafIdx : Nat) (workingRoot : Node T) (workingShift : Nat) : Node T × Nat :=
  if leafIdx >>> workingShift ≥ branchSize then
    elevate leafIdx (.internal 1 (slots [some workingRoot])) (workingShift + branchBits)
  else (workingRoot, workingShift)
termination_by leafIdx >>> workingShift
decreasing_by
  rename_i h
  simp only [branchSize, branchBits, Nat.shiftRight_eq_div_pow, Nat.pow_add] at h ⊢
  rw [← Nat.div_div_eq_div_mul]
  exact Nat.div_lt_self (by omega) (by decide)

/-- The loop of `pop_back` that takes levels away. -/
def collapse (newRoot : Option (Node T)) (newShift : Nat) : Option (Option (Node T) × Nat) :=
  match newRoot with
  | some (.internal count children) =>
    if count = 1 ∧ newShift > branchBits then do
      let child ← children[0]?
      collapse child (newShift - branchBits)
    else some (newRoot, newShift)
  | _ => some (newRoot, newShift)
termination_by newShift
decreasing_by simp only [branchBits] at *; omega

end Nodes

section Calls

def empty : PersistentVector T := ⟨none, [], 0, 0⟩

def tailOffset (sz : Nat) : Nat := if sz = 0 then 0 else ((sz - 1) / branchSize) * branchSize

def get (v : PersistentVector T) (index : Nat) : Outcome T :=
  if index ≥ v.size then throw "PersistentVector::get: index out of range"
  else if index ≥ tailOffset v.size then ExceptT.lift v.tail[index &&& branchMask]?
  else ExceptT.lift (v.root.bind fun root => doGet root v.shift index)

def pushBack (v : PersistentVector T) (value : T) : Option (PersistentVector T) :=
  if v.tail.length < branchSize then some { v with tail := v.tail ++ [value], size := v.size + 1 }
  else
    let newLeaf := .leaf (v.tail.take branchSize)
    let leafIdx := tailOffset v.size
    match v.root with
    | none => some ⟨some (newPath newLeaf branchBits leafIdx), [value], v.size + 1, branchBits⟩
    | some root => do
      let (workingRoot, workingShift) := elevate leafIdx root v.shift
      let newRoot ← pushLeaf workingRoot workingShift newLeaf leafIdx
      return ⟨some newRoot, [value], v.size + 1, workingShift⟩

def update (v : PersistentVector T) (index : Nat) (value : T) : Outcome (PersistentVector T) :=
  if index ≥ v.size then throw "PersistentVector::update: index out of range"
  else if index ≥ tailOffset v.size then
    return { v with tail := v.tail.set (index &&& branchMask) value }
  else do
    let newRoot ← ExceptT.lift (v.root.bind fun root => doUpdate root v.shift index value)
    return { v with root := some newRoot }

def popBack (v : PersistentVector T) : Outcome (PersistentVector T) :=
  if v.size = 0 then throw "PersistentVector::pop_back: empty vector"
  else if v.tail.length > 1 then
    return { v with tail := v.tail.take (v.tail.length - 1), size := v.size - 1 }
  else if v.size = 1 then return empty
  else do
    let (newRoot, poppedLeaf) ← ExceptT.lift (v.root.bind doPopBack)
    let (newRoot, newShift) ← ExceptT.lift (collapse newRoot v.shift)
    match newRoot with
    | none => return ⟨none, poppedLeaf, v.size - 1, 0⟩
    | some node =>
      if Node.count node = 0 then return ⟨none, poppedLeaf, v.size - 1, 0⟩
      else return ⟨some node, poppedLeaf, v.size - 1, newShift⟩

/-- The loops of `sub_vector` and `concat`: the elements of `v` from an index on are appended. -/
def appendFrom (v : PersistentVector T) (i : Nat) (result : PersistentVector T) :
    Nat → Outcome (PersistentVector T)
  | 0 => return result
  | rest + 1 => do
    let value ← v.get i
    let result ← ExceptT.lift (result.pushBack value)
    v.appendFrom (i + 1) result rest

def subVector (v : PersistentVector T) (first last : Nat) : Outcome (PersistentVector T) :=
  if first > last ∨ last > v.size then throw "PersistentVector::sub_vector: invalid range"
  else v.appendFrom first empty (last - first)

def concat (v other : PersistentVector T) : Outcome (PersistentVector T) :=
  other.appendFrom 0 v other.size

end Calls

section Expressions

/-- Vectors do not change, so each one is the value of an expression. -/
inductive Expr (T : Type) where
  | empty
  | pushBack (e : Expr T) (value : T)
  | popBack (e : Expr T)
  | update (e : Expr T) (index : Nat) (value : T)
  | subVector (e : Expr T) (first last : Nat)
  | concat (e other : Expr T)

def eval : Expr T → Outcome (PersistentVector T)
  | .empty => return empty
  | .pushBack e value => do ExceptT.lift ((← eval e).pushBack value)
  | .popBack e => do (← eval e).popBack
  | .update e index value => do (← eval e).update index value
  | .subVector e first last => do (← eval e).subVector first last
  | .concat e other => do (← eval e).concat (← eval other)

/-- The same calls on lists. -/
def evalList : Expr T → Except String (List T)
  | .empty => return []
  | .pushBack e value => return (← evalList e) ++ [value]
  | .popBack e => do
    let xs ← evalList e
    if xs.isEmpty then throw "PersistentVector::pop_back: empty vector" else return xs.dropLast
  | .update e index value => do
    let xs ← evalList e
    if index ≥ xs.length then throw "PersistentVector::update: index out of range"
    else return xs.set index value
  | .subVector e first last => do
    let xs ← evalList e
    if first > last ∨ last > xs.length then throw "PersistentVector::sub_vector: invalid range"
    else return (xs.drop first).take (last - first)
  | .concat e other => return (← evalList e) ++ (← evalList other)

end Expressions

end PersistentVector

end Cppforge.Persistent
