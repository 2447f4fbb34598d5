import Cppforge.Lib.Forest
import Cppforge.Lib.KeyMap
import Mathlib.Data.Finset.Filter
import Mathlib.Data.Fintype.Card

namespace Cppforge.UnionFind
open Forest

/-- `parent_` and `rank_`. A rank is at most the logarithm of the number of elements, so it
fits its 32 bits. -/
structure UnionSet (T : Type) where
  parent : AList fun _ : T => T
  rank : AList fun _ : T => Nat

namespace UnionSet
variable {T : Type} [DecidableEq T]

def create : UnionSet T := ⟨∅, ∅⟩

def ensureRegistered (s : UnionSet T) (x : T) : UnionSet T where
  parent := FiniteMap.tryEmplace s.parent x x
  rank := FiniteMap.tryEmplace s.rank x 0

/-- The second loop of `find`; like the first it is cut off after as many turns as there are
elements, and fails where `operator[]` would add one. -/
def compress (root : T) : Nat → T → (AList fun _ : T => T) → Option (AList fun _ : T => T)
  | 0, _, _ => none
  | turns + 1, cur, parent => do
    let next ← parent.lookup cur
    if next = root then return parent else compress root turns next (parent.insert cur root)

def find (s : UnionSet T) (x : T) : Option (T × UnionSet T) := do
  let s := s.ensureRegistered x
  let root ← climb (fun cur => s.parent.lookup cur) s.parent.keys.length x
  let parent ← compress root s.parent.keys.length x s.parent
  return (root, { s with parent })

def unionSets (s : UnionSet T) (x y : T) : Option (UnionSet T × Bool) := do
  let (rootX, s) ← s.find x
  let (rootY, s) ← s.find y
  if rootX = rootY then return (s, false)
  else
    let rankX ← s.rank.lookup rootX
    let rankY ← s.rank.lookup rootY
    if rankX < rankY then return ({ s with parent := s.parent.insert rootX rootY }, true)
    else if rankY < rankX then return ({ s with parent := s.parent.insert rootY rootX }, true)
    else
      return ({ parent := s.parent.insert rootY rootX, rank := s.rank.insert rootX (rankX + 1) }, true)

/-- The order of the two searches is the compiler's; here it is from left to right. -/
def connected (s : UnionSet T) (x y : T) : Option (UnionSet T × Bool) := do
  let (rootX, s) ← s.find x
  let (rootY, s) ← s.find y
  return (s, rootX == rootY)

inductive Op (T : Type) where
  | find (x : T)
  | connected (x y : T)
  | unionSets (x y : T)

def step (s : UnionSet T) : Op T → Option (UnionSet T)
  | .find x => (s.find x).map (·.2)
  | .connected x y => (s.connected x y).map (·.1)
  | .unionSets x y => (s.unionSets x y).map (·.1)

end UnionSet

end Cppforge.UnionFind

namespace Cppforge.UnionFind
open Function

structure ChangeRecord (n : Nat) where
  node : Fin n
  oldParent : Fin n
  oldRank : Option Nat

/-- `parent_` and `rank_` are vectors of `n` elements; `history_` has its back first. -/
structure UnionSetWithRollback (n : Nat) where
  parent : Fin n → Fin n
  rank : Fin n → Nat
  history : List (ChangeRecord n)
  setCount : Nat

namespace UnionSetWithRollback
variable {n : Nat}

def initial (n : Nat) : UnionSetWithRollback n :=
  { parent := id, rank := fun _ => 0, history := [], setCount := n }

/-- `maxIndex` is the greatest value of `Index`. -/
def create (maxIndex n : Nat) : Except String (UnionSetWithRollback n) :=
  if n = 0 then .error "UnionSetWithRollback: n must be > 0"
  else if maxIndex < n then .error "UnionSetWithRollback: n exceeds Index type range"
  else .ok (initial n)

/-- The loop is cut off after `n` turns. -/
def find (s : UnionSetWithRollback n) (x : Fin n) : Option (Fin n) :=
  Forest.climb (fun node => some (s.parent node)) n x

def connected (s : UnionSetWithRollback n) (x y : Fin n) : Option Bool := do
  let rx ← s.find x
  let ry ← s.find y
  return rx == ry

/-- A parent changes, and the change is recorded. -/
def attach (s : UnionSetWithRollback n) (node under : Fin n) : UnionSetWithRollback n :=
  { s with
    history := ⟨node, s.parent node, none⟩ :: s.history
    parent := update s.parent node under }

def raiseRank (s : UnionSetWithRollback n) (node : Fin n) : UnionSetWithRollback n :=
  { s with
    history := ⟨node, s.parent node, some (s.rank node)⟩ :: s.history
    rank := update s.rank node (s.rank node + 1) }

def countDown (s : UnionSetWithRollback n) : UnionSetWithRollback n :=
  { s with setCount := s.setCount - 1 }

def unionSets (s : UnionSetWithRollback n) (x y : Fin n) :
    Option (UnionSetWithRollback n × Bool) := do
  let rx ← s.find x
  let ry ← s.find y
  if rx = ry then return (s, false)
  else if s.rank rx < s.rank ry then return ((s.attach rx ry).countDown, true)
  else if s.rank ry < s.rank rx then return ((s.attach ry rx).countDown, true)
  else return (((s.attach ry rx).raiseRank rx).countDown, true)

def snapshot (s : UnionSetWithRollback n) : Nat := s.history.length

/-- One turn of the loop of `rollback`. The record is read once more after `pop_back`, which
leaves its bytes in place. -/
def undo (s : UnionSetWithRollback n) (change : ChangeRecord n) (rest : List (ChangeRecord n)) :
    UnionSetWithRollback n where
  parent := update s.parent change.node change.oldParent
  rank := match change.oldRank with
    | some old => update s.rank change.node old
    | none => s.rank
  history := rest
  setCount := if change.oldRank.isNone then s.setCount + 1 else s.setCount

/-- The loop of `rollback` over the records from the back. -/
def undoTo (id : Nat) : List (ChangeRecord n) → UnionSetWithRollback n → UnionSetWithRollback n
  | [], s => s
  | change :: rest, s =>
    if id < rest.length + 1 then undoTo id rest (s.undo change rest) else s

/-- The callers keep `id` within the history. -/
def rollback (s : UnionSetWithRollback n) (id : Nat) : UnionSetWithRollback n :=
  undoTo id s.history s

def commit (s : UnionSetWithRollback n) : UnionSetWithRollback n := { s with history := [] }

def clear (_ : UnionSetWithRollback n) : UnionSetWithRollback n := initial n

inductive Op (n : Nat) where
  | unionSets (x y : Fin n)
  | find (x : Fin n)
  | connected (x y : Fin n)
  | snapshot
  | rollback (id : Nat)
  | commit
  | clear

def step (s : UnionSetWithRollback n) : Op n → Option (UnionSetWithRollback n)
  | .unionSets x y => (s.unionSets x y).map (·.1)
  | .find x => (s.find x).map fun _ => s
  | .connected x y => (s.connected x y).map fun _ => s
  | .snapshot => some s
  | .rollback id => some (s.rollback id)
  | .commit => some s.commit
  | .clear => some s.clear

end UnionSetWithRollback

end Cppforge.UnionFind
