import Cppforge.Lib.Avl
import Mathlib.Data.Finset.Insert
import Mathlib.Data.Finset.Basic

namespace Cppforge.Spatial
open BinaryTree

/-- The half-open interval from `low` to `high`. -/
structure Interval (V : Type) where
  low : V
  high : V
deriving DecidableEq

namespace Interval
variable {V : Type} [LinearOrder V]

/-- What the constructor asserts. -/
def Admitted (iv : Interval V) : Prop := iv.low ≤ iv.high

instance (iv : Interval V) : Decidable iv.Admitted := inferInstanceAs (Decidable (iv.low ≤ iv.high))

def overlaps (iv other : Interval V) : Bool :=
  !(decide (iv.high ≤ other.low) || decide (other.high ≤ iv.low))

def contains (iv : Interval V) (point : V) : Bool := decide (iv.low ≤ point) && decide (point < iv.high)

def empty (iv : Interval V) : Bool := decide (iv.low = iv.high)

/-- By low end, then by high end. -/
def before (iv other : Interval V) : Bool :=
  decide (iv.low < other.low) || (decide (iv.low = other.low) && decide (iv.high < other.high))

end Interval

namespace IntervalTree

/-- A node without its children: `interval_`, `data_`, `max_high_` and `height_`. -/
structure Cell (V D : Type) where
  interval : Interval V
  data : D
  maxHigh : V
  height : Int
deriving DecidableEq

/-- The interval and payload of a node. -/
def Cell.entry {V D : Type} (c : Cell V D) : Interval V × D := (c.interval, c.data)

end IntervalTree

abbrev IntervalTree.Node (V D : Type) := BinaryTree (IntervalTree.Cell V D)

/-- `root_` and `size_`. -/
structure IntervalTree (V D : Type) where
  root : IntervalTree.Node V D
  size : Nat

namespace IntervalTree
variable {V D : Type}

def getHeight (node : Node V D) : Int := Avl.getHeight Cell.height node

def create : IntervalTree V D := ⟨.nil, 0⟩

/-- The stored pairs, from left to right. -/
def entries (t : IntervalTree V D) : List (Interval V × D) := t.root.inorder Cell.entry

inductive Op (V D : Type) where
  | insert (interval : Interval V) (data : D)
  | remove (interval : Interval V) (data : D)
deriving DecidableEq

def Op.entry : Op V D → Interval V × D
  | .insert interval data => (interval, data)
  | .remove interval data => (interval, data)

section Balance
variable [LinearOrder V]

/-- The greater of a bound and the `max_high_` of a child. -/
def raised (high : V) : Node V D → V
  | .nil => high
  | .node c _ _ => if high < c.maxHigh then c.maxHigh else high

/-- `updateStats`, on the node without its children. -/
def updateStats (c : Cell V D) (l r : Node V D) : Cell V D :=
  { c with
    height := 1 + max (getHeight l) (getHeight r)
    maxHigh := raised (raised c.interval.high l) r }

def rebalance (node : Node V D) : Option (Node V D) :=
  Avl.rebalance Cell.height updateStats node

end Balance

section Changes
variable [LinearOrder V] [DecidableEq D]

/-- The tree after the insertion and `size_`. `none` here and below is the use
of a null pointer. -/
def insertImpl (interval : Interval V) (data : D) : Node V D → Nat → Option (Node V D × Nat)
  | .nil, size => some (.node ⟨interval, data, interval.high, 1⟩ .nil .nil, size + 1)
  | .node c l r, size =>
    if c.interval.low = interval.low ∧ c.interval.high = interval.high ∧ c.data = data then
      some (.node c l r, size)
    else if interval.before c.interval then do
      let (l, size) ← insertImpl interval data l size
      let node ← rebalance (.node (updateStats c l r) l r)
      return (node, size)
    else do
      let (r, size) ← insertImpl interval data r size
      let node ← rebalance (.node (updateStats c l r) l r)
      return (node, size)

/-- The same for a removal. A node with two children takes over the first entry
on its right. -/
def removeImpl (interval : Interval V) (data : D) : Node V D → Nat → Option (Node V D × Nat)
  | .nil, size => some (.nil, size)
  | .node c l r, size =>
    if interval.before c.interval then do
      let (l, size) ← removeImpl interval data l size
      let node ← rebalance (.node (updateStats c l r) l r)
      return (node, size)
    else if c.interval.low < interval.low ∨ c.interval.high < interval.high ∨ c.data ≠ data then do
      let (r, size) ← removeImpl interval data r size
      let node ← rebalance (.node (updateStats c l r) l r)
      return (node, size)
    else if l.isNull then some (r, size - 1)
    else if r.isNull then some (l, size - 1)
    else do
      let successor ← r.findMin
      let c := { c with interval := successor.interval, data := successor.data }
      let (r, size) ← removeImpl successor.interval successor.data r size
      let node ← rebalance (.node (updateStats c l r) l r)
      return (node, size)

/-- The tree after the call and what it returns. -/
def insert (t : IntervalTree V D) (interval : Interval V) (data : D) :
    Option (IntervalTree V D × Bool) := do
  let (root, size) ← insertImpl interval data t.root t.size
  return (⟨root, size⟩, decide (t.size < size))

def remove (t : IntervalTree V D) (interval : Interval V) (data : D) :
    Option (IntervalTree V D × Bool) := do
  let (root, size) ← removeImpl interval data t.root t.size
  return (⟨root, size⟩, decide (size < t.size))

end Changes

section Queries
variable [LinearOrder V]

/-- There is a left child, and something in it ends behind `low`. -/
def reaches (low : V) : Node V D → Bool
  | .nil => false
  | .node c _ _ => decide (low < c.maxHigh)

/-- The payloads of the intervals that pass a test. The left subtree is left out
where nothing in it ends behind `low`. -/
def queryImpl (test : Interval V → Bool) (low : V) : Node V D → List D
  | .nil => []
  | .node c l r =>
    (if test c.interval then [c.data] else []) ++
    (if reaches low l then queryImpl test low l else []) ++ queryImpl test low r

def queryOverlapImpl (query : Interval V) (node : Node V D) : List D :=
  queryImpl (fun iv => iv.overlaps query) query.low node

def queryPointImpl (point : V) (node : Node V D) : List D :=
  queryImpl (fun iv => iv.contains point) point node

def queryOverlap (t : IntervalTree V D) (query : Interval V) : List D :=
  queryOverlapImpl query t.root

def queryPoint (t : IntervalTree V D) (point : V) : List D := queryPointImpl point t.root

end Queries

section Runs
variable [LinearOrder V] [DecidableEq D]

def apply (t : IntervalTree V D) : Op V D → Option (IntervalTree V D × Bool)
  | .insert interval data => t.insert interval data
  | .remove interval data => t.remove interval data

/-- The tree after some calls. -/
def run (ops : List (Op V D)) : Option (IntervalTree V D) :=
  ops.foldlM (fun t op => (apply t op).map Prod.fst) create

end Runs

end IntervalTree
end Cppforge.Spatial
