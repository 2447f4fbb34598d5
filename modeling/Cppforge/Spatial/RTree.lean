import Mathlib.Algebra.Order.Ring.Unbundled.Rat
import Mathlib.Order.Lattice
import Mathlib.Order.Defs.LinearOrder
import Mathlib.Data.Fintype.Basic
import Mathlib.Data.Fintype.Pi
import Cppforge.Lib.RegionTree
import Cppforge.Lib.Selection

namespace Cppforge.Spatial

/-- The operations on `double` that the heuristics use. Nothing is assumed about them:
a measure may overflow, or be comparable with nothing. -/
class Arithmetic (R : Type) extends Add R, Sub R, Mul R, Div R where
  zero : R
  one : R
  two : R
  /-- `numeric_limits<double>::max()` -/
  maxValue : R
  less : R → R → Bool
  equal : R → R → Bool

/-- Measures without rounding. -/
instance : Arithmetic ℚ where
  zero := 0
  one := 1
  two := 2
  maxValue := (2 ^ 53 - 1) * 2 ^ 971
  less a b := decide (a < b)
  equal a b := decide (a = b)

/-- `Dims` is `n + 1`. The caller keeps the lower corner below the upper one. -/
structure BoundingBox (R : Type) [LinearOrder R] (n : Nat) where
  min : Fin (n + 1) → R
  max : Fin (n + 1) → R
  valid : ∀ d, min d ≤ max d

namespace BoundingBox
variable {R : Type} [LinearOrder R] {n : Nat}

@[ext]
theorem ext {a b : BoundingBox R n} (hmin : a.min = b.min) (hmax : a.max = b.max) : a = b := by
  cases a
  cases b
  congr

/-- `operator==`. -/
instance : DecidableEq (BoundingBox R n) := fun a b =>
  decidable_of_iff (a.min = b.min ∧ a.max = b.max)
    ⟨fun h => ext h.1 h.2, fun h => ⟨congrArg min h, congrArg max h⟩⟩

def intersects (box other : BoundingBox R n) : Bool :=
  decide (∀ d, ¬ (other.max d < box.min d ∨ box.max d < other.min d))

/-- The overload for boxes. -/
def contains (box other : BoundingBox R n) : Bool :=
  decide (∀ d, ¬ (other.min d < box.min d ∨ box.max d < other.max d))

/-- `enlarge` and `combined`. -/
def combined (box other : BoundingBox R n) : BoundingBox R n where
  min d := if other.min d < box.min d then other.min d else box.min d
  max d := if box.max d < other.max d then other.max d else box.max d
  valid d := by
    have h := box.valid d
    have h' := other.valid d
    split <;> split
    · exact h'
    · exact le_trans (le_of_lt ‹_›) h
    · exact le_trans h (le_of_lt ‹_›)
    · exact h

section Metrics
variable [Arithmetic R]

/-- `box_type{}`. -/
def zero : BoundingBox R n := ⟨fun _ => Arithmetic.zero, fun _ => Arithmetic.zero, fun _ => le_refl _⟩

/-- The first dimension. -/
def firstDim (n : Nat) : Fin (n + 1) := 0

/-- The dimensions behind it. -/
def laterDims (n : Nat) : List (Fin (n + 1)) := (List.finRange n).map Fin.succ

def area (box : BoundingBox R n) : R :=
  (laterDims n).foldl (fun result d => result * (box.max d - box.min d)) (box.max 0 - box.min 0)

def margin (box : BoundingBox R n) : R :=
  (laterDims n).foldl (fun result d => result + (box.max d - box.min d)) (box.max 0 - box.min 0)

def enlargement (box other : BoundingBox R n) : R := (box.combined other).area - box.area

def center (box : BoundingBox R n) (d : Fin (n + 1)) : R :=
  (box.min d + box.max d) / Arithmetic.two

end Metrics

variable {a b c : BoundingBox R n}

theorem intersects_iff : a.intersects b = true ↔ ∀ d, a.min d ≤ b.max d ∧ b.min d ≤ a.max d := by
  simp [intersects, not_or]

theorem contains_iff : a.contains b = true ↔ ∀ d, a.min d ≤ b.min d ∧ b.max d ≤ a.max d := by
  simp [contains, not_or]

theorem contains_refl (a : BoundingBox R n) : a.contains a = true :=
  contains_iff.mpr fun _ => ⟨le_refl _, le_refl _⟩

theorem contains_trans (hab : a.contains b = true) (hbc : b.contains c = true) :
    a.contains c = true := by
  rw [contains_iff] at *
  exact fun d => ⟨(hab d).1.trans (hbc d).1, (hbc d).2.trans (hab d).2⟩

/-- What meets a box meets every box around it. -/
theorem intersects_of_contains (hab : a.contains b = true) (hbc : b.intersects c = true) :
    a.intersects c = true := by
  rw [contains_iff] at hab
  rw [intersects_iff] at *
  exact fun d => ⟨(hab d).1.trans (hbc d).1, (hbc d).2.trans (hab d).2⟩

theorem intersects_self (a : BoundingBox R n) : a.intersects a = true :=
  intersects_iff.mpr fun d => ⟨a.valid d, a.valid d⟩

theorem combined_contains_left (a b : BoundingBox R n) : (a.combined b).contains a = true := by
  rw [contains_iff]
  intro d
  dsimp only [combined]
  constructor
  · split
    · exact le_of_lt ‹_›
    · exact le_refl _
  · split
    · exact le_of_lt ‹_›
    · exact le_refl _

theorem combined_contains_right (a b : BoundingBox R n) : (a.combined b).contains b = true := by
  rw [contains_iff]
  intro d
  dsimp only [combined]
  constructor
  · split
    · exact le_refl _
    · exact not_lt.mp ‹_›
  · split
    · exact le_refl _
    · exact not_lt.mp ‹_›

end BoundingBox
/-- `MaxEntries`, with its `static_assert`. -/
structure Capacity where
  maxEntries : Nat
  three_le : 3 ≤ maxEntries

namespace Capacity

def kMinEntries (c : Capacity) : Nat := max (c.maxEntries * 40 / 100) 1

def kReinsertCount (c : Capacity) : Nat := max (c.maxEntries * 30 / 100) 1

end Capacity

/-- `root_` and `dataCount_`. -/
structure RTree (R D : Type) [LinearOrder R] (n : Nat) where
  root : Option (RegionTree (BoundingBox R n) (BoundingBox R n × D))
  dataCount : Nat

namespace RTree
open RegionTree Arithmetic

section Types
variable (R D : Type) [LinearOrder R] (n : Nat)

/-- `LeafEntry`. -/
abbrev Entry := BoundingBox R n × D

/-- The rectangle is `mbr_`; the one beside a child is the first of its `InternalEntry`. -/
abbrev Node := RegionTree (BoundingBox R n) (Entry R D n)

def empty : RTree R D n := ⟨none, 0⟩

end Types

variable {R D : Type} [LinearOrder R] [Arithmetic R] {n : Nat}

section Heuristics

def boxes {X : Type} (l : List (BoundingBox R n × X)) : List (BoundingBox R n) := l.map Prod.fst

def computeMBR : List (BoundingBox R n) → BoundingBox R n
  | [] => BoundingBox.zero
  | box :: boxes => boxes.foldl BoundingBox.combined box

def intersectionArea (a b : BoundingBox R n) : R :=
  let lo d := max (a.min d) (b.min d)
  let hi d := min (a.max d) (b.max d)
  if (List.finRange (n + 1)).any fun d => decide (hi d ≤ lo d) then zero
  else (List.finRange (n + 1)).foldl (fun area d => area * (hi d - lo d)) one

/-- The comparison of measures, of which the later ones break ties. -/
def better : List R → List R → Bool
  | m :: ms, b :: bs => less m b || (equal m b && better ms bs)
  | _, _ => false

/-- The loops that keep the best candidate so far. -/
def best {I : Type} (start : I × List R) (candidates : List (I × List R)) : I :=
  (candidates.foldl (fun best c => if better c.2 best.2 then c else best) start).1

/-- The loop of `chooseSubtree` at level 0. -/
def leastOverlap (boxes : List (BoundingBox R n)) (bbox : BoundingBox R n) : Nat :=
  let overlaps (box : BoundingBox R n) (i : Nat) :=
    boxes.zipIdx.foldl (fun sum c => if c.2 = i then sum else sum + intersectionArea box c.1) zero
  best (0, [maxValue, maxValue, maxValue]) <| boxes.zipIdx.map fun (box, i) =>
    (i, [overlaps (box.combined bbox) i - overlaps box i, box.enlargement bbox, box.area])

/-- The loop of `chooseSubtree` at the deeper levels. -/
def leastEnlargement (boxes : List (BoundingBox R n)) (bbox : BoundingBox R n) : Nat :=
  best (0, [maxValue, maxValue]) <| boxes.zipIdx.map fun (box, i) =>
    (i, [box.enlargement bbox, box.area])

mutual
/-- The way to the leaf. There is none through a node without children, where the
code reads behind the end. -/
def chooseSubtree (bbox : BoundingBox R n) : Node R D n → Nat → Option Path
  | .leaf _ _, _ => some []
  | .internal _ children, level =>
    let bestIdx := if level = 0 then leastOverlap (boxes children) bbox
      else leastEnlargement (boxes children) bbox
    (chooseAt bbox children bestIdx (level + 1)).map (bestIdx :: ·)

def chooseAt (bbox : BoundingBox R n) :
    List (BoundingBox R n × Node R D n) → Nat → Nat → Option Path
  | [], _, _ => none
  | (_, child) :: _, 0, level => chooseSubtree bbox child level
  | _ :: children, i + 1, level => chooseAt bbox children i level
end

end Heuristics

section Split
variable (c : Capacity) (sorting : Sorting)

/-- `BoxIndex`. -/
abbrev BoxIndex (R : Type) [LinearOrder R] (n : Nat) := BoundingBox R n × Nat

/-- The sizes the first group may have, out of `count` entries. -/
def splitSizes (count : Nat) : List Nat :=
  (List.range (count + 1 - 2 * c.kMinEntries)).map (c.kMinEntries + ·)

def marginSum (sorted : List (BoxIndex R n)) : R :=
  (splitSizes c sorted.length).foldl (fun total k =>
    total + ((computeMBR (boxes (sorted.take k))).margin +
      (computeMBR (boxes (sorted.drop k))).margin)) zero

def chooseSplitAxis (entries : List (BoxIndex R n)) : Fin (n + 1) :=
  best (BoundingBox.firstDim n, [maxValue]) <| (List.finRange (n + 1)).map fun d =>
    let sMin := marginSum c (sorting.sort (fun a b => decide (a.1.min d < b.1.min d)) entries)
    let sMax := marginSum c (sorting.sort (fun a b => decide (a.1.max d < b.1.max d)) entries)
    (d, [if less sMax sMin then sMax else sMin])

def chooseSplitIndex (sorted : List (BoxIndex R n)) : Nat :=
  best (c.kMinEntries, [maxValue, maxValue]) <| (splitSizes c sorted.length).map fun k =>
    let mbr1 := computeMBR (boxes (sorted.take k))
    -- the suffixes are built up from the end
    let mbr2 := computeMBR (boxes (sorted.drop k).reverse)
    (k, [intersectionArea mbr1 mbr2, mbr1.area + mbr2.area])

/-- The original indices of the two groups. -/
def splitEntries (entries : List (BoxIndex R n)) : List Nat × List Nat :=
  let axis := chooseSplitAxis c sorting entries
  let sorted := sorting.sort (fun a b => decide (a.1.min axis < b.1.min axis)) entries
  let splitK := chooseSplitIndex c sorted
  ((sorted.take splitK).map Prod.snd, (sorted.drop splitK).map Prod.snd)

/-- What the leaf keeps, and the items of the new node. -/
def splitLeafNode (items : List (Entry R D n)) : List (Entry R D n) × List (Entry R D n) :=
  let groups := splitEntries c sorting (boxes items).zipIdx
  (groups.1.filterMap (items[·]?), groups.2.filterMap (items[·]?))

end Split

section Insertion
variable (c : Capacity) (sorting : Sorting)

/-- The items a leaf keeps, and those furthest from its centre. -/
def farthest (mbr : BoundingBox R n) (items : List (Entry R D n)) :
    List (Entry R D n) × List (Entry R D n) :=
  let removeCount := min c.kReinsertCount items.length
  let distIdx := (boxes items).zipIdx.map fun (box, i) =>
    ((List.finRange (n + 1)).foldl (fun sum d =>
      let diff := box.center d - mbr.center d
      sum + diff * diff) (zero : R), i)
  let removed := ((sorting.sort (fun a b => less b.1 a.1) distIdx).take removeCount).map Prod.snd
  ((removed.insertionSort (· ≥ ·)).foldl List.eraseIdx items, removed.filterMap (items[·]?))

/-- The leaf `chooseSubtree` finds, with the entry added to it. -/
def addToLeaf (root : Node R D n) (entry : Entry R D n) :
    Option (Path × BoundingBox R n × List (Entry R D n)) := do
  let path ← chooseSubtree entry.1 root 0
  let (mbr, items) ← root.leafAt path
  return (path, mbr.combined entry.1, items ++ [entry])

/-- A leaf that is split, wherever it is, gets its new sibling at a new root. -/
def growRoot (root : Node R D n) (path : Path) (items : List (Entry R D n)) : Node R D n :=
  let (kept, moved) := splitLeafNode c sorting items
  let root := root.setLeaf (computeMBR (boxes kept)) kept path
  let splitNode := .leaf (computeMBR (boxes moved)) moved
  .internal (root.region.combined splitNode.region)
    [(root.region, root), (splitNode.region, splitNode)]

/-- `reinsertLeafEntries` up to the reinsertions. -/
def detach (root : Node R D n) (path : Path) (mbr : BoundingBox R n) (items : List (Entry R D n)) :
    Node R D n × List (Entry R D n) :=
  let (kept, toReinsert) := farthest c sorting mbr items
  (root.setLeaf (computeMBR (boxes kept)) kept path, toReinsert)

/-- `insertImpl` at `depth` 1 into a tree with a root. -/
def insertAgain (root : Node R D n) (entry : Entry R D n) : Option (Node R D n) := do
  let (path, mbr, items) ← addToLeaf root entry
  return if c.maxEntries < items.length then growRoot c sorting root path items
    else root.setLeaf mbr items path

/-- `insertImpl` at `depth` 0 into a tree with a root. -/
def insertNode (root : Node R D n) (entry : Entry R D n) : Option (Node R D n) := do
  let (path, mbr, items) ← addToLeaf root entry
  if items.length ≤ c.maxEntries then return root.setLeaf mbr items path
  if path = [] then return growRoot c sorting root path items
  let (root, toReinsert) := detach c sorting root path mbr items
  toReinsert.foldlM (insertAgain c sorting) root

/-- Both overloads. -/
def insert (t : RTree R D n) (bbox : BoundingBox R n) (data : D) : Option (RTree R D n) :=
  match t.root with
  | none => some ⟨some (.leaf bbox [(bbox, data)]), 1⟩
  | some root => do
    let root ← insertNode c sorting root (bbox, data)
    return ⟨some root, t.dataCount + 1⟩

end Insertion

section Removal
variable [DecidableEq D] (c : Capacity) (sorting : Sorting)

/-- `condenseAfterRemove` in front of the siblings `rest`. It is called for leaves only;
the rectangle beside an inner child stays as it is. -/
def condenseAfterRemove (box : BoundingBox R n) (child : Node R D n)
    (rest : List (BoundingBox R n × Node R D n)) (orphaned : List (Entry R D n)) :
    List (BoundingBox R n × Node R D n) × List (Entry R D n) :=
  match child with
  | .leaf mbr items =>
    if items.length < c.kMinEntries then (rest, items) else ((mbr, .leaf mbr items) :: rest, [])
  | .internal mbr children => ((box, .internal mbr children) :: rest, orphaned)

mutual
/-- The node without the entry, if it is found, and the orphaned entries. -/
def removeRecursive (entry : Entry R D n) : Node R D n → Option (Node R D n × List (Entry R D n))
  | .leaf mbr items =>
    if entry ∈ items then some (.leaf mbr (items.erase entry), []) else none
  | .internal mbr children => do
    let (children, orphaned) ← removeFrom entry children
    return (.internal (if children = [] then mbr else computeMBR (boxes children)) children, orphaned)

def removeFrom (entry : Entry R D n) : List (BoundingBox R n × Node R D n) →
    Option (List (BoundingBox R n × Node R D n) × List (Entry R D n))
  | [] => none
  | (box, child) :: rest =>
    match if box.intersects entry.1 then removeRecursive entry child else none with
    | some (child, orphaned) => some (condenseAfterRemove c box child rest orphaned)
    | none => do
      let (rest, orphaned) ← removeFrom entry rest
      return ((box, child) :: rest, orphaned)
end

/-- A root with a single child gives way to it. -/
def collapse : Node R D n → Node R D n
  | .internal _ [(_, child)] => child
  | root => root

def remove (t : RTree R D n) (bbox : BoundingBox R n) (data : D) : Option (RTree R D n × Bool) :=
  match t.root with
  | none => some (t, false)
  | some root =>
    match removeRecursive c (bbox, data) root with
    | none => some (t, false)
    | some (root, orphaned) => do
      let root ← orphaned.foldlM (insertNode c sorting) root
      return (⟨some (collapse root), t.dataCount - 1⟩, true)

end Removal

section Queries

mutual
def searchNode (query : BoundingBox R n) : Node R D n → List D
  | .leaf mbr items =>
    if mbr.intersects query then (items.filter (·.1.intersects query)).map Prod.snd else []
  | .internal mbr children => if mbr.intersects query then searchFrom query children else []

def searchFrom (query : BoundingBox R n) : List (BoundingBox R n × Node R D n) → List D
  | [] => []
  | (box, child) :: children =>
    (if box.intersects query then searchNode query child else []) ++ searchFrom query children
end

def search (t : RTree R D n) (query : BoundingBox R n) : List D :=
  match t.root with
  | none => []
  | some root => searchNode query root

def size (t : RTree R D n) : Nat := t.dataCount

/-- The levels on the way through the first children. -/
def levels : Node R D n → Nat
  | .leaf _ _ => 1
  | .internal _ [] => 1
  | .internal _ ((_, child) :: _) => levels child + 1

def height (t : RTree R D n) : Nat :=
  match t.root with
  | none => 0
  | some root => levels root

end Queries

section Runs
variable [DecidableEq D] (c : Capacity) (sorting : Sorting)

inductive Op (R D : Type) [LinearOrder R] (n : Nat) where
  | insert (bbox : BoundingBox R n) (data : D)
  | remove (bbox : BoundingBox R n) (data : D)

/-- A call and what it returns. -/
def step (t : RTree R D n) : Op R D n → Option (RTree R D n × Option Bool)
  | .insert bbox data => do
    let t ← t.insert c sorting bbox data
    return (t, none)
  | .remove bbox data => do
    let (t, found) ← t.remove c sorting bbox data
    return (t, some found)

end Runs

end RTree
end Cppforge.Spatial
