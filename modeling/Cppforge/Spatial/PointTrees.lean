import Cppforge.Lib.SearchTree
import Cppforge.Lib.Selection
import Mathlib.Algebra.Ring.Defs
import Mathlib.Algebra.Order.Ring.Abs
import Mathlib.Algebra.Order.Ring.Rat

namespace Cppforge.Spatial
open BinaryTree

/-- `PointT` with its `KDTreeAccessor`, the dimension `K`, and `operator==`. -/
structure Accessor (P R : Type) where
  K : Nat
  pos : 0 < K
  get : P → Nat → R
  eq : P → P → Bool

/-- `root_` and `size_`. -/
structure KDTree (P : Type) where
  root : BinaryTree P
  size : Nat

namespace KDTree
variable {P R : Type} [CommRing R] [LinearOrder R] (A : Accessor P R)

def squaredDistance (a b : P) : R :=
  (List.range A.K).foldl (fun sum d =>
    let diff := A.get a d - A.get b d
    sum + diff * diff) 0

section Changes

def buildTree (nth : NthElement P R) (points : List P) (depth : Nat) : BinaryTree P :=
  if h : points.length = 0 then .nil
  else
    let axis := depth % A.K
    let mid := points.length / 2
    let moved := nth.apply (A.get · axis) mid points
    have hmid : mid < moved.length := by
      have : moved.length = points.length := (nth.perm _ _ _).length_eq
      omega
    .node (moved.get ⟨mid, hmid⟩) (buildTree nth (moved.take mid) (depth + 1))
      (buildTree nth (moved.drop (mid + 1)) (depth + 1))
termination_by points.length
decreasing_by
  · rw [List.length_take]
    omega
  · rw [List.length_drop, (nth.perm _ _ _).length_eq]
    omega

/-- The duplicate test, by `operator==` or on all coordinates. -/
def same (a b : P) : Bool :=
  if A.K ≤ 3 then A.eq a b else (List.range A.K).all fun d => decide (A.get a d = A.get b d)

/-- The tree after the call and what it returns. -/
def insertNode (point : P) : BinaryTree P → Nat → BinaryTree P × Bool
  | .nil, _ => (.node point .nil .nil, true)
  | .node p l r, depth =>
    if same A p point then (.node p l r, false)
    else
      let axis := depth % A.K
      if A.get point axis < A.get p axis then
        let (l, inserted) := insertNode point l (depth + 1)
        (.node p l r, inserted)
      else
        let (r, inserted) := insertNode point r (depth + 1)
        (.node p l r, inserted)

/-- `build`, which drops what was there. -/
def build (nth : NthElement P R) (points : List P) : KDTree P :=
  ⟨buildTree A nth points 0, points.length⟩

def insert (t : KDTree P) (point : P) : KDTree P × Bool :=
  match insertNode A point t.root 0 with
  | (root, true) => (⟨root, t.size + 1⟩, true)
  | (root, false) => (⟨root, t.size⟩, false)

/-- The tree after some insertions, and the points that were taken in. -/
def insertAll (t : KDTree P) : List P → KDTree P × List P
  | [] => (t, [])
  | point :: points =>
    let (t, inserted) := t.insert A point
    let (t, taken) := insertAll t points
    (t, if inserted then point :: taken else taken)

end Changes

section Searches
variable {S : Type}

/-- The near side first, then the node, then the far side if the splitting
plane is close enough. The last argument is what was found so far. -/
def search (consider : P → S → S) (crosses : R → S → Bool) (query : P) :
    BinaryTree P → Nat → S → S
  | .nil, _, found => found
  | .node p l r, depth, found =>
    let axis := depth % A.K
    let coordQ := A.get query axis
    let coordN := A.get p axis
    let near found :=
      if coordQ < coordN then search consider crosses query l (depth + 1) found
      else search consider crosses query r (depth + 1) found
    let far found :=
      if coordQ < coordN then search consider crosses query r (depth + 1) found
      else search consider crosses query l (depth + 1) found
    let found := consider p (near found)
    let axisDelta := coordN - coordQ
    if crosses (axisDelta * axisDelta) found then far found else found

/-- `best` and `bestDistSq`. -/
structure Best (P R : Type) where
  best : Option P
  distSq : R

def nearestSearch (query : P) : BinaryTree P → Nat → Best P R → Best P R :=
  search A
    (fun p found =>
      let distSq := squaredDistance A query p
      if distSq < found.distSq then ⟨some p, distSq⟩ else found)
    (fun planeSq found => decide (planeSq < found.distSq)) query

/-- `maxValue` is `numeric_limits<double>::max()`. -/
def nearestNeighbor (maxValue : R) (t : KDTree P) (query : P) : Option P :=
  if t.root.isNull then none
  else (nearestSearch A query t.root 0 ⟨none, maxValue⟩).best

variable (Q : PriorityQueue (R × P) Prod.fst)

/-- The heap is not empty where `top` is called, as `0 < k`. -/
def knnSearch (k : Nat) (query : P) : BinaryTree P → Nat → Q.Heap → Q.Heap :=
  search A
    (fun p heap =>
      let distSq := squaredDistance A query p
      if Q.size heap < k then Q.push (distSq, p) heap
      else if (Q.top heap).any (fun top => distSq < top.1) then Q.push (distSq, p) (Q.pop heap)
      else heap)
    (fun planeSq heap =>
      decide (Q.size heap < k) || (Q.top heap).any (fun top => planeSq < top.1)) query

def kNearestNeighbors (t : KDTree P) (query : P) (k : Nat) : List P :=
  if k = 0 then []
  else if t.root.isNull then []
  else
    let heap := knnSearch A Q k query t.root 0 Q.empty
    ((Q.drain (Q.size heap) heap).map Prod.snd).reverse

/-- The overload that fills `result`: here the node comes first. -/
def rangeSearchNode (query : P) (radiusSq : R) : BinaryTree P → Nat → List P → List P
  | .nil, _, result => result
  | .node p l r, depth, result =>
    let axis := depth % A.K
    let coordQ := A.get query axis
    let coordN := A.get p axis
    let result := if squaredDistance A query p ≤ radiusSq then result ++ [p] else result
    let near result :=
      if coordQ < coordN then rangeSearchNode query radiusSq l (depth + 1) result
      else rangeSearchNode query radiusSq r (depth + 1) result
    let far result :=
      if coordQ < coordN then rangeSearchNode query radiusSq r (depth + 1) result
      else rangeSearchNode query radiusSq l (depth + 1) result
    let result := near result
    let axisDelta := coordN - coordQ
    if axisDelta * axisDelta ≤ radiusSq then far result else result

def rangeSearch (t : KDTree P) (query : P) (radius : R) : List P :=
  if t.root.isNull then []
  else rangeSearchNode A query (radius * radius) t.root 0 []

end Searches
end KDTree
end Cppforge.Spatial

namespace Cppforge.Spatial

namespace Quadtree

/-- A call that returns or throws, or does neither. -/
abbrev Outcome (α : Type) := ExceptT String Option α

structure Point where
  x : ℚ
  y : ℚ
  deriving DecidableEq

/-- The boundary of a node. -/
structure Square where
  centerX : ℚ
  centerY : ℚ
  halfDim : ℚ

/-- A node with `is_leaf_`, with what it holds where it is occupied, or one with its four
children. `null` stands for a child that is missing. -/
inductive Node (T : Type) where
  | null
  | leaf (square : Square) (entry : Option (Point × T))
  | inner (square : Square) (northwest northeast southwest southeast : Node T)

def contains (square : Square) (point : Point) : Bool :=
  |point.x - square.centerX| ≤ square.halfDim && |point.y - square.centerY| ≤ square.halfDim

def intersects (a b : Square) : Bool :=
  |a.centerX - b.centerX| ≤ a.halfDim + b.halfDim && |a.centerY - b.centerY| ≤ a.halfDim + b.halfDim

/-- The boundary that `makeChild` gives to a child. -/
def Square.child (parent : Square) (left top : Bool) : Square where
  centerX := parent.centerX + (if left then -1 else 1) * parent.halfDim / 2
  centerY := parent.centerY + (if top then 1 else -1) * parent.halfDim / 2
  halfDim := parent.halfDim / 2

namespace Node
variable {T : Type}

def makeChild (parent : Square) (left top : Bool) : Node T := leaf (parent.child left top) none

def subdivide (square : Square) : Node T :=
  inner square (makeChild square true true) (makeChild square false true)
    (makeChild square true false) (makeChild square false false)

/-- The child on a side. -/
def quadrant (northwest northeast southwest southeast : Node T) : Bool → Bool → Node T
  | true, true => northwest
  | false, true => northeast
  | true, false => southwest
  | false, false => southeast

/-- The node with another child on a side. -/
def setQuadrant (square : Square) (northwest northeast southwest southeast : Node T) :
    Bool → Bool → Node T → Node T
  | true, true, child => inner square child northeast southwest southeast
  | false, true, child => inner square northwest child southwest southeast
  | true, false, child => inner square northwest northeast child southeast
  | false, false, child => inner square northwest northeast southwest child

/-- A child that is missing is made before it is used. -/
def orMake (parent : Square) (left top : Bool) : Node T → Node T
  | null => makeChild parent left top
  | child => child

/-- The node and `quadtree_size_` after the call, which recurses at most `fuel` deep. -/
def insert : Nat → Node T → Point → T → Nat → Outcome (Node T × Nat)
  | 0, _, _, _, _ => ExceptT.lift none
  | _ + 1, null, _, _, _ => ExceptT.lift none
  | fuel + 1, leaf square entry, point, value, size =>
    if contains square point then
      match entry with
      | none => return (leaf square (some (point, value)), size + 1)
      | some (oldPoint, oldValue) => do
        let (node, size) ← insert fuel (subdivide square) oldPoint oldValue (size - 1)
        insert fuel node point value size
    else throw "Point outside quadtree boundary"
  | fuel + 1, inner square northwest northeast southwest southeast, point, value, size =>
    if contains square point then do
      let left : Bool := point.x ≤ square.centerX
      let top : Bool := point.y ≥ square.centerY
      let child := orMake square left top
        (quadrant northwest northeast southwest southeast left top)
      let (child, size) ← insert fuel child point value size
      return (setQuadrant square northwest northeast southwest southeast left top child, size)
    else throw "Point outside quadtree boundary"

def queryRange (range : Square) : Node T → List (Point × T)
  | null => []
  | leaf square entry =>
    if intersects square range then entry.toList.filter fun e => contains range e.1 else []
  | inner square northwest northeast southwest southeast =>
    if intersects square range then
      northwest.queryRange range ++ northeast.queryRange range ++ southwest.queryRange range ++
        southeast.queryRange range
    else []

end Node

end Quadtree

/-- `root_` and `quadtree_size_`. -/
structure Quadtree (T : Type) where
  root : Quadtree.Node T
  size : Nat

namespace Quadtree
variable {T : Type}

def create (square : Square) : Quadtree T := ⟨.leaf square none, 0⟩

def insert (fuel : Nat) (t : Quadtree T) (point : Point) (value : T) : Outcome (Quadtree T) := do
  let (root, size) ← t.root.insert fuel point value t.size
  return ⟨root, size⟩

def queryRange (t : Quadtree T) (range : Square) : List (Point × T) := t.root.queryRange range

/-- Points inserted one after the other. -/
def insertAll (fuel : Nat) (t : Quadtree T) (entries : List (Point × T)) : Outcome (Quadtree T) :=
  entries.foldlM (fun t e => t.insert fuel e.1 e.2) t

end Quadtree

end Cppforge.Spatial
