import Cppforge.Graphs.Graph
import Cppforge.Lib.Selection

namespace Cppforge.Graphs
open Function

structure MSTResult (n : Nat) where
  edges : List (EdgeInfo n)
  totalWeight : Int
deriving DecidableEq

def MSTResult.push {n : Nat} (result : MSTResult n) (e : EdgeInfo n) : MSTResult n where
  edges := result.edges ++ [e]
  totalWeight := add32 result.totalWeight e.weight

namespace KruskalMST

/-- `parent_` and `rank_`. A rank is at most the logarithm of the number of nodes. -/
structure UnionFind (n : Nat) where
  parent : Fin n → Fin n
  rank : Fin n → Nat

variable {n : Nat}

namespace UnionFind

def create (n : Nat) : UnionFind n := ⟨id, fun _ => 0⟩

/-- The recursion of `find`, cut off at a depth; `none` is such a cut. -/
def findRoot : Nat → (Fin n → Fin n) → Fin n → Option (Fin n × (Fin n → Fin n))
  | 0, _, _ => none
  | depth + 1, parent, x =>
    if parent x ≠ x then do
      let (root, parent) ← findRoot depth parent (parent x)
      return (root, update parent x root)
    else some (parent x, parent)

def find (uf : UnionFind n) (x : Fin n) : Option (Fin n × UnionFind n) := do
  let (root, parent) ← findRoot n uf.parent x
  return (root, { uf with parent })

def unite (uf : UnionFind n) (a b : Fin n) : Option (UnionFind n × Bool) := do
  let (ra, uf) ← uf.find a
  let (rb, uf) ← uf.find b
  if ra = rb then return (uf, false)
  else if uf.rank ra < uf.rank rb then return ({ uf with parent := update uf.parent ra rb }, true)
  else if uf.rank rb < uf.rank ra then return ({ uf with parent := update uf.parent rb ra }, true)
  else return (⟨update uf.parent rb ra, update uf.rank ra (uf.rank ra + 1)⟩, true)

end UnionFind

/-- Each edge once, from its smaller end; a loop as often as it is listed. -/
def collectEdges (g : Graph n) : List (EdgeInfo n) :=
  (List.finRange n).flatMap fun u =>
    (g.getAdjList u).filterMap fun edge =>
      if u ≤ edge.target then some ⟨u, edge.target, edge.weight⟩ else none

/-- The loop that adds edges. -/
def addEdges : List (EdgeInfo n) → UnionFind n → MSTResult n → Option (MSTResult n)
  | [], _, result => some result
  | e :: rest, uf, result => do
    let (uf, united) ← uf.unite e.source e.target
    addEdges rest uf (if united then result.push e else result)

def compute (sorting : KeySort (EdgeInfo n) Int) (g : Graph n) : Option (MSTResult n) :=
  if n = 0 then some ⟨[], 0⟩
  else addEdges (sorting.apply EdgeInfo.weight (collectEdges g)) (.create n) ⟨[], 0⟩

end KruskalMST

namespace PrimMST

structure PrimState (n : Nat) where
  node : Fin n
  key : Int

/-- Its top has the smallest key, and of several any. -/
abbrev Heap (n : Nat) : Type 1 := PriorityQueue (PrimState n) fun s => -s.key

variable {n : Nat} {Q : Heap n}

/-- The variables of `compute`; a parent of -1 is `none`. -/
structure State (Q : Heap n) where
  key : Fin n → Int
  parent : Fin n → Option (Fin n)
  inMst : Fin n → Bool
  pq : Q.Heap
  result : MSTResult n

/-- One turn of the loop over the edges of `u`. -/
def updateKey (u : Fin n) (s : State Q) (edge : Edge n) : State Q :=
  let v := edge.target
  let w := edge.weight
  if s.inMst v = false ∧ w < s.key v then
    { s with
      key := update s.key v w
      parent := update s.parent v (some u)
      pq := Q.push ⟨v, w⟩ s.pq }
  else s

/-- The node joins the tree by its edge; the root has none. -/
def addNode (u : Fin n) (s : State Q) : State Q :=
  { s with
    inMst := update s.inMst u true
    result := match s.parent u with
      | some p => s.result.push ⟨p, u, s.key u⟩
      | none => s.result }

/-- The loop body behind the removal of the top. -/
def visit (g : Graph n) (u : Fin n) (s : State Q) : State Q :=
  if s.inMst u then s else (g.getAdjList u).foldl (updateKey u) (addNode u s)

/-- The loop; `none` if it has not ended after so many turns. -/
def loop (g : Graph n) : Nat → State Q → Option (State Q)
  | 0, _ => none
  | turns + 1, s =>
    match Q.top s.pq with
    | none => some s
    | some top => loop g turns (visit g top.node { s with pq := Q.pop s.pq })

/-- The variables in front of the loop, with node 0 as the root. -/
def start (Q : Heap n) (root : Fin n) : State Q where
  key := update (fun _ => int32Max) root 0
  parent _ := none
  inMst _ := false
  pq := Q.push ⟨root, 0⟩ Q.empty
  result := ⟨[], 0⟩

/-- A turn for the root, one for each directed edge and one for the empty queue. -/
def turns (g : Graph n) : Nat := ((List.finRange n).map fun u => (g.getAdjList u).length).sum + 2

def compute (Q : Heap n) (g : Graph n) : Option (MSTResult n) :=
  if h : n = 0 then some ⟨[], 0⟩
  else (loop g (turns g) (start Q ⟨0, Nat.pos_of_ne_zero h⟩)).map State.result

end PrimMST

end Cppforge.Graphs
