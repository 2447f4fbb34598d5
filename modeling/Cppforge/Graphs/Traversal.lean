import Cppforge.Graphs.ShortestPaths
import Cppforge.Graphs.Graph

namespace Cppforge.Graphs
open Function

/-- `order`, `parent` and `distance`; a parent of -1 is `none`. -/
structure TraversalResult (n : Nat) where
  order : List (Fin n)
  parent : Fin n → Option (Fin n)
  distance : Fin n → Int

/-- The calls of the methods of a visitor. -/
inductive Event (n : Nat) where
  | onNodeVisit (node : Fin n)
  | onNodeDiscover (node : Fin n)
  | onNodeFinish (node : Fin n)
  | onEdgeTraverse (source target : Fin n) (weight : Int)
  | onEdgeBack (source target : Fin n) (weight : Int)
deriving DecidableEq

namespace TraversalResult
variable {n : Nat}

/-- The result in front of the search. -/
def init (n : Nat) : TraversalResult n := ⟨[], fun _ => none, fun _ => int32Max⟩

/-- The assignments for a node that is seen first from `u`. -/
def reach (r : TraversalResult n) (u v : Fin n) : TraversalResult n :=
  { r with
    distance := update r.distance v (add32 (r.distance u) 1)
    parent := update r.parent v (some u) }

@[simp]
theorem reach_order (r : TraversalResult n) (u v : Fin n) : (r.reach u v).order = r.order := rfl

def reconstructPath (r : TraversalResult n) (to_ : Int) : Option (List (Fin n)) :=
  match Graph.node n to_ with
  | none => some []
  | some v =>
    if r.distance v = int32Max then some []
    else (ShortestPathResult.chain r.parent n (some v)).map List.reverse

end TraversalResult

namespace BFS
variable {n : Nat}

/-- `result`, the part of `q` from `head` on, and what the visitor has been told. -/
structure State (n : Nat) where
  result : TraversalResult n
  q : List (Fin n)
  events : List (Event n)

/-- One turn of the loop over the edges of `u`. -/
def exploreEdge (u : Fin n) (s : State n) (edge : Edge n) : State n :=
  let v := edge.target
  if s.result.distance v = int32Max then
    { result := s.result.reach u v
      q := s.q ++ [v]
      events := s.events ++ [.onEdgeTraverse u v edge.weight] }
  else s

/-- The loop body behind `q[head++]`. -/
def visit (g : Graph n) (u : Fin n) (s : State n) : State n :=
  (g.getAdjList u).foldl (exploreEdge u)
    { s with
      result := { s.result with order := s.result.order ++ [u] }
      events := s.events ++ [.onNodeVisit u] }

/-- The loop; `none` if it has not ended after so many turns. -/
def loop (g : Graph n) : Nat → State n → Option (State n)
  | 0, _ => none
  | turns + 1, s =>
    match s.q with
    | [] => some s
    | u :: q => loop g turns (visit g u { s with q := q })

def enqueued (start : Fin n) : State n where
  result := { TraversalResult.init n with distance := update (fun _ => int32Max) start 0 }
  q := [start]
  events := []

/-- The result, and the events. -/
def traverse (g : Graph n) (start : Int) : Option (TraversalResult n × List (Event n)) :=
  match Graph.node n start with
  | none => some (.init n, [])
  | some start => (loop g (n + 1) (enqueued start)).map fun s => (s.result, s.events)

def shortestPath (g : Graph n) (start target : Int) : Option (List (Fin n)) := do
  let (result, _) ← traverse g start
  result.reconstructPath target

end BFS

namespace DFS
variable {n : Nat}

/-- `result`, `st` with its top as the head, and what the visitor has been told. -/
structure State (n : Nat) where
  result : TraversalResult n
  st : List (Fin n)
  events : List (Event n)

/-- The addition to the order. -/
def discover (u : Fin n) (s : State n) : State n :=
  if s.result.order.getLast? = some u then s
  else
    { s with
      result := { s.result with order := s.result.order ++ [u] }
      events := s.events ++ [.onNodeDiscover u] }

/-- One turn of the loop over the edges of `u`. -/
def exploreEdge (u : Fin n) (s : State n) (edge : Edge n) : State n :=
  let v := edge.target
  if s.result.distance v = int32Max then
    { result := s.result.reach u v
      st := v :: s.st
      events := s.events ++ [.onEdgeTraverse u v edge.weight] }
  else { s with events := s.events ++ [.onEdgeBack u v edge.weight] }

/-- The loop body behind `st.pop_back()`. -/
def visit (g : Graph n) (u : Fin n) (s : State n) : State n :=
  let s := (g.getAdjList u).foldl (exploreEdge u) (discover u s)
  { s with events := s.events ++ [.onNodeFinish u] }

/-- The loop of `dfsIterative`; `none` if it has not ended after so many turns. -/
def loop (g : Graph n) : Nat → State n → Option (State n)
  | 0, _ => none
  | turns + 1, s =>
    match s.st with
    | [] => some s
    | u :: st => loop g turns (visit g u { s with st := st })

def dfsIterative (g : Graph n) (start : Fin n) (r : TraversalResult n) : Option (State n) :=
  loop g (n + 1)
    { result := { r with
        parent := update r.parent start none, distance := update r.distance start 0 }
      st := [start]
      events := [] }

/-- The result, and the events. -/
def traverse (g : Graph n) (start : Int) : Option (TraversalResult n × List (Event n)) :=
  match Graph.node n start with
  | none => some (.init n, [])
  | some start => (dfsIterative g start (.init n)).map fun s => (s.result, s.events)

end DFS

/-- 0, 1 and 2 of the state arrays. -/
inductive Color where
  | unvisited
  | inProgress
  | finished
deriving DecidableEq

structure TopologicalSortResult (n : Nat) where
  order : List (Fin n)
  hasCycle : Bool

namespace TopologicalSort
variable {n : Nat}

/-- `state` and `order`. -/
structure Search (n : Nat) where
  state : Fin n → Color
  order : List (Fin n)

/-- The loop of `dfsTopo` over the edges of a node, with `dfs` for the recursive calls. -/
def exploreEdges (dfs : Fin n → Search n → Option (Bool × Search n)) :
    List (Edge n) → Search n → Option (Bool × Search n)
  | [], s => some (true, s)
  | edge :: rest, s =>
    match s.state edge.target with
    | .inProgress => some (false, s)
    | .unvisited => do
      let (acyclic, s) ← dfs edge.target s
      if acyclic then exploreEdges dfs rest s else return (false, s)
    | .finished => exploreEdges dfs rest s

/-- Cut off at a depth of the recursion; `none` is such a cut. -/
def dfsTopo (g : Graph n) : Nat → Fin n → Search n → Option (Bool × Search n)
  | 0, _, _ => none
  | depth + 1, u, s => do
    let (acyclic, s) ← exploreEdges (dfsTopo g depth) (g.getAdjList u)
      { s with state := update s.state u .inProgress }
    if acyclic then
      return (true, { state := update s.state u .finished, order := s.order ++ [u] })
    else return (false, s)

/-- The loop of `sort` over the nodes. -/
def searchAll (g : Graph n) : List (Fin n) → Search n → Option (Bool × Search n)
  | [], s => some (true, s)
  | i :: rest, s =>
    if s.state i = .unvisited then do
      let (acyclic, s) ← dfsTopo g n i s
      if acyclic then searchAll g rest s else return (false, s)
    else searchAll g rest s

def sort (g : Graph n) : Option (TopologicalSortResult n) := do
  let (acyclic, s) ← searchAll g (List.finRange n) ⟨fun _ => .unvisited, []⟩
  if acyclic then return ⟨s.order.reverse, false⟩ else return ⟨[], true⟩

/-- The variables of `sortKahn`. A degree counts edges and is not bounded here. -/
structure Kahn (n : Nat) where
  inDegree : Fin n → Int
  q : List (Fin n)
  order : List (Fin n)
  visitedCount : Nat

def countEdge (inDegree : Fin n → Int) (edge : Edge n) : Fin n → Int :=
  update inDegree edge.target (inDegree edge.target + 1)

def inDegrees (g : Graph n) : Fin n → Int :=
  (List.finRange n).foldl (fun inDegree u => (g.getAdjList u).foldl countEdge inDegree) fun _ => 0

/-- One turn of the loop over the edges of the node taken from the queue. -/
def dropEdge (s : Kahn n) (edge : Edge n) : Kahn n :=
  let degree := s.inDegree edge.target - 1
  { s with
    inDegree := update s.inDegree edge.target degree
    q := if degree = 0 then s.q ++ [edge.target] else s.q }

/-- The loop; `none` if it has not ended after so many turns. -/
def drain (g : Graph n) : Nat → Kahn n → Option (Kahn n)
  | 0, _ => none
  | turns + 1, s =>
    match s.q with
    | [] => some s
    | u :: q => drain g turns ((g.getAdjList u).foldl dropEdge
        { s with q := q, order := s.order ++ [u], visitedCount := s.visitedCount + 1 })

def sortKahn (g : Graph n) : Option (TopologicalSortResult n) := do
  let inDegree := inDegrees g
  let s ← drain g (n + 1) ⟨inDegree, (List.finRange n).filter (inDegree · = 0), [], 0⟩
  if s.visitedCount ≠ n then return ⟨[], true⟩ else return ⟨s.order, false⟩

end TopologicalSort

structure CycleResult (n : Nat) where
  hasCycle : Bool
  cycle : List (Fin n)

namespace CycleDetection
variable {n : Nat}

/-- `state`, `parent` and `cycle`; a parent of -1 is `none`. -/
structure Search (n : Nat) where
  state : Fin n → Color
  parent : Fin n → Option (Fin n)
  cycle : List (Fin n)

/-- The nodes from `x` back to `v`, which is left out; `none` if so many turns do not reach it,
or past a root. -/
def climb (parent : Fin n → Option (Fin n)) (v : Fin n) : Nat → Fin n → Option (List (Fin n))
  | 0, _ => none
  | turns + 1, x =>
    if x = v then some []
    else do
      let next ← parent x
      let rest ← climb parent v turns next
      return x :: rest

/-- The cycle that a back edge from `u` to `v` closes. -/
def closeCycle (s : Search n) (u v : Fin n) : Option (Search n) := do
  let path ← climb s.parent v n u
  return { s with cycle := (s.cycle ++ v :: path ++ [v]).reverse }

/-- The loop of `dfsDetectDirected` over the edges of `u`, with `dfs` for the recursive calls. -/
def exploreEdges (dfs : Fin n → Search n → Option (Bool × Search n)) (u : Fin n) :
    List (Edge n) → Search n → Option (Bool × Search n)
  | [], s => some (false, s)
  | edge :: rest, s =>
    match s.state edge.target with
    | .inProgress => (closeCycle s u edge.target).map fun s => (true, s)
    | .unvisited => do
      let (found, s) ← dfs edge.target { s with parent := update s.parent edge.target (some u) }
      if found then return (true, s) else exploreEdges dfs u rest s
    | .finished => exploreEdges dfs u rest s

def dfsDetectDirected (g : Graph n) : Nat → Fin n → Search n → Option (Bool × Search n)
  | 0, _, _ => none
  | depth + 1, u, s => do
    let (found, s) ← exploreEdges (dfsDetectDirected g depth) u (g.getAdjList u)
      { s with state := update s.state u .inProgress }
    if found then return (true, s)
    else return (false, { s with state := update s.state u .finished })

/-- The loop of `detectDirected` over the nodes. -/
def searchAll (g : Graph n) : List (Fin n) → Search n → Option (Bool × Search n)
  | [], s => some (false, s)
  | i :: rest, s =>
    if s.state i = .unvisited then do
      let (found, s) ← dfsDetectDirected g n i s
      if found then return (true, s) else searchAll g rest s
    else searchAll g rest s

def detectDirected (g : Graph n) : Option (CycleResult n) := do
  let (found, s) ← searchAll g (List.finRange n) ⟨fun _ => .unvisited, fun _ => none, []⟩
  return ⟨found, s.cycle⟩

/-- The loop of `dfsDetectUndirected` over the edges of `u`, with `dfs` for the recursive calls. No
node is ever set to 2. -/
def exploreUndirected (dfs : Fin n → Option (Fin n) → Search n → Option (Bool × Search n))
    (u : Fin n) (parentNode : Option (Fin n)) :
    List (Edge n) → Search n → Option (Bool × Search n)
  | [], s => some (false, s)
  | edge :: rest, s =>
    if some edge.target = parentNode then exploreUndirected dfs u parentNode rest s
    else
      match s.state edge.target with
      | .inProgress => (closeCycle s u edge.target).map fun s => (true, s)
      | .unvisited => do
        let (found, s) ← dfs edge.target (some u)
          { s with parent := update s.parent edge.target (some u) }
        if found then return (true, s) else exploreUndirected dfs u parentNode rest s
      | .finished => exploreUndirected dfs u parentNode rest s

def dfsDetectUndirected (g : Graph n) :
    Nat → Fin n → Option (Fin n) → Search n → Option (Bool × Search n)
  | 0, _, _, _ => none
  | depth + 1, u, parentNode, s =>
    exploreUndirected (dfsDetectUndirected g depth) u parentNode (g.getAdjList u)
      { s with state := update s.state u .inProgress }

/-- The loop of `detectUndirected` over the nodes. -/
def searchUndirected (g : Graph n) : List (Fin n) → Search n → Option (Bool × Search n)
  | [], s => some (false, s)
  | i :: rest, s =>
    if s.state i = .unvisited then do
      let (found, s) ← dfsDetectUndirected g n i none s
      if found then return (true, s) else searchUndirected g rest s
    else searchUndirected g rest s

def detectUndirected (g : Graph n) : Option (CycleResult n) := do
  let (found, s) ← searchUndirected g (List.finRange n) ⟨fun _ => .unvisited, fun _ => none, []⟩
  return ⟨found, s.cycle⟩

end CycleDetection

namespace BipartiteCheck
variable {n : Nat}

/-- `is_bipartite` and `color`, -1 for nodes that are not coloured. -/
structure BipartiteResult (n : Nat) where
  isBipartite : Bool
  color : Fin n → Int

structure State (n : Nat) where
  result : BipartiteResult n
  q : List (Fin n)

def State.paint (s : State n) (v : Fin n) (color : Int) : State n where
  result := { s.result with color := update s.result.color v color }
  q := s.q ++ [v]

/-- The loop over the edges of a node, which a conflict ends. -/
def exploreEdges (nextColor : Int) : List (Edge n) → State n → State n
  | [], s => s
  | edge :: edges, s =>
    let v := edge.target
    if s.result.color v = -1 then exploreEdges nextColor edges (s.paint v nextColor)
    else if s.result.color v ≠ nextColor then
      { s with result := { s.result with isBipartite := false } }
    else exploreEdges nextColor edges s

/-- The loop over the queue; `none` if it has not ended after so many turns. -/
def loop (g : Graph n) : Nat → State n → Option (State n)
  | 0, _ => none
  | turns + 1, s =>
    match s.q with
    | [] => some s
    | u :: q =>
      if s.result.isBipartite then
        loop g turns (exploreEdges (1 - s.result.color u) (g.getAdjList u) { s with q := q })
      else some s

/-- The loop over the nodes. -/
def checkFrom (g : Graph n) : List (Fin n) → BipartiteResult n → Option (BipartiteResult n)
  | [], result => some result
  | start :: rest, result =>
    if result.color start ≠ -1 then checkFrom g rest result
    else do
      let s ← loop g (n + 1) (State.paint ⟨result, []⟩ start 0)
      if s.result.isBipartite then checkFrom g rest s.result else return s.result

def check (g : Graph n) : Option (BipartiteResult n) :=
  checkFrom g (List.finRange n) ⟨true, fun _ => -1⟩

end BipartiteCheck

end Cppforge.Graphs
