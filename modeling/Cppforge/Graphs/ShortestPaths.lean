import Cppforge.Graphs.Graph
import Cppforge.Lib.Selection

namespace Cppforge.Graphs
open Function

/-- `distance` and `previous`; a previous node of -1 is `none`. -/
structure ShortestPathResult (n : Nat) where
  distance : Fin n → Int
  previous : Fin n → Option (Fin n)

namespace ShortestPathResult
variable {n : Nat}

/-- The result in front of the first relaxation; `start` is no node if it is out of range. -/
def init (start : Option (Fin n)) : ShortestPathResult n where
  distance := match start with
    | some start => update (fun _ => int32Max) start 0
    | none => fun _ => int32Max
  previous _ := none

/-- The loop of `reconstructPath`; `none` if it has not ended after so many turns. -/
def chain (previous : Fin n → Option (Fin n)) : Nat → Option (Fin n) → Option (List (Fin n))
  | _, none => some []
  | 0, some _ => none
  | turns + 1, some v => (chain previous turns (previous v)).map (v :: ·)

def reconstructPath (result : ShortestPathResult n) (to_ : Int) : Option (List (Fin n)) :=
  match Graph.node n to_ with
  | none => some []
  | some v =>
    if result.distance v = int32Max then some []
    else (chain result.previous n (some v)).map List.reverse

end ShortestPathResult

namespace Dijkstra

structure DijkstraState (n : Nat) where
  node : Fin n
  dist : Int

/-- Its top has the smallest distance, and of several any. -/
abbrev Heap (n : Nat) : Type 1 := PriorityQueue (DijkstraState n) fun s => -s.dist

variable {n : Nat} {Q : Heap n}

structure State (Q : Heap n) where
  result : ShortestPathResult n
  pq : Q.Heap

/-- One turn of the loop over the edges of `u`. -/
def relax (u : Fin n) (d : Int) (s : State Q) (edge : Edge n) : State Q :=
  let v := edge.target
  let newDist := add32 d edge.weight
  if 0 ≤ newDist ∧ newDist < s.result.distance v then
    { result := { s.result with
        distance := update s.result.distance v newDist
        previous := update s.result.previous v (some u) }
      pq := Q.push ⟨v, newDist⟩ s.pq }
  else s

/-- The loop body behind the removal of the top; a stale entry is skipped. -/
def visit (g : Graph n) (top : DijkstraState n) (s : State Q) : State Q :=
  if top.dist ≠ s.result.distance top.node then s
  else (g.getAdjList top.node).foldl (relax top.node top.dist) s

/-- The loop; `none` if it has not ended after so many turns. -/
def loop (g : Graph n) : Nat → State Q → Option (State Q)
  | 0, _ => none
  | turns + 1, s =>
    match Q.top s.pq with
    | none => some s
    | some top => loop g turns (visit g top { s with pq := Q.pop s.pq })

/-- An entry that is pushed lowers a distance, which are not negative: there are fewer turns than
distances and entries to begin with. -/
def turns (s : State Q) : Nat :=
  Q.size s.pq + ((List.finRange n).map fun v => (s.result.distance v).toNat).sum + 1

def shortestPath (Q : Heap n) (g : Graph n) (start : Int) : Option (ShortestPathResult n) :=
  match Graph.node n start with
  | none => some (.init none)
  | some u =>
    let s : State Q := ⟨.init (some u), Q.push ⟨u, 0⟩ Q.empty⟩
    (loop g (turns s) s).map State.result

end Dijkstra

namespace BellmanFord
variable {n : Nat} (add : Int → Int → Int)

/-- The result and whether the round has changed it. -/
abbrev Round (n : Nat) := ShortestPathResult n × Bool

/-- One turn of the loop over the edges of `u`. -/
def relax (u : Fin n) (r : Round n) (edge : Edge n) : Round n :=
  let v := edge.target
  let newDist := add (r.1.distance u) edge.weight
  if newDist < r.1.distance v then
    ({ r.1 with
        distance := update r.1.distance v newDist
        previous := update r.1.previous v (some u) }, true)
  else r

def relaxNode (g : Graph n) (r : Round n) (u : Fin n) : Round n :=
  if r.1.distance u = int32Max then r else (g.getAdjList u).foldl (relax add u) r

def round (g : Graph n) (result : ShortestPathResult n) : Round n :=
  (List.finRange n).foldl (relaxNode add g) (result, false)

/-- Rounds until one changes nothing. -/
def rounds (g : Graph n) : Nat → ShortestPathResult n → ShortestPathResult n
  | 0, result => result
  | k + 1, result =>
    let (result, updated) := round add g result
    if updated then rounds g k result else result

/-- `add` is the addition of distances. -/
def shortestPath (g : Graph n) (start : Int) : ShortestPathResult n :=
  match Graph.node n start with
  | none => .init none
  | some u => rounds add g (n - 1) (.init (some u))

/-- `dist` and whether the round has changed it. -/
abbrev DistRound (n : Nat) := (Fin n → Int) × Bool

/-- One turn of the loop over the edges of `u` in `hasNegativeCycle`. -/
def lower (u : Fin n) (r : DistRound n) (edge : Edge n) : DistRound n :=
  let v := edge.target
  let newDist := add (r.1 u) edge.weight
  if newDist < r.1 v then (update r.1 v newDist, true) else r

def lowerNode (g : Graph n) (r : DistRound n) (u : Fin n) : DistRound n :=
  if r.1 u = int32Max then r else (g.getAdjList u).foldl (lower add u) r

def lowerRound (g : Graph n) (dist : Fin n → Int) : DistRound n :=
  (List.finRange n).foldl (lowerNode add g) (dist, false)

/-- Rounds; `none` as soon as one changes nothing. -/
def lowerRounds (g : Graph n) : Nat → (Fin n → Int) → Option (Fin n → Int)
  | 0, dist => some dist
  | k + 1, dist =>
    let (dist, updated) := lowerRound add g dist
    if updated then lowerRounds g k dist else none

/-- The last pass: whether an edge of `u` can still be relaxed. -/
def relaxable (g : Graph n) (dist : Fin n → Int) (u : Fin n) : Bool :=
  dist u != int32Max && (g.getAdjList u).any fun edge => add (dist u) edge.weight < dist edge.target

def hasNegativeCycle (g : Graph n) : Bool :=
  if n = 0 then false
  else match lowerRounds add g (n - 1) fun _ => 0 with
    | none => false
    | some dist => (List.finRange n).any (relaxable add g dist)

end BellmanFord

end Cppforge.Graphs

namespace Cppforge.Graphs
open Function

/-- `distances`, `next` and `has_negative_cycle`; a next node of -1 is `none`. -/
structure AllPairsShortestPathResult (n : Nat) where
  distances : Fin n → Fin n → Int
  next : Fin n → Fin n → Option (Fin n)
  hasNegativeCycle : Bool

namespace AllPairsShortestPathResult
variable {n : Nat}

/-- The assignments to a cell of both matrices. -/
def set (r : AllPairsShortestPathResult n) (i j : Fin n) (d : Int) (next : Option (Fin n)) :
    AllPairsShortestPathResult n :=
  { r with
    distances := update r.distances i (update (r.distances i) j d)
    next := update r.next i (update (r.next i) j next) }

/-- The loop of `reconstructPath` from `current`; `none` if it has not ended after so many turns. -/
def follow (next : Fin n → Fin n → Option (Fin n)) (source target : Fin n) :
    Nat → Fin n → List (Fin n) → Option (List (Fin n))
  | 0, _, _ => none
  | turns + 1, current, path =>
    if current = target then some path
    else match next current target with
      | none => some []
      | some current =>
        if current = source then some []
        else follow next source target turns current (path ++ [current])

def reconstructPath (r : AllPairsShortestPathResult n) (from_ to_ : Int) : Option (List (Fin n)) :=
  if r.hasNegativeCycle then some []
  else match Graph.node n from_, Graph.node n to_ with
    | some source, some target =>
      if r.next source target = none then some []
      else follow r.next source target n source [source]
    | _, _ => some []

end AllPairsShortestPathResult

namespace FloydWarshall
variable {n : Nat}

/-- `INT32_MAX / 2`. -/
def infinity : Int := int32Max / 2

def setDiagonal (r : AllPairsShortestPathResult n) (i : Fin n) : AllPairsShortestPathResult n :=
  r.set i i 0 (some i)

def setEdge (u : Fin n) (r : AllPairsShortestPathResult n) (edge : Edge n) :
    AllPairsShortestPathResult n :=
  r.set u edge.target edge.weight (some edge.target)

def setEdges (g : Graph n) (r : AllPairsShortestPathResult n) (u : Fin n) :
    AllPairsShortestPathResult n :=
  (g.getAdjList u).foldl (setEdge u) r

/-- The matrices in front of the main loop. -/
def init (g : Graph n) : AllPairsShortestPathResult n :=
  let r := (List.finRange n).foldl setDiagonal ⟨fun _ _ => infinity, fun _ _ => none, false⟩
  (List.finRange n).foldl (setEdges g) r

def relax (k i : Fin n) (r : AllPairsShortestPathResult n) (j : Fin n) :
    AllPairsShortestPathResult n :=
  let newDist := add32 (r.distances i k) (r.distances k j)
  if newDist < r.distances i j then r.set i j newDist (r.next i k) else r

def relaxRow (k : Fin n) (r : AllPairsShortestPathResult n) (i : Fin n) :
    AllPairsShortestPathResult n :=
  (List.finRange n).foldl (relax k i) r

/-- One turn of the main loop. -/
def relaxAll (r : AllPairsShortestPathResult n) (k : Fin n) : AllPairsShortestPathResult n :=
  (List.finRange n).foldl (relaxRow k) r

def compute (g : Graph n) : AllPairsShortestPathResult n :=
  let r := (List.finRange n).foldl relaxAll (init g)
  { r with hasNegativeCycle := (List.finRange n).any fun i => r.distances i i < 0 }

end FloydWarshall

end Cppforge.Graphs
