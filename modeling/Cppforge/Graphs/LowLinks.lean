import Cppforge.Graphs.Graph

namespace Cppforge.Graphs
open Function

structure SCCResult (n : Nat) where
  components : List (List (Fin n))
  componentId : Fin n → Int

namespace TarjanSCC
variable {n : Nat}

/-- `index`, `lowlink`, `on_stack`, `st`, `current_index` and `result`; the top of the stack is
the head. -/
structure Search (n : Nat) where
  index : Fin n → Int
  lowlink : Fin n → Int
  onStack : Fin n → Bool
  st : List (Fin n)
  currentIndex : Int
  result : SCCResult n

def Search.start (n : Nat) : Search n where
  index := fun _ => -1
  lowlink := fun _ => -1
  onStack := fun _ => false
  st := []
  currentIndex := 0
  result := ⟨[], fun _ => -1⟩

def Search.enter (s : Search n) (u : Fin n) : Search n :=
  { s with
    index := update s.index u s.currentIndex
    lowlink := update s.lowlink u s.currentIndex
    currentIndex := s.currentIndex + 1
    st := u :: s.st
    onStack := update s.onStack u true }

/-- `std::min` on the lowlink of `u`. -/
def Search.lower (s : Search n) (u : Fin n) (a : Int) : Search n :=
  { s with lowlink := update s.lowlink u (min (s.lowlink u) a) }

/-- The loop of `tarjanDFS` over the edges of `u`, with `dfs` for the recursive calls. -/
def exploreEdges (dfs : Fin n → Search n → Option (Search n)) (u : Fin n) :
    List (Edge n) → Search n → Option (Search n)
  | [], s => some s
  | edge :: rest, s =>
    let v := edge.target
    if s.index v = -1 then do
      let s ← dfs v s
      exploreEdges dfs u rest (s.lower u (s.lowlink v))
    else if s.onStack v then exploreEdges dfs u rest (s.lower u (s.index v))
    else exploreEdges dfs u rest s

/-- A node of the component that has number `id`. -/
def Search.pop (s : Search n) (w : Fin n) (st : List (Fin n)) : Search n :=
  { s with
    st := st
    onStack := update s.onStack w false
    result := { s.result with
      componentId := update s.result.componentId w s.result.components.length } }

/-- The loop that pops a component off the stack; `none` is `st.top()` of an empty one. -/
def popComponent (u : Fin n) : List (Fin n) → Search n → Option (List (Fin n) × Search n)
  | [], _ => none
  | w :: st, s =>
    if w = u then some ([w], s.pop w st)
    else do
      let (component, s) ← popComponent u st (s.pop w st)
      return (w :: component, s)

def closeComponent (u : Fin n) (s : Search n) : Option (Search n) := do
  let (component, s) ← popComponent u s.st s
  return { s with result := { s.result with components := s.result.components ++ [component] } }

/-- Cut off at a depth of the recursion; `none` is also such a cut. -/
def tarjanDFS (g : Graph n) : Nat → Fin n → Search n → Option (Search n)
  | 0, _, _ => none
  | depth + 1, u, s => do
    let s ← exploreEdges (tarjanDFS g depth) u (g.getAdjList u) (s.enter u)
    if s.lowlink u = s.index u then closeComponent u s else return s

/-- The loop of `compute` over the nodes. -/
def searchAll (g : Graph n) : List (Fin n) → Search n → Option (Search n)
  | [], s => some s
  | i :: rest, s =>
    if s.index i = -1 then do
      let s ← tarjanDFS g n i s
      searchAll g rest s
    else searchAll g rest s

def compute (g : Graph n) : Option (SCCResult n) :=
  if n = 0 then some ⟨[], fun _ => -1⟩
  else do
    let s ← searchAll g (List.finRange n) (.start n)
    return s.result

end TarjanSCC

structure BridgesArticulationResult (n : Nat) where
  bridges : List (Fin n × Fin n)
  articulationPoints : List (Fin n)

namespace BridgesArticulation
variable {n : Nat}

/-- `visited`, `tin`, `low`, `timer` and `result`. -/
structure Search (n : Nat) where
  visited : Fin n → Bool
  tin : Fin n → Int
  low : Fin n → Int
  timer : Int
  result : BridgesArticulationResult n

def Search.start (n : Nat) : Search n where
  visited := fun _ => false
  tin := fun _ => -1
  low := fun _ => -1
  timer := 0
  result := ⟨[], []⟩

def Search.enter (s : Search n) (u : Fin n) : Search n :=
  { s with
    visited := update s.visited u true
    tin := update s.tin u s.timer
    low := update s.low u s.timer
    timer := s.timer + 1 }

/-- `std::min` on the low value of `u`. -/
def Search.lower (s : Search n) (u : Fin n) (a : Int) : Search n :=
  { s with low := update s.low u (min (s.low u) a) }

def Search.addBridge (s : Search n) (u v : Fin n) : Search n :=
  { s with result := { s.result with bridges := s.result.bridges ++ [(u, v)] } }

def Search.addPoint (s : Search n) (u : Fin n) : Search n :=
  { s with result := { s.result with articulationPoints := s.result.articulationPoints ++ [u] } }

/-- What comes after the call for `v` in the loop over the edges of `u`. -/
def Search.afterChild (s : Search n) (u : Fin n) (parentNode : Option (Fin n)) (v : Fin n) :
    Search n :=
  let s := s.lower u (s.low v)
  let s := if s.low v > s.tin u then s.addBridge u v else s
  if parentNode ≠ none ∧ s.low v ≥ s.tin u then s.addPoint u else s

/-- The loop over the edges of `u`, with `dfs` for the recursive calls, and `children`; a parent of
-1 is `none`. -/
def exploreEdges (dfs : Fin n → Option (Fin n) → Search n → Option (Search n)) (u : Fin n)
    (parentNode : Option (Fin n)) : List (Edge n) → Search n → Nat → Option (Search n × Nat)
  | [], s, children => some (s, children)
  | edge :: rest, s, children =>
    let v := edge.target
    if some v = parentNode then exploreEdges dfs u parentNode rest s children
    else if s.visited v then exploreEdges dfs u parentNode rest (s.lower u (s.tin v)) children
    else do
      let s ← dfs v (some u) s
      exploreEdges dfs u parentNode rest (s.afterChild u parentNode v) (children + 1)

/-- Cut off at a depth of the recursion; `none` is such a cut. -/
def dfsBridges (g : Graph n) : Nat → Fin n → Option (Fin n) → Search n → Option (Search n)
  | 0, _, _, _ => none
  | depth + 1, u, parentNode, s => do
    let (s, children) ← exploreEdges (dfsBridges g depth) u parentNode (g.getAdjList u)
      (s.enter u) 0
    return if parentNode = none ∧ children > 1 then s.addPoint u else s

/-- The loop of `compute` over the nodes. -/
def searchAll (g : Graph n) : List (Fin n) → Search n → Option (Search n)
  | [], s => some s
  | i :: rest, s =>
    if s.visited i then searchAll g rest s
    else do
      let s ← dfsBridges g n i none s
      searchAll g rest s

def compute (g : Graph n) : Option (BridgesArticulationResult n) :=
  if n = 0 then some ⟨[], []⟩
  else do
    let s ← searchAll g (List.finRange n) (.start n)
    return s.result

end BridgesArticulation

end Cppforge.Graphs
