import Cppforge.Graphs.Traversal
import Cppforge.Graphs.Proofs.Shortest

namespace Cppforge.Graphs.DFS
open Function

variable {n : Nat} {g : Graph n} {u v x : Fin n} {s s' : State n} {edges : List (Edge n)}
  {events more : List (Event n)} {turns : Nat}

section Recursive

/-- The nodes discovered so far, and the tree. -/
structure Trace (n : Nat) where
  order : List (Fin n)
  parent : Fin n → Option (Fin n)

/-- Those of the nodes that are not discovered yet are visited one after the other. -/
def explore (dfs : Fin n → Trace n → Option (Trace n)) (u : Fin n) :
    List (Fin n) → Trace n → Option (Trace n)
  | [], t => some t
  | v :: rest, t =>
    if t.order.contains v then explore dfs u rest t
    else do
      let t ← dfs v { t with parent := update t.parent v (some u) }
      explore dfs u rest t

/-- The recursive search, from a node on, where the neighbours are taken in the given order. -/
def visitRec (neighbours : Fin n → List (Fin n)) : Nat → Fin n → Trace n → Option (Trace n)
  | 0, _, _ => none
  | depth + 1, u, t =>
    explore (visitRec neighbours depth) u (neighbours u) { t with order := t.order ++ [u] }

def searchRec (neighbours : Fin n → List (Fin n)) (start : Int) : Option (Trace n) :=
  match Graph.node n start with
  | none => some ⟨[], fun _ => none⟩
  | some start => visitRec neighbours n start ⟨[], fun _ => none⟩

/-- Some order of the neighbours of each node makes the recursive search discover the nodes in
this order and build this tree. -/
def Discovers (g : Graph n) (start : Int) (r : TraversalResult n) : Prop :=
  ∃ neighbours : Fin n → List (Fin n),
    (∀ u, (neighbours u).Perm ((g.getAdjList u).map Edge.target)) ∧
    ∃ t, searchRec neighbours start = some t ∧ r.order = t.order ∧ r.parent = t.parent

/-- A node finishes after what is discovered below it, and otherwise two nodes are apart. -/
structure Nested (parent : Fin n → Option (Fin n)) (events : List (Event n)) : Prop where
  below : ∀ u v, parent v = some u →
    [.onNodeDiscover u, .onNodeDiscover v, .onNodeFinish v, .onNodeFinish u].Sublist events
  apart : ∀ u v, u ≠ v →
    ¬ [.onNodeDiscover u, .onNodeDiscover v, .onNodeFinish u, .onNodeFinish v].Sublist events

def IsDepthFirst (g : Graph n) (start : Int) : Prop :=
  ∃ r events, traverse g start = some (r, events) ∧ Discovers g start r ∧ Nested r.parent events

end Recursive

section Events

/-- Events of edges only. -/
def OfEdges (events : List (Event n)) : Prop :=
  ∀ x, .onNodeDiscover x ∉ events ∧ .onNodeFinish x ∉ events

theorem exploreAll_events (edges : List (Edge n)) (u : Fin n) (s : State n) :
    ∃ more, (edges.foldl (exploreEdge u) s).events = s.events ++ more ∧ OfEdges more := by
  induction edges generalizing s with
  | nil => exact ⟨[], (List.append_nil _).symm, fun x => ⟨List.not_mem_nil, List.not_mem_nil⟩⟩
  | cons edge edges ih =>
    obtain ⟨more, hmore, hedges⟩ := ih (exploreEdge u s edge)
    rw [List.foldl_cons, hmore, exploreEdge]
    split
    · exact ⟨.onEdgeTraverse u edge.target edge.weight :: more, by simp, by simpa [OfEdges]⟩
    · exact ⟨.onEdgeBack u edge.target edge.weight :: more, by simp, by simpa [OfEdges]⟩

theorem discover_events (u : Fin n) (s : State n) :
    (discover u s).events = s.events ∨
      (discover u s).events = s.events ++ [.onNodeDiscover u] := by
  rw [discover]
  split
  · exact .inl rfl
  · exact .inr rfl

theorem discover_distance (u : Fin n) (s : State n) :
    (discover u s).result.distance = s.result.distance ∧
      (discover u s).result.parent = s.result.parent ∧ (discover u s).st = s.st := by
  rw [discover]
  split <;> exact ⟨rfl, rfl, rfl⟩

end Events

section Marked

/-- What is said of a marked node stays, and it is not pushed again. -/
theorem exploreAll_marked (edges : List (Edge n)) (u : Fin n)
    (hx : s.result.distance x ≠ int32Max) :
    (edges.foldl (exploreEdge u) s).result.distance x = s.result.distance x ∧
      (edges.foldl (exploreEdge u) s).result.parent x = s.result.parent x ∧
      (x ∈ (edges.foldl (exploreEdge u) s).st ↔ x ∈ s.st) := by
  induction edges generalizing s with
  | nil => exact ⟨rfl, rfl, .rfl⟩
  | cons edge edges ih =>
    have hstep : (exploreEdge u s edge).result.distance x = s.result.distance x ∧
        (exploreEdge u s edge).result.parent x = s.result.parent x ∧
        (x ∈ (exploreEdge u s edge).st ↔ x ∈ s.st) := by
      rw [exploreEdge]
      split
      · rename_i hv
        have hne : x ≠ edge.target := by
          intro he
          exact hx (he ▸ hv)
        simp [TraversalResult.reach, hne]
      · exact ⟨rfl, rfl, .rfl⟩
    obtain ⟨hd, hp, hst⟩ := hstep
    have hrest := ih (s := exploreEdge u s edge) (hd.symm ▸ hx)
    rw [List.foldl_cons]
    exact ⟨hrest.1.trans hd, hrest.2.1.trans hp, hrest.2.2.trans hst⟩

theorem visit_marked (hx : s.result.distance x ≠ int32Max) :
    (visit g u s).result.distance x = s.result.distance x ∧
      (visit g u s).result.parent x = s.result.parent x ∧
      (x ∈ (visit g u s).st ↔ x ∈ s.st) := by
  obtain ⟨hd, hp, hst⟩ := discover_distance u s
  have hmarked : (discover u s).result.distance x ≠ int32Max := hd.symm ▸ hx
  have hall := exploreAll_marked (g.getAdjList u) u hmarked
  rw [hd, hp, hst] at hall
  exact hall

theorem loop_marked (hx : s.result.distance x ≠ int32Max) (hrun : loop g turns s = some s') :
    s'.result.parent x = s.result.parent x := by
  induction turns generalizing s with
  | zero => cases hrun
  | succ turns ih =>
    rw [loop] at hrun
    split at hrun
    · exact Option.some.inj hrun ▸ rfl
    · rename_i u st hst
      obtain ⟨hd, hp, -⟩ := visit_marked (g := g) (u := u) (s := { s with st := st }) hx
      exact (ih (hd.symm ▸ hx) hrun).trans hp

/-- A marked node that is not on the stack does not finish any more. -/
theorem loop_events (hx : s.result.distance x ≠ int32Max) (hst : x ∉ s.st)
    (hrun : loop g turns s = some s') :
    ∃ more, s'.events = s.events ++ more ∧ .onNodeFinish x ∉ more := by
  induction turns generalizing s with
  | zero => cases hrun
  | succ turns ih =>
    rw [loop] at hrun
    split at hrun
    · exact ⟨[], by simp [Option.some.inj hrun], List.not_mem_nil⟩
    · rename_i u st hcons
      rw [hcons, List.mem_cons, not_or] at hst
      obtain ⟨hd, -, hkept⟩ := visit_marked (g := g) (u := u) (s := { s with st := st }) hx
      obtain ⟨more, hmore, hnot⟩ := ih (hd.symm ▸ hx) (fun hin => hst.2 (hkept.mp hin)) hrun
      obtain ⟨edges, hedges, hof⟩ :=
        exploreAll_events (g.getAdjList u) u (discover u { s with st := st })
      have hvisit : (visit g u { s with st := st }).events =
          (discover u { s with st := st }).events ++ edges ++ [.onNodeFinish u] := by
        rw [visit, hedges]
      rw [hmore, hvisit]
      have hne : Event.onNodeFinish x ≠ .onNodeFinish u := by simpa using hst.1
      rcases discover_events u { s with st := st } with hdisc | hdisc
      · rw [hdisc]
        exact ⟨edges ++ .onNodeFinish u :: more, by simp, by simp [(hof x).2, hst.1, hnot]⟩
      · rw [hdisc]
        exact ⟨.onNodeDiscover u :: (edges ++ .onNodeFinish u :: more), by simp,
          by simp [(hof x).2, hst.1, hnot]⟩

end Marked

section First
variable {start : Fin n}

/-- What is marked beside the start has the start as its parent. -/
structure Around (start : Fin n) (r : TraversalResult n) : Prop where
  distance : r.distance start = 0
  parent : ∀ x, r.distance x ≠ int32Max → x = start ∨ r.parent x = some start

theorem exploreAll_around (edges : List (Edge n)) (hs : Around start s.result) :
    Around start (edges.foldl (exploreEdge start) s).result ∧
      ∀ edge ∈ edges,
        (edges.foldl (exploreEdge start) s).result.distance edge.target ≠ int32Max := by
  induction edges generalizing s with
  | nil => exact ⟨hs, fun edge hedge => absurd hedge List.not_mem_nil⟩
  | cons edge edges ih =>
    have hstep : Around start (exploreEdge start s edge).result ∧
        (exploreEdge start s edge).result.distance edge.target ≠ int32Max := by
      rw [exploreEdge]
      split
      · rename_i hv
        have hne : start ≠ edge.target := by
          intro he
          rw [← he, hs.distance] at hv
          exact absurd hv (by decide)
        have hone : (s.result.reach start edge.target).distance edge.target = 1 := by
          simp [TraversalResult.reach, hs.distance, add32]
        refine ⟨⟨by simpa [TraversalResult.reach, hne] using hs.distance, ?_⟩, ?_⟩
        · intro x hx
          by_cases hxv : x = edge.target
          · simp [TraversalResult.reach, hxv]
          · have hold := hs.parent x (by simpa [TraversalResult.reach, hxv] using hx)
            simpa [TraversalResult.reach, hxv] using hold
        · rw [hone]
          decide
      · rename_i hv
        exact ⟨hs, hv⟩
    obtain ⟨haround, hall⟩ := ih hstep.1
    rw [List.foldl_cons]
    refine ⟨haround, ?_⟩
    intro e he
    rcases List.mem_cons.mp he with rfl | he
    · rw [(exploreAll_marked edges start hstep.2).1]
      exact hstep.2
    · exact hall e he

/-- The state in front of the loop, without the start on the stack. -/
def begun (start : Fin n) : State n where
  result := { TraversalResult.init n with
    parent := update (fun _ => none) start none, distance := update (fun _ => int32Max) start 0 }
  st := []
  events := []

theorem begun_around (start : Fin n) : Around start (begun start).result := by
  refine ⟨by simp [begun], ?_⟩
  intro x hx
  refine .inl ?_
  by_contra hne
  exact hx (by simp [begun, hne])

theorem traverse_eq (g : Graph n) (start : Fin n) :
    traverse g start.val =
      (loop g n (visit g start (begun start))).map fun s => (s.result, s.events) := by
  rw [traverse, node_val]
  rfl

/-- A child that the search sees finishes after its parent has finished. -/
theorem not_nested {r : TraversalResult n} (hne : v ≠ start) (hedge : g.Adjacent start v)
    (hrun : traverse g start.val = some (r, events)) :
    r.parent v = some start ∧
      ¬ [.onNodeDiscover start, .onNodeDiscover v, .onNodeFinish v, .onNodeFinish start].Sublist
        events := by
  rw [traverse_eq] at hrun
  obtain ⟨last, hlast, hr⟩ := Option.map_eq_some_iff.mp hrun
  obtain ⟨rfl, rfl⟩ := Prod.mk.inj hr
  obtain ⟨edge, hmem, rfl⟩ := hedge
  obtain ⟨hd, hp, hst⟩ := discover_distance start (begun start)
  have hfirst : Around start (discover start (begun start)).result := by
    constructor
    · rw [hd]
      exact (begun_around start).distance
    · rw [hd, hp]
      exact (begun_around start).parent
  obtain ⟨haround, hmarked⟩ := exploreAll_around (g.getAdjList start) hfirst
  have hv : (visit g start (begun start)).result.distance edge.target ≠ int32Max :=
    hmarked edge hmem
  have hstart : (visit g start (begun start)).result.distance start ≠ int32Max := by
    have hzero : (visit g start (begun start)).result.distance start = 0 := haround.distance
    rw [hzero]
    decide
  constructor
  · rw [loop_marked hv hlast]
    exact (haround.parent _ hv).resolve_left hne
  · intro hsub
    have hnot : start ∉ (visit g start (begun start)).st := by
      have hzero : (discover start (begun start)).result.distance start ≠ int32Max := by
        rw [hfirst.distance]
        decide
      have hkept := (exploreAll_marked (g.getAdjList start) start hzero).2.2
      rw [hst] at hkept
      exact fun hin => absurd (hkept.mp hin) List.not_mem_nil
    obtain ⟨more, hmore, hfinish⟩ := loop_events hstart hnot hlast
    obtain ⟨edges, hedges, hof⟩ :=
      exploreAll_events (g.getAdjList start) start (discover start (begun start))
    have hvisit : (visit g start (begun start)).events =
        .onNodeDiscover start :: (edges ++ [.onNodeFinish start]) := by
      rw [visit, hedges]
      rfl
    -- The last of the four events is one of the first turn, and so are the others.
    rw [hmore, hvisit] at hsub
    obtain ⟨front, back, hsplit, hfront, hback⟩ := List.sublist_append_iff.mp hsub
    have hnil : back = [] := by
      by_contra hback_ne
      have hlast : back.getLast hback_ne = .onNodeFinish start := by
        have heq := congrArg List.getLast? hsplit
        rw [List.getLast?_append_of_ne_nil _ hback_ne, List.getLast?_eq_some_getLast hback_ne]
          at heq
        exact (Option.some.inj heq).symm
      exact hfinish (hback.subset (hlast ▸ List.getLast_mem hback_ne))
    rw [hnil, List.append_nil] at hsplit
    have hdisc : Event.onNodeDiscover edge.target ∈ front := by
      rw [← hsplit]
      simp
    have hin := hfront.subset hdisc
    simp [(hof edge.target).1, hne] at hin

theorem exploreAll_alone (hedges : ∀ edge ∈ edges, edge.target = u)
    (hu : s.result.distance u ≠ int32Max) :
    (edges.foldl (exploreEdge u) s).result = s.result ∧
      (edges.foldl (exploreEdge u) s).st = s.st := by
  induction edges generalizing s with
  | nil => exact ⟨rfl, rfl⟩
  | cons edge edges ih =>
    obtain ⟨hedge, hrest⟩ := List.forall_mem_cons.mp hedges
    have hstep : exploreEdge u s edge =
        { s with events := s.events ++ [.onEdgeBack u edge.target edge.weight] } := by
      rw [exploreEdge, hedge, if_neg hu]
    rw [List.foldl_cons, hstep]
    exact ih hrest hu

theorem explore_seen {dfs : Fin n → Trace n → Option (Trace n)} {vs : List (Fin n)} {t : Trace n}
    (hseen : ∀ v ∈ vs, v ∈ t.order) : explore dfs u vs t = some t := by
  induction vs with
  | nil => rfl
  | cons v vs ih =>
    obtain ⟨hv, hvs⟩ := List.forall_mem_cons.mp hseen
    rw [explore, if_pos (List.contains_iff_mem.mpr hv)]
    exact ih hvs

theorem loop_done (hst : s.st = []) (turns : Nat) : loop g (turns + 1) s = some s := by
  rw [loop, hst]

/-- Where no edge leaves the start there is one node to visit. -/
theorem isDepthFirst_alone (halone : ∀ v, g.Adjacent start v → v = start) :
    IsDepthFirst g start.val := by
  have htargets : ∀ edge ∈ g.getAdjList start, edge.target = start :=
    fun edge hedge => halone _ ⟨edge, hedge, rfl⟩
  have hzero : (discover start (begun start)).result.distance start ≠ int32Max := by
    rw [(discover_distance start (begun start)).1, (begun_around start).distance]
    decide
  obtain ⟨hresult, hst⟩ := exploreAll_alone htargets hzero
  obtain ⟨more, hmore, hof⟩ :=
    exploreAll_events (g.getAdjList start) start (discover start (begun start))
  have hvisit : visit g start (begun start) =
      ⟨(discover start (begun start)).result, [],
        .onNodeDiscover start :: (more ++ [.onNodeFinish start])⟩ := by
    rw [visit, hresult, hst, hmore]
    rfl
  obtain ⟨k, rfl⟩ := Nat.exists_eq_add_one_of_ne_zero (Nat.ne_zero_of_lt start.isLt)
  have hrun := traverse_eq g start
  rw [hvisit, loop_done rfl, Option.map_some] at hrun
  refine ⟨_, _, hrun, ?_, ?_⟩
  · refine ⟨fun u => (g.getAdjList u).map Edge.target, fun u => .refl _, ⟨[start], fun _ => none⟩,
      ?_, rfl, ?_⟩
    · rw [searchRec, node_val]
      refine explore_seen ?_
      intro v hv
      obtain ⟨edge, hedge, rfl⟩ := List.mem_map.mp hv
      simp [htargets edge hedge]
    · exact update_eq_self start _
  · constructor
    · intro u v hv
      have hnone : update (fun _ => none) start none v = some u := hv
      rw [update_eq_self start] at hnone
      cases hnone
    · intro u v hne hsub
      have honly : ∀ x, Event.onNodeDiscover x ∈
          .onNodeDiscover start :: (more ++ [.onNodeFinish start]) → x = start := by
        intro x hx
        simpa [(hof x).1] using hx
      have hu := honly u (hsub.subset (by simp))
      have hv := honly v (hsub.subset (by simp))
      exact hne (hu.trans hv.symm)

end First

/-- The search is depth first only where it has nothing to search: a node is reported finished
before its children are discovered. -/
theorem isDepthFirst_iff (g : Graph n) (start : Int) :
    IsDepthFirst g start ↔
      ∀ u, Graph.node n start = some u → ∀ v, g.Adjacent u v → v = u := by
  cases hstart : Graph.node n start with
  | none =>
    refine iff_of_true ⟨.init n, [], by rw [traverse, hstart], ?_, ?_⟩ ?_
    · exact ⟨fun u => (g.getAdjList u).map Edge.target, fun u => .refl _, ⟨[], fun _ => none⟩,
        by rw [searchRec, hstart], rfl, rfl⟩
    · constructor
      · intro u v hv
        cases hv
      · intro u v _ hsub
        cases hsub
    · intro u hu
      cases hu
  | some u =>
    obtain rfl := Graph.node_eq hstart
    constructor
    · intro hdepth x hx v hedge
      obtain rfl := Option.some.inj hx
      by_contra hne
      obtain ⟨r, events, hrun, -, hnested⟩ := hdepth
      obtain ⟨hparent, hnot⟩ := not_nested hne hedge hrun
      exact hnot (hnested.below _ _ hparent)
    · intro halone
      exact isDepthFirst_alone (halone u rfl)

/-- The nodes 1 and 2 wait on the stack together, and an edge leads from 2 to 1. -/
def siblings : Graph 3 where
  adjList u := match u with
    | 0 => [⟨.castSucc (.last 1), 11, by decide⟩, ⟨.last 2, 12, by decide⟩]
    | 1 => []
    | 2 => [⟨.castSucc (.last 1), 13, by decide⟩]

/-- Not even the order and the tree are those of a recursive search. -/
theorem siblings_not_depthFirst :
    ¬ IsDepthFirst siblings 0 ∧
      ∀ r events, traverse siblings 0 = some (r, events) → ¬ Discovers siblings 0 r := by
  have hedge : siblings.Adjacent 0 1 := ⟨⟨1, 11, by decide⟩, List.mem_cons_self, rfl⟩
  constructor
  · intro hdepth
    obtain ⟨r, events, hrun, -, hnested⟩ := hdepth
    obtain ⟨hparent, hnot⟩ := not_nested (by decide) hedge hrun
    exact hnot (hnested.below _ _ hparent)
  · intro r events hrun hdisc
    obtain ⟨hparent, -⟩ := not_nested (v := 1) (by decide) hedge hrun
    have horder : r.order = [0, 2, 1] := by
      have hall : (traverse siblings 0).map (fun p => p.1.order) = some [0, 2, 1] := by decide
      rw [hrun] at hall
      exact Option.some.inj hall
    obtain ⟨neighbours, hperm, t, ht, hto, htp⟩ := hdisc
    have hone : neighbours 1 = [] := (hperm 1).eq_nil
    have htwo : neighbours 2 = [1] := List.perm_singleton.mp (hperm 2)
    have hzero : neighbours 0 = [1, 2] ∨ neighbours 0 = [2, 1] := by
      have hall : ∀ a b : Fin 3, [a, b].Perm [1, 2] → [a, b] = [1, 2] ∨ [a, b] = [2, 1] := by decide
      obtain ⟨a, b, hab⟩ := List.length_eq_two.mp (hperm 0).length_eq
      rw [hab]
      exact hall a b (hab ▸ hperm 0)
    rcases hzero with hzero | hzero
    · simp [searchRec, Graph.node, visitRec, explore, hzero, hone, htwo] at ht
      rw [← ht] at hto
      simp [horder] at hto
    · simp [searchRec, Graph.node, visitRec, explore, hzero, hone, htwo] at ht
      rw [← ht] at htp
      simp [htp] at hparent

end Cppforge.Graphs.DFS
