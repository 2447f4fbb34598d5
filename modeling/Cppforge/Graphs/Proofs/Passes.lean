import Cppforge.Graphs.Proofs.Shortest
import Cppforge.Lib.Passes

/-! The rounds as passes over the edges. -/

namespace Cppforge.Graphs.BellmanFord
open Function Walks

variable {n : Nat} {g : Graph n} {add : Int → Int → Int} {r r' : ShortestPathResult n}
  {edges : List (Edge n)} {nodes : List (Fin n)} {u v : Fin n} {k T : Nat} {start : Int}

section Arcs

/-- The arcs of a node in the order of its list. -/
def arcsOf (g : Graph n) (u : Fin n) : List (Arc (Fin n)) :=
  (g.getAdjList u).map fun edge => ⟨u, edge.target, edge.weight⟩

/-- The arcs of a round in order. -/
def arcs (g : Graph n) : List (Arc (Fin n)) := (List.finRange n).flatMap (arcsOf g)

/-- The rounds from a start; it labels no node if it is out of range. -/
def passes (g : Graph n) (start : Int) : Passes (Fin n) :=
  ⟨arcs g, fun v => Graph.node n start = some v, int32Max⟩

theorem mem_arcs {a : Arc (Fin n)} : a ∈ arcs g ↔ g.HasEdge a.source a.target a.weight := by
  rw [arcs, List.mem_flatMap]
  constructor
  · intro hmem
    obtain ⟨u, _, ha⟩ := hmem
    obtain ⟨edge, hedge, rfl⟩ := List.mem_map.mp ha
    exact ⟨edge, hedge, rfl, rfl⟩
  · intro hedges
    obtain ⟨edge, hedge, htarget, hweight⟩ := hedges
    refine ⟨a.source, List.mem_finRange _, List.mem_map.mpr ⟨edge, hedge, ?_⟩⟩
    rw [htarget, hweight]

/-- One turn of the innermost loop. -/
def relaxArc (add : Int → Int → Int) (r : ShortestPathResult n) (a : Arc (Fin n)) :
    ShortestPathResult n :=
  if r.distance a.source = int32Max then r
  else if add (r.distance a.source) a.weight < r.distance a.target then
    lowered r a.source a.target (add (r.distance a.source) a.weight)
  else r

/-- The result after so many turns of the innermost loop, from one round to the next. -/
def afterTurns (add : Int → Int → Int) (g : Graph n) (r : ShortestPathResult n) :
    Nat → ShortestPathResult n
  | 0 => r
  | T + 1 =>
    match (arcs g)[T % (arcs g).length]? with
    | none => afterTurns add g r T
    | some a => relaxArc add (afterTurns add g r T) a

end Arcs

section Rounds

/-- No distance is above that of a node without one. -/
def Bounded (r : ShortestPathResult n) : Prop := ∀ v, r.distance v ≤ int32Max

theorem Bounded.init (start : Option (Fin n)) : Bounded (.init start) := by
  intro v
  cases start with
  | none => exact le_refl _
  | some s =>
    by_cases hv : v = s
    · subst hv
      simp [ShortestPathResult.init, int32Max]
    · simp [ShortestPathResult.init, hv]

theorem Bounded.relaxArc (h : Bounded r) (a : Arc (Fin n)) : Bounded (relaxArc add r a) := by
  intro v
  have htarget := h a.target
  rw [BellmanFord.relaxArc]
  split_ifs with hsource hless
  · exact h v
  · by_cases hv : v = a.target
    · subst hv
      simp only [lowered, update_self]
      omega
    · simpa [lowered, hv] using h v
  · exact h v

theorem Bounded.foldl (h : Bounded r) (as : List (Arc (Fin n))) :
    Bounded (as.foldl (BellmanFord.relaxArc add) r) := by
  induction as generalizing r with
  | nil => exact h
  | cons a as ih => exact ih (h.relaxArc a)

theorem relax_eq (add : Int → Int → Int) (r : Round n) (edge : Edge n)
    (hu : r.1.distance u ≠ int32Max) :
    (relax add u r edge).1 = relaxArc add r.1 ⟨u, edge.target, edge.weight⟩ := by
  rw [relax, relaxArc, if_neg hu]
  split_ifs with h
  · rfl
  · rfl

theorem relaxArc_source (h : Bounded r) {a : Arc (Fin n)} (ha : r.distance a.source ≠ int32Max) :
    (relaxArc add r a).distance a.source ≠ int32Max := by
  rw [relaxArc, if_neg ha]
  split_ifs with hless
  · have hle := h a.target
    by_cases hself : a.source = a.target
    · rw [hself] at hless ⊢
      simp only [lowered, update_self]
      omega
    · simpa [lowered, hself] using ha
  · exact ha

theorem relaxNode_eq (add : Int → Int → Int) (g : Graph n) (r : Round n) (h : Bounded r.1)
    (u : Fin n) :
    (relaxNode add g r u).1 = (arcsOf g u).foldl (relaxArc add) r.1 := by
  rw [relaxNode, arcsOf]
  split_ifs with hu
  · generalize g.getAdjList u = edges
    induction edges with
    | nil => rfl
    | cons edge edges ih =>
      rw [List.map_cons, List.foldl_cons, relaxArc, if_pos hu]
      exact ih
  · generalize g.getAdjList u = edges
    induction edges generalizing r with
    | nil => rfl
    | cons edge edges ih =>
      have hsame := relax_eq add r edge hu
      rw [List.map_cons, List.foldl_cons, List.foldl_cons, ← hsame]
      refine ih _ ?_ ?_
      · rw [hsame]
        exact h.relaxArc _
      · rw [hsame]
        exact relaxArc_source h hu

theorem nodes_eq (r : Round n) (h : Bounded r.1) (nodes : List (Fin n)) :
    (nodes.foldl (relaxNode add g) r).1 = (nodes.flatMap (arcsOf g)).foldl (relaxArc add) r.1 := by
  induction nodes generalizing r with
  | nil => rfl
  | cons u nodes ih =>
    have hsame := relaxNode_eq add g r h u
    rw [List.flatMap_cons, List.foldl_append, List.foldl_cons, ← hsame]
    refine ih _ ?_
    rw [hsame]
    exact h.foldl _

theorem round_eq (h : Bounded r) : (round add g r).1 = (arcs g).foldl (relaxArc add) r :=
  nodes_eq (r, false) h _

/-- A round that changes nothing finds no edge to relax. -/
theorem edges_unchanged {r : Round n} (h : (edges.foldl (relax add u) r).2 = false) :
    edges.foldl (relax add u) r = r ∧
      ∀ edge ∈ edges, r.1.distance edge.target ≤ add (r.1.distance u) edge.weight := by
  induction edges generalizing r with
  | nil => exact ⟨rfl, by simp⟩
  | cons edge edges ih =>
    rw [List.foldl_cons] at h ⊢
    obtain ⟨hsame, hrest⟩ := ih h
    rw [hsame] at h
    by_cases hless : add (r.1.distance u) edge.weight < r.1.distance edge.target
    · simp [relax, hless] at h
    · have hrelax : relax add u r edge = r := by simp [relax, hless]
      rw [hrelax] at hsame hrest
      rw [hrelax]
      exact ⟨hsame, List.forall_mem_cons.mpr ⟨not_lt.mp hless, hrest⟩⟩

theorem nodes_unchanged {r : Round n} (h : (nodes.foldl (relaxNode add g) r).2 = false) :
    nodes.foldl (relaxNode add g) r = r ∧ ∀ u ∈ nodes, r.1.distance u ≠ int32Max →
      ∀ edge ∈ g.getAdjList u, r.1.distance edge.target ≤ add (r.1.distance u) edge.weight := by
  induction nodes generalizing r with
  | nil => exact ⟨rfl, by simp⟩
  | cons u nodes ih =>
    rw [List.foldl_cons] at h ⊢
    obtain ⟨hsame, hrest⟩ := ih h
    rw [hsame] at h
    rw [relaxNode] at hsame hrest h ⊢
    split_ifs at hsame hrest h ⊢ with hu
    · exact ⟨hsame, List.forall_mem_cons.mpr ⟨fun hne => absurd hu hne, hrest⟩⟩
    · obtain ⟨hkept, hedges⟩ := edges_unchanged h
      rw [hkept] at hsame hrest ⊢
      exact ⟨hsame, List.forall_mem_cons.mpr ⟨fun _ => hedges, hrest⟩⟩

theorem round_unchanged (h : (round add g r).2 = false) : (round add g r).1 = r ∧
    ∀ u v c, r.distance u ≠ int32Max → g.HasEdge u v c → r.distance v ≤ add (r.distance u) c := by
  obtain ⟨hsame, hall⟩ := nodes_unchanged h
  refine ⟨congrArg Prod.fst hsame, ?_⟩
  rintro u v c hu ⟨edge, hedge, rfl, rfl⟩
  exact hall u (List.mem_finRange u) hu edge hedge

/-- The rounds behind one that changes nothing would change nothing either. -/
theorem rounds_eq (k : Nat) (r : ShortestPathResult n) :
    rounds add g k r = (fun r => (round add g r).1)^[k] r := by
  induction k generalizing r with
  | zero => rfl
  | succ k ih =>
    rw [rounds, iterate_succ_apply]
    cases hupdated : (round add g r).2 with
    | true => simpa [hupdated] using ih _
    | false =>
      have hsame := (round_unchanged hupdated).1
      have hfix := iterate_fixed (f := fun r => (round add g r).1) hsame k
      simp only [hupdated, Bool.false_eq_true, if_false]
      rw [hsame, hfix]

theorem turns_round (r : ShortestPathResult n) (k : Nat) {i : Nat} (hi : i ≤ (arcs g).length) :
    afterTurns add g r (k * (arcs g).length + i) =
      ((arcs g).take i).foldl (relaxArc add) (afterTurns add g r (k * (arcs g).length)) := by
  induction i with
  | zero => rfl
  | succ i ih =>
    have hget := List.getElem?_eq_getElem hi
    rw [← Nat.add_assoc, afterTurns, Nat.mul_add_mod_of_lt hi, hget,
      List.take_succ_eq_append_getElem hi, List.foldl_append, ← ih (Nat.le_of_succ_le hi)]
    rfl

theorem bounded_turns (h : Bounded r) (T : Nat) : Bounded (afterTurns add g r T) := by
  induction T with
  | zero => exact h
  | succ T ih =>
    rw [afterTurns]
    cases (arcs g)[T % (arcs g).length]? with
    | none => exact ih
    | some a => exact ih.relaxArc a

theorem turns_eq (h : Bounded r) (k : Nat) :
    afterTurns add g r (k * (arcs g).length) = (fun r => (round add g r).1)^[k] r := by
  induction k with
  | zero => rw [Nat.zero_mul, iterate_zero_apply, afterTurns]
  | succ k ih =>
    rw [Nat.succ_mul, turns_round r k (le_refl _), List.take_length, iterate_succ_apply', ← ih,
      round_eq (bounded_turns h _)]

/-- The result is that of all turns, whether or not the rounds end early. -/
theorem shortestPath_eq (add : Int → Int → Int) (g : Graph n) (start : Int) :
    shortestPath add g start =
      afterTurns add g (.init (Graph.node n start)) ((n - 1) * (arcs g).length) := by
  cases hs : Graph.node n start with
  | some s => rw [shortestPath, hs, turns_eq (Bounded.init _), ← rounds_eq]
  | none =>
    have hstay : ∀ T, afterTurns add g (.init none) T = .init none := by
      intro T
      induction T with
      | zero => rfl
      | succ T ih =>
        rw [afterTurns, ih]
        cases (arcs g)[T % (arcs g).length]? with
        | none => rfl
        | some a => exact if_pos rfl
    rw [shortestPath, hs, hstay]

end Rounds

section Sums

/-- All sums that the turns before `T` form are those of integers. -/
def SumsAgree (add : Int → Int → Int) (g : Graph n) (r : ShortestPathResult n) (T : Nat) : Prop :=
  ∀ t < T, ∀ a ∈ (arcs g)[t % (arcs g).length]?,
    (afterTurns (· + ·) g r t).distance a.source ≠ int32Max →
      add ((afterTurns (· + ·) g r t).distance a.source) a.weight =
        (afterTurns (· + ·) g r t).distance a.source + a.weight

theorem SumsAgree.turns (h : SumsAgree add g r T) :
    afterTurns add g r T = afterTurns (· + ·) g r T := by
  induction T with
  | zero => rfl
  | succ T ih =>
    have hnow := h T (Nat.lt_succ_self T)
    rw [afterTurns, afterTurns, ih fun t ht => h t (ht.trans (Nat.lt_succ_self T))]
    cases ha : (arcs g)[T % (arcs g).length]? with
    | none => rfl
    | some a =>
      simp only [relaxArc]
      split_ifs with hsource hadd hsum hsum
      · rfl
      · rw [hnow a ha hsource]
      · rw [hnow a ha hsource] at hadd
        exact absurd hadd hsum
      · rw [hnow a ha hsource] at hadd
        exact absurd hsum hadd
      · rfl

theorem length_le_nodes (p : List (Fin n)) (hp : p.Nodup) : p.length ≤ n - 1 + 1 := by
  have hcard := hp.length_le_card
  rw [Fintype.card_fin] at hcard
  omega

/-- The turns find the first walks. -/
theorem finds_turns (P : Passes (Fin n)) (harcs : P.arcs = arcs g) (hbound : P.bound = int32Max)
    (h : P.Finds 0 r.distance r.previous) (T : Nat) :
    P.Finds T (afterTurns (· + ·) g r T).distance (afterTurns (· + ·) g r T).previous := by
  induction T with
  | zero => exact h
  | succ T ih =>
    rw [afterTurns, ← harcs]
    cases ha : P.arcs[T % P.arcs.length]? with
    | none => exact ih.idle ha
    | some a =>
      simp only [relaxArc, ← hbound]
      split_ifs with hsource hless
      · exact ih.keep ha (.inl hsource)
      · exact ih.lower ha hsource hless
      · exact ih.keep ha (.inr (not_lt.mp hless))

theorem finds_init (g : Graph n) (start : Int) :
    (passes g start).Finds 0 (ShortestPathResult.init (Graph.node n start)).distance
      (ShortestPathResult.init (Graph.node n start)).previous := by
  apply Passes.finds_zero
  · exact (by decide : (0 : Int) < int32Max)
  · intro v hv
    have hs : Graph.node n start = some v := hv
    simp [ShortestPathResult.init, hs]
  · intro v hv
    have hs : Graph.node n start ≠ some v := hv
    cases hnode : Graph.node n start with
    | none => rfl
    | some s =>
      have hne : v ≠ s := by
        rintro rfl
        exact hs hnode
      simp [ShortestPathResult.init, hne, passes]
  · intro v
    rfl

/-- The result tells the first walks of all rounds. -/
theorem shortestPath_finds (g : Graph n) (start : Int) :
    (passes g start).Finds ((n - 1) * (arcs g).length) (shortestPath (· + ·) g start).distance
      (shortestPath (· + ·) g start).previous := by
  rw [shortestPath_eq]
  exact finds_turns (passes g start) rfl rfl (finds_init g start) _

end Sums

end Cppforge.Graphs.BellmanFord
