import Cppforge.Graphs.Traversal
import Cppforge.Lib.Layout
import Mathlib.Algebra.BigOperators.Fin
import Mathlib.Algebra.Order.BigOperators.Group.Finset

namespace Cppforge.Graphs
open Function Layout Relation

variable {n : Nat} {g : Graph n} {u v : Fin n}

def Graph.Cyclic (g : Graph n) : Prop := ∃ v, TransGen g.Adjacent v v

/-- All nodes are listed and every edge goes forward. -/
structure Topological (g : Graph n) (order : List (Fin n)) : Prop where
  perm : order.Perm (List.finRange n)
  forward : ∀ u v, g.Adjacent u v → order.idxOf u < order.idxOf v

theorem perm_finRange {l : List (Fin n)} (hl : l.Nodup) (hall : ∀ v, v ∈ l) :
    l.Perm (List.finRange n) :=
  (List.perm_ext_iff_of_nodup hl (List.nodup_finRange n)).mpr fun v => by simp [hall]

theorem length_eq_iff {l : List (Fin n)} (hl : l.Nodup) : l.length = n ↔ ∀ v, v ∈ l := by
  constructor
  · intro hlen v
    have hcard : l.toFinset.card = Fintype.card (Fin n) := by
      rw [List.toFinset_card_of_nodup hl, hlen, Fintype.card_fin]
    exact List.mem_toFinset.mp (Finset.eq_univ_iff_forall.mp (Finset.card_eq_iff_eq_univ _ |>.mp hcard) v)
  · intro hall
    simpa using (perm_finRange hl hall).length_eq

namespace TopologicalSort
variable {s s' : Search n} {depth : Nat} {r : Option (Bool × Search n)} {Q Q' : Search n → Prop}

section DepthFirst

/-- A search ends well, or where it has met a cycle. -/
def Ends (g : Graph n) (r : Option (Bool × Search n)) (Q : Search n → Prop) : Prop :=
  (∃ s, r = some (true, s) ∧ Q s) ∨ ∃ s, r = some (false, s) ∧ g.Cyclic

/-- What is finished is in the order, behind all that it leads to. -/
structure Sound (g : Graph n) (s : Search n) : Prop where
  order : TargetsFirst g.Adjacent s.order
  finished : ∀ x, x ∈ s.order ↔ s.state x = .finished

/-- A search leaves the nodes in progress as they are and forgets no node. -/
structure Extends (s s' : Search n) : Prop where
  inProgress : ∀ x, s'.state x = .inProgress ↔ s.state x = .inProgress
  finished : ∀ x, s.state x = .finished → s'.state x = .finished

def unvisited (s : Search n) : Finset (Fin n) := Finset.univ.filter (s.state · = .unvisited)

theorem Extends.refl (s : Search n) : Extends s s := ⟨fun _ => Iff.rfl, fun _ h => h⟩

theorem Extends.trans {t : Search n} (h : Extends s t) (h' : Extends t s') : Extends s s' :=
  ⟨fun x => (h'.inProgress x).trans (h.inProgress x), fun x hx => h'.finished x (h.finished x hx)⟩

theorem Extends.unvisited_subset (h : Extends s s') : unvisited s' ⊆ unvisited s := by
  intro x hx
  simp only [unvisited, Finset.mem_filter, Finset.mem_univ, true_and] at hx ⊢
  cases hs : s.state x with
  | unvisited => rfl
  | inProgress => simp [(h.inProgress x).mpr hs] at hx
  | finished => simp [h.finished x hs] at hx

/-- The nodes in progress lead to the one that is explored. -/
def Leads (g : Graph n) (s : Search n) (u : Fin n) : Prop :=
  ∀ x, s.state x = .inProgress → ReflTransGen g.Adjacent x u

/-- What is searched: nothing lies between the nodes in progress and the node. -/
def Searches (g : Graph n) (dfs : Fin n → Search n → Option (Bool × Search n)) (depth : Nat) :
    Prop :=
  ∀ u s, Sound g s → s.state u = .unvisited →
    (∀ x, s.state x = .inProgress → TransGen g.Adjacent x u) → (unvisited s).card ≤ depth →
    Ends g (dfs u s) fun s' => Sound g s' ∧ Extends s s' ∧ s'.state u = .finished

theorem exploreEdges_spec {dfs : Fin n → Search n → Option (Bool × Search n)}
    (hdfs : Searches g dfs depth) (edges : List (Edge n))
    (hedges : ∀ edge ∈ edges, g.Adjacent u edge.target) (hs : Sound g s) (hlead : Leads g s u)
    (hcard : (unvisited s).card ≤ depth) :
    Ends g (exploreEdges dfs edges s) fun s' => Sound g s' ∧ Extends s s' ∧
      ∀ edge ∈ edges, s'.state edge.target = .finished := by
  induction edges generalizing s with
  | nil => exact .inl ⟨s, rfl, hs, .refl s, fun edge hedge => by cases hedge⟩
  | cons edge rest ih =>
    obtain ⟨he, hrest⟩ := List.forall_mem_cons.mp hedges
    cases hstate : s.state edge.target with
    | inProgress =>
      refine .inr ⟨s, by simp [exploreEdges, hstate], edge.target, ?_⟩
      exact TransGen.tail' (hlead _ hstate) he
    | finished =>
      have hskip : exploreEdges dfs (edge :: rest) s = exploreEdges dfs rest s := by
        simp [exploreEdges, hstate]
      rw [hskip]
      rcases ih hrest hs hlead hcard with ⟨s', hrun, hs', hext, hdone⟩ | hcycle
      · refine .inl ⟨s', hrun, hs', hext, ?_⟩
        exact List.forall_mem_cons.mpr ⟨hext.finished _ hstate, hdone⟩
      · exact .inr hcycle
    | unvisited =>
      have hbelow : ∀ x, s.state x = .inProgress → TransGen g.Adjacent x edge.target :=
        fun x hx => TransGen.tail' (hlead x hx) he
      rcases hdfs edge.target s hs hstate hbelow hcard with ⟨t, hrun, ht, hext, htarget⟩ | hcycle
      · have hlead' : Leads g t u := fun x hx => hlead x ((hext.inProgress x).mp hx)
        have hcard' := (Finset.card_le_card hext.unvisited_subset).trans hcard
        have hnext : exploreEdges dfs (edge :: rest) s = exploreEdges dfs rest t := by
          simp [exploreEdges, hstate, hrun]
        rw [hnext]
        rcases ih hrest ht hlead' hcard' with ⟨s', hrun', hs', hext', hdone⟩ | hcycle
        · refine .inl ⟨s', hrun', hs', hext.trans hext', ?_⟩
          exact List.forall_mem_cons.mpr ⟨hext'.finished _ htarget, hdone⟩
        · exact .inr hcycle
      · obtain ⟨t, hrun, hcycle⟩ := hcycle
        exact .inr ⟨t, by simp [exploreEdges, hstate, hrun], hcycle⟩

theorem Sound.enter (hs : Sound g s) (hu : s.state u = .unvisited) :
    Sound g { s with state := update s.state u .inProgress } := by
  refine ⟨hs.order, ?_⟩
  intro x
  by_cases hx : x = u
  · subst hx
    simp [hs.finished, hu]
  · simp [hs.finished, hx]

theorem Sound.leave (hs : Sound g s) (hu : s.state u = .inProgress)
    (htargets : ∀ edge ∈ g.getAdjList u, s.state edge.target = .finished) :
    Sound g { state := update s.state u .finished, order := s.order ++ [u] } := by
  refine ⟨hs.order.snoc (by simp [hs.finished, hu]) ?_, ?_⟩
  · rintro v ⟨edge, hedge, rfl⟩
    exact (hs.finished _).mpr (htargets edge hedge)
  · intro x
    by_cases hx : x = u
    · simp [hx]
    · simp [hs.finished, hx]

theorem Extends.around {t : Search n} {order : List (Fin n)} (hu : s.state u = .unvisited)
    (h : Extends { s with state := update s.state u .inProgress } t) :
    Extends s { state := update t.state u .finished, order := order } := by
  refine ⟨fun x => ?_, fun x hx => ?_⟩
  · by_cases hxu : x = u
    · simp [hxu, hu]
    · simpa [hxu] using h.inProgress x
  · by_cases hxu : x = u
    · simp [hxu]
    · simpa [hxu] using h.finished x (by simpa [hxu] using hx)

theorem card_enter (hu : s.state u = .unvisited) (hcard : (unvisited s).card ≤ depth + 1) :
    (unvisited { s with state := update s.state u .inProgress }).card ≤ depth := by
  have herase : unvisited { s with state := update s.state u .inProgress } = (unvisited s).erase u := by
    ext x
    by_cases hx : x = u <;> simp [unvisited, hx]
  have hmem : u ∈ unvisited s := by simp [unvisited, hu]
  rw [herase, Finset.card_erase_of_mem hmem]
  omega

/-- The depth of the recursion is enough when it counts the nodes not visited yet. -/
theorem dfsTopo_spec (g : Graph n) (depth : Nat) : Searches g (dfsTopo g depth) depth := by
  induction depth with
  | zero =>
    intro u s _ hu _ hcard
    have hmem : u ∈ unvisited s := by simp [unvisited, hu]
    simp [Finset.card_eq_zero.mp (Nat.le_zero.mp hcard)] at hmem
  | succ depth ih =>
    intro u s hs hu hbelow hcard
    have hlead : Leads g { s with state := update s.state u .inProgress } u := by
      intro x hx
      by_cases hxu : x = u
      · exact hxu ▸ .refl
      · exact (hbelow x (by simpa [hxu] using hx)).to_reflTransGen
    rcases exploreEdges_spec ih (g.getAdjList u) (fun edge hedge => ⟨edge, hedge, rfl⟩)
      (hs.enter hu) hlead (card_enter hu hcard) with ⟨t, hrun, ht, hext, hdone⟩ | hcycle
    · have hut : t.state u = .inProgress := (hext.inProgress u).mpr (by simp)
      refine .inl ⟨_, by simp [dfsTopo, hrun], ht.leave hut hdone, hext.around hu, by simp⟩
    · obtain ⟨t, hrun, hcycle⟩ := hcycle
      exact .inr ⟨t, by simp [dfsTopo, hrun], hcycle⟩

theorem searchAll_spec (nodes : List (Fin n)) (hs : Sound g s)
    (hidle : ∀ x, s.state x ≠ .inProgress) :
    Ends g (searchAll g nodes s) fun s' => Sound g s' ∧ Extends s s' ∧
      ∀ x ∈ nodes, s'.state x = .finished := by
  induction nodes generalizing s with
  | nil => exact .inl ⟨s, rfl, hs, .refl s, fun x hx => by cases hx⟩
  | cons i rest ih =>
    by_cases hi : s.state i = .unvisited
    · have hcard : (unvisited s).card ≤ n := by
        simpa using Finset.card_le_univ (unvisited s)
      rcases dfsTopo_spec g n i s hs hi (fun x hx => absurd hx (hidle x)) hcard with
        ⟨t, hrun, ht, hext, hdone⟩ | hcycle
      · have hnext : searchAll g (i :: rest) s = searchAll g rest t := by
          simp [searchAll, hi, hrun]
        rw [hnext]
        rcases ih ht (fun x hx => hidle x ((hext.inProgress x).mp hx)) with
          ⟨s', hrun', hs', hext', hall⟩ | hcycle
        · refine .inl ⟨s', hrun', hs', hext.trans hext', ?_⟩
          exact List.forall_mem_cons.mpr ⟨hext'.finished _ hdone, hall⟩
        · exact .inr hcycle
      · obtain ⟨t, hrun, hcycle⟩ := hcycle
        exact .inr ⟨t, by simp [searchAll, hi, hrun], hcycle⟩
    · have hdone : s.state i = .finished := by
        cases hstate : s.state i with
        | unvisited => exact absurd hstate hi
        | inProgress => exact absurd hstate (hidle i)
        | finished => rfl
      have hskip : searchAll g (i :: rest) s = searchAll g rest s := by simp [searchAll, hi]
      rw [hskip]
      rcases ih hs hidle with ⟨s', hrun', hs', hext, hall⟩ | hcycle
      · refine .inl ⟨s', hrun', hs', hext, ?_⟩
        exact List.forall_mem_cons.mpr ⟨hext.finished _ hdone, hall⟩
      · exact .inr hcycle

end DepthFirst

theorem sort_spec (g : Graph n) :
    (∃ s, searchAll g (List.finRange n) ⟨fun _ => .unvisited, []⟩ = some (true, s) ∧
      sort g = some ⟨s.order.reverse, false⟩ ∧ Topological g s.order.reverse ∧ ¬ g.Cyclic) ∨
    ∃ s, searchAll g (List.finRange n) ⟨fun _ => .unvisited, []⟩ = some (false, s) ∧
      sort g = some ⟨[], true⟩ ∧ g.Cyclic := by
  have hsound : Sound g ⟨fun _ => .unvisited, []⟩ := ⟨.nil, fun x => by simp⟩
  rcases searchAll_spec (List.finRange n) hsound (fun x => by simp) with
    ⟨s, hrun, hs, _, hdone⟩ | ⟨s, hrun, hcycle⟩
  · have hmem : ∀ v, v ∈ s.order := fun v => (hs.finished v).mpr (hdone v (List.mem_finRange v))
    refine .inl ⟨s, hrun, by simp [sort, hrun], ⟨?_, ?_⟩, ?_⟩
    · exact (List.reverse_perm _).trans (perm_finRange hs.order.nodup hmem)
    · intro u v he
      exact idxOf_reverse_lt hs.order.nodup (hmem u) (hmem v) (hs.order.idxOf_lt (hmem u) he)
    · rintro ⟨v, hv⟩
      exact hs.order.acyclic (hmem v) hv
  · exact .inr ⟨s, hrun, by simp [sort, hrun], hcycle⟩

section Draining
variable {k : Kahn n} {S : Finset (Fin n)} {edges : List (Edge n)}

/-- The edges into a node. -/
def entering (edges : List (Edge n)) (v : Fin n) : Nat := edges.countP (·.target = v)

theorem entering_pos : 0 < entering edges v ↔ ∃ edge ∈ edges, edge.target = v := by
  simp [entering, List.countP_pos_iff]

theorem entering_cons (edge : Edge n) (edges : List (Edge n)) :
    entering (edge :: edges) v = entering edges v + if edge.target = v then 1 else 0 := by
  simp [entering, List.countP_cons]

theorem foldl_countEdge (edges : List (Edge n)) (inDegree : Fin n → Int) :
    edges.foldl countEdge inDegree v = inDegree v + entering edges v := by
  induction edges generalizing inDegree with
  | nil => simp [entering]
  | cons edge rest ih =>
    rw [List.foldl_cons, ih, entering_cons]
    by_cases hv : edge.target = v
    · subst hv
      simp [countEdge]
      omega
    · simp [countEdge, hv, Ne.symm hv]

theorem inDegrees_eq (g : Graph n) (v : Fin n) :
    inDegrees g v = (∑ u, entering (g.getAdjList u) v : Nat) := by
  have hall : ∀ (nodes : List (Fin n)) (inDegree : Fin n → Int),
      nodes.foldl (fun inDegree u => (g.getAdjList u).foldl countEdge inDegree) inDegree v =
        inDegree v + ((nodes.map fun u => entering (g.getAdjList u) v).sum : Nat) := by
    intro nodes
    induction nodes with
    | nil => simp
    | cons u rest ih =>
      intro inDegree
      rw [List.foldl_cons, ih, foldl_countEdge, List.map_cons, List.sum_cons]
      omega
  rw [inDegrees, hall, ← List.ofFn_eq_map, List.sum_ofFn]
  simp

/-- `S` is what has not been taken from the queue; `edges` is what the latest node has left. -/
structure Drains (g : Graph n) (S : Finset (Fin n)) (edges : List (Edge n)) (k : Kahn n) : Prop where
  degree : ∀ v, k.inDegree v = (∑ u ∈ S, entering (g.getAdjList u) v + entering edges v : Nat)
  zero : ∀ v, v ∈ k.order ++ k.q ↔ k.inDegree v = 0
  listed : TargetsFirst (flip g.Adjacent) (k.order ++ k.q)
  left : ∀ v, v ∈ S ↔ v ∉ k.order
  count : k.visitedCount = k.order.length

/-- What no node of `S` enters has its sources outside. -/
theorem source_left (hsum : ∑ u ∈ S, entering (g.getAdjList u) v = 0) (he : g.Adjacent u v) :
    u ∉ S := by
  intro hu
  have hnone := Finset.sum_eq_zero_iff.mp hsum u hu
  exact absurd hnone (Nat.ne_of_gt (entering_pos.mpr he))

theorem Drains.drop {edge : Edge n} (h : Drains g S (edge :: edges) k) :
    Drains g S edges (dropEdge k edge) := by
  have hdegree : ∀ v, (dropEdge k edge).inDegree v =
      (∑ u ∈ S, entering (g.getAdjList u) v + entering edges v : Nat) := by
    intro v
    have hold := h.degree v
    rw [entering_cons] at hold
    by_cases hv : edge.target = v
    · subst hv
      simp only [dropEdge, update_self]
      rw [if_pos rfl] at hold
      omega
    · simp only [dropEdge, update_of_ne (Ne.symm hv)]
      rw [if_neg hv] at hold
      exact hold
  have hfresh : edge.target ∉ k.order ++ k.q := by
    intro hin
    have hold := h.degree edge.target
    rw [entering_cons, if_pos rfl, (h.zero _).mp hin] at hold
    omega
  by_cases hlast : k.inDegree edge.target - 1 = 0
  · have hlist : (dropEdge k edge).order ++ (dropEdge k edge).q = (k.order ++ k.q) ++ [edge.target] := by
      simp [dropEdge, hlast]
    refine ⟨hdegree, ?_, ?_, h.left, h.count⟩
    · intro v
      rw [hlist, List.mem_append, h.zero, List.mem_singleton]
      by_cases hv : v = edge.target
      · simp [hv, dropEdge, hlast]
      · simp [hv, dropEdge]
    · rw [hlist]
      refine h.listed.snoc hfresh ?_
      intro u he
      have hzero := hdegree edge.target
      simp only [dropEdge, update_self, hlast] at hzero
      have hu := source_left (S := S) (by omega) he
      exact List.mem_append_left _ (by simpa [h.left] using hu)
  · have hlist : (dropEdge k edge).order ++ (dropEdge k edge).q = k.order ++ k.q := by
      simp [dropEdge, hlast]
    refine ⟨hdegree, ?_, hlist ▸ h.listed, h.left, h.count⟩
    intro v
    rw [hlist]
    by_cases hv : v = edge.target
    · subst hv
      simp [hfresh, dropEdge, hlast]
    · simp [h.zero, hv, dropEdge]

theorem Drains.drop_all (h : Drains g S edges k) : Drains g S [] (edges.foldl dropEdge k) := by
  induction edges generalizing k with
  | nil => exact h
  | cons edge rest ih => exact ih h.drop

/-- The head of the queue is taken with its edges. -/
theorem Drains.take {q : List (Fin n)} (h : Drains g S [] k) (hq : k.q = u :: q) :
    Drains g (S.erase u) (g.getAdjList u)
      { k with q := q, order := k.order ++ [u], visitedCount := k.visitedCount + 1 } := by
  have hlist : k.order ++ [u] ++ q = k.order ++ k.q := by simp [hq]
  have hnodup := h.listed.nodup
  rw [hq] at hnodup
  have hu : u ∈ S := (h.left u).mpr fun hin =>
    List.disjoint_of_nodup_append hnodup hin List.mem_cons_self
  refine ⟨?_, fun v => hlist ▸ h.zero v, hlist ▸ h.listed, ?_, by simp [h.count]⟩
  · intro v
    have hsum := Finset.add_sum_erase S (fun u => entering (g.getAdjList u) v) hu
    have hdegree := h.degree v
    simp only [entering, List.countP_nil, Nat.add_zero] at hsum hdegree ⊢
    omega
  · intro v
    simp [h.left, and_comm]

/-- The loop empties the queue. -/
theorem drain_spec {turns : Nat} (h : Drains g S [] k) (hturns : S.card < turns) :
    ∃ S' k', drain g turns k = some k' ∧ Drains g S' [] k' ∧ k'.q = [] := by
  induction turns generalizing S k with
  | zero => exact absurd hturns (Nat.not_lt_zero _)
  | succ turns ih =>
    cases hq : k.q with
    | nil => exact ⟨S, k, by simp [drain, hq], h, hq⟩
    | cons u q =>
      have htake := h.take hq
      have hu : u ∈ S := by
        by_contra hu
        have hin : u ∈ k.order := by simpa [h.left] using hu
        have hnodup := h.listed.nodup
        rw [hq] at hnodup
        exact List.disjoint_of_nodup_append hnodup hin List.mem_cons_self
      have hcard := Finset.card_erase_lt_of_mem hu
      obtain ⟨S', k', hrun, hk'⟩ := ih htake.drop_all (by omega)
      exact ⟨S', k', by simpa [drain, hq] using hrun, hk'⟩

theorem drains_init (g : Graph n) :
    Drains g Finset.univ [] ⟨inDegrees g, (List.finRange n).filter (inDegrees g · = 0), [], 0⟩ := by
  refine ⟨fun v => ?_, fun v => by simp, ?_, fun v => by simp, rfl⟩
  · simp [inDegrees_eq, entering]
  · refine TargetsFirst.nil.append ((List.nodup_finRange n).filter _) ?_
    intro v hv u he
    have hzero : inDegrees g v = 0 := by simpa using hv
    rw [inDegrees_eq] at hzero
    exact absurd (Finset.mem_univ u) (source_left (by omega) he)

theorem sortKahn_spec (g : Graph n) :
    (∃ order, sortKahn g = some ⟨order, false⟩ ∧ Topological g order ∧ ¬ g.Cyclic) ∨
      sortKahn g = some ⟨[], true⟩ ∧ g.Cyclic := by
  have hturns : (Finset.univ : Finset (Fin n)).card < n + 1 := by simp
  obtain ⟨S, k, hrun, hk, hq⟩ := drain_spec (drains_init g) hturns
  have hlisted := hk.listed
  rw [hq, List.append_nil] at hlisted
  have hcount : k.visitedCount = n ↔ ∀ v, v ∈ k.order := by
    rw [hk.count]
    exact length_eq_iff hlisted.nodup
  by_cases hall : ∀ v, v ∈ k.order
  · refine .inl ⟨k.order, by simp [sortKahn, hrun, hcount.mpr hall],
      ⟨perm_finRange hlisted.nodup hall, fun u v he => hlisted.idxOf_lt (hall v) he⟩, ?_⟩
    rintro ⟨v, hv⟩
    exact hlisted.acyclic (hall v) (transGen_swap.mpr hv)
  · refine .inr ⟨by simp [sortKahn, hrun, hcount, hall], ?_⟩
    refine exists_cycle (S := {v | v ∉ k.order}) (not_forall.mp hall) ?_
    -- what the queue never took still has an edge from such a node
    intro v hv
    have hne : k.inDegree v ≠ 0 := by
      intro hzero
      exact hv (by simpa [hq] using (hk.zero v).mpr hzero)
    have hsum : ∑ u ∈ S, entering (g.getAdjList u) v ≠ 0 := by
      have hdegree := hk.degree v
      simp only [entering, List.countP_nil, Nat.add_zero] at hdegree ⊢
      omega
    obtain ⟨u, hu, hpos⟩ := Finset.exists_ne_zero_of_sum_ne_zero hsum
    exact ⟨u, (hk.left u).mp hu, entering_pos.mp (Nat.pos_of_ne_zero hpos)⟩

end Draining

end TopologicalSort

end Cppforge.Graphs
