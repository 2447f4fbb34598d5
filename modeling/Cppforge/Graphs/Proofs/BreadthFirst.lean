import Cppforge.Graphs.Traversal
import Cppforge.Graphs.Proofs.Shortest

namespace Cppforge.Graphs.BFS
open Function Walks Relaxation

variable {n : Nat} {g : Graph n} {s s' : State n} {start u v x : Fin n} {l c w : Int}
  {p : List (Fin n)} {t : List (Fin n × Int)} {T T' : Fin n → List (Fin n × Int)}
  {edge : Edge n} {edges : List (Edge n)} {turns : Nat}

section Hops

/-- The nodes of a walk along edges, from its first to its last. -/
structure IsWalk (g : Graph n) (u : Fin n) (p : List (Fin n)) (v : Fin n) : Prop where
  first : p.head? = some u
  last : p.getLast? = some v
  edges : p.IsChain g.Adjacent

/-- Each edge counts for one. -/
def Hop (g : Graph n) (u v : Fin n) (c : Int) : Prop := g.Adjacent u v ∧ c = 1

theorem hop_nonneg : ∀ u v c, Hop g u v c → 0 ≤ c := by
  intro u v c he
  have hc := he.2
  omega

theorem isWalk_of_hops (h : Walk (Hop g) u p v w) :
    IsWalk g u p v ∧ (p.length : Int) = w + 1 := by
  induction h with
  | nil => exact ⟨⟨rfl, rfl, List.isChain_singleton u⟩, rfl⟩
  | @snoc v x p w c h he ih =>
    obtain ⟨⟨hfirst, hlast, hedges⟩, hlen⟩ := ih
    refine ⟨⟨?_, by simp, ?_⟩, ?_⟩
    · rw [List.head?_append, hfirst]
      rfl
    · refine List.isChain_append.mpr ⟨hedges, List.isChain_singleton x, ?_⟩
      intro a ha b hb
      rw [hlast, Option.mem_some_iff] at ha
      obtain rfl := Option.some.inj hb
      exact ha ▸ he.1
    · have hc := he.2
      rw [List.length_append, List.length_singleton]
      omega

theorem IsWalk.hops (h : IsWalk g u p v) : Walk (Hop g) u p v (p.length - 1) := by
  obtain ⟨hfirst, hlast, hedges⟩ := h
  induction p using List.reverseRecOn generalizing v with
  | nil => cases hfirst
  | append_singleton p x ih =>
    obtain rfl : x = v := by simpa using hlast
    obtain ⟨hchain, -, hlink⟩ := List.isChain_append.mp hedges
    cases hp : p.getLast? with
    | none =>
      obtain rfl := List.getLast?_eq_none_iff.mp hp
      obtain rfl : x = u := by simpa using hfirst
      exact .nil x
    | some y =>
      have hne : p ≠ [] := by
        rintro rfl
        cases hp
      have hfirst' : p.head? = some u := by
        rwa [List.head?_append_of_ne_nil _ hne] at hfirst
      have hstep := (ih hfirst' hp hchain).snoc (c := 1) ⟨hlink y hp x rfl, rfl⟩
      have hlen : (p.length : Int) - 1 + 1 = ((p ++ [x]).length : Int) - 1 := by
        simp
      rwa [hlen] at hstep

theorem reaches_iff : Reaches (Hop g) u v ↔ ∃ p, IsWalk g u p v := by
  constructor
  · intro h
    obtain ⟨p, w, hp⟩ := h
    exact ⟨p, (isWalk_of_hops hp).1⟩
  · intro h
    obtain ⟨p, hp⟩ := h
    exact ⟨p, _, hp.hops⟩

/-- A walk without a node twice has fewer edges than there are nodes. -/
theorem label_range (h : Labels (Hop g) start T) (hv : T v = (v, l) :: t) : 0 ≤ l ∧ l < n := by
  have hwalk := (h.trail_of hv).walk
  have hone : ∀ u v c, Hop g u v c → c ≤ const (Fin n) 1 u := fun u v c he => he.2.le
  have hspent := hwalk.le_spent hone
  have hnodup := (h.nodup v).length_le_card
  rw [hv, Fintype.card_fin] at hnodup
  rw [List.map_const, List.sum_replicate, List.length_reverse, nsmul_eq_mul, mul_one,
    const_apply] at hspent
  exact ⟨hwalk.nonneg hop_nonneg, by omega⟩

end Hops

section Queue

/-- The labels of a state: those seen are visited or queued, the nearer ones first. -/
structure Labelled (g : Graph n) (start : Fin n) (s : State n) (T : Fin n → List (Fin n × Int)) :
    Prop where
  shows : Shows ⟨s.result.distance, s.result.parent⟩ T
  labels : Labels (Hop g) start T
  seen : ∀ v, v ∈ s.result.order ++ s.q ↔ T v ≠ []
  nodup : (s.result.order ++ s.q).Nodup
  sorted : (s.result.order ++ s.q).Pairwise fun u v => s.result.distance u ≤ s.result.distance v

/-- The queue holds nodes of two distances at most, and the edges of visited nodes are done. -/
structure TwoLevels (g : Graph n) (s : State n) (T : Fin n → List (Fin n × Int)) : Prop where
  levels : ∀ u ∈ s.q, ∀ v ∈ s.q, s.result.distance v ≤ s.result.distance u + 1
  done : ∀ u ∈ s.result.order, ∀ v, g.Adjacent u v → AtMost T v (s.result.distance u + 1)

/-- While the edges of `u` are looked at, the queue holds nodes as far as `u` or one further. -/
structure Exploring (u : Fin n) (s : State n) : Prop where
  last : s.result.order.getLast? = some u
  near : ∀ v ∈ s.q, s.result.distance u ≤ s.result.distance v ∧
    s.result.distance v ≤ s.result.distance u + 1

theorem Labelled.distance_eq (h : Labelled g start s T) (hv : v ∈ s.result.order ++ s.q) :
    ∃ t, T v = (v, s.result.distance v) :: t ∧ s.result.distance v < int32Max := by
  rcases h.shows.distance v with ⟨hnil, -⟩ | hlabel
  · exact absurd hnil ((h.seen v).mp hv)
  · exact hlabel

theorem Labelled.unseen (h : Labelled g start s T) :
    s.result.distance v = int32Max ↔ v ∉ s.result.order ++ s.q := by
  constructor
  · intro hmax hv
    obtain ⟨-, -, hlt⟩ := h.distance_eq hv
    omega
  · intro hv
    rcases h.shows.distance v with ⟨-, hmax⟩ | ⟨t, hlabel, -⟩
    · exact hmax
    · exact absurd ((h.seen v).mpr (by rw [hlabel]; exact List.cons_ne_nil _ _)) hv

/-- All that is seen while the edges of `u` are looked at is at most one edge further. -/
theorem Labelled.le_next (h : Labelled g start s T) (hu : Exploring u s)
    (hv : v ∈ s.result.order ++ s.q) : s.result.distance v ≤ s.result.distance u + 1 := by
  rcases List.mem_append.mp hv with hv | hv
  · obtain ⟨before, hbefore⟩ := List.getLast?_eq_some_iff.mp hu.last
    rw [hbefore, List.mem_append, List.mem_singleton] at hv
    rcases hv with hv | rfl
    · have hsorted := (List.pairwise_append.mp h.sorted).1
      rw [hbefore] at hsorted
      have hle := (List.pairwise_append.mp hsorted).2.2 v hv u (List.mem_singleton_self u)
      omega
    · omega
  · exact (hu.near v hv).2

/-- One edge of the node that was taken from the queue. -/
theorem exploreEdge_spec (hn : (n : Int) ≤ int32Max) (h : Labelled g start s T)
    (hu : Exploring u s) (hedge : edge ∈ g.getAdjList u) :
    ∃ T', Labelled g start (exploreEdge u s edge) T' ∧ Exploring u (exploreEdge u s edge) ∧
      (∀ x b, AtMost T x b → AtMost T' x b) ∧
      AtMost T' edge.target ((exploreEdge u s edge).result.distance u + 1) ∧
      (∀ x ∈ s.result.order, (exploreEdge u s edge).result.distance x = s.result.distance x) ∧
      (exploreEdge u s edge).result.order = s.result.order := by
  have hmem : u ∈ s.result.order ++ s.q :=
    List.mem_append_left _ (List.mem_of_getLast? hu.last)
  obtain ⟨t, hlabel, hless⟩ := h.distance_eq hmem
  rw [exploreEdge]
  split
  · rename_i hmax
    have hnew := h.unseen.mp hmax
    have hnil : T edge.target = [] := by
      by_contra hne
      exact hnew ((h.seen _).mpr hne)
    have hlow : ¬ AtMost T edge.target (s.result.distance u + 1) := by
      intro hle
      obtain ⟨l, t, hl, -⟩ := hle
      rw [hnil] at hl
      cases hl
    have hhop : Hop g u edge.target 1 := ⟨⟨edge, hedge, rfl⟩, rfl⟩
    have hlabels := h.labels.lower hop_nonneg hlabel hhop hlow
    obtain ⟨hlow', hhigh⟩ := label_range hlabels (update_self ..)
    have hsum : add32 (s.result.distance u) 1 = s.result.distance u + 1 :=
      add32_eq ⟨by omega, by omega⟩
    have hne : u ≠ edge.target := by
      intro he
      exact hnew (he ▸ hmem)
    have hold : ∀ x ∈ s.result.order ++ s.q, x ≠ edge.target := fun x hx he => hnew (he ▸ hx)
    have hdist : ∀ x ∈ s.result.order ++ s.q,
        (s.result.reach u edge.target).distance x = s.result.distance x :=
      fun x hx => update_of_ne (hold x hx) ..
    have hself : (s.result.reach u edge.target).distance edge.target =
        s.result.distance u + 1 := (update_self ..).trans hsum
    have hreach : (⟨(s.result.reach u edge.target).distance,
        (s.result.reach u edge.target).parent⟩ : ShortestPathResult n) =
        lowered ⟨s.result.distance, s.result.parent⟩ u edge.target (s.result.distance u + 1) := by
      rw [lowered, TraversalResult.reach, hsum]
    refine ⟨update T edge.target ((edge.target, s.result.distance u + 1) :: T u), ⟨?_, hlabels,
      ?_, ?_, ?_⟩, ⟨hu.last, ?_⟩, fun x b hx => atMost_update hlow hx, ?_, ?_, rfl⟩
    · rw [hreach]
      exact h.shows.lower hlabel (by omega)
    · intro v
      rw [← List.append_assoc, List.mem_append, List.mem_singleton]
      by_cases hv : v = edge.target
      · simp [hv]
      · simpa [hv] using h.seen v
    · rw [← List.append_assoc]
      exact List.nodup_append'.mpr ⟨h.nodup, List.nodup_singleton _, by simpa using hnew⟩
    · rw [← List.append_assoc, List.pairwise_append]
      refine ⟨?_, List.pairwise_singleton _ _, ?_⟩
      · refine h.sorted.imp_of_mem ?_
        intro a b ha hb hab
        rwa [hdist a ha, hdist b hb]
      · intro a ha b hb
        rw [List.mem_singleton.mp hb, hdist a ha, hself]
        exact h.le_next hu ha
    · intro v hv
      rw [hdist u hmem]
      rcases List.mem_append.mp hv with hv | hv
      · rw [hdist v (List.mem_append_right _ hv)]
        exact hu.near v hv
      · rw [List.mem_singleton.mp hv, hself]
        omega
    · refine ⟨_, _, update_self .., ?_⟩
      rw [hdist u hmem]
    · exact fun x hx => hdist x (List.mem_append_left _ hx)
  · rename_i hseen
    have hin : edge.target ∈ s.result.order ++ s.q := by
      by_contra hnot
      exact hseen (h.unseen.mpr hnot)
    obtain ⟨t', hlabel', -⟩ := h.distance_eq hin
    exact ⟨T, h, hu, fun _ _ hle => hle, (AtMost.of_eq hlabel').mono (h.le_next hu hin),
      fun _ _ => rfl, rfl⟩

/-- The edges of the node that was taken from the queue, one after the other. -/
theorem exploreAll_spec (hn : (n : Int) ≤ int32Max) (h : Labelled g start s T)
    (hu : Exploring u s) (hedges : ∀ edge ∈ edges, edge ∈ g.getAdjList u) :
    ∃ T', Labelled g start (edges.foldl (exploreEdge u) s) T' ∧
      Exploring u (edges.foldl (exploreEdge u) s) ∧
      (∀ x b, AtMost T x b → AtMost T' x b) ∧
      (∀ edge ∈ edges, AtMost T' edge.target (s.result.distance u + 1)) ∧
      (∀ x ∈ s.result.order,
        (edges.foldl (exploreEdge u) s).result.distance x = s.result.distance x) ∧
      (edges.foldl (exploreEdge u) s).result.order = s.result.order := by
  induction edges generalizing s T with
  | nil =>
    exact ⟨T, h, hu, fun _ _ hle => hle, fun edge hedge => absurd hedge List.not_mem_nil,
      fun _ _ => rfl, rfl⟩
  | cons edge edges ih =>
    obtain ⟨hedge, hrest⟩ := List.forall_mem_cons.mp hedges
    obtain ⟨T₁, h₁, hu₁, hfall₁, hat, hdist₁, horder₁⟩ := exploreEdge_spec hn h hu hedge
    obtain ⟨T', h', hu', hfall', hall, hdist', horder'⟩ := ih h₁ hu₁ hrest
    have hself := hdist₁ u (List.mem_of_getLast? hu.last)
    rw [hself] at hat hall
    rw [List.foldl_cons]
    refine ⟨T', h', hu', fun x b hx => hfall' x b (hfall₁ x b hx), ?_, ?_, horder'.trans horder₁⟩
    · exact List.forall_mem_cons.mpr ⟨hfall' _ _ hat, hall⟩
    · intro x hx
      exact (hdist' x (horder₁.symm ▸ hx)).trans (hdist₁ x hx)

theorem visit_spec (hn : (n : Int) ≤ int32Max) {q : List (Fin n)} (hq : s.q = u :: q)
    (h : Labelled g start s T) (hlevels : TwoLevels g s T) :
    ∃ T', Labelled g start (visit g u { s with q := q }) T' ∧
      TwoLevels g (visit g u { s with q := q }) T' ∧
      (visit g u { s with q := q }).result.order = s.result.order ++ [u] := by
  have hshift : s.result.order ++ s.q = (s.result.order ++ [u]) ++ q := by
    rw [hq, List.append_cons]
  have hin : u ∈ s.q := hq ▸ List.mem_cons_self
  have htaken : Labelled g start
      { s with
        result := { s.result with order := s.result.order ++ [u] }
        q := q
        events := s.events ++ [.onNodeVisit u] } T :=
    ⟨h.shows, h.labels, fun v => hshift ▸ h.seen v, hshift ▸ h.nodup, hshift ▸ h.sorted⟩
  have hexploring : Exploring u
      { s with
        result := { s.result with order := s.result.order ++ [u] }
        q := q
        events := s.events ++ [.onNodeVisit u] } := by
    refine ⟨List.getLast?_concat, ?_⟩
    intro v hv
    have hsorted := hshift ▸ h.sorted
    have hle := (List.pairwise_append.mp hsorted).2.2 u (by simp) v hv
    exact ⟨hle, hlevels.levels u hin v (hq ▸ List.mem_cons_of_mem _ hv)⟩
  obtain ⟨T', h', hu', hfall, hall, hdist, horder⟩ :=
    exploreAll_spec hn htaken hexploring fun edge hedge => hedge
  have hnear : Exploring u (visit g u { s with q := q }) := hu'
  have horder' : (visit g u { s with q := q }).result.order = s.result.order ++ [u] := horder
  refine ⟨T', h', ⟨?_, ?_⟩, horder'⟩
  · intro x hx y hy
    have hxu := (hnear.near x hx).1
    have hyu := (hnear.near y hy).2
    omega
  · intro x hx v hv
    have hx' : x ∈ s.result.order ++ [u] := horder' ▸ hx
    have hkeep : (visit g u { s with q := q }).result.distance x = s.result.distance x :=
      hdist x hx'
    rw [hkeep]
    rcases List.mem_append.mp hx' with hx' | hx'
    · exact hfall _ _ (hlevels.done x hx' v hv)
    · rw [List.mem_singleton.mp hx'] at hv ⊢
      obtain ⟨edge, hedge, rfl⟩ := hv
      exact hall edge hedge

/-- A node is visited once, so that the loop ends in time. -/
theorem loop_spec (hn : (n : Int) ≤ int32Max) (h : Labelled g start s T)
    (hlevels : TwoLevels g s T) (hturns : n < turns + s.result.order.length) :
    ∃ s' T', loop g turns s = some s' ∧ Labelled g start s' T' ∧ TwoLevels g s' T' ∧
      s'.q = [] := by
  induction turns generalizing s T with
  | zero =>
    have hfew := (h.nodup.of_append_left).length_le_card
    rw [Fintype.card_fin] at hfew
    omega
  | succ turns ih =>
    rw [loop]
    cases hq : s.q with
    | nil => exact ⟨s, T, rfl, h, hlevels, hq⟩
    | cons u q =>
      obtain ⟨T₁, h₁, hlevels₁, horder⟩ := visit_spec hn hq h hlevels
      refine ih h₁ hlevels₁ ?_
      rw [horder, List.length_append, List.length_singleton]
      omega

end Queue

section Results

/-- The nodes reachable, each once and nearer ones first, with the least numbers of edges. -/
structure Exact (g : Graph n) (start : Fin n) (r : TraversalResult n) : Prop where
  nodup : r.order.Nodup
  order : ∀ v, v ∈ r.order ↔ ∃ p, IsWalk g start p v
  sorted : r.order.Pairwise fun u v => r.distance u ≤ r.distance v
  least : ∀ v p, IsWalk g start p v → r.distance v ≤ p.length - 1
  walk : ∀ v, r.distance v ≠ int32Max → ∃ p, IsWalk g start p v ∧ r.distance v = p.length - 1
  unreachable : ∀ v, r.distance v = int32Max ↔ ¬ ∃ p, IsWalk g start p v

/-- A path to a target, empty if there is none. -/
structure IsPath (g : Graph n) (start : Fin n) (r : TraversalResult n) (target : Int)
    (p : List (Fin n)) : Prop where
  empty : p = [] ↔ ∀ v, Graph.node n target = some v → ¬ ∃ q, IsWalk g start q v
  walk : ∀ v, Graph.node n target = some v → (∃ q, IsWalk g start q v) →
    IsWalk g start p v ∧ p.length - 1 = r.distance v

theorem enqueued_labelled (start : Fin n) :
    Labelled g start (enqueued start) (initial start) ∧
      TwoLevels g (enqueued start) (initial start) := by
  refine ⟨⟨shows_init start, labels_initial start, ?_, List.nodup_singleton start,
    List.pairwise_singleton _ _⟩, ⟨?_, fun u hu => absurd hu List.not_mem_nil⟩⟩
  · intro v
    by_cases hv : v = start
    · simp [enqueued, TraversalResult.init, initial, hv]
    · simp [enqueued, TraversalResult.init, initial, hv]
  · intro u hu v hv
    rw [List.mem_singleton.mp hu, List.mem_singleton.mp hv]
    omega

/-- When the queue is empty no label can be lowered. -/
theorem Labelled.closed (h : Labelled g start s T) (hlevels : TwoLevels g s T) (hq : s.q = []) :
    Closed (Hop g) T := by
  intro u v c l t he hu
  have hseen : u ∈ s.result.order ++ s.q :=
    (h.seen u).mpr (by rw [hu]; exact List.cons_ne_nil _ _)
  obtain ⟨t', hlabel, -⟩ := h.distance_eq hseen
  rw [hq, List.append_nil] at hseen
  have hdone := hlevels.done u hseen v he.1
  rw [hu, List.cons.injEq, Prod.mk.injEq] at hlabel
  rw [he.2, hlabel.1.2]
  exact hdone

theorem Labelled.exact (h : Labelled g start s T) (hlevels : TwoLevels g s T) (hq : s.q = []) :
    Exact g start s.result := by
  have hdist : ∀ v, Distance (Hop g) start int32Max v (s.result.distance v) :=
    (h.closed hlevels hq).distance h.labels h.shows.distance
  have hunseen : ∀ v, s.result.distance v = int32Max ↔ v ∉ s.result.order := by
    intro v
    have hiff := h.unseen (v := v)
    rwa [hq, List.append_nil] at hiff
  have hreached : ∀ v, s.result.distance v = int32Max ↔ ¬ ∃ p, IsWalk g start p v := by
    intro v
    rw [← reaches_iff]
    constructor
    · exact fun hmax hr => (hdist v).reached hr hmax
    · intro hnot
      by_contra hne
      obtain ⟨p, hp⟩ := (hdist v).walk hne
      exact hnot ⟨p, _, hp⟩
  refine ⟨h.nodup.of_append_left, ?_, (List.pairwise_append.mp h.sorted).1, ?_, ?_, hreached⟩
  · intro v
    exact not_iff_not.mp ((hunseen v).symm.trans (hreached v))
  · exact fun v p hp => (hdist v).least p _ hp.hops
  · intro v hne
    obtain ⟨p, hp⟩ := (hdist v).walk hne
    obtain ⟨hwalk, hlen⟩ := isWalk_of_hops hp
    exact ⟨p, hwalk, by omega⟩

theorem Labelled.path (h : Labelled g start s T) (hlevels : TwoLevels g s T) (hq : s.q = [])
    (target : Int) :
    ∃ p, s.result.reconstructPath target = some p ∧ IsPath g start s.result target p := by
  have hexact := h.exact hlevels hq
  rw [TraversalResult.reconstructPath]
  cases hnode : Graph.node n target with
  | none =>
    refine ⟨[], rfl, iff_of_true rfl ?_, ?_⟩
    · intro v hv
      rw [hnode] at hv
      cases hv
    · intro v hv
      rw [hnode] at hv
      cases hv
  | some v =>
    by_cases hmax : s.result.distance v = int32Max
    · have hnot := (hexact.unreachable v).mp hmax
      refine ⟨[], if_pos hmax, iff_of_true rfl ?_, ?_⟩
      · intro x hx
        rw [hnode] at hx
        exact Option.some.inj hx ▸ hnot
      · intro x hx hr
        rw [hnode] at hx
        exact absurd (Option.some.inj hx ▸ hr) hnot
    · obtain ⟨t, hlabel⟩ := h.shows.label hmax
      have hfew := (h.labels.nodup v).length_le_card
      rw [hlabel, Fintype.card_fin, List.length_map, List.length_cons] at hfew
      have hchain := chain_eq h.shows h.labels (h.closed hlevels hq) hlabel hfew
      obtain ⟨hwalk, hlen⟩ := isWalk_of_hops (h.labels.trail_of hlabel).walk
      refine ⟨_, (if_neg hmax).trans (by rw [hchain, Option.map_some]), iff_of_false ?_ ?_, ?_⟩
      · simp
      · exact fun hnot => hnot v hnode ⟨_, hwalk⟩
      · intro x hx _
        rw [hnode] at hx
        obtain rfl := Option.some.inj hx
        refine ⟨hwalk, ?_⟩
        rw [hlen]
        exact add_sub_cancel_right _ 1

end Results

/-- The traversal finds the least numbers of edges, and the paths that have them. -/
theorem traverse_exact (hn : (n : Int) ≤ int32Max) (g : Graph n) (start : Fin n) :
    ∃ r events, traverse g start.val = some (r, events) ∧ Exact g start r ∧
      ∀ target, ∃ p, shortestPath g start.val target = some p ∧ IsPath g start r target p := by
  obtain ⟨hlabelled, hlevels⟩ := enqueued_labelled (g := g) start
  obtain ⟨s, T, hrun, h, hend, hq⟩ :=
    loop_spec hn hlabelled hlevels (Nat.lt_add_right _ (Nat.lt_succ_self n))
  have htraverse : traverse g start.val = some (s.result, s.events) := by
    rw [traverse, node_val]
    simp only
    rw [hrun, Option.map_some]
  refine ⟨s.result, s.events, htraverse, h.exact hend hq, ?_⟩
  intro target
  obtain ⟨p, hp, hpath⟩ := h.path hend hq target
  refine ⟨p, ?_, hpath⟩
  rw [shortestPath, htraverse]
  exact hp

/-- Two ways from 0 to 3, with three edges and with one. -/
def shortcut : Graph 4 where
  adjList u := match u with
    | 0 => [⟨.castSucc (.castSucc (.last 1)), 14, by decide⟩, ⟨.last 3, 15, by decide⟩]
    | 1 => [⟨.castSucc (.last 2), 16, by decide⟩]
    | 2 => [⟨.last 3, 17, by decide⟩]
    | 3 => []

theorem traverse_exact_shortcut :
    ∃ r events, traverse shortcut (0 : Fin 4).val = some (r, events) ∧ Exact shortcut 0 r ∧
      ∀ target, ∃ p, shortestPath shortcut (0 : Fin 4).val target = some p ∧
        IsPath shortcut 0 r target p :=
  traverse_exact (by decide) shortcut 0

end Cppforge.Graphs.BFS
