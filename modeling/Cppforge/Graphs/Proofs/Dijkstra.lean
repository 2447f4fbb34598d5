import Cppforge.Graphs.Proofs.BellmanFord
import Mathlib.Algebra.BigOperators.Fin

namespace Cppforge.Graphs.Dijkstra
open Function Walks Relaxation

variable {n : Nat} {Q : Heap n} {g : Graph n} {s s' : State Q} {start u v : Fin n} {l : Int}
  {t : List (Fin n × Int)} {T T' : Fin n → List (Fin n × Int)} {edge : Edge n}
  {edges : List (Edge n)} {top : DijkstraState n}

section Turns

/-- Entries and distances; it falls with every turn. -/
def potential (s : State Q) : Nat := Q.size s.pq + ∑ v, (s.result.distance v).toNat

theorem turns_eq (s : State Q) : turns s = potential s + 1 := by
  rw [turns, potential, Fin.sum_univ_def]

theorem size_pop (htop : Q.top s.pq = some top) : Q.size (Q.pop s.pq) + 1 = Q.size s.pq := by
  rw [← Q.card_entries, ← Q.card_entries, Q.entries_pop top s.pq htop, Multiset.card_cons]

theorem relax_potential (u : Fin n) (d : Int) (s : State Q) (edge : Edge n) :
    potential (relax u d s edge) ≤ potential s := by
  rw [relax]
  split
  · rename_i hlow
    have hsize : Q.size (Q.push ⟨edge.target, add32 d edge.weight⟩ s.pq) = Q.size s.pq + 1 := by
      rw [← Q.card_entries, Q.entries_push, Multiset.card_cons, Q.card_entries]
    have hless : (∑ v, (update s.result.distance edge.target (add32 d edge.weight) v).toNat) <
        ∑ v, (s.result.distance v).toNat := by
      refine Finset.sum_lt_sum ?_ ⟨edge.target, Finset.mem_univ _, ?_⟩
      · intro v _
        by_cases hv : v = edge.target
        · subst hv
          rw [update_self]
          omega
        · rw [update_of_ne hv]
      · rw [update_self]
        omega
    simp only [potential, hsize]
    omega
  · exact Nat.le_refl _

theorem foldl_potential (u : Fin n) (d : Int) (edges : List (Edge n)) (s : State Q) :
    potential (edges.foldl (relax u d) s) ≤ potential s := by
  induction edges generalizing s with
  | nil => exact Nat.le_refl _
  | cons edge edges ih => exact (ih _).trans (relax_potential u d s edge)

theorem visit_potential (g : Graph n) (htop : Q.top s.pq = some top) :
    potential (visit g top { s with pq := Q.pop s.pq }) < potential s := by
  have hpop : potential { s with pq := Q.pop s.pq } + 1 = potential s := by
    have hsize := size_pop htop
    simp only [potential]
    omega
  rw [visit]
  split
  · omega
  · have hfold := foldl_potential top.node top.dist (g.getAdjList top.node)
      { s with pq := Q.pop s.pq }
    omega

end Turns

section Queue

/-- The labels of a state; no entry is at `INT32_MAX`. -/
structure Labelled (g : Graph n) (start : Fin n) (s : State Q) (T : Fin n → List (Fin n × Int)) :
    Prop where
  shows : Shows s.result T
  labels : Labels g.HasEdge start T
  below : ∀ x ∈ Q.entries s.pq, x.dist < int32Max

/-- What turns over edges change: labels fall, and a new label is queued. -/
structure Follows (s s' : State Q) (T T' : Fin n → List (Fin n × Int)) : Prop where
  fall : ∀ x b, AtMost T x b → AtMost T' x b
  queue : ∀ x, T' x = T x ∨ ∃ l t, T' x = (x, l) :: t ∧ ⟨x, l⟩ ∈ Q.entries s'.pq
  keep : ∀ x ∈ Q.entries s.pq, x ∈ Q.entries s'.pq

theorem Follows.refl (s : State Q) (T : Fin n → List (Fin n × Int)) : Follows s s T T :=
  ⟨fun _ _ h => h, fun _ => .inl rfl, fun _ h => h⟩

theorem Follows.trans {s'' : State Q} {T'' : Fin n → List (Fin n × Int)} (h : Follows s s' T T')
    (h' : Follows s' s'' T' T'') : Follows s s'' T T'' := by
  refine ⟨fun x b hx => h'.fall x b (h.fall x b hx), ?_, fun x hx => h'.keep x (h.keep x hx)⟩
  intro x
  rcases h'.queue x with hx | hx
  · rw [hx]
    rcases h.queue x with hx | ⟨l, t, hx, hentry⟩
    · exact .inl hx
    · exact .inr ⟨l, t, hx, h'.keep _ hentry⟩
  · exact .inr hx

/-- One edge of a node with a label. -/
theorem relax_spec (hg : Sane g) (h : Labelled g start s T) (hu : T u = (u, l) :: t)
    (hedge : edge ∈ g.getAdjList u) :
    ∃ T', Labelled g start (relax u l s edge) T' ∧ Follows s (relax u l s edge) T T' ∧
      T' u = T u ∧ AtMost T' edge.target (l + edge.weight) := by
  have he : g.HasEdge u edge.target edge.weight := ⟨edge, hedge, rfl, rfl⟩
  obtain ⟨hsum, hnonneg, hless⟩ := hg.add_eq h.labels hu he
  have hiff := h.shows.atMost_iff (v := edge.target) hless
  by_cases hlow : l + edge.weight < s.result.distance edge.target
  · have hnot : ¬ AtMost T edge.target (l + edge.weight) := fun hle => not_lt.mpr (hiff.mp hle) hlow
    have hrelax : relax u l s edge = ⟨lowered s.result u edge.target (l + edge.weight),
        Q.push ⟨edge.target, l + edge.weight⟩ s.pq⟩ := by
      rw [relax, hsum, if_pos ⟨hnonneg, hlow⟩]
      rfl
    have hentries : ∀ x, x ∈ Q.entries (Q.push ⟨edge.target, l + edge.weight⟩ s.pq) ↔
        x = ⟨edge.target, l + edge.weight⟩ ∨ x ∈ Q.entries s.pq := fun x => by
      rw [Q.entries_push, Multiset.mem_cons]
    have hne : u ≠ edge.target := by
      intro heq
      exact h.labels.not_mem hg.nonneg.hasEdge hu he hnot l (heq ▸ hu ▸ List.mem_cons_self)
    rw [hrelax]
    refine ⟨update T edge.target ((edge.target, l + edge.weight) :: T u), ⟨?_, ?_, ?_⟩, ⟨?_, ?_, ?_⟩,
      update_of_ne hne .., ?_⟩
    · exact h.shows.lower hu hless
    · exact h.labels.lower hg.nonneg.hasEdge hu he hnot
    · intro x hx
      rcases (hentries x).mp hx with rfl | hx
      · exact hless
      · exact h.below x hx
    · exact fun x b hx => atMost_update hnot hx
    · intro x
      by_cases hx : x = edge.target
      · subst hx
        exact .inr ⟨_, _, update_self .., (hentries _).mpr (.inl rfl)⟩
      · exact .inl (update_of_ne hx ..)
    · exact fun x hx => (hentries x).mpr (.inr hx)
    · exact ⟨_, _, update_self .., Int.le_refl _⟩
  · have hrelax : relax u l s edge = s := by
      rw [relax, hsum, if_neg fun hif => hlow hif.2]
    rw [hrelax]
    exact ⟨T, h, .refl s T, rfl, hiff.mpr (not_lt.mp hlow)⟩

theorem foldl_spec (hg : Sane g) (h : Labelled g start s T) (hu : T u = (u, l) :: t)
    (hedges : ∀ edge ∈ edges, edge ∈ g.getAdjList u) :
    ∃ T', Labelled g start (edges.foldl (relax u l) s) T' ∧
      Follows s (edges.foldl (relax u l) s) T T' ∧ T' u = T u ∧
      ∀ edge ∈ edges, AtMost T' edge.target (l + edge.weight) := by
  induction edges generalizing s T with
  | nil => exact ⟨T, h, .refl s T, rfl, by simp⟩
  | cons edge edges ih =>
    obtain ⟨hedge, hrest⟩ := List.forall_mem_cons.mp hedges
    obtain ⟨T₁, h₁, hfollows₁, hsame₁, hedge₁⟩ := relax_spec hg h hu hedge
    obtain ⟨T', h', hfollows', hsame', hedges'⟩ := ih h₁ (hsame₁.trans hu) hrest
    refine ⟨T', h', hfollows₁.trans hfollows', hsame'.trans hsame₁, ?_⟩
    exact List.forall_mem_cons.mpr ⟨hfollows'.fall _ _ hedge₁, hedges'⟩

/-- The edges of a node cannot lower a label. -/
def Done (g : Graph n) (T : Fin n → List (Fin n × Int)) (u : Fin n) : Prop :=
  ∀ v c l t, g.HasEdge u v c → T u = (u, l) :: t → AtMost T v (l + c)

/-- Every label is queued or has been passed on. -/
structure Searched (g : Graph n) (start : Fin n) (s : State Q) (T : Fin n → List (Fin n × Int)) :
    Prop where
  labelled : Labelled g start s T
  queued : ∀ u l t, T u = (u, l) :: t → ⟨u, l⟩ ∈ Q.entries s.pq ∨ Done g T u

theorem Searched.visit (hg : Sane g) (h : Searched g start s T) (htop : Q.top s.pq = some top) :
    ∃ T', Searched g start (Dijkstra.visit g top { s with pq := Q.pop s.pq }) T' := by
  have hpop := Q.entries_pop top s.pq htop
  have hsub : ∀ x, x ∈ Q.entries s.pq ↔ x = top ∨ x ∈ Q.entries (Q.pop s.pq) := fun x => by
    rw [hpop, Multiset.mem_cons]
  have hlabelled : Labelled g start { s with pq := Q.pop s.pq } T :=
    ⟨h.labelled.shows, h.labelled.labels, fun x hx => h.labelled.below x ((hsub x).mpr (.inr hx))⟩
  by_cases hstale : top.dist ≠ s.result.distance top.node
  · rw [Dijkstra.visit, if_pos hstale]
    refine ⟨T, hlabelled, ?_⟩
    intro u l t hu
    refine (h.queued u l t hu).imp_left fun hentry => ?_
    rcases (hsub _).mp hentry with rfl | hentry
    · obtain ⟨t', ht'⟩ | ⟨t', ht', _⟩ := h.labelled.shows.distance u
      · rw [hu] at t'
        cases t'
      · rw [hu, List.cons.injEq, Prod.mk.injEq] at ht'
        exact absurd ht'.1.2 hstale
    · exact hentry
  · have hcurrent : top.dist = s.result.distance top.node := not_not.mp hstale
    have hbelow := h.labelled.below top ((hsub top).mpr (.inl rfl))
    obtain ⟨t, ht⟩ := h.labelled.shows.label (v := top.node) (by omega)
    rw [← hcurrent] at ht
    obtain ⟨T', h', hfollows, hsame, hedges⟩ := foldl_spec hg hlabelled ht fun edge he => he
    rw [Dijkstra.visit, if_neg hstale]
    refine ⟨T', h', ?_⟩
    intro u l t' hu
    by_cases hut : u = top.node
    · subst hut
      refine .inr ?_
      rintro v c m t'' ⟨edge, hedge, rfl, rfl⟩ hm
      rw [hsame, ht, List.cons.injEq, Prod.mk.injEq] at hm
      exact hm.1.2 ▸ hedges edge hedge
    · rcases hfollows.queue u with hkept | ⟨m, t'', hm, hentry⟩
      · rw [hkept] at hu
        rcases h.queued u l t' hu with hentry | hdone
        · rcases (hsub _).mp hentry with rfl | hentry
          · exact absurd rfl hut
          · exact .inl (hfollows.keep _ hentry)
        · refine .inr fun v c m t'' he hm => ?_
          rw [hkept] at hm
          exact hfollows.fall v _ (hdone v c m t'' he hm)
      · rw [hu, List.cons.injEq, Prod.mk.injEq] at hm
        exact .inl (hm.1.2 ▸ hentry)

theorem loop_spec (hg : Sane g) (h : Searched g start s T) {turns : Nat}
    (hturns : potential s < turns) :
    ∃ s' T', loop g turns s = some s' ∧ Searched g start s' T' ∧ Q.entries s'.pq = 0 := by
  induction turns generalizing s T with
  | zero => omega
  | succ turns ih =>
    rw [loop]
    cases htop : Q.top s.pq with
    | none => exact ⟨s, T, rfl, h, Q.top_none s.pq htop⟩
    | some top =>
      obtain ⟨T', h'⟩ := h.visit hg htop
      have hless := visit_potential g htop
      exact ih h' (by omega)

/-- The search ends with exact distances, whatever order equal entries come out in. -/
theorem shortestPath_spec (hg : Sane g) (Q : Heap n) (start : Fin n) :
    ∃ r, shortestPath Q g start.val = some r ∧ Exact g start r := by
  let s : State Q := ⟨.init (some start), Q.push ⟨start, 0⟩ Q.empty⟩
  have hentries : Q.entries s.pq = {⟨start, 0⟩} := by
    change Q.entries (Q.push _ Q.empty) = _
    rw [Q.entries_push, Q.entries_empty]
    rfl
  have hstart : Searched g start s (initial start) := by
    refine ⟨⟨shows_init start, labels_initial start, ?_⟩, ?_⟩
    · intro x hx
      rw [hentries, Multiset.mem_singleton] at hx
      simp [hx, int32Max]
    · intro u l t hu
      by_cases hus : u = start
      · subst hus
        rw [(labels_initial (E := g.HasEdge) u).source, List.cons.injEq, Prod.mk.injEq] at hu
        rw [hentries, ← hu.1.2]
        exact .inl (Multiset.mem_singleton_self _)
      · rw [initial, update_of_ne hus] at hu
        cases hu
  have hturns : potential s < turns s := by
    rw [turns_eq]
    exact Nat.lt_succ_self _
  obtain ⟨s', T', hrun, h', hempty⟩ := loop_spec hg hstart hturns
  refine ⟨s'.result, ?_, h'.labelled.shows.exact h'.labelled.labels ?_⟩
  · rw [shortestPath, node_val]
    change (loop g (turns s) s).map _ = _
    rw [hrun, Option.map_some]
  · intro u v c l t he hu
    rcases h'.queued u l t hu with hentry | hdone
    · rw [hempty] at hentry
      cases Multiset.notMem_zero _ hentry
    · exact hdone v c l t he hu

end Queue

section Agreement

/-- Dijkstra's algorithm finds the least weights of walks, as Bellman-Ford does, and paths that
have them. -/
theorem shortestPath_exact (Q : Heap n) (g : Graph n) (start : Fin n) (hnonneg : g.NonNegative)
    (htotal : g.totalWeight < int32Max) :
    ∃ r, shortestPath Q g start.val = some r ∧
      ∀ v, r.distance v = (BellmanFord.shortestPath add32 g start.val).distance v ∧
        (∀ p w, Walk g.HasEdge start p v w → r.distance v ≤ w) ∧
        (r.distance v = int32Max ↔ ¬ Reaches g.HasEdge start v) ∧
        (Reaches g.HasEdge start v → ∃ p, r.reconstructPath v.val = some p ∧
          Walk g.HasEdge start p v (r.distance v)) := by
  have hg : Sane g := ⟨hnonneg, htotal⟩
  obtain ⟨r, hrun, hexact⟩ := shortestPath_spec hg Q start
  have hbellman := BellmanFord.shortestPath_spec hg start
  refine ⟨r, hrun, ?_⟩
  intro v
  have hdist := hexact.distance v
  refine ⟨hdist.unique (hbellman.distance v), hdist.least, ?_, hexact.path v⟩
  constructor
  · exact fun hmax hreach => hdist.reached hreach hmax
  · intro hreach
    by_contra hne
    obtain ⟨p, hp⟩ := hdist.walk hne
    exact hreach ⟨p, _, hp⟩

/-- A loop, two parallel edges, and a cycle of weight zero. -/
def cyclic : Graph 3 where
  adjList u := match u with
    | 0 => [⟨0, 1, by decide⟩, ⟨1, 4, by decide⟩, ⟨1, 2, by decide⟩]
    | 1 => [⟨2, 0, by decide⟩]
    | 2 => [⟨1, 0, by decide⟩]

theorem shortestPath_cyclic :
    ∃ r, shortestPath (.sortedList _) cyclic 0 = some r ∧
      ∀ v, r.distance v = (BellmanFord.shortestPath add32 cyclic 0).distance v ∧
        (∀ p w, Walk cyclic.HasEdge 0 p v w → r.distance v ≤ w) ∧
        (r.distance v = int32Max ↔ ¬ Reaches cyclic.HasEdge 0 v) ∧
        (Reaches cyclic.HasEdge 0 v → ∃ p, r.reconstructPath v.val = some p ∧
          Walk cyclic.HasEdge 0 p v (r.distance v)) := by
  have hnonneg : cyclic.NonNegative := by
    unfold Graph.NonNegative
    decide
  exact shortestPath_exact (.sortedList _) cyclic 0 hnonneg (by decide)

end Agreement

end Cppforge.Graphs.Dijkstra
