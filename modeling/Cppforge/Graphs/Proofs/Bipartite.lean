import Cppforge.Graphs.Traversal
import Mathlib.Data.Fintype.Card
import Mathlib.Data.Fintype.Basic

namespace Cppforge.Graphs.BipartiteCheck
open Function

variable {n : Nat} {g : Graph n} {s : State n} {u v : Fin n} {c : Int} {edges : List (Edge n)}
  {side : Fin n → Bool}

section Statement

/-- Every edge joins the two sides. -/
def Proper (g : Graph n) (side : Fin n → Bool) : Prop := ∀ u v, g.Adjacent u v → side u ≠ side v

def Bipartite (g : Graph n) : Prop := ∃ side, Proper g side

/-- The colours are those of two sides. -/
def Colored (g : Graph n) (color : Fin n → Int) : Prop :=
  ∃ side, Proper g side ∧ ∀ v, color v = if side v then 1 else 0

end Statement

section Edges

/-- The nodes that are coloured have the colour of their side. -/
def Shows (color : Fin n → Int) (side : Fin n → Bool) : Prop :=
  ∀ v, color v ≠ -1 → color v = if side v then 1 else 0

/-- The nodes to be coloured and the nodes in the queue. -/
def work (s : State n) : Nat := (Finset.univ.filter fun v => s.result.color v = -1).card + s.q.length

/-- What happens while the edges of a node are looked at, of which `c` is the next colour. -/
structure Grows (c : Int) (s s' : State n) : Prop where
  colors : ∀ v, s'.result.color v = s.result.color v ∨ s'.result.color v = c
  kept : ∀ v, s.result.color v ≠ -1 → s'.result.color v = s.result.color v
  queued : ∀ v, s'.result.color v ≠ -1 → s.result.color v ≠ -1 ∨ v ∈ s'.q
  queue : ∀ v ∈ s.q, v ∈ s'.q
  fresh : ∀ v ∈ s'.q, v ∈ s.q ∨ s'.result.color v ≠ -1
  work : work s' ≤ work s

theorem Grows.refl (c : Int) (s : State n) : Grows c s s :=
  ⟨fun _ => .inl rfl, fun _ _ => rfl, fun _ => .inl, fun _ => id, fun _ => .inl, le_rfl⟩

theorem Grows.trans {s₁ s₂ s₃ : State n} (h : Grows c s₁ s₂) (h' : Grows c s₂ s₃) :
    Grows c s₁ s₃ where
  colors := by
    intro v
    rcases h'.colors v with hv | hv
    · rw [hv]
      exact h.colors v
    · exact .inr hv
  kept := by
    intro v hv
    have hsame := h.kept v hv
    rw [← hsame]
    apply h'.kept
    rwa [hsame]
  queued := by
    intro v hv
    rcases h'.queued v hv with hv | hv
    · exact (h.queued v hv).imp_right (h'.queue v)
    · exact .inr hv
  queue := fun v hv => h'.queue v (h.queue v hv)
  fresh := by
    intro v hv
    rcases h'.fresh v hv with hv | hv
    · refine (h.fresh v hv).imp_right fun hcolor => ?_
      rwa [h'.kept v hcolor]
    · exact .inr hv
  work := h'.work.trans h.work

theorem paint_color (s : State n) (v : Fin n) (c : Int) : (s.paint v c).result.color v = c :=
  update_self ..

theorem paint_color_ne (s : State n) (c : Int) (h : u ≠ v) :
    (s.paint v c).result.color u = s.result.color u := update_of_ne h ..

/-- A node without a colour gets one and is queued. -/
theorem paint_grows (hv : s.result.color v = -1) (hc : c ≠ -1) : Grows c s (s.paint v c) where
  colors := by
    intro u
    by_cases huv : u = v
    · right
      rw [huv, paint_color]
    · exact .inl (paint_color_ne s c huv)
  kept := by
    intro u hu
    apply paint_color_ne
    rintro rfl
    exact hu hv
  queued := by
    intro u hu
    by_cases huv : u = v
    · right
      rw [huv]
      exact List.mem_append_right _ List.mem_cons_self
    · left
      rwa [paint_color_ne s c huv] at hu
  queue := fun u hu => List.mem_append_left _ hu
  fresh := by
    intro u hu
    refine (List.mem_append.mp hu).imp_right fun hlast => ?_
    rwa [List.mem_singleton.mp hlast, paint_color]
  work := by
    have hlt : (Finset.univ.filter fun u => (s.paint v c).result.color u = -1).card <
        (Finset.univ.filter fun u => s.result.color u = -1).card := by
      apply Finset.card_lt_card
      rw [Finset.ssubset_iff_of_subset]
      · refine ⟨v, by simpa using hv, ?_⟩
        rw [Finset.mem_filter, paint_color]
        exact fun h => hc h.2
      · intro u hu
        rw [Finset.mem_filter] at hu ⊢
        refine ⟨hu.1, ?_⟩
        by_cases huv : u = v
        · rwa [huv]
        · rw [paint_color_ne s c huv] at hu
          exact hu.2
    have hlen : (s.paint v c).q.length = s.q.length + 1 := by simp [State.paint]
    unfold BipartiteCheck.work
    omega

theorem paint_shows (h : Shows s.result.color side) (hc : c = if side v then 1 else 0) :
    Shows (s.paint v c).result.color side := by
  intro u hu
  by_cases huv : u = v
  · rw [huv, paint_color]
    exact hc
  · rw [paint_color_ne s c huv] at hu ⊢
    exact h u hu

/-- The colours only grow, and without a conflict every edge ends at the next colour. -/
theorem exploreEdges_grows (hc : c ≠ -1) (edges : List (Edge n)) (s : State n) :
    Grows c s (exploreEdges c edges s) ∧ ((exploreEdges c edges s).result.isBipartite = true →
      ∀ edge ∈ edges, (exploreEdges c edges s).result.color edge.target = c) := by
  induction edges generalizing s with
  | nil => exact ⟨.refl c s, fun _ edge hedge => absurd hedge List.not_mem_nil⟩
  | cons edge edges ih =>
    rw [exploreEdges]
    split
    · rename_i hnew
      obtain ⟨hgrows, hends⟩ := ih (s.paint edge.target c)
      refine ⟨(paint_grows hnew hc).trans hgrows, fun hbip => List.forall_mem_cons.mpr ?_⟩
      refine ⟨?_, hends hbip⟩
      have hpaint := paint_color s edge.target c
      rw [hgrows.kept _ (by rwa [hpaint]), hpaint]
    · split
      · exact ⟨⟨fun _ => .inl rfl, fun _ _ => rfl, fun _ => .inl, fun _ => id, fun _ => .inl, le_rfl⟩, nofun⟩
      · rename_i hold hsame
        obtain ⟨hgrows, hends⟩ := ih s
        refine ⟨hgrows, fun hbip => List.forall_mem_cons.mpr ⟨?_, hends hbip⟩⟩
        rw [hgrows.kept _ hold]
        simpa using hsame

/-- Where there are two sides, no edge conflicts with the colours of a choice of them. -/
theorem exploreEdges_shows (hc : ∀ edge ∈ edges, c = if side edge.target then 1 else 0)
    (hbip : s.result.isBipartite = true) (h : Shows s.result.color side) :
    (exploreEdges c edges s).result.isBipartite = true ∧
      Shows (exploreEdges c edges s).result.color side := by
  induction edges generalizing s with
  | nil => exact ⟨hbip, h⟩
  | cons edge edges ih =>
    obtain ⟨hedge, hrest⟩ := List.forall_mem_cons.mp hc
    rw [exploreEdges]
    split
    · exact ih hrest hbip (paint_shows h hedge)
    · rename_i hold
      rw [if_neg]
      · exact ih hrest hbip h
      · rw [h _ hold, ← hedge]
        exact fun hne => hne rfl

end Edges

section Queue

/-- The edges of coloured nodes that are not in the queue lead to the other colour. -/
structure Explored (g : Graph n) (s : State n) : Prop where
  colors : ∀ v, s.result.color v = -1 ∨ s.result.color v = 0 ∨ s.result.color v = 1
  queued : ∀ v ∈ s.q, s.result.color v ≠ -1
  done : s.result.isBipartite = true → ∀ u v, s.result.color u ≠ -1 → u ∉ s.q → g.Adjacent u v →
    s.result.color v = 1 - s.result.color u

theorem Explored.next_ne (h : Explored g s) (u : Fin n) : 1 - s.result.color u ≠ -1 := by
  have := h.colors u
  omega

/-- The turn of the loop for a node. -/
theorem Explored.visit {q : List (Fin n)} (h : Explored g s) (hq : s.q = u :: q)
    (hbip : s.result.isBipartite = true) :
    Explored g (exploreEdges (1 - s.result.color u) (g.getAdjList u) { s with q := q }) := by
  obtain ⟨hgrows, hends⟩ := exploreEdges_grows (h.next_ne u) (g.getAdjList u) { s with q := q }
  generalize exploreEdges (1 - s.result.color u) (g.getAdjList u) { s with q := q } = s'
    at hgrows hends
  constructor
  · intro v
    rcases hgrows.colors v with hv | hv
    · rw [hv]
      exact h.colors v
    · rw [hv]
      have hu := h.queued u (hq ▸ List.mem_cons_self)
      have := h.colors u
      omega
  · intro v hv
    rcases hgrows.fresh v hv with hv | hv
    · have hold := h.queued v (hq ▸ List.mem_cons_of_mem u hv)
      rwa [hgrows.kept v hold]
    · exact hv
  · intro hbip' x v hx hxq hadj
    have hold : s.result.color x ≠ -1 := (hgrows.queued x hx).resolve_right hxq
    rw [hgrows.kept x hold]
    by_cases hxu : x = u
    · subst hxu
      obtain ⟨edge, hedge, rfl⟩ := hadj
      exact hends hbip' edge hedge
    · have hnot : x ∉ s.q := by
        rw [hq, List.mem_cons, not_or]
        exact ⟨hxu, fun hmem => hxq (hgrows.queue x hmem)⟩
      have hv := h.done hbip x v hold hnot hadj
      rw [hgrows.kept v (by rw [hv]; exact h.next_ne x)]
      exact hv

theorem Explored.paint {result : BipartiteResult n} (h : Explored g ⟨result, []⟩)
    (hbip : result.isBipartite = true) {start : Fin n} (hnew : result.color start = -1) :
    Explored g (State.paint ⟨result, []⟩ start 0) := by
  constructor
  · intro v
    by_cases hv : v = start
    · rw [hv, paint_color]
      exact .inr (.inl rfl)
    · rw [paint_color_ne _ 0 hv]
      exact h.colors v
  · intro v hv
    obtain rfl : v = start := by simpa [State.paint] using hv
    rw [paint_color]
    omega
  · intro _ u v hu hnot hadj
    have hus : u ≠ start := by simpa [State.paint] using hnot
    rw [paint_color_ne _ 0 hus] at hu ⊢
    have hother : result.color v = 1 - result.color u :=
      h.done hbip u v hu List.not_mem_nil hadj
    by_cases hv : v = start
    · rw [← hv, hother] at hnew
      exact absurd hnew (h.next_ne u)
    · rw [paint_color_ne _ 0 hv]
      exact hother

theorem loop_stop (h : s.result.isBipartite = false) (turns : Nat) :
    loop g (turns + 1) s = some s := by
  rw [loop]
  split
  · rfl
  · rw [h]
    rfl

/-- Where the loop over the queue ends: it has found a conflict, or the queue is empty. -/
structure Ends (g : Graph n) (s s' : State n) : Prop where
  explored : Explored g s'
  drained : s'.result.isBipartite = true → s'.q = []
  kept : ∀ v, s.result.color v ≠ -1 → s'.result.color v = s.result.color v
  shows : ∀ side, Proper g side → Shows s.result.color side →
    s'.result.isBipartite = true ∧ Shows s'.result.color side

theorem loop_ends {turns : Nat} (hturns : work s < turns) (hbip : s.result.isBipartite = true)
    (h : Explored g s) : ∃ s', loop g turns s = some s' ∧ Ends g s s' := by
  induction turns generalizing s with
  | zero => omega
  | succ turns ih =>
    cases hq : s.q with
    | nil =>
      refine ⟨s, by rw [loop, hq], h, fun _ => hq, fun _ _ => rfl, fun _ _ hs => ⟨hbip, hs⟩⟩
    | cons u q =>
      have hvisit := h.visit hq hbip
      obtain ⟨hgrows, -⟩ := exploreEdges_grows (h.next_ne u) (g.getAdjList u) { s with q := q }
      have hshows : ∀ side, Proper g side → Shows s.result.color side →
          (exploreEdges (1 - s.result.color u) (g.getAdjList u)
            { s with q := q }).result.isBipartite = true ∧
          Shows (exploreEdges (1 - s.result.color u) (g.getAdjList u)
            { s with q := q }).result.color side := by
        intro side hproper hs
        apply exploreEdges_shows (s := { s with q := q }) ?_ hbip hs
        intro edge hedge
        have hne := hproper u edge.target ⟨edge, hedge, rfl⟩
        rw [hs u (h.queued u (hq ▸ List.mem_cons_self))]
        cases hu : side u <;> cases hv : side edge.target <;> simp_all
      have hloop : loop g (turns + 1) s = loop g turns
          (exploreEdges (1 - s.result.color u) (g.getAdjList u) { s with q := q }) := by
        rw [loop, hq]
        exact if_pos hbip
      rw [hloop]
      have hless : work { s with q := q } < turns := by
        unfold work at hturns ⊢
        rw [hq, List.length_cons] at hturns
        exact Nat.lt_of_succ_lt_succ hturns
      generalize exploreEdges (1 - s.result.color u) (g.getAdjList u) { s with q := q } = s₁
        at hvisit hgrows hshows
      have hwork := hgrows.work
      cases hbip₁ : s₁.result.isBipartite with
      | true =>
        obtain ⟨s', hs', hends⟩ := ih (Nat.lt_of_le_of_lt hwork hless) hbip₁ hvisit
        refine ⟨s', hs', hends.explored, hends.drained, ?_, ?_⟩
        · intro v hv
          have hsame := hgrows.kept v hv
          rw [hends.kept v (by rwa [hsame])]
          exact hsame
        · exact fun side hproper hs => hends.shows side hproper (hshows side hproper hs).2
      | false =>
        obtain ⟨turns, rfl⟩ : ∃ t, turns = t + 1 := ⟨turns - 1, by omega⟩
        refine ⟨s₁, loop_stop hbip₁ turns, hvisit, ?_, hgrows.kept, hshows⟩
        intro hbip'
        rw [hbip₁] at hbip'
        cases hbip'

end Queue

section Nodes
variable {result : BipartiteResult n} {start : Fin n}

/-- The sides of the nodes that are not coloured are exchanged where that is needed. -/
theorem exists_side (h : Explored g ⟨result, []⟩) (hbip : result.isBipartite = true)
    (hsymm : ∀ u v, g.Adjacent u v → g.Adjacent v u) (hproper : Proper g side)
    (hs : Shows result.color side) (hstart : result.color start = -1) :
    ∃ side', Proper g side' ∧ Shows result.color side' ∧ side' start = false := by
  have hcut : ∀ u v, g.Adjacent u v → (result.color u = -1 ↔ result.color v = -1) := by
    have hone : ∀ u v, g.Adjacent u v → result.color v = -1 → result.color u = -1 := by
      intro u v hadj hv
      by_contra hu
      have hother : result.color v = 1 - result.color u :=
        h.done hbip u v hu List.not_mem_nil hadj
      rw [hv] at hother
      exact h.next_ne u hother.symm
    exact fun u v hadj => ⟨hone v u (hsymm u v hadj), hone u v hadj⟩
  refine ⟨fun v => if result.color v = -1 then side v ^^ side start else side v, ?_, ?_, ?_⟩
  · intro u v hadj
    have hne := hproper u v hadj
    have hiff := hcut u v hadj
    by_cases hu : result.color u = -1
    · simpa [hu, hiff.mp hu] using hne
    · simpa [hu, mt hiff.mpr hu] using hne
  · intro v hv
    simpa [hv] using hs v hv
  · simp [hstart]

/-- Where the loop over the nodes ends. -/
theorem checkFrom_spec (nodes : List (Fin n)) (hbip : result.isBipartite = true)
    (h : Explored g ⟨result, []⟩) :
    ∃ result', checkFrom g nodes result = some result' ∧
      (result'.isBipartite = true → Explored g ⟨result', []⟩ ∧
        (∀ v, result.color v ≠ -1 → result'.color v ≠ -1) ∧ ∀ v ∈ nodes, result'.color v ≠ -1) ∧
      ((∀ u v, g.Adjacent u v → g.Adjacent v u) → ∀ side, Proper g side →
        Shows result.color side → result'.isBipartite = true) := by
  induction nodes generalizing result with
  | nil =>
    exact ⟨result, rfl, fun _ => ⟨h, fun _ => id, fun v hv => absurd hv List.not_mem_nil⟩,
      fun _ _ _ _ => hbip⟩
  | cons start nodes ih =>
    rw [checkFrom]
    split
    · rename_i hold
      obtain ⟨result', hresult', hends, hshows⟩ := ih hbip h
      refine ⟨result', hresult', fun hbip' => ?_, hshows⟩
      obtain ⟨hexplored, hkept, hall⟩ := hends hbip'
      exact ⟨hexplored, hkept, List.forall_mem_cons.mpr ⟨hkept start hold, hall⟩⟩
    · rename_i hnew
      rw [ne_eq, not_not] at hnew
      have hgrows : Grows 0 ⟨result, []⟩ (State.paint ⟨result, []⟩ start 0) :=
        paint_grows hnew (by omega)
      have hwork : work (State.paint ⟨result, []⟩ start 0) < n + 1 := by
        refine Nat.lt_succ_of_le (hgrows.work.trans ?_)
        exact (Finset.card_le_univ (Finset.univ.filter fun v => result.color v = -1)).trans
          (Fintype.card_fin n).le
      obtain ⟨s', hloop, hends⟩ := loop_ends hwork hbip (h.paint hbip hnew)
      have hshows : (∀ u v, g.Adjacent u v → g.Adjacent v u) → ∀ side, Proper g side →
          Shows result.color side → s'.result.isBipartite = true ∧
            ∃ side', Proper g side' ∧ Shows s'.result.color side' := by
        intro hsymm side hproper hs
        obtain ⟨side', hproper', hs', hfalse⟩ := exists_side h hbip hsymm hproper hs hnew
        obtain ⟨hbip', hs''⟩ := hends.shows side' hproper' (paint_shows hs' (by rw [hfalse]; rfl))
        exact ⟨hbip', side', hproper', hs''⟩
      rw [hloop]
      cases hbip' : s'.result.isBipartite with
      | false =>
        refine ⟨s'.result, by simp [hbip'], fun hbip'' => ?_, fun hsymm side hproper hs => ?_⟩
        · rw [hbip'] at hbip''
          cases hbip''
        · exact (hshows hsymm side hproper hs).1
      | true =>
        have hdone : Explored g ⟨s'.result, []⟩ := by
          have hexplored := hends.explored
          rwa [show s' = ⟨s'.result, []⟩ from congrArg (State.mk s'.result) (hends.drained hbip')]
            at hexplored
        obtain ⟨result', hresult', hrest, hshows'⟩ := ih hbip' hdone
        refine ⟨result', by simpa [hbip'] using hresult', fun hbip'' => ?_, ?_⟩
        · obtain ⟨hexplored, hkept, hall⟩ := hrest hbip''
          have hkept' : ∀ v, (State.paint ⟨result, []⟩ start 0).result.color v ≠ -1 →
              result'.color v ≠ -1 := by
            intro v hv
            apply hkept
            rwa [hends.kept v hv]
          refine ⟨hexplored, ?_, List.forall_mem_cons.mpr ⟨hkept' start ?_, hall⟩⟩
          · intro v hv
            apply hkept'
            rwa [hgrows.kept v hv]
          · rw [paint_color]
            omega
        · intro hsymm side hproper hs
          obtain ⟨-, side', hproper', hs'⟩ := hshows hsymm side hproper hs
          exact hshows' hsymm side' hproper' hs'

/-- On a graph with all edges both ways the check is exact, and the colours it leaves are two
sides. -/
theorem check_exact (g : Graph n) (hsymm : ∀ u v, g.Adjacent u v → g.Adjacent v u) :
    ∃ result, check g = some result ∧ (result.isBipartite = true ↔ Bipartite g) ∧
      (result.isBipartite = true → Colored g result.color) := by
  have hstart : Explored g ⟨⟨true, fun _ => -1⟩, []⟩ :=
    ⟨fun _ => .inl rfl, fun v hv => absurd hv List.not_mem_nil, fun _ u _ hu => absurd rfl hu⟩
  obtain ⟨result, hresult, hends, hshows⟩ := checkFrom_spec (List.finRange n) rfl hstart
  have hcolored : result.isBipartite = true → Colored g result.color := by
    intro hbip
    obtain ⟨hexplored, -, hall⟩ := hends hbip
    have hcolor : ∀ v, result.color v = 0 ∨ result.color v = 1 := by
      intro v
      exact (hexplored.colors v).resolve_left (hall v (List.mem_finRange v))
    refine ⟨fun v => result.color v == 1, ?_, ?_⟩
    · intro u v hadj
      have hother : result.color v = 1 - result.color u :=
        hexplored.done hbip u v (hall u (List.mem_finRange u)) List.not_mem_nil hadj
      rcases hcolor u with hu | hu <;> simp [hother, hu]
    · intro v
      rcases hcolor v with hv | hv <;> simp [hv]
  refine ⟨result, hresult, ⟨fun hbip => ?_, ?_⟩, hcolored⟩
  · obtain ⟨side, hproper, -⟩ := hcolored hbip
    exact ⟨side, hproper⟩
  · rintro ⟨side, hproper⟩
    exact hshows hsymm side hproper fun v hv => absurd rfl hv

/-- A square. -/
theorem check_exact_square : ∃ g result,
    Graph.undirected 4 [(0, 1, 1), (1, 2, 1), (2, 3, 1), (3, 0, 1)] = some g ∧
      check g = some result ∧ (result.isBipartite = true ↔ Bipartite g) ∧
      (result.isBipartite = true → Colored g result.color) := by
  obtain ⟨g, hg⟩ : ∃ g,
      Graph.undirected 4 [(0, 1, 1), (1, 2, 1), (2, 3, 1), (3, 0, 1)] = some g := ⟨_, rfl⟩
  obtain ⟨result, h⟩ := check_exact g (Graph.adjacent_symm hg)
  exact ⟨g, result, hg, h⟩

end Nodes

end Cppforge.Graphs.BipartiteCheck
