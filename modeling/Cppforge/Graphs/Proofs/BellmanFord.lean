import Cppforge.Graphs.Proofs.Shortest

namespace Cppforge.Graphs.BellmanFord
open Function Walks Relaxation

variable {n : Nat} {g : Graph n} {r r' : Round n} {start u v : Fin n} {l : Int}
  {t : List (Fin n × Int)} {T T' T₀ : Fin n → List (Fin n × Int)} {edge : Edge n}
  {edges : List (Edge n)} {nodes : List (Fin n)} {k : Nat}

section Rounds

structure Labelled (g : Graph n) (start : Fin n) (r : ShortestPathResult n)
    (T : Fin n → List (Fin n × Int)) : Prop where
  shows : Shows r T
  labels : Labels g.HasEdge start T

/-- What turns change: labels fall, and if none does the round still counts as unchanged. -/
structure Follows (r r' : Round n) (T T' : Fin n → List (Fin n × Int)) : Prop where
  fall : ∀ x b, AtMost T x b → AtMost T' x b
  same : r'.2 = false → r.2 = false ∧ T' = T

theorem Follows.refl (r : Round n) (T : Fin n → List (Fin n × Int)) : Follows r r T T :=
  ⟨fun _ _ h => h, fun h => ⟨h, rfl⟩⟩

theorem Follows.trans {r'' : Round n} {T'' : Fin n → List (Fin n × Int)} (h : Follows r r' T T')
    (h' : Follows r' r'' T' T'') : Follows r r'' T T'' := by
  refine ⟨fun x b hx => h'.fall x b (h.fall x b hx), ?_⟩
  intro hsame
  obtain ⟨hmid, rfl⟩ := h'.same hsame
  exact h.same hmid

theorem relax_spec (hg : Sane g) (h : Labelled g start r.1 T) (hu : T u = (u, l) :: t)
    (hedge : edge ∈ g.getAdjList u) :
    ∃ T', Labelled g start (relax add32 u r edge).1 T' ∧ Follows r (relax add32 u r edge) T T' ∧
      T' u = T u ∧ AtMost T' edge.target (l + edge.weight) := by
  have he : g.HasEdge u edge.target edge.weight := ⟨edge, hedge, rfl, rfl⟩
  obtain ⟨hsum, _, hless⟩ := hg.add_eq h.labels hu he
  have hiff := h.shows.atMost_iff (v := edge.target) hless
  have hdist : r.1.distance u = l := by
    rcases h.shows.distance u with ⟨hnone, _⟩ | ⟨t', ht', _⟩
    · rw [hu] at hnone
      cases hnone
    · rw [hu, List.cons.injEq, Prod.mk.injEq] at ht'
      exact ht'.1.2.symm
  by_cases hlow : l + edge.weight < r.1.distance edge.target
  · have hnot : ¬ AtMost T edge.target (l + edge.weight) := fun hle => not_lt.mpr (hiff.mp hle) hlow
    have hrelax : relax add32 u r edge = (lowered r.1 u edge.target (l + edge.weight), true) := by
      simp [relax, hdist, hsum, hlow, lowered]
    have hne : u ≠ edge.target := by
      intro heq
      exact h.labels.not_mem hg.nonneg.hasEdge hu he hnot l (heq ▸ hu ▸ List.mem_cons_self)
    rw [hrelax]
    exact ⟨update T edge.target ((edge.target, l + edge.weight) :: T u),
      ⟨h.shows.lower hu hless, h.labels.lower hg.nonneg.hasEdge hu he hnot⟩,
      ⟨fun x b hx => atMost_update hnot hx, fun hfalse => absurd hfalse (by simp)⟩,
      update_of_ne hne .., _, _, update_self .., Int.le_refl _⟩
  · have hrelax : relax add32 u r edge = r := by
      simp [relax, hdist, hsum, hlow]
    rw [hrelax]
    exact ⟨T, h, .refl r T, rfl, hiff.mpr (not_lt.mp hlow)⟩

theorem foldl_spec (hg : Sane g) (h : Labelled g start r.1 T) (hu : T u = (u, l) :: t)
    (hedges : ∀ edge ∈ edges, edge ∈ g.getAdjList u) :
    ∃ T', Labelled g start (edges.foldl (relax add32 u) r).1 T' ∧
      Follows r (edges.foldl (relax add32 u) r) T T' ∧
      ∀ edge ∈ edges, AtMost T' edge.target (l + edge.weight) := by
  induction edges generalizing r T with
  | nil => exact ⟨T, h, .refl r T, by simp⟩
  | cons edge edges ih =>
    obtain ⟨hedge, hrest⟩ := List.forall_mem_cons.mp hedges
    obtain ⟨T₁, h₁, hfollows₁, hsame₁, hedge₁⟩ := relax_spec hg h hu hedge
    obtain ⟨T', h', hfollows', hedges'⟩ := ih h₁ (hsame₁.trans hu) hrest
    exact ⟨T', h', hfollows₁.trans hfollows',
      List.forall_mem_cons.mpr ⟨hfollows'.fall _ _ hedge₁, hedges'⟩⟩

/-- The labels at the start of a round, passed on along the edges of a node. -/
def Passed (g : Graph n) (T₀ T : Fin n → List (Fin n × Int)) (u : Fin n) : Prop :=
  ∀ v c l t, g.HasEdge u v c → T₀ u = (u, l) :: t → AtMost T v (l + c)

theorem relaxNode_spec (hg : Sane g) (h : Labelled g start r.1 T)
    (hfall : ∀ x b, AtMost T₀ x b → AtMost T x b) (u : Fin n) :
    ∃ T', Labelled g start (relaxNode add32 g r u).1 T' ∧
      Follows r (relaxNode add32 g r u) T T' ∧ Passed g T₀ T' u := by
  rcases h.shows.distance u with ⟨hnone, hmax⟩ | ⟨t, ht, hlt⟩
  · rw [relaxNode, if_pos hmax]
    refine ⟨T, h, .refl r T, ?_⟩
    intro v c l t _ hl
    obtain ⟨l', t', hl', _⟩ := hfall u l (.of_eq hl)
    rw [hnone] at hl'
    cases hl'
  · rw [relaxNode, if_neg hlt.ne]
    obtain ⟨T', h', hfollows, hedges⟩ := foldl_spec hg h ht fun edge he => he
    refine ⟨T', h', hfollows, ?_⟩
    rintro v c l t' ⟨edge, hedge, rfl, rfl⟩ hl
    have hle := (hfall u l (.of_eq hl)).le ht
    exact (hedges edge hedge).mono (by omega)

theorem nodes_spec (hg : Sane g) (h : Labelled g start r.1 T)
    (hfall : ∀ x b, AtMost T₀ x b → AtMost T x b) :
    ∃ T', Labelled g start (nodes.foldl (relaxNode add32 g) r).1 T' ∧
      Follows r (nodes.foldl (relaxNode add32 g) r) T T' ∧ ∀ u ∈ nodes, Passed g T₀ T' u := by
  induction nodes generalizing r T with
  | nil => exact ⟨T, h, .refl r T, by simp⟩
  | cons u nodes ih =>
    obtain ⟨T₁, h₁, hfollows₁, hpassed₁⟩ := relaxNode_spec hg h hfall u
    obtain ⟨T', h', hfollows', hpassed'⟩ :=
      ih h₁ fun x b hx => hfollows₁.fall x b (hfall x b hx)
    refine ⟨T', h', hfollows₁.trans hfollows', List.forall_mem_cons.mpr ⟨?_, hpassed'⟩⟩
    exact fun v c l t he hl => hfollows'.fall v _ (hpassed₁ v c l t he hl)

theorem round_spec (hg : Sane g) {result : ShortestPathResult n} (h : Labelled g start result T) :
    ∃ T', Labelled g start (round add32 g result).1 T' ∧
      ((round add32 g result).2 = false → T' = T) ∧ ∀ u, Passed g T T' u := by
  obtain ⟨T', h', hfollows, hpassed⟩ := nodes_spec (r := (result, false)) hg h (fun _ _ hx => hx)
  exact ⟨T', h', fun hsame => (hfollows.same hsame).2, fun u => hpassed u (List.mem_finRange u)⟩

end Rounds

section Lengths

/-- No walk of so many edges weighs less than the label of its end. -/
def Covers (g : Graph n) (start : Fin n) (T : Fin n → List (Fin n × Int)) (k : Nat) : Prop :=
  ∀ p v w, Walk g.HasEdge start p v w → p.length ≤ k + 1 → AtMost T v w

theorem covers_zero (h : Labels g.HasEdge start T) : Covers g start T 0 := by
  intro p v w hw hlen
  cases hw with
  | nil => exact .of_eq h.source
  | snoc hw _ =>
    cases hw <;> simp at hlen

/-- A round covers walks of one edge more. -/
theorem Covers.round (h : Covers g start T k) (hl' : Labels g.HasEdge start T')
    (hpassed : ∀ u, Passed g T T' u) : Covers g start T' (k + 1) := by
  intro p v w hw hlen
  cases hw with
  | nil => exact .of_eq hl'.source
  | snoc hw he =>
    obtain ⟨l, t, hu, hle⟩ := h _ _ _ hw (by simpa using hlen)
    exact (hpassed _ _ _ l t he hu).mono (by omega)

/-- A label that could be lowered would give a walk that is covered, as it has no node twice. -/
theorem Covers.closed (hg : Sane g) (h : Covers g start T (n - 1)) (hl : Labels g.HasEdge start T) :
    Closed g.HasEdge T := by
  intro u v c l t he hu
  by_contra hnot
  have hnew := hl.lower hg.nonneg.hasEdge hu he hnot
  have hT : update T v ((v, l + c) :: T u) v = (v, l + c) :: T u := update_self ..
  have hwalk := (hnew.trail_of hT).walk
  have hlen := (hnew.nodup v).length_le_card
  rw [hT, Fintype.card_fin] at hlen
  refine hnot (h _ v _ hwalk ?_)
  rw [List.length_reverse]
  omega

theorem rounds_spec (hg : Sane g) {result : ShortestPathResult n} (h : Labelled g start result T)
    {done : Nat} (hcovers : Covers g start T done) (hk : done + k = n - 1) :
    ∃ T', Labelled g start (rounds add32 g k result) T' ∧ Closed g.HasEdge T' := by
  induction k generalizing result T done with
  | zero =>
    obtain rfl : done = n - 1 := hk
    exact ⟨T, h, hcovers.closed hg h.labels⟩
  | succ k ih =>
    obtain ⟨T', h', hsame, hpassed⟩ := round_spec hg h
    rw [rounds]
    cases hupdated : (round add32 g result).2 with
    | true =>
      simp only [hupdated, if_true]
      exact ih h' (hcovers.round h'.labels hpassed) (by omega)
    | false =>
      -- an unchanged round finds every edge relaxed
      obtain rfl := hsame hupdated
      simp only [hupdated, Bool.false_eq_true, if_false]
      exact ⟨T', h', fun u v c l t he hu => hpassed u v c l t he hu⟩

theorem shortestPath_spec (hg : Sane g) (start : Fin n) :
    Exact g start (shortestPath add32 g start.val) := by
  have hinit : Labelled g start (.init (some start)) (initial start) :=
    ⟨shows_init start, labels_initial start⟩
  obtain ⟨T, h, hclosed⟩ := rounds_spec hg hinit (covers_zero hinit.labels) (Nat.zero_add (n - 1))
  rw [shortestPath, node_val]
  exact h.shows.exact h.labels hclosed

end Lengths

end Cppforge.Graphs.BellmanFord
