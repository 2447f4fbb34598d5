import Cppforge.Graphs.Proofs.Passes
import Cppforge.Lib.Passes

namespace Cppforge.Graphs.BellmanFord
open Function Walks

variable {n : Nat} {g : Graph n} {add : Int → Int → Int} {r : ShortestPathResult n}
  {start u v : Fin n}
  {p : List (Fin n)} {w : Int}

def NegativeCycle (g : Graph n) (x : Fin n) : Prop := ∃ p w, Walk g.HasEdge x p x w ∧ w < 0

section Detection

/-- No edge can be relaxed. -/
def Relaxed (add : Int → Int → Int) (g : Graph n) (r : ShortestPathResult n) : Prop :=
  ∀ u v c, r.distance u ≠ int32Max → g.HasEdge u v c → r.distance v ≤ add (r.distance u) c

/-- The part of a round that `hasNegativeCycle` has. -/
def distances (r : Round n) : DistRound n := (r.1.distance, r.2)

theorem lower_distances (u : Fin n) (r : Round n) (edge : Edge n) :
    lower add u (distances r) edge = distances (relax add u r edge) := by
  rw [lower, relax]
  split_ifs with h₁ h₂ h₂
  · rfl
  · exact absurd h₁ h₂
  · exact absurd h₂ h₁
  · rfl

theorem lowerNode_distances (r : Round n) (u : Fin n) :
    lowerNode add g (distances r) u = distances (relaxNode add g r u) := by
  rw [lowerNode, relaxNode]
  split_ifs with h₁ h₂ h₂
  · rfl
  · exact absurd h₁ h₂
  · exact absurd h₂ h₁
  · exact List.foldl_hom distances fun r edge => lower_distances u r edge

theorem lowerRound_distances (r : ShortestPathResult n) :
    lowerRound add g r.distance = distances (round add g r) := by
  change (List.finRange n).foldl (lowerNode add g) (distances (r, false)) = _
  exact List.foldl_hom distances fun r u => lowerNode_distances r u

/-- A run of rounds ends early only where no edge can be relaxed any more. -/
theorem lowerRounds_spec (add : Int → Int → Int) (g : Graph n) (k : Nat)
    (r : ShortestPathResult n) :
    lowerRounds add g k r.distance = some ((fun r => (round add g r).1)^[k] r).distance ∨
      lowerRounds add g k r.distance = none ∧
        Relaxed add g ((fun r => (round add g r).1)^[k] r) := by
  induction k generalizing r with
  | zero => exact .inl rfl
  | succ k ih =>
    rw [lowerRounds, lowerRound_distances, iterate_succ_apply]
    cases hupdated : (round add g r).2 with
    | true => simpa [distances, hupdated] using ih _
    | false =>
      obtain ⟨hsame, hrelaxed⟩ := round_unchanged hupdated
      have hfix := iterate_fixed (f := fun r => (round add g r).1) hsame k
      refine .inr ⟨by simp [distances, hupdated], ?_⟩
      rw [hsame, hfix]
      exact hrelaxed

theorem relaxable_iff {dist : Fin n → Int} : relaxable add g dist u = true ↔
    dist u ≠ int32Max ∧ ∃ v c, g.HasEdge u v c ∧ add (dist u) c < dist v := by
  rw [relaxable, Bool.and_eq_true, bne_iff_ne, List.any_eq_true]
  refine and_congr_right fun _ => ⟨?_, ?_⟩
  · intro hany
    obtain ⟨edge, hedge, hless⟩ := hany
    exact ⟨_, _, ⟨edge, hedge, rfl, rfl⟩, of_decide_eq_true hless⟩
  · rintro ⟨_, _, ⟨edge, hedge, rfl, rfl⟩, hless⟩
    exact ⟨edge, hedge, decide_eq_true hless⟩

/-- All distances 0, as from a node with an edge of weight 0 to each. -/
def zeros (n : Nat) : ShortestPathResult n := ⟨fun _ => 0, fun _ => none⟩

theorem hasNegativeCycle_iff : hasNegativeCycle add g = true ↔
    ¬ Relaxed add g ((fun r => (round add g r).1)^[n - 1] (zeros n)) := by
  rw [hasNegativeCycle]
  by_cases hn : n = 0
  · subst hn
    simp [Relaxed]
  · rw [if_neg hn]
    rcases lowerRounds_spec add g (n - 1) (zeros n) with hsome | ⟨hnone, hrelaxed⟩
    · rw [zeros] at hsome
      simp only [hsome, List.any_eq_true, relaxable_iff, Relaxed, not_forall, not_le]
      constructor
      · intro hany
        obtain ⟨u, _, hu, v, c, he, hless⟩ := hany
        exact ⟨u, v, c, hu, he, hless⟩
      · intro hany
        obtain ⟨u, v, c, hu, he, hless⟩ := hany
        exact ⟨u, List.mem_finRange u, hu, v, c, he, hless⟩
    · rw [zeros] at hnone
      simp [hnone, hrelaxed]

/-- The passes of `hasNegativeCycle`, from all nodes. -/
def allPasses (g : Graph n) : Passes (Fin n) := ⟨arcs g, fun _ => True, int32Max⟩

theorem finds_zeros (g : Graph n) :
    (allPasses g).Finds 0 (zeros n).distance (zeros n).previous := by
  apply Passes.finds_zero
  · exact (by decide : (0 : Int) < int32Max)
  · exact fun _ _ => rfl
  · exact fun _ hv => absurd trivial hv
  · exact fun _ => rfl

theorem bounded_zeros (n : Nat) : Bounded (zeros n) := fun _ => (by decide : (0 : Int) ≤ int32Max)

/-- What cannot be relaxed bounds the weight of every walk from below. -/
theorem Relaxed.walk (h : Relaxed (· + ·) g r) (hlow : ∀ v, r.distance v ≠ int32Max)
    (hw : Walk g.HasEdge u p v w) : r.distance v ≤ r.distance u + w := by
  induction hw with
  | nil => omega
  | @snoc v x _ w c _ he ih =>
    have hedge : r.distance x ≤ r.distance v + c := h _ _ _ (hlow v) he
    omega

section Zeros
variable (g : Graph n)

/-- The distances of `hasNegativeCycle` after all turns. -/
def lowest : Fin n → Int :=
  (afterTurns (· + ·) g (zeros n) ((n - 1) * (arcs g).length)).distance

theorem finds_lowest : (allPasses g).Finds ((n - 1) * (arcs g).length) (lowest g)
    (afterTurns (· + ·) g (zeros n) ((n - 1) * (arcs g).length)).previous :=
  finds_turns (allPasses g) rfl rfl (finds_zeros g) _

theorem lowest_le (v : Fin n) : lowest g v < int32Max ∧ lowest g v ≤ 0 :=
  (finds_lowest g).lightest (.start (s := v) trivial) (by simp)

variable {g}

theorem cycle_nonneg {P : Passes (Fin n)} (harcs : P.arcs = arcs g)
    (hnone : ¬ ∃ x, NegativeCycle g x)
    (p : List (Fin n)) (x : Fin n) (w : Int) (_ : P.Low p x w) (q : List (Fin n)) (c : Int)
    (hq : Walk P.HasArc x q x c) : 0 ≤ c := by
  by_contra hneg
  refine hnone ⟨x, q, c, hq.mono ?_, not_le.mp hneg⟩
  intro u v c he
  rw [Passes.HasArc, harcs] at he
  exact mem_arcs.mp he

/-- Without negative cycles the lowest distances are a potential. -/
theorem lowest_edge (hnone : ¬ ∃ x, NegativeCycle g x) {c : Int} (he : g.HasEdge u v c) :
    lowest g v ≤ lowest g u + c := by
  by_contra hle
  have hfinds := finds_lowest g
  have hbound : lowest g v < (allPasses g).bound := (lowest_le g v).1
  obtain ⟨_, ts, p, hfirst, _⟩ := hfinds.found u (lowest_le g u).1.ne
  have hlow := hfirst.taken.low.step (mem_arcs.mpr he) (by omega)
  have hleast := (hfinds.le_of_cycles length_le_nodes (cycle_nonneg rfl hnone) hlow).2
  omega

end Zeros

theorem detects (g : Graph n) :
    hasNegativeCycle (· + ·) g = true ↔ ∃ x, NegativeCycle g x := by
  rw [hasNegativeCycle_iff, ← turns_eq (bounded_zeros n)]
  constructor
  · intro hrelaxed
    by_contra hnone
    exact hrelaxed fun u v c _ he => lowest_edge hnone he
  · rintro ⟨x, p, w, hw, hneg⟩ hrelaxed
    have hle := hrelaxed.walk (fun v => (lowest_le g v).1.ne) hw
    omega

end Detection

section Minimum

/-- The result of so many rounds at most, with the least weight of a walk to each node reached. -/
def MinimumFrom (g : Graph n) (start : Fin n) : Prop :=
  (∀ x, Reaches g.HasEdge start x → ¬ NegativeCycle g x) →
    (∃ k ≤ n - 1, shortestPath (· + ·) g start.val =
      (fun r => (round (· + ·) g r).1)^[k] (.init (some start))) ∧
    ∀ v, Reaches g.HasEdge start v →
      Lightest g.HasEdge start v ((shortestPath (· + ·) g start.val).distance v)

/-- Nodes are reached by a walk of the least weight all parts of which from the start on weigh less
than `INT32_MAX`, or that is the least weight. -/
def ReachedBelow (g : Graph n) (start : Fin n) : Prop :=
  (∀ x, Reaches g.HasEdge start x → ¬ NegativeCycle g x) →
    ∀ v, Reaches g.HasEdge start v → ∃ w, Lightest g.HasEdge start v w ∧
      (w = int32Max ∨ ∃ p, (passes g start.val).Low p v w)

theorem low_walk (h : (passes g start.val).Low p v w) : Walk g.HasEdge start p.reverse v w := by
  obtain ⟨s, hs, hwalk⟩ := h.walk
  have hsame : Graph.node n start.val = some s := hs
  rw [node_val] at hsame
  obtain rfl := Option.some.inj hsame
  exact hwalk.mono fun _ _ _ he => mem_arcs.mp he

theorem minimumFrom_iff (g : Graph n) (start : Fin n) :
    MinimumFrom g start ↔ ReachedBelow g start := by
  refine forall_congr' fun hnone => ?_
  have hfinds := shortestPath_finds g start.val
  constructor
  · rintro ⟨_, hleast⟩ v hv
    refine ⟨_, hleast v hv, ?_⟩
    by_cases hmax : (shortestPath (· + ·) g start.val).distance v = int32Max
    · exact .inl hmax
    · obtain ⟨_, _, p, hfirst, _⟩ := hfinds.found v hmax
      exact .inr ⟨_, hfirst.taken.low⟩
  · intro hreached
    refine ⟨⟨n - 1, le_refl _, ?_⟩, ?_⟩
    · rw [shortestPath, node_val]
      exact rounds_eq _ _
    · intro v hv
      obtain ⟨w, hlightest, hw⟩ := hreached v hv
      have hcycle : ∀ p x w, (passes g start.val).Low p x w → ∀ q c,
          Walk (passes g start.val).HasArc x q x c → 0 ≤ c := by
        intro p x w hp q c hq
        by_contra hneg
        exact hnone x ⟨_, _, low_walk hp⟩
          ⟨q, c, hq.mono fun _ _ _ he => mem_arcs.mp he, not_le.mp hneg⟩
      have habove : (shortestPath (· + ·) g start.val).distance v ≠ int32Max →
          w ≤ (shortestPath (· + ·) g start.val).distance v := by
        intro hmax
        obtain ⟨_, _, p, hfirst, _⟩ := hfinds.found v hmax
        exact hlightest.2 _ _ (low_walk hfirst.taken.low)
      have hbelow := hfinds.le_bound v
      suffices hsame : (shortestPath (· + ·) g start.val).distance v = w by rwa [hsame]
      rcases hw with rfl | ⟨p, hp⟩
      · by_contra hne
        exact hne (Int.le_antisymm hbelow (habove hne))
      · obtain ⟨hlt, hle⟩ := hfinds.le_of_cycles length_le_nodes hcycle hp
        exact Int.le_antisymm hle (habove hlt.ne)

theorem exact_iff_reachedBelow (g : Graph n) (start : Fin n) :
    ((hasNegativeCycle (· + ·) g = true ↔ ∃ x, NegativeCycle g x) ∧ MinimumFrom g start) ↔
      ReachedBelow g start := by
  rw [← minimumFrom_iff]
  exact and_iff_right (detects g)

/-- An edge of weight `INT32_MAX`, and one that leads on. -/
def far : Graph 3 where
  adjList u := match u with
    | 0 => [⟨.castSucc (.last 1), int32Max, by decide⟩]
    | 1 => [⟨.last 2, -5, by decide⟩]
    | 2 => []

theorem exact_far : ¬ ∀ (n : Nat) (g : Graph n) (start : Fin n),
    (hasNegativeCycle (· + ·) g = true ↔ ∃ x, NegativeCycle g x) ∧ MinimumFrom g start := by
  intro hall
  have hnone : ¬ ∃ x, NegativeCycle far x := by
    rw [← detects]
    decide
  have hfirst : far.HasEdge 0 1 int32Max := ⟨⟨1, int32Max, by decide⟩, List.mem_cons_self, rfl, rfl⟩
  have hsecond : far.HasEdge 1 2 (-5) := ⟨⟨2, -5, by decide⟩, List.mem_cons_self, rfl, rfl⟩
  have hwalk := (Walk.edge hfirst).snoc hsecond
  have hleast := ((hall 3 far 0).2 fun x _ hx => hnone ⟨x, hx⟩).2 2 ⟨_, _, hwalk⟩
  have hle := hleast.2 _ _ hwalk
  revert hle
  decide

end Minimum

section Chains
open Passes

variable {previous : Fin n → Option (Fin n)}

end Chains

section Ends

end Ends

end Cppforge.Graphs.BellmanFord
