import Cppforge.Graphs.Proofs.Unreachable

/-! The sums of the main loop: negative cycles let the weights grow from turn to turn. -/

namespace Cppforge.Graphs.FloydWarshall
open Walks AllPairs

variable {n : Nat} {g : Graph n} {r : AllPairsShortestPathResult n} {i j u v : Fin n}
  {t : Fin n × Fin n × Fin n} {ts : List (Fin n × Fin n × Fin n)} {w : Int} {W : Nat}

section Sums

/-- The turns of the three loops in their order, as `k`, `i` and `j`. -/
def allTurns (n : Nat) : List (Fin n × Fin n × Fin n) := turns (List.finRange n) (List.finRange n)

def relaxAt (r : AllPairsShortestPathResult n) : Fin n × Fin n × Fin n →
    AllPairsShortestPathResult n
  | (k, i, j) => relax k i r j

/-- The matrices after the first turns. -/
def after (g : Graph n) (ts : List (Fin n × Fin n × Fin n)) : AllPairsShortestPathResult n :=
  ts.foldl relaxAt (init g)

/-- The sum of a turn. -/
def turnSum (d : Fin n → Fin n → Int) : Fin n × Fin n × Fin n → Int
  | (k, i, j) => d i k + d k j

/-- Each sum that the main loop takes fits into an `int32_t`. -/
def SumsFit (g : Graph n) : Prop :=
  ∀ done t, done ++ [t] <+: allTurns n → InRange (turnSum (after g done).distances t)

/-- No walk that the turns put together weighs less than an `int32_t` can hold. -/
def Mild (g : Graph n) : Prop :=
  ∀ i j w, Composed (init g).distances (allTurns n) i j w → -2147483648 ≤ w

theorem relaxAt_distances (h : InRange (turnSum r.distances t)) :
    (relaxAt r t).distances = lowerAt r.distances t := by
  obtain ⟨k, i, j⟩ := t
  have hsum : add32 (r.distances i k) (r.distances k j) = r.distances i k + r.distances k j :=
    add32_eq h
  rw [relaxAt, relax, hsum, lowerAt, lowerDist]
  split
  · rfl
  · rw [Function.update_eq_self, Function.update_eq_self]

/-- The matrix is exact as long as the sums fit. -/
theorem after_exact (hfit : ∀ done t, done ++ [t] <+: ts →
    InRange (turnSum (done.foldl lowerAt (init g).distances) t)) :
    (after g ts).distances = ts.foldl lowerAt (init g).distances := by
  induction ts using List.reverseRecOn with
  | nil => rfl
  | append_singleton ts t ih =>
    have hprefix := ih fun done t h => hfit done t (h.trans (List.prefix_append _ _))
    have hlast := hfit ts t List.prefix_rfl
    rw [← hprefix] at hlast
    rw [after, List.foldl_append, List.foldl_append, ← hprefix]
    exact relaxAt_distances hlast

theorem foldl_le_infinity (hinit : ∀ i j, (init g).distances i j ≤ infinity)
    (ts : List (Fin n × Fin n × Fin n)) (i j : Fin n) :
    ts.foldl lowerAt (init g).distances i j ≤ infinity :=
  (foldl_lowerAt_le ts _ i j).trans (hinit i j)

/-- Sums that fit keep all entries in range. -/
theorem SumsFit.exact (h : SumsFit g) (hinit : ∀ i j, InRange ((init g).distances i j))
    (hts : ts <+: allTurns n) : (after g ts).distances = ts.foldl lowerAt (init g).distances ∧
      ∀ i j, InRange ((after g ts).distances i j) := by
  induction ts using List.reverseRecOn with
  | nil => exact ⟨rfl, hinit⟩
  | append_singleton ts t ih =>
    obtain ⟨hexact, hrange⟩ := ih ((List.prefix_append _ _).trans hts)
    have hsum := h ts t hts
    have hturn : (after g (ts ++ [t])).distances = lowerAt (after g ts).distances t := by
      rw [after, List.foldl_append]
      exact relaxAt_distances hsum
    refine ⟨by rw [hturn, hexact, List.foldl_append]; rfl, ?_⟩
    intro a b
    obtain ⟨k, i, j⟩ := t
    rw [hturn]
    by_cases hab : a = i ∧ b = j
    · obtain ⟨rfl, rfl⟩ := hab
      rw [lowerAt_self]
      rcases lowerDist_eq k (after g ts).distances a b with heq | heq
      · exact heq ▸ hrange a b
      · exact heq ▸ hsum
    · rw [lowerAt_ne _ k hab]
      exact hrange a b

/-- The sums add up no more than two walks, each of which weighs at most half of what fits. -/
theorem Mild.sum_fits (h : Mild g) (hinit : ∀ i j, (init g).distances i j ≤ infinity)
    {done : List (Fin n × Fin n × Fin n)} (hts : done ++ [t] <+: allTurns n) :
    InRange (turnSum (done.foldl lowerAt (init g).distances) t) := by
  obtain ⟨k, i, j⟩ := t
  have hik := foldl_le_infinity hinit done i k
  have hkj := foldl_le_infinity hinit done k j
  have hjoin := (composed_foldl (init g).distances done i k).join
    (composed_foldl (init g).distances done k j)
  have hlow := h i j _ (hjoin.mono hts)
  rw [infinity, int32Max] at hik hkj
  rw [turnSum, InRange, int32Max]
  omega

theorem Mild.exact (h : Mild g) (hinit : ∀ i j, (init g).distances i j ≤ infinity)
    (hts : ts <+: allTurns n) : (after g ts).distances = ts.foldl lowerAt (init g).distances :=
  after_exact fun _ _ hdone => h.sum_fits hinit (hdone.trans hts)

end Sums

section Weights
variable (hplain : Plain g) (hW : ∀ u, ∀ edge ∈ g.getAdjList u, |edge.weight| ≤ W)
  (hn : n * W ≤ 2 ^ 20)

include hplain hW hn

end Weights

section Examples

/-- Each node has an edge to each other one. -/
def sinking : Graph 32 where
  adjList u := ((List.finRange 32).filter (· ≠ u)).map fun v => ⟨v, -32768, by decide⟩

end Examples

end Cppforge.Graphs.FloydWarshall
