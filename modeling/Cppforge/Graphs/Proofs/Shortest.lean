import Cppforge.Graphs.ShortestPaths
import Cppforge.Lib.Walks

namespace Cppforge.Graphs
open Function Walks Relaxation

variable {n : Nat} {g : Graph n} {s u v : Fin n} {l c : Int} {t : List (Fin n × Int)}
  {T T' : Fin n → List (Fin n × Int)} {r r' : ShortestPathResult n} {edge : Edge n}

section Weights

/-- The weights of the edges from a node. -/
def Graph.outWeight (g : Graph n) (u : Fin n) : Int := ((g.getAdjList u).map Edge.weight).sum

def Graph.totalWeight (g : Graph n) : Int := ∑ u, g.outWeight u

def Graph.NonNegative (g : Graph n) : Prop := ∀ u, ∀ edge ∈ g.getAdjList u, 0 ≤ edge.weight

theorem Graph.NonNegative.hasEdge (h : g.NonNegative) : ∀ u v c, g.HasEdge u v c → 0 ≤ c := by
  rintro u v c ⟨edge, hedge, rfl, rfl⟩
  exact h u edge hedge

theorem Graph.NonNegative.out_nonneg (h : g.NonNegative) (u : Fin n) : 0 ≤ g.outWeight u :=
  List.sum_nonneg fun w hw => by
    obtain ⟨edge, hedge, rfl⟩ := List.mem_map.mp hw
    exact h u edge hedge

theorem Graph.NonNegative.le_out (h : g.NonNegative) :
    ∀ u v c, g.HasEdge u v c → c ≤ g.outWeight u := by
  rintro u v c ⟨edge, hedge, rfl, rfl⟩
  refine List.single_le_sum ?_ _ (List.mem_map_of_mem hedge)
  intro w hw
  obtain ⟨edge', hedge', rfl⟩ := List.mem_map.mp hw
  exact h u edge' hedge'

end Weights

section Results

/-- A result that shows the labels: distances, and the nodes behind. -/
structure Shows (r : ShortestPathResult n) (T : Fin n → List (Fin n × Int)) : Prop where
  distance : Reads T int32Max r.distance
  previous : ∀ v p t, T v = p :: t → r.previous v = t.head?.map Prod.fst

theorem Shows.label (h : Shows r T) (hv : r.distance v ≠ int32Max) :
    ∃ t, T v = (v, r.distance v) :: t := by
  rcases h.distance v with ⟨_, hmax⟩ | ⟨t, hT, _⟩
  · exact absurd hmax hv
  · exact ⟨t, hT⟩

theorem shows_init (s : Fin n) : Shows (.init (some s)) (initial s) := by
  constructor
  · intro v
    by_cases hv : v = s
    · subst hv
      exact .inr ⟨[], by simp [initial, ShortestPathResult.init],
        by simp [ShortestPathResult.init, int32Max]⟩
    · exact .inl ⟨by simp [initial, hv], by simp [ShortestPathResult.init, hv]⟩
  · intro v p t hv
    by_cases hvs : v = s
    · subst hvs
      simp only [initial, update_self, List.cons.injEq] at hv
      rw [← hv.2]
      rfl
    · simp [initial, hvs] at hv

/-- With non-negative weights whose total stays below `INT32_MAX`, no relaxation overflows. -/
structure Sane (g : Graph n) : Prop where
  nonneg : g.NonNegative
  total : g.totalWeight < int32Max

theorem Sane.add_eq (hg : Sane g) (h : Labels g.HasEdge s T) (hu : T u = (u, l) :: t)
    (he : g.HasEdge u v c) : add32 l c = l + c ∧ 0 ≤ l + c ∧ l + c < int32Max := by
  have hle := h.le_total hg.nonneg.out_nonneg hg.nonneg.le_out hu he
  have hwalk := (h.trail_of hu).walk.nonneg hg.nonneg.hasEdge
  have hc := hg.nonneg.hasEdge u v c he
  have htotal := hg.total
  rw [Graph.totalWeight] at htotal
  refine ⟨add32_eq ⟨?_, ?_⟩, ?_, ?_⟩ <;> omega

/-- The assignments of a relaxation that lowers a distance. -/
def lowered (r : ShortestPathResult n) (u v : Fin n) (d : Int) : ShortestPathResult n where
  distance := update r.distance v d
  previous := update r.previous v (some u)

theorem Shows.lower (h : Shows r T) (hu : T u = (u, l) :: t) {d : Int} (hd : d < int32Max) :
    Shows (lowered r u v d) (update T v ((v, d) :: T u)) := by
  constructor
  · intro x
    by_cases hx : x = v
    · subst hx
      exact .inr ⟨T u, by simp [lowered], by simpa [lowered] using hd⟩
    · have hold := h.distance x
      simpa [lowered, hx] using hold
  · intro x p t' hx
    by_cases hxv : x = v
    · subst hxv
      simp only [update_self, List.cons.injEq] at hx
      rw [← hx.2, hu]
      simp [lowered]
    · simp only [update_of_ne hxv] at hx
      simpa [lowered, hxv] using h.previous x p t' hx

theorem Shows.atMost_iff (h : Shows r T) {b : Int} (hb : b < int32Max) :
    AtMost T v b ↔ r.distance v ≤ b := by
  rcases h.distance v with ⟨hT, hv⟩ | ⟨t, hT, _⟩
  · constructor
    · rintro ⟨l, t, hl, _⟩
      rw [hT] at hl
      cases hl
    · intro hle
      omega
  · exact ⟨fun hle => hle.le hT, fun hle => ⟨_, t, hT, hle⟩⟩

/-- The chain of previous nodes is the trail. -/
theorem chain_eq {E : Fin n → Fin n → Int → Prop} (h : Shows r T) (hl : Labels E s T)
    (hc : Closed E T) {turns : Nat} (hv : T v = (v, l) :: t) (hturns : t.length < turns) :
    ShortestPathResult.chain r.previous turns (some v) = some (((v, l) :: t).map Prod.fst) := by
  induction t generalizing v l turns with
  | nil =>
    obtain ⟨turns, rfl⟩ := Nat.exists_eq_add_one_of_ne_zero (Nat.ne_zero_of_lt hturns)
    have hprev := h.previous v _ _ hv
    simp only [List.head?_nil, Option.map_none] at hprev
    simp [ShortestPathResult.chain, hprev]
  | cons p t ih =>
    obtain ⟨turns, rfl⟩ := Nat.exists_eq_add_one_of_ne_zero (Nat.ne_zero_of_lt hturns)
    obtain ⟨u, m⟩ := p
    have hprev := h.previous v _ _ hv
    simp only [List.head?_cons, Option.map_some] at hprev
    have hrest := ih (hc.behind hl hv) (Nat.lt_of_succ_lt_succ hturns)
    simp [ShortestPathResult.chain, hprev, hrest]

/-- The exact distances from a node, with paths that have them. -/
structure Exact (g : Graph n) (s : Fin n) (r : ShortestPathResult n) : Prop where
  distance : ∀ v, Distance g.HasEdge s int32Max v (r.distance v)
  path : ∀ v, Reaches g.HasEdge s v → ∃ p, r.reconstructPath v.val = some p ∧
    Walk g.HasEdge s p v (r.distance v)

theorem node_val (v : Fin n) : Graph.node n v.val = some v := by
  simp [Graph.node]

theorem Shows.exact (h : Shows r T) (hl : Labels g.HasEdge s T) (hc : Closed g.HasEdge T) :
    Exact g s r := by
  have hdist := hc.distance hl h.distance
  refine ⟨hdist, ?_⟩
  intro v hv
  have hreached := (hdist v).reached hv
  obtain ⟨t, hT⟩ := h.label hreached
  have hlen : t.length < n := by
    have hnodup := (hl.nodup v).length_le_card
    rw [hT, Fintype.card_fin, List.length_map, List.length_cons] at hnodup
    exact hnodup
  refine ⟨_, ?_, (hl.trail_of hT).walk⟩
  simp [ShortestPathResult.reconstructPath, node_val, hreached, chain_eq h hl hc hT hlen]

end Results

end Cppforge.Graphs
