import Cppforge.Graphs.Proofs.FloydWarshall
import Cppforge.Graphs.Proofs.NegativeCycles
import Mathlib.Algebra.Order.Group.Abs

/-! The main loop with negative edges: the infinity of the matrix takes part in the sums like the
weight of a jump, which any node can make to any other. -/

namespace Cppforge.Graphs
open Function Walks AllPairs AllPairsShortestPathResult FloydWarshall

variable {n : Nat} {g : Graph n} {r : AllPairsShortestPathResult n} {i j k u v x : Fin n}
  {S : Fin n → Prop} {w : Int} {p : List (Fin n)}

section Weights

def Graph.absOut (g : Graph n) (u : Fin n) : Int :=
    ((g.getAdjList u).map fun edge => |edge.weight|).sum

def Graph.absTotal (g : Graph n) : Int := ∑ u, g.absOut u

theorem Graph.absOut_nonneg (g : Graph n) (u : Fin n) : 0 ≤ g.absOut u := by
  refine List.sum_nonneg fun w hw => ?_
  obtain ⟨edge, _, rfl⟩ := List.mem_map.mp hw
  exact abs_nonneg _

theorem Graph.HasEdge.abs_le (h : g.HasEdge u v w) : |w| ≤ g.absOut u := by
  obtain ⟨edge, hedge, rfl, rfl⟩ := h
  refine List.single_le_sum ?_ _ (List.mem_map_of_mem hedge)
  intro w hw
  obtain ⟨edge', _, rfl⟩ := List.mem_map.mp hw
  exact abs_nonneg _

theorem Graph.HasEdge.abs_le_total (h : g.HasEdge u v w) : |w| ≤ g.absTotal :=
  h.abs_le.trans (Finset.single_le_sum (fun x _ => g.absOut_nonneg x) (Finset.mem_univ u))

/-- A walk without a node twice weighs no more than all nodes can spend, and saves no more. -/
theorem simple_weight_le {out : Fin n → Int} (hpos : ∀ u, 0 ≤ out u)
    (hout : ∀ u v w, g.HasEdge u v w → |w| ≤ out u) (h : Walk g.HasEdge u p v w) (hp : p.Nodup) :
    |w| ≤ ∑ x, out x := by
  have htotal : (p.map out).sum ≤ ∑ x, out x := sum_le_total hpos hp
  have hv := hpos v
  have hup : w + out v ≤ (p.map out).sum :=
    h.le_spent fun _ _ _ he => (le_abs_self _).trans (hout _ _ _ he)
  have hjumping : ∃ j, Jumping g.HasEdge 0 j u p v w := h.jumping fun _ _ _ he => .inl he
  obtain ⟨j, hj⟩ := hjumping
  have hdown := hj.le_saved hpos fun _ _ _ he => (neg_le_abs _).trans (hout _ _ _ he)
  rw [abs_le]
  omega

theorem simple_weight (h : Walk g.HasEdge u p v w) (hp : p.Nodup) : |w| ≤ g.absTotal :=
  simple_weight_le g.absOut_nonneg (fun _ _ _ he => he.abs_le) h hp

/-- Each jump costs more than all edges together can save. -/
theorem jumps_le {j : Nat} (hj : Jumping g.HasEdge infinity j u p v w) (hnodup : p.Nodup) :
    j * infinity - w ≤ g.absTotal := by
  have hsaved := hj.le_saved g.absOut_nonneg fun _ _ _ he => (neg_le_abs _).trans he.abs_le
  have htotal : (p.map g.absOut).sum ≤ g.absTotal := sum_le_total g.absOut_nonneg hnodup
  have hv := g.absOut_nonneg v
  omega

/-- What is reached is reached by a walk that weighs no more than all edges together. -/
theorem reached_weight (h : Reaches g.HasEdge u v) :
    ∃ p w, Walk g.HasEdge u p v w ∧ w ≤ g.absTotal := by
  obtain ⟨p, w, hp, hnodup⟩ := h.simple
  exact ⟨p, w, hp, (abs_le.mp (simple_weight hp hnodup)).2⟩

theorem lowest_bounds_le {out : Fin n → Int} (hpos : ∀ u, 0 ≤ out u)
    (hout : ∀ u v w, g.HasEdge u v w → |w| ≤ out u)
    (hnone : ¬ ∃ x, BellmanFord.NegativeCycle g x) (v : Fin n) :
    -(∑ x, out x) ≤ BellmanFord.lowest g v ∧ BellmanFord.lowest g v ≤ 0 := by
  obtain ⟨hbound, hzero⟩ := BellmanFord.lowest_le g v
  obtain ⟨_, ts, p, hfirst, _⟩ := (BellmanFord.finds_lowest g).found v hbound.ne
  obtain ⟨q, w, hq, hnodup, hle⟩ := hfirst.taken.low.simple (BellmanFord.cycle_nonneg rfl hnone)
  obtain ⟨s, _, hwalk⟩ := hq.walk
  have hweight := simple_weight_le hpos hout
    (hwalk.mono fun _ _ _ he => BellmanFord.mem_arcs.mp he) (List.nodup_reverse.mpr hnodup)
  have := abs_le.mp hweight
  omega

theorem lowest_bounds (hnone : ¬ ∃ x, BellmanFord.NegativeCycle g x) (v : Fin n) :
    -g.absTotal ≤ BellmanFord.lowest g v ∧ BellmanFord.lowest g v ≤ 0 :=
  lowest_bounds_le g.absOut_nonneg (fun _ _ _ he => he.abs_le) hnone v

end Weights

namespace FloydWarshall

section Tables

/-- Neither parallel edges nor edges from a node to itself. -/
structure Plain (g : Graph n) : Prop where
  targets : ∀ u, ((g.getAdjList u).map Edge.target).Nodup
  loopless : ∀ u, ∀ edge ∈ g.getAdjList u, edge.target ≠ u

theorem Plain.ne (hg : Plain g) (h : g.HasEdge u v w) : u ≠ v := by
  obtain ⟨edge, hedge, rfl, _⟩ := h
  exact (hg.loopless u edge hedge).symm

theorem Plain.written (hg : Plain g) (h : g.HasEdge u v w) : Written g u v w := by
  obtain ⟨c, hc⟩ := exists_written h
  obtain ⟨edge, hedge, htarget, rfl⟩ := h
  obtain ⟨edge', hedge', htarget', rfl⟩ := hc.hasEdge
  obtain rfl := List.inj_on_of_nodup_map (hg.targets u) hedge hedge' (htarget.trans htarget'.symm)
  exact hc

/-- The graph of which the matrix holds the weights: each node has an edge to each other one. -/
def Complete (g : Graph n) (i j : Fin n) (c : Int) : Prop := i ≠ j ∧ c = (init g).distances i j

/-- No negative cycle, and weights far below the infinity of the matrix. -/
structure Tame (g : Graph n) : Prop where
  plain : Plain g
  acyclic : ¬ ∃ x, BellmanFord.NegativeCycle g x
  total : g.absTotal < int32Max / 4

theorem Tame.total_lt (hg : Tame g) : 2 * g.absTotal < infinity := by
  have htotal := hg.total
  rw [infinity, int32Max] at *
  omega

/-- The matrices, of the main loop's turns for `S`, as walks in the complete graph; `next` is known
where it is along an edge. -/
structure Tabled (g : Graph n) (S : Fin n → Prop) (r : AllPairsShortestPathResult n) : Prop where
  table : ∃ next len, Table (Reweighted (BellmanFord.lowest g) (Complete g)) (2 * infinity) S
    (reweigh (BellmanFord.lowest g) r.distances) next len ∧ ∀ i j x, i ≠ j → next i j = some x →
      (g.Adjacent i x → r.next i j = some x) ∧ (¬ g.Adjacent i x → r.next i j = none)
  le_infinity : ∀ i j, r.distances i j ≤ infinity
  unmarked : ∀ i j, i ≠ j → r.distances i j = infinity → r.next i j = none
  started : ∀ i, r.next i i = some i

theorem Tabled.ranged (h : Tabled g S r) (hg : Tame g) : Ranged r := by
  obtain ⟨next, len, ht, _⟩ := h.table
  have hbig := hg.total_lt
  refine ⟨?_, ?_, h.le_infinity⟩
  · intro i
    have hself := (ht.self i).1
    rw [reweigh] at hself
    omega
  · intro i j
    have hij := ht.nonneg i j
    have hi := lowest_bounds hg.acyclic i
    have hj := lowest_bounds hg.acyclic j
    rw [reweigh] at hij
    omega

theorem Tabled.relaxAll (h : Tabled g S r) (hg : Tame g) (k : Fin n) :
    Tabled g (fun x => S x ∨ x = k) (FloydWarshall.relaxAll r k) := by
  have hranged := h.ranged hg
  obtain ⟨next, len, ht, hnext⟩ := h.table
  have hcell := relaxAll_cell hranged k
  have hdist : (FloydWarshall.relaxAll r k).distances = lowerDist k r.distances := by
    funext i j
    exact congrArg Prod.fst (hcell i j)
  have hstep : ∀ i j, (FloydWarshall.relaxAll r k).next i j =
      lowerNext k r.distances r.next i j := by
    intro i j
    exact congrArg Prod.snd (hcell i j)
  refine ⟨⟨lowerNext k (reweigh (BellmanFord.lowest g) r.distances) next,
    lowerLen k (reweigh (BellmanFord.lowest g) r.distances) len, ?_, ?_⟩, ?_, ?_, ?_⟩
  · rw [hdist, ← lowerDist_reweigh]
    exact ht.step k
  · intro i j x hij hx
    rw [hstep]
    by_cases hless : r.distances i k + r.distances k j < r.distances i j
    · have hik : i ≠ k := by
        rintro rfl
        have := hranged.diagonal i
        omega
      rw [lowerNext, if_pos (reweigh_less.mpr hless)] at hx
      rw [lowerNext, if_pos hless]
      exact hnext i k x hik hx
    · rw [lowerNext, if_neg fun h => hless (reweigh_less.mp h)] at hx
      rw [lowerNext, if_neg hless]
      exact hnext i j x hij hx
  · intro i j
    rw [hdist]
    exact (lowerDist_le k r.distances i j).1.trans (h.le_infinity i j)
  · intro i j hij hinf
    have hle := h.le_infinity i j
    rw [hdist, lowerDist] at hinf
    rw [hstep, lowerNext]
    split_ifs at hinf ⊢ with hless
    · omega
    · exact h.unmarked i j hij hinf
  · intro i
    have hkeep : ¬ r.distances i k + r.distances k i < r.distances i i := by
      have hik := ht.nonneg i k
      have hki := ht.nonneg k i
      have hself := (ht.self i).1
      rw [reweigh] at hik hki hself
      omega
    rw [hstep, lowerNext, if_neg hkeep]
    exact h.started i

theorem foldl_tabled (h : Tabled g S r) (hg : Tame g) (nodes : List (Fin n)) :
    Tabled g (fun x => S x ∨ x ∈ nodes) (nodes.foldl FloydWarshall.relaxAll r) := by
  induction nodes generalizing S r with
  | nil => simpa using h
  | cons k nodes ih => simpa [or_assoc] using ih (h.relaxAll hg k)

theorem Plain.init_edge (hg : Plain g) (h : g.HasEdge i j w) :
    (init g).distances i j = w ∧ (init g).next i j = some j :=
  init_written (hg.written h)

theorem Plain.init_self (hg : Plain g) (i : Fin n) :
    (init g).distances i i = 0 ∧ (init g).next i i = some i := by
  simpa using init_unwritten fun w h => hg.ne (h : Written g i i w).hasEdge rfl

theorem init_other (hij : i ≠ j) (hnone : ¬ g.Adjacent i j) :
    (init g).distances i j = infinity ∧ (init g).next i j = none := by
  simpa [hij] using init_unwritten (i := i) (j := j) fun w h => by
    obtain ⟨edge, hedge, htarget, _⟩ := (h : Written g i j w).hasEdge
    exact hnone ⟨edge, hedge, htarget⟩

theorem hasEdge_of_adjacent (h : g.Adjacent i j) : ∃ w, g.HasEdge i j w := by
  obtain ⟨edge, hedge, htarget⟩ := h
  exact ⟨edge.weight, edge, hedge, htarget, rfl⟩

/-- What the matrix holds in front of the main loop. -/
theorem Plain.init_cases (hg : Plain g) (i j : Fin n) : i = j ∧ (init g).distances i j = 0 ∨
    g.HasEdge i j ((init g).distances i j) ∨ (init g).distances i j = infinity := by
  by_cases hij : i = j
  · subst hij
    exact .inl ⟨rfl, (hg.init_self i).1⟩
  · by_cases hadj : g.Adjacent i j
    · obtain ⟨w, he⟩ := hasEdge_of_adjacent hadj
      exact .inr (.inl ((hg.init_edge he).1 ▸ he))
    · exact .inr (.inr (init_other hij hadj).1)

theorem Tame.init_bounds (hg : Tame g) (i j : Fin n) :
    (init g).distances i j ≤ infinity ∧
      0 ≤ reweigh (BellmanFord.lowest g) (init g).distances i j ∧
      reweigh (BellmanFord.lowest g) (init g).distances i j < 2 * infinity := by
  have hbig := hg.total_lt
  have hi := lowest_bounds hg.acyclic i
  have hj := lowest_bounds hg.acyclic j
  rw [reweigh]
  rcases hg.plain.init_cases i j with ⟨rfl, hself⟩ | he | hinf
  · omega
  · have hw := abs_le.mp he.abs_le_total
    have hedge := BellmanFord.lowest_edge hg.acyclic he
    omega
  · omega

theorem tabled_init (hg : Tame g) : Tabled g (fun _ => False) (init g) := by
  have hself : ∀ i, reweigh (BellmanFord.lowest g) (init g).distances i i = 0 := by
    intro i
    rw [reweigh, (hg.plain.init_self i).1]
    omega
  refine ⟨⟨fun _ j => some j, fun i j => if i = j then 0 else 1, ?_, ?_⟩, ?_, ?_, ?_⟩
  · refine ⟨fun i j => (hg.init_bounds i j).2.1, fun i j => (hg.init_bounds i j).2.2.le,
      fun i => ⟨hself i, if_pos rfl⟩, ?_, fun i x j hx => hx.elim, ?_⟩
    · rintro i j c ⟨_, hc⟩
      rw [reweigh]
      omega
    · intro i j hij _
      refine ⟨j, reweigh (BellmanFord.lowest g) (init g).distances i j, rfl,
        ⟨hij, ?_⟩, .inl rfl, ?_, ?_⟩
      · rw [reweigh]
        omega
      · rw [hself, Int.add_zero]
      · simp [hij]
  · intro i j x hij hx
    obtain rfl := Option.some.inj hx
    constructor
    · intro hadj
      obtain ⟨w, he⟩ := hasEdge_of_adjacent hadj
      exact (hg.plain.init_edge he).2
    · exact fun hnone => (init_other hij hnone).2
  · exact fun i j => (hg.init_bounds i j).1
  · intro i j hij hinf
    by_cases hadj : g.Adjacent i j
    · obtain ⟨w, he⟩ := hasEdge_of_adjacent hadj
      have hw := abs_le.mp he.abs_le_total
      have hbig := hg.total_lt
      have hnonneg := Finset.sum_nonneg fun x (_ : x ∈ Finset.univ) => g.absOut_nonneg x
      rw [(hg.plain.init_edge he).1] at hinf
      rw [Graph.absTotal] at hw hbig
      omega
    · exact (init_other hij hadj).2
  · exact fun i => (hg.plain.init_self i).2

theorem compute_tabled (hg : Tame g) :
    Tabled g (fun _ => True) (compute g) ∧ (compute g).hasNegativeCycle = false := by
  have htabled := foldl_tabled (tabled_init hg) hg (List.finRange n)
  simp only [false_or, List.mem_finRange] at htabled
  refine ⟨⟨htabled.table, htabled.le_infinity, htabled.unmarked, htabled.started⟩, ?_⟩
  simp only [compute, List.any_eq_false]
  intro i _
  simpa using (htabled.ranged hg).diagonal i

end Tables

section Marks
variable (hg : Tame g)
include hg

/-- The distances as weights of walks in the complete graph, and the nodes of these walks. -/
theorem exists_jumping (u v : Fin n) : ∃ j p next, Hops next v u p ∧ (u :: p).Nodup ∧
    Jumping g.HasEdge infinity j u (u :: p) v ((compute g).distances u v) ∧
    ∀ i x, i ≠ v → next i v = some x → g.Adjacent i x → (compute g).next i v = some x := by
  obtain ⟨next, len, ht, hnext⟩ := (compute_tabled hg).1.table
  have hlt : reweigh (BellmanFord.lowest g) (compute g).distances u v < 2 * infinity := by
    have hu := lowest_bounds hg.acyclic u
    have hv := lowest_bounds hg.acyclic v
    have hle := (compute_tabled hg).1.le_infinity u v
    have hbig := hg.total_lt
    rw [reweigh]
    omega
  obtain ⟨p, hhops, hwalk, hnodup⟩ := ht.walk hlt
  have hweight : reweigh (BellmanFord.lowest g) (compute g).distances u v - BellmanFord.lowest g u +
      BellmanFord.lowest g v = (compute g).distances u v := by
    rw [reweigh]
    omega
  have hcomplete : ∀ a b c, Complete g a b c → g.HasEdge a b c ∨ c = infinity := by
    rintro a b c ⟨hab, rfl⟩
    by_cases hadj : g.Adjacent a b
    · obtain ⟨w, he⟩ := hasEdge_of_adjacent hadj
      exact .inl ((hg.plain.init_edge he).1 ▸ he)
    · exact .inr (init_other hab hadj).1
  have hreal := hwalk.of_reweighted
  rw [hweight] at hreal
  obtain ⟨j, hj⟩ := hreal.jumping hcomplete
  exact ⟨j, p, next, hhops, hnodup, hj, fun i x hiv hx hadj => (hnext i v x hiv hx).1 hadj⟩

theorem distance_through (u x v : Fin n) :
    (compute g).distances u v ≤ (compute g).distances u x + (compute g).distances x v := by
  obtain ⟨_, _, ht, _⟩ := (compute_tabled hg).1.table
  have hthrough := ht.through u x v trivial
  rw [reweigh, reweigh, reweigh] at hthrough
  omega

theorem distance_le (hw : Walk g.HasEdge u p v w) : (compute g).distances u v ≤ w := by
  obtain ⟨_, _, ht, _⟩ := (compute_tabled hg).1.table
  have hcomplete : Walk (Complete g) u p v w :=
    hw.mono fun a b c he => ⟨hg.plain.ne he, (hg.plain.init_edge he).1.symm⟩
  have hleast := ht.least (fun _ => trivial) (hcomplete.reweighted (h := BellmanFord.lowest g))
  rw [reweigh] at hleast
  omega

/-- The walk to a node that is reached jumps nowhere. -/
theorem reached_walk (h : Reaches g.HasEdge u v) : ∃ p next, Hops next v u p ∧ (u :: p).Nodup ∧
    Walk g.HasEdge u (u :: p) v ((compute g).distances u v) ∧
    ∀ i x, i ≠ v → next i v = some x → g.Adjacent i x → (compute g).next i v = some x := by
  obtain ⟨j, p, next, hhops, hnodup, hj, hnext⟩ := exists_jumping hg u v
  obtain ⟨q, w, hq, hw⟩ := reached_weight h
  have hle := distance_le hg hq
  have hjumps := jumps_le hj hnodup
  have hbig := hg.total_lt
  have hzero : j = 0 := by
    by_contra hne
    have hone : infinity ≤ j * infinity := by
      have hpos : (1 : Int) ≤ j := by omega
      have hinf : 0 ≤ infinity := by simp [infinity, int32Max]
      calc
        infinity
        _ = 1 * infinity := (Int.one_mul _).symm
        _ ≤ j * infinity := Int.mul_le_mul_of_nonneg_right hpos hinf
    omega
  subst hzero
  exact ⟨p, next, hhops, hnodup, hj.walk, hnext⟩

omit hg in
theorem hops_of_chain {next next' : Fin n → Fin n → Option (Fin n)} (h : Hops next v i p)
    (hchain : (i :: p).IsChain fun x y => ∃ c, g.HasEdge x y c)
    (hnext : ∀ i x, i ≠ v → next i v = some x → g.Adjacent i x → next' i v = some x) :
    Hops next' v i p := by
  induction h with
  | stop => exact .stop
  | hop hne hx _ ih =>
    obtain ⟨⟨c, edge, hedge, htarget, _⟩, hrest⟩ := List.isChain_cons_cons.mp hchain
    exact .hop hne (hnext _ _ hne hx ⟨edge, hedge, htarget⟩) (ih hrest)

theorem marks_reached (h : Reaches g.HasEdge u v) :
    Lightest g.HasEdge u v ((compute g).distances u v) ∧ (compute g).distances u v ≠ infinity ∧
      (compute g).next u v ≠ none ∧
      ∃ p, (compute g).reconstructPath u.val v.val = some (u :: p) := by
  obtain ⟨p, next, hhops, hnodup, hwalk, hnext⟩ := reached_walk hg h
  obtain ⟨htabled, hcycle⟩ := compute_tabled hg
  have hweight := (abs_le.mp (simple_weight hwalk hnodup)).2
  have hbig := hg.total_lt
  have hpath := hops_of_chain hhops hwalk.chain.1 hnext
  have hstart : (compute g).next u v ≠ none := by
    cases hpath with
    | stop => simp [htabled.started]
    | hop _ hx _ => simp [hx]
  refine ⟨⟨⟨_, hwalk⟩, fun q w hq => distance_le hg hq⟩, ?_, hstart, p,
    reconstructPath_eq hcycle hstart hpath hnodup⟩
  intro hinf
  rw [hinf] at hweight
  have hnonneg : 0 ≤ infinity := by simp [infinity, int32Max]
  omega

theorem marks_unreached (h : ¬ Reaches g.HasEdge u v)
    (hout : ∀ x p w, Walk g.HasEdge u p x w → 0 ≤ w)
    (hin : ∀ x p w, Walk g.HasEdge x p v w → 0 ≤ w) :
    (compute g).distances u v = infinity ∧ (compute g).next u v = none ∧
      (compute g).reconstructPath u.val v.val = some [] := by
  obtain ⟨htabled, hcycle⟩ := compute_tabled hg
  obtain ⟨j, p, _, _, hnodup, hj, _⟩ := exists_jumping hg u v
  have huv : u ≠ v := by
    intro heq
    exact h (heq ▸ .refl u)
  have hinf : (compute g).distances u v = infinity := by
    refine Int.le_antisymm (htabled.le_infinity u v) ?_
    rcases j with _ | _ | j
    · exact absurd ⟨_, _, hj.walk⟩ h
    · obtain ⟨x, y, q, r, w₁, w₂, hq, hr, hw⟩ := hj.once
      have hfront := hout _ _ _ hq
      have hback := hin _ _ _ hr
      omega
    · -- a second jump costs more than the walk can save
      have hjumps := jumps_le hj hnodup
      have hbig := hg.total_lt
      have hnonneg : 0 ≤ infinity := by simp [infinity, int32Max]
      have htwo : 2 * infinity ≤ ((j + 1 + 1 : Nat) : Int) * infinity :=
        Int.mul_le_mul_of_nonneg_right (by omega) hnonneg
      omega
  have hnext := htabled.unmarked u v huv hinf
  refine ⟨hinf, hnext, ?_⟩
  simp [reconstructPath, hcycle, node_val, hnext]

end Marks

section Claims

/-- Each mark of a pair that is not reached is there exactly then, and otherwise the least
weight. -/
structure Marked (g : Graph n) (u v : Fin n) : Prop where
  distance : (compute g).distances u v = infinity ↔ ¬ Reaches g.HasEdge u v
  next : (compute g).next u v = none ↔ ¬ Reaches g.HasEdge u v
  path : (compute g).reconstructPath u.val v.val = some [] ↔ ¬ Reaches g.HasEdge u v
  lightest : Reaches g.HasEdge u v → Lightest g.HasEdge u v ((compute g).distances u v)

/-- Where a node does not reach another no walk from the one or to the other is negative. -/
def NoNegativeEnds (g : Graph n) : Prop :=
  ∀ u v, ¬ Reaches g.HasEdge u v → (∀ x p w, Walk g.HasEdge u p x w → 0 ≤ w) ∧
    ∀ x p w, Walk g.HasEdge x p v w → 0 ≤ w

theorem marks_iff (g : Graph n) (hplain : Plain g) (hacyclic : ¬ ∃ x, BellmanFord.NegativeCycle g x)
    (htotal : g.absTotal < int32Max / 4) : (∀ u v, Marked g u v) ↔ NoNegativeEnds g := by
  have hg : Tame g := ⟨hplain, hacyclic, htotal⟩
  constructor
  · intro hmarked u v hunreached
    have hinf := (hmarked u v).distance.mpr hunreached
    constructor
    · intro x p w hw
      have hthrough := distance_through hg u x v
      have hfront := distance_le hg hw
      have hback := (compute_tabled hg).1.le_infinity x v
      omega
    · intro x p w hw
      have hthrough := distance_through hg u x v
      have hback := distance_le hg hw
      have hfront := (compute_tabled hg).1.le_infinity u x
      omega
  · intro hends u v
    by_cases hreach : Reaches g.HasEdge u v
    · obtain ⟨hlightest, hdist, hnext, p, hpath⟩ := marks_reached hg hreach
      refine ⟨?_, ?_, ?_, fun _ => hlightest⟩
      · exact iff_of_false hdist (not_not.mpr hreach)
      · exact iff_of_false hnext (not_not.mpr hreach)
      · exact iff_of_false (by simp [hpath]) (not_not.mpr hreach)
    · obtain ⟨hout, hin⟩ := hends u v hreach
      obtain ⟨hdist, hnext, hpath⟩ := marks_unreached hg hreach hout hin
      exact ⟨iff_of_true hdist hreach, iff_of_true hnext hreach, iff_of_true hpath hreach,
        fun h => absurd h hreach⟩

/-- An edge that saves something, and a node without edges. -/
def saving : Graph 3 where
  adjList u := match u with
    | 0 => []
    | 1 => [⟨.last 2, -9, by decide⟩]
    | 2 => []

theorem plain_saving : Plain saving := ⟨by decide, by decide⟩

theorem acyclic_saving : ¬ ∃ x, BellmanFord.NegativeCycle saving x := by
  rw [← BellmanFord.detects]
  decide

theorem marks_saving : (∀ u v, Marked saving u v) ↔ NoNegativeEnds saving :=
  marks_iff saving plain_saving acyclic_saving (by decide)

theorem saving_isolated {v : Fin 3} (h : Reaches saving.HasEdge 0 v) : v = 0 := by
  obtain ⟨p, w, hw⟩ := h
  induction hw with
  | nil => rfl
  | snoc _ he ih =>
    obtain ⟨edge, hedge, _⟩ := ih ▸ he
    cases hedge

theorem unmarked_saving : ¬ ∀ (n : Nat) (g : Graph n), Plain g →
    (¬ ∃ x, BellmanFord.NegativeCycle g x) → g.absTotal < int32Max / 4 → ∀ u v, Marked g u v := by
  intro hall
  have hg : Tame saving := ⟨plain_saving, acyclic_saving, by decide⟩
  have hunreached : ¬ Reaches saving.HasEdge 0 2 := fun h => absurd (saving_isolated h) (by decide)
  have hinf := (hall 3 saving hg.plain hg.acyclic hg.total 0 2).distance.mpr hunreached
  have hedge : Walk saving.HasEdge 1 [1, 2] 2 (-9) :=
    .edge ⟨⟨2, -9, by decide⟩, List.mem_cons_self, rfl, rfl⟩
  have hthrough := distance_through hg 0 1 2
  have hfront := (compute_tabled hg).1.le_infinity 0 1
  have hback := distance_le hg hedge
  omega

end Claims

end FloydWarshall

end Cppforge.Graphs
