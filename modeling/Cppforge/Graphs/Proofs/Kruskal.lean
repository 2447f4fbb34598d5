import Cppforge.Graphs.SpanningTrees
import Cppforge.Lib.SpanningForest
import Mathlib.Data.Fintype.Card

namespace Cppforge.Graphs
open Function Forest SpanningForest

variable {n : Nat} {g : Graph n} {result : MSTResult n} {e : EdgeInfo n} {F : List (EdgeInfo n)}

section SpanningForests

def ends (e : EdgeInfo n) : Fin n × Fin n := (e.source, e.target)

def Graph.Contains (g : Graph n) (e : EdgeInfo n) : Prop := g.HasEdge e.source e.target e.weight

def weightOf (F : List (EdgeInfo n)) : Int := (F.map EdgeInfo.weight).sum

/-- Edges of the graph without a cycle that join what the graph does. -/
structure Spanning (g : Graph n) (F : List (EdgeInfo n)) : Prop where
  edges : ∀ e ∈ F, g.Contains e
  forest : IsForest ends F
  spans : ∀ u v, Joined ends g.Contains u v → Joined ends (· ∈ F) u v

/-- What forests of the graph weigh is an `int32_t`. -/
def SumsInRange (g : Graph n) : Prop :=
  ∀ F : List (EdgeInfo n), (∀ e ∈ F, g.Contains e) → IsForest ends F → InRange (weightOf F)

theorem weightOf_bound {W : Nat} (hW : ∀ u, ∀ edge ∈ g.getAdjList u, -W ≤ edge.weight ∧ edge.weight ≤ W)
    (hF : ∀ e ∈ F, g.Contains e) :
    -((F.length * W : Nat) : Int) ≤ weightOf F ∧ weightOf F ≤ (F.length * W : Nat) := by
  induction F with
  | nil => simp [weightOf]
  | cons e F ih =>
    obtain ⟨⟨edge, hedge, _, hweight⟩, hrest⟩ := List.forall_mem_cons.mp hF
    have hone := hW _ edge hedge
    have htail := ih hrest
    rw [List.length_cons, Nat.add_mul, Nat.one_mul]
    simp only [weightOf, List.map_cons, List.sum_cons] at htail ⊢
    omega

/-- Small weights on few nodes are enough. -/
theorem sumsInRange_of_small {W : Nat}
    (hW : ∀ u, ∀ edge ∈ g.getAdjList u, -W ≤ edge.weight ∧ edge.weight ≤ W)
    (hn : n * W < 2 ^ 31) : SumsInRange g := by
  intro F hF hforest
  have hcard := hforest.card (S := Finset.univ) fun _ _ => ⟨Finset.mem_univ _, Finset.mem_univ _⟩
  rw [Finset.card_univ, Fintype.card_fin] at hcard
  have hbound := weightOf_bound hW hF
  have hmore : F.length * W ≤ n * W := Nat.mul_le_mul_right W (by omega)
  constructor
  · omega
  · rw [int32Max]
    omega

theorem Spanning.length_eq {G : List (EdgeInfo n)} (hF : Spanning g F) (hG : Spanning g G) :
    F.length = G.length := by
  have hS : ∀ (H : List (EdgeInfo n)), ∀ e ∈ H, (ends e).1 ∈ Finset.univ ∧ (ends e).2 ∈ Finset.univ :=
    fun H e _ => ⟨Finset.mem_univ _, Finset.mem_univ _⟩
  refine le_antisymm ?_ ?_
  · exact hG.forest.length_le hF.forest (hS G) (hS F)
      fun u v huv => hG.spans u v (huv.mono hF.edges)
  · exact hF.forest.length_le hG.forest (hS F) (hS G)
      fun u v huv => hF.spans u v (huv.mono hG.edges)

/-- A light spanning forest is minimal. -/
theorem Spanning.minimal {G : List (EdgeInfo n)} (hF : Spanning g F)
    (hlight : Light ends EdgeInfo.weight F g.Contains) (hG : Spanning g G) :
    weightOf F ≤ weightOf G :=
  hlight.sum_le (S := Finset.univ) hF.forest hG.forest
    (fun _ _ => ⟨Finset.mem_univ _, Finset.mem_univ _⟩)
    (fun _ _ => ⟨Finset.mem_univ _, Finset.mem_univ _⟩) hG.edges (hF.length_eq hG)

/-- The running total is the sum up to what wraps. -/
def Totalled (result : MSTResult n) : Prop :=
  result.totalWeight = (weightOf result.edges).bmod (2 ^ 32)

theorem totalled_nil : Totalled (⟨[], 0⟩ : MSTResult n) := by
  simp [Totalled, weightOf]

theorem Totalled.push (h : Totalled result) (e : EdgeInfo n) : Totalled (result.push e) := by
  rw [Totalled] at h ⊢
  simp [MSTResult.push, add32, h, weightOf]

theorem Totalled.eq (h : Totalled result) (hrange : InRange (weightOf result.edges)) :
    result.totalWeight = weightOf result.edges := by
  have hsum : add32 (weightOf result.edges) 0 = weightOf result.edges :=
    (add32_eq (by rwa [Int.add_zero])).trans (Int.add_zero _)
  rw [add32, Int.add_zero] at hsum
  exact h.trans hsum

end SpanningForests

namespace KruskalMST
variable {A rest : List (EdgeInfo n)} {uf : UnionFind n} {R : Fin n → Fin n → Prop} {a b : Fin n}
  {parent : Fin n → Fin n} {x r : Fin n} {l : List (Fin n)} {depth : Nat}

section Finding

/-- The recursion ends at the root and moves no node to another root. -/
theorem findRoot_spec (h : Path parent x l r) (hdepth : l.length < depth) :
    ∃ parent', UnionFind.findRoot depth parent x = some (r, parent') ∧
      ∀ y s, Root parent y s → Root parent' y s := by
  induction h generalizing depth with
  | @root r hr =>
    obtain ⟨depth, rfl⟩ := Nat.exists_eq_add_one_of_ne_zero (Nat.ne_zero_of_lt hdepth)
    exact ⟨parent, by simp [UnionFind.findRoot, hr], fun y s h => h⟩
  | @step x r l hx tail ih =>
    obtain ⟨depth, rfl⟩ := Nat.exists_eq_add_one_of_ne_zero (Nat.ne_zero_of_lt hdepth)
    obtain ⟨parent', hrun, hroots⟩ := ih (Nat.lt_of_succ_lt_succ hdepth)
    have hxr : Root parent' x r := hroots x r ⟨_, .step hx tail⟩
    have hlink : parent' x ≠ x := by
      intro hself
      obtain rfl := hxr.unique (.of_root hself)
      exact hx tail.is_root
    refine ⟨update parent' x r, by simp [UnionFind.findRoot, hx, hrun], ?_⟩
    intro y s hy
    exact Root.compress hlink hxr (hroots y s hy)

theorem find_spec (h : Represents uf.parent R) (x : Fin n) :
    ∃ r uf', uf.find x = some (r, uf') ∧ Root uf.parent x r ∧ Represents uf'.parent R ∧
      ∀ y s, Root uf.parent y s → Root uf'.parent y s := by
  obtain ⟨r, l, hp⟩ := h.rooted x
  have hlen : l.length < n := by
    simpa using hp.length_lt (S := Finset.univ) (fun y _ => Finset.mem_univ _) (Finset.mem_univ x)
  obtain ⟨parent', hrun, hroots⟩ := findRoot_spec hp hlen
  exact ⟨r, { uf with parent := parent' }, by simp [UnionFind.find, hrun], ⟨l, hp⟩,
    h.same_roots hroots, hroots⟩

/-- `unite` unites, and says whether the classes were different. -/
theorem unite_spec (h : Represents uf.parent R) (a b : Fin n) :
    ∃ uf' united, uf.unite a b = some (uf', united) ∧
      Represents uf'.parent (fun u v => R u v ∨ u = a ∧ v = b) ∧
      (united = true ↔ ¬ Relation.EqvGen R a b) := by
  obtain ⟨ra, uf₁, ha, hra, h₁, hroots₁⟩ := find_spec h a
  obtain ⟨rb, uf₂, hb, hrb, h₂, hroots₂⟩ := find_spec h₁ b
  have hra₂ : Root uf₂.parent a ra := hroots₂ a ra (hroots₁ a ra hra)
  have hrb₂ : Root uf₂.parent b rb := hroots₂ b rb hrb
  have hjoined : Relation.EqvGen R a b ↔ ra = rb := by
    rw [← h₂.linked, linked_iff hra₂ hrb₂]
  by_cases hsame : ra = rb
  · refine ⟨uf₂, false, by simp [UnionFind.unite, ha, hb, hsame], ?_, by simp [hjoined, hsame]⟩
    exact h₂.again ((linked_iff hra₂ hrb₂).mpr hsame)
  · have hunder := h₂.link hra₂ hrb₂ hsame
    have hover := h₂.link_back hra₂ hrb₂ hsame
    by_cases hless : uf₂.rank ra < uf₂.rank rb
    · exact ⟨{ uf₂ with parent := update uf₂.parent ra rb }, true,
        by simp [UnionFind.unite, ha, hb, hsame, hless], hunder, by simp [hjoined, hsame]⟩
    · by_cases hmore : uf₂.rank rb < uf₂.rank ra
      · exact ⟨{ uf₂ with parent := update uf₂.parent rb ra }, true,
          by simp [UnionFind.unite, ha, hb, hsame, hless, hmore], hover, by simp [hjoined, hsame]⟩
      · exact ⟨⟨update uf₂.parent rb ra, update uf₂.rank ra (uf₂.rank ra + 1)⟩, true,
          by simp [UnionFind.unite, ha, hb, hsame, hless, hmore], hover, by simp [hjoined, hsame]⟩

end Finding

section Adding

/-- The links of the edges offered so far. -/
def Offered (A : List (EdgeInfo n)) (u v : Fin n) : Prop := ∃ e, e ∈ A ∧ ends e = (u, v)

theorem offered_snoc {u v : Fin n} :
    (Offered A u v ∨ u = e.source ∧ v = e.target) ↔ Offered (A ++ [e]) u v := by
  simp only [Offered, List.mem_append, List.mem_singleton, or_and_right, exists_or,
    exists_eq_left]
  refine or_congr_right ?_
  rw [ends, Prod.mk.injEq]
  exact and_congr eq_comm eq_comm

/-- The loop takes edges greedily. -/
theorem addEdges_spec (hg : Greedy ends A result.edges) (huf : Represents uf.parent (Offered A))
    (htotal : Totalled result) (rest : List (EdgeInfo n)) :
    ∃ last, addEdges rest uf result = some last ∧ Greedy ends (A ++ rest) last.edges ∧
      Totalled last := by
  induction rest generalizing A uf result with
  | nil => exact ⟨result, rfl, by simpa using hg, htotal⟩
  | cons e rest ih =>
    obtain ⟨uf', united, hrun, huf', hunited⟩ := unite_spec huf e.source e.target
    have hsame : Relation.EqvGen (Offered A) e.source e.target ↔
        Joined ends (· ∈ result.edges) e.source e.target :=
      ⟨fun h => hg.joined h, fun h => h.mono hg.subset⟩
    rw [hsame] at hunited
    have hoffered : Represents uf'.parent (Offered (A ++ [e])) :=
      huf'.congr fun u v => offered_snoc
    have happend : A ++ e :: rest = (A ++ [e]) ++ rest := by simp
    rw [happend]
    cases united with
    | true =>
      have htake : Greedy ends (A ++ [e]) (result.push e).edges := hg.take (hunited.mp rfl)
      obtain ⟨last, hlast, hall⟩ := ih htake hoffered (htotal.push e)
      exact ⟨last, by simp [addEdges, hrun, hlast], hall⟩
    | false =>
      have hskip : Greedy ends (A ++ [e]) result.edges := hg.skip (by simpa [ends] using hunited)
      obtain ⟨last, hlast, hall⟩ := ih hskip hoffered htotal
      exact ⟨last, by simp [addEdges, hrun, hlast], hall⟩

end Adding

section Trees
variable {sorting : KeySort (EdgeInfo n) Int}

theorem mem_collectEdges : e ∈ collectEdges g ↔ g.Contains e ∧ e.source ≤ e.target := by
  simp only [collectEdges, List.mem_flatMap, List.mem_finRange, true_and, List.mem_filterMap]
  constructor
  · rintro ⟨u, edge, hedge, hsome⟩
    split at hsome
    · obtain rfl := Option.some.inj hsome
      exact ⟨⟨edge, hedge, rfl, rfl⟩, by assumption⟩
    · cases hsome
  · rintro ⟨⟨edge, hedge, htarget, hweight⟩, hle⟩
    exact ⟨e.source, edge, hedge, by rw [if_pos (htarget ▸ hle), htarget, hweight]⟩

/-- One direction of each edge is enough. -/
theorem collectEdges_joined (hg : g.Symm) {P : EdgeInfo n → Prop} (w : Int) {u v : Fin n}
    (h : Joined ends (fun e => g.Contains e ∧ e.weight ≤ w) u v)
    (hP : ∀ e ∈ collectEdges g, e.weight ≤ w → P e) : Joined ends P u v := by
  refine h.bind ?_
  rintro ⟨u, v, c⟩ ⟨he, hw⟩
  rcases le_total u v with hle | hle
  · exact .edge (hP ⟨u, v, c⟩ (mem_collectEdges.mpr ⟨he, hle⟩) hw)
  · have hback := hP ⟨v, u, c⟩ (mem_collectEdges.mpr ⟨hg u v c he, hle⟩) hw
    exact .symm _ _ (Joined.edge hback)

theorem compute_spec (sorting : KeySort (EdgeInfo n) Int) (hg : g.Symm) :
    ∃ result, compute sorting g = some result ∧ Spanning g result.edges ∧
      Light ends EdgeInfo.weight result.edges g.Contains ∧ Totalled result := by
  by_cases hn : n = 0
  · subst hn
    have hnode : Fin 0 → False := fun u => u.elim0
    refine ⟨⟨[], 0⟩, by simp [compute], ⟨by simp, isForest_nil, ?_⟩, ?_, totalled_nil⟩
    · exact fun u => (hnode u).elim
    · exact fun _ u => (hnode u).elim
  · have hempty : Represents (UnionFind.create n).parent (Offered []) :=
      represents_id.congr (by simp [Offered])
    obtain ⟨result, hrun, hgreedy, htotal⟩ :=
      addEdges_spec Greedy.nil hempty totalled_nil (sorting.apply EdgeInfo.weight (collectEdges g))
    rw [List.nil_append] at hgreedy
    have hmem : ∀ e, e ∈ sorting.apply EdgeInfo.weight (collectEdges g) ↔ e ∈ collectEdges g :=
      fun e => (sorting.perm _ _).mem_iff
    have hlight := hgreedy.light (sorting.sorted _ _)
    have hall : Light ends EdgeInfo.weight result.edges g.Contains := by
      intro w u v huv
      exact hlight w u v (collectEdges_joined hg w huv fun e he hw => ⟨(hmem e).mpr he, hw⟩)
    refine ⟨result, by rw [compute, if_neg hn, hrun], ⟨?_, hgreedy.isForest, ?_⟩, hall, htotal⟩
    · exact fun e he => (mem_collectEdges.mp ((hmem e).mp (hgreedy.subset e he))).1
    · intro u v huv
      have hrange := huv.mono fun e he => (⟨he, he.inRange.2⟩ : g.Contains e ∧ e.weight ≤ int32Max)
      exact (hall int32Max u v hrange).mono fun e he => he.1

/-- Kruskal's algorithm ends with a spanning forest of least weight. -/
theorem compute_minimum (sorting : KeySort (EdgeInfo n) Int) (calls : List (Int × Int × Int32))
    (hg : Graph.undirected n calls = some g) (hsums : SumsInRange g) :
    ∃ result, compute sorting g = some result ∧ Spanning g result.edges ∧
      result.totalWeight = weightOf result.edges ∧
      ∀ F, Spanning g F → result.totalWeight ≤ weightOf F := by
  obtain ⟨result, hrun, hspan, hlight, htotal⟩ := compute_spec sorting (Graph.undirected_symm hg)
  have hweight := htotal.eq (hsums result.edges hspan.edges hspan.forest)
  exact ⟨result, hrun, hspan, hweight, fun F hF => hweight ▸ hspan.minimal hlight hF⟩

/-- With a tie and a loop. -/
theorem compute_minimum_tie :
    ∃ g, Graph.undirected 3 [(0, 1, 2), (1, 2, 2), (2, 0, -1), (1, 1, -2)] = some g ∧
      ∃ result, compute (KeySort.insertion _ _) g = some result ∧ Spanning g result.edges ∧
        result.totalWeight = weightOf result.edges ∧
        ∀ F, Spanning g F → result.totalWeight ≤ weightOf F := by
  refine ⟨_, rfl, ?_⟩
  apply compute_minimum _ [(0, 1, 2), (1, 2, 2), (2, 0, -1), (1, 1, -2)] rfl
  exact sumsInRange_of_small (W := 2) (by decide) (by decide)

end Trees

end KruskalMST

end Cppforge.Graphs
