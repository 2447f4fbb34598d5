import Mathlib.Data.List.FinRange
import Mathlib.Data.Sym.Sym2
import Mathlib.Logic.Function.Basic
import Mathlib.Algebra.Order.Group.Int
import Mathlib.Algebra.Ring.Int.Defs
import Mathlib.Algebra.GroupWithZero.Nat

namespace Cppforge.Graphs
open Function

/-- `INT32_MAX`. -/
def int32Max : Int := 2147483647

abbrev InRange (a : Int) : Prop := -2147483648 ≤ a ∧ a ≤ int32Max

/-- The sum of two `int32_t`; an overflow wraps. -/
def add32 (a b : Int) : Int := (a + b).bmod (2 ^ 32)

theorem add32_eq {a b : Int} (h : InRange (a + b)) : add32 a b = a + b := by
  obtain ⟨hlow, hhigh⟩ := h
  rw [int32Max] at hhigh
  exact Int.bmod_eq_of_le (by omega) (by omega)

theorem inRange_toInt (a : Int32) : InRange a.toInt := by
  have hlow := a.le_toInt
  have hhigh := a.toInt_lt
  rw [InRange, int32Max]
  omega

/-- `to_` and `weight_`. -/
structure Edge (n : Nat) where
  target : Fin n
  weight : Int
  inRange : InRange weight

/-- `from`, `to` and `weight`. -/
structure EdgeInfo (n : Nat) where
  source : Fin n
  target : Fin n
  weight : Int
deriving DecidableEq

/-- `adj_list_` over `n` nodes. -/
structure Graph (n : Nat) where
  adjList : Fin n → List (Edge n)

namespace Graph
variable {n : Nat}

def empty (n : Nat) : Graph n := ⟨fun _ => []⟩

/-- The constructor; `none` is `std::invalid_argument`. -/
def create (n : Int) : Option ((n : Nat) × Graph n) :=
  if n < 0 then none else some ⟨n.toNat, empty n.toNat⟩

def getAdjList (g : Graph n) (u : Fin n) : List (Edge n) := g.adjList u

/-- The number of a node, `none` if it is out of range. -/
def node (n : Nat) (u : Int) : Option (Fin n) :=
  if h : 0 ≤ u ∧ u < n then some ⟨u.toNat, by omega⟩ else none

/-- `none` is `std::out_of_range`. -/
def addEdge (g : Graph n) (source target : Int) (weight : Int32) : Option (Graph n) := do
  let u ← node n source
  let v ← node n target
  return ⟨update g.adjList u (g.adjList u ++ [⟨v, weight.toInt, inRange_toInt weight⟩])⟩

def addUndirectedEdge (g : Graph n) (u v : Int) (weight : Int32) : Option (Graph n) := do
  let g ← g.addEdge u v weight
  g.addEdge v u weight

/-- The graph after calls of `addUndirectedEdge` that throw nothing. -/
def undirected (n : Nat) (calls : List (Int × Int × Int32)) : Option (Graph n) :=
  calls.foldlM (fun g (u, v, weight) => g.addUndirectedEdge u v weight) (empty n)

def HasEdge (g : Graph n) (u v : Fin n) (w : Int) : Prop :=
  ∃ edge ∈ g.getAdjList u, edge.target = v ∧ edge.weight = w

def Adjacent (g : Graph n) (u v : Fin n) : Prop := ∃ edge ∈ g.getAdjList u, edge.target = v

variable {g g' : Graph n} {u v : Fin n} {w : Int}

theorem HasEdge.inRange (h : g.HasEdge u v w) : InRange w := by
  obtain ⟨edge, _, _, rfl⟩ := h
  exact edge.inRange

theorem hasEdge_empty : ¬ (empty n).HasEdge u v w := by
  intro hgiven
  obtain ⟨edge, hedge, _⟩ := hgiven
  cases hedge

theorem addEdge_hasEdge {source target : Int} {weight : Int32}
    (h : g.addEdge source target weight = some g') :
    ∃ a b, node n source = some a ∧ node n target = some b ∧
      ∀ u v w, g'.HasEdge u v w ↔ g.HasEdge u v w ∨ (u = a ∧ v = b ∧ w = weight.toInt) := by
  cases ha : node n source with
  | none => simp [addEdge, ha] at h
  | some a =>
    cases hb : node n target with
    | none => simp [addEdge, ha, hb] at h
    | some b =>
      simp only [addEdge, ha, hb, Option.bind_eq_bind, Option.bind_some, Option.pure_def,
        Option.some.injEq] at h
      subst h
      refine ⟨a, b, rfl, rfl, ?_⟩
      intro u v w
      by_cases hu : u = a
      · subst hu
        simp only [HasEdge, getAdjList, update_self, List.mem_append, List.mem_singleton,
          or_and_right, exists_or, exists_eq_left, true_and]
        exact or_congr_right (and_congr eq_comm eq_comm)
      · simp [HasEdge, getAdjList, hu]

def Symm (g : Graph n) : Prop := ∀ u v w, g.HasEdge u v w → g.HasEdge v u w

theorem addUndirectedEdge_symm {a b : Int} {weight : Int32} (hg : g.Symm)
    (h : g.addUndirectedEdge a b weight = some g') : g'.Symm := by
  obtain ⟨g₁, hone, htwo⟩ := Option.bind_eq_some_iff.mp h
  obtain ⟨a, b, ha, hb, hg₁⟩ := addEdge_hasEdge hone
  obtain ⟨b', a', hb', ha', hg₂⟩ := addEdge_hasEdge htwo
  obtain rfl : a = a' := Option.some.inj (ha.symm.trans ha')
  obtain rfl : b = b' := Option.some.inj (hb.symm.trans hb')
  intro u v w he
  rw [hg₂, hg₁] at he ⊢
  rcases he with (he | he) | he
  · exact .inl (.inl (hg u v w he))
  · exact .inr ⟨he.2.1, he.1, he.2.2⟩
  · exact .inl (.inr ⟨he.2.1, he.1, he.2.2⟩)

/-- What is built by undirected edges has every edge both ways. -/
theorem undirected_symm {calls : List (Int × Int × Int32)} (h : undirected n calls = some g) :
    g.Symm := by
  have hempty : (empty n).Symm := fun u v w he => absurd he hasEdge_empty
  rw [undirected] at h
  generalize empty n = g₀ at h hempty
  induction calls generalizing g₀ with
  | nil => exact Option.some.inj h ▸ hempty
  | cons call calls ih =>
    obtain ⟨g₁, hcall, hrest⟩ := Option.bind_eq_some_iff.mp h
    exact ih g₁ hrest (addUndirectedEdge_symm hempty hcall)

/-- The loops over all nodes come to the lower ones first. -/
theorem mem_front {front behind : List (Fin n)} (h : front ++ u :: behind = List.finRange n)
    (hv : v < u) : v ∈ front := by
  have hmem := List.mem_finRange v
  have hsorted := List.pairwise_lt_finRange n
  rw [← h] at hmem hsorted
  refine (List.mem_append.mp hmem).resolve_right fun hin => ?_
  rcases List.mem_cons.mp hin with rfl | hin
  · exact lt_irrefl _ hv
  · exact lt_asymm hv (List.rel_of_pairwise_cons (List.pairwise_append.mp hsorted).2.1 hin)

section Calls
variable {call : Int × Int × Int32} {calls calls' : List (Int × Int × Int32)} {a b : Int}

/-- The nodes that a call of `addUndirectedEdge` joins. -/
def ends (call : Int × Int × Int32) : Sym2 Int := s(call.1, call.2.1)

theorem node_eq (h : node n a = some v) : a = v.val := by
  rw [node] at h
  split at h
  · have hval := congrArg Fin.val (Option.some.inj h)
    simp only at hval
    omega
  · cases h

theorem addUndirectedEdge_adjacent
    (h : g.addUndirectedEdge call.1 call.2.1 call.2.2 = some g') :
    g'.Adjacent u v ↔ g.Adjacent u v ∨ s((u.val : Int), (v.val : Int)) = ends call := by
  have hadjacent : ∀ {g : Graph n}, g.Adjacent u v ↔ ∃ w, g.HasEdge u v w := by
    intro g
    constructor
    · intro hgiven
      obtain ⟨edge, hedge, htarget⟩ := hgiven
      exact ⟨edge.weight, edge, hedge, htarget, rfl⟩
    · intro hgiven
      obtain ⟨w, edge, hedge, htarget, _⟩ := hgiven
      exact ⟨edge, hedge, htarget⟩
  obtain ⟨g₁, hone, htwo⟩ := Option.bind_eq_some_iff.mp h
  obtain ⟨a, b, ha, hb, hg₁⟩ := addEdge_hasEdge hone
  obtain ⟨b', a', hb', ha', hg₂⟩ := addEdge_hasEdge htwo
  obtain rfl : a = a' := Option.some.inj (ha.symm.trans ha')
  obtain rfl : b = b' := Option.some.inj (hb.symm.trans hb')
  rw [hadjacent, hadjacent, ends, node_eq ha, node_eq hb, Sym2.eq_iff]
  simp only [hg₂, hg₁, exists_or, or_assoc]
  have hval : ∀ x y : Fin n, (x.val : Int) = y.val ↔ x = y := fun x y =>
    Int.ofNat_inj.trans Fin.val_inj
  simp [hval]

/-- Adjacent are the nodes that some call joins. -/
theorem undirected_adjacent (h : undirected n calls = some g) :
    g.Adjacent u v ↔ s((u.val : Int), (v.val : Int)) ∈ calls.map ends := by
  suffices hstart : ∀ {g₀ : Graph n}, calls.foldlM (fun g (u, v, weight) =>
      g.addUndirectedEdge u v weight) g₀ = some g →
      (g.Adjacent u v ↔ g₀.Adjacent u v ∨ s((u.val : Int), (v.val : Int)) ∈ calls.map ends) by
    rw [hstart h, or_iff_right]
    intro hgiven
    obtain ⟨edge, hedge, _⟩ := hgiven
    cases hedge
  clear h
  induction calls with
  | nil =>
    intro g₀ h
    obtain rfl := Option.some.inj h
    simp
  | cons call calls ih =>
    intro g₀ h
    obtain ⟨g₁, hcall, hrest⟩ := Option.bind_eq_some_iff.mp h
    rw [ih hrest, addUndirectedEdge_adjacent hcall, List.map_cons, List.mem_cons, or_assoc]

theorem adjacent_symm (h : undirected n calls = some g) :
    ∀ u v, g.Adjacent u v → g.Adjacent v u := by
  intro u v huv
  rw [undirected_adjacent h] at huv ⊢
  rwa [Sym2.eq_swap]

/-- The nodes of a pair as numbers. -/
def numbers : Sym2 (Fin n) → Sym2 Int := Sym2.map fun x => (x.val : Int)

theorem numbers_injective : Injective (numbers (n := n)) :=
  Sym2.map.injective fun _ _ h => Fin.val_injective (Int.ofNat_inj.mp h)

theorem addEdge_count {source target : Int} {weight : Int32}
    (h : g.addEdge source target weight = some g') :
    ∃ a b, node n source = some a ∧ node n target = some b ∧
      ∀ u v, ((g'.getAdjList u).map Edge.target).count v =
        ((g.getAdjList u).map Edge.target).count v + if u = a ∧ v = b then 1 else 0 := by
  obtain ⟨a, ha, hrest⟩ := Option.bind_eq_some_iff.mp h
  obtain ⟨b, hb, hg'⟩ := Option.bind_eq_some_iff.mp hrest
  obtain rfl := Option.some.inj hg'
  refine ⟨a, b, ha, hb, fun u v => ?_⟩
  by_cases hu : u = a
  · subst hu
    simp only [getAdjList, update_self, List.map_append, List.count_append, List.map_singleton,
      List.count_singleton, true_and, beq_iff_eq]
    rw [if_congr (eq_comm (a := v)) rfl rfl]
  · simp [getAdjList, hu]

/-- An adjacency list names another node as often as calls join the two. -/
theorem undirected_count (h : undirected n calls = some g) (huv : u ≠ v) :
    ((g.getAdjList u).map Edge.target).count v = (calls.map ends).count (numbers s(u, v)) := by
  suffices hstart : ∀ {g₀ : Graph n}, calls.foldlM (fun g (u, v, weight) =>
      g.addUndirectedEdge u v weight) g₀ = some g →
      ((g.getAdjList u).map Edge.target).count v =
        ((g₀.getAdjList u).map Edge.target).count v +
          (calls.map ends).count (numbers s(u, v)) by
    rw [hstart h]
    exact Nat.zero_add _
  clear h
  induction calls with
  | nil =>
    intro g₀ h
    obtain rfl := Option.some.inj h
    rfl
  | cons call calls ih =>
    intro g₀ h
    obtain ⟨g₂, hcall, hrest⟩ := Option.bind_eq_some_iff.mp h
    obtain ⟨g₁, hone, htwo⟩ := Option.bind_eq_some_iff.mp hcall
    obtain ⟨a, b, ha, hb, hg₁⟩ := addEdge_count hone
    obtain ⟨b', a', hb', ha', hg₂⟩ := addEdge_count htwo
    obtain rfl : a = a' := Option.some.inj (ha.symm.trans ha')
    obtain rfl : b = b' := Option.some.inj (hb.symm.trans hb')
    have hends : ends call = numbers s(a, b) := by
      rw [ends, node_eq ha, node_eq hb]
      rfl
    have hboth : ¬ ((u = a ∧ v = b) ∧ u = b ∧ v = a) := by
      intro hand
      exact huv (hand.1.1.trans hand.2.2.symm)
    have hone_of : (if u = a ∧ v = b then 1 else 0) + (if u = b ∧ v = a then 1 else 0) =
        if s(a, b) = s(u, v) then 1 else 0 := by
      grind [Sym2.eq_iff]
    rw [ih hrest, hg₂, hg₁, List.map_cons, List.count_cons, hends, Nat.add_assoc _ _ (ite _ _ _),
      hone_of]
    simp only [beq_iff_eq, numbers_injective.eq_iff]
    omega

/-- Both nodes of a call are in range. -/
def InNodes (n : Nat) (call : Int × Int × Int32) : Prop :=
  ∃ u v, node n call.1 = some u ∧ node n call.2.1 = some v

theorem inNodes_of_undirected (h : undirected n calls = some g) :
    ∀ call ∈ calls, InNodes n call := by
  rw [undirected] at h
  generalize empty n = g₀ at h
  induction calls generalizing g₀ with
  | nil => exact fun call hcall => absurd hcall List.not_mem_nil
  | cons call calls ih =>
    obtain ⟨g₁, hcall, hrest⟩ := Option.bind_eq_some_iff.mp h
    refine List.forall_mem_cons.mpr ⟨?_, ih g₁ hrest⟩
    obtain ⟨_, hone, _⟩ := Option.bind_eq_some_iff.mp hcall
    obtain ⟨u, v, hu, hv, _⟩ := addEdge_hasEdge hone
    exact ⟨u, v, hu, hv⟩

theorem undirected_of_inNodes (h : ∀ call ∈ calls, InNodes n call) :
    ∃ g, undirected n calls = some g := by
  rw [undirected]
  generalize empty n = g₀
  induction calls generalizing g₀ with
  | nil => exact ⟨g₀, rfl⟩
  | cons call calls ih =>
    obtain ⟨⟨u, v, hu, hv⟩, hrest⟩ := List.forall_mem_cons.mp h
    simp only [List.foldlM_cons, addUndirectedEdge, addEdge, hu, hv, Option.bind_eq_bind,
      Option.bind_some, Option.pure_def]
    exact ih hrest _

/-- The nodes that calls join, in the order of the calls. -/
theorem exists_pairs (h : ∀ call ∈ calls, InNodes n call) :
    ∃ pairs : List (Fin n × Fin n), calls.map ends = pairs.map fun p => numbers s(p.1, p.2) := by
  induction calls with
  | nil => exact ⟨[], rfl⟩
  | cons call calls ih =>
    obtain ⟨⟨u, v, hu, hv⟩, hrest⟩ := List.forall_mem_cons.mp h
    obtain ⟨pairs, hpairs⟩ := ih hrest
    refine ⟨(u, v) :: pairs, ?_⟩
    rw [List.map_cons, List.map_cons, hpairs, ends, node_eq hu, node_eq hv]
    rfl

/-- Calls that throw nothing throw nothing when some are left out. -/
theorem undirected_subset (h : undirected n calls = some g) (hsub : calls' ⊆ calls) :
    ∃ g', undirected n calls' = some g' :=
  undirected_of_inNodes fun call hcall => inNodes_of_undirected h call (hsub hcall)

end Calls

end Graph

end Cppforge.Graphs
