import Cppforge.Spatial.PointTrees
import Mathlib.Algebra.Order.Ring.Defs
import Mathlib.Algebra.Order.BigOperators.Group.List
import Mathlib.Tactic.Abel
import Mathlib.Tactic.Linarith
import Mathlib.Algebra.Order.Ring.Rat
import Mathlib.Tactic.NormNum

namespace Cppforge.Spatial.KDTree
open BinaryTree

variable {P R : Type} [LinearOrder R]

section Shape
variable (A : Accessor P R)

/-- On the axis of each level nothing on the left is greater and nothing on the
right is smaller. -/
def Valid : Nat → BinaryTree P → Prop
  | _, .nil => True
  | depth, .node p l r =>
    (∀ x ∈ l.inorder id, A.get x (depth % A.K) ≤ A.get p (depth % A.K)) ∧
    (∀ x ∈ r.inorder id, A.get p (depth % A.K) ≤ A.get x (depth % A.K)) ∧
    Valid (depth + 1) l ∧ Valid (depth + 1) r

variable {A} {point : P} {depth : Nat} {t l r : BinaryTree P}

theorem buildTree_spec (nth : NthElement P R) (points : List P) (depth : Nat) :
    ((buildTree A nth points depth).inorder id).Perm points ∧
      Valid A depth (buildTree A nth points depth) := by
  fun_induction buildTree A nth points depth with
  | case1 points depth h =>
    rw [List.length_eq_zero_iff.mp h]
    exact ⟨List.Perm.refl _, trivial⟩
  | case2 points depth h axis mid moved hmid ihl ihr =>
    have hget : moved[mid]? = some (moved.get ⟨mid, hmid⟩) := List.getElem?_eq_getElem hmid
    refine ⟨?_, ?_, ?_, ihl.2, ihr.2⟩
    · refine List.Perm.trans ?_ (nth.perm (A.get · axis) mid points)
      refine (ihl.1.append (ihr.1.cons _)).trans ?_
      change (moved.take mid ++ moved[mid] :: moved.drop (mid + 1)).Perm moved
      rw [List.getElem_cons_drop, List.take_append_drop]
    · intro x hx
      exact nth.front _ _ _ _ hget x (ihl.1.mem_iff.mp hx)
    · intro x hx
      exact nth.back _ _ _ _ hget x (ihr.1.mem_iff.mp hx)

/-- What insertion leaves in a subtree: the old points, and the new one where it
was taken in. -/
theorem insertNode_perm (point : P) (t : BinaryTree P) (depth : Nat) :
    ((insertNode A point t depth).1.inorder id).Perm
      (if (insertNode A point t depth).2 then point :: t.inorder id else t.inorder id) := by
  induction t generalizing depth with
  | nil => exact List.Perm.refl _
  | node p l r ihl ihr =>
    rw [insertNode]
    split
    · exact List.Perm.refl _
    · dsimp only
      split
      · refine ((ihl (depth + 1)).append_right _).trans ?_
        dsimp only
        split <;> exact List.Perm.refl _
      · refine (((ihr (depth + 1)).cons _).append_left _).trans ?_
        dsimp only
        split
        · refine ((List.Perm.swap _ _ _).append_left _).trans ?_
          exact List.perm_middle
        · exact List.Perm.refl _

theorem mem_insertNode {x : P} (hx : x ∈ (insertNode A point t depth).1.inorder id) :
    x = point ∨ x ∈ t.inorder id := by
  have hmem := (insertNode_perm point t depth).mem_iff.mp hx
  split at hmem
  · exact List.mem_cons.mp hmem
  · exact .inr hmem

theorem valid_insertNode (point : P) (h : Valid A depth t) :
    Valid A depth (insertNode A point t depth).1 := by
  induction t generalizing depth with
  | nil => exact ⟨nofun, nofun, trivial, trivial⟩
  | node p l r ihl ihr =>
    obtain ⟨hl, hr, hvl, hvr⟩ := h
    rw [insertNode]
    split
    · exact ⟨hl, hr, hvl, hvr⟩
    · dsimp only
      split
      next hlt =>
        refine ⟨?_, hr, ihl hvl, hvr⟩
        intro x hx
        rcases mem_insertNode hx with rfl | hx
        · exact hlt.le
        · exact hl x hx
      next hge =>
        refine ⟨hl, ?_, hvl, ihr hvr⟩
        intro x hx
        rcases mem_insertNode hx with rfl | hx
        · exact not_lt.mp hge
        · exact hr x hx

variable (A) in
/-- The tree holds exactly these points. -/
structure Holds (t : KDTree P) (stored : List P) : Prop where
  perm : (t.root.inorder id).Perm stored
  size : t.size = stored.length
  valid : Valid A 0 t.root

theorem holds_build (nth : NthElement P R) (points : List P) :
    Holds A (build A nth points) points :=
  ⟨(buildTree_spec nth points 0).1, rfl, (buildTree_spec nth points 0).2⟩

variable {tree : KDTree P} {stored : List P}

theorem Holds.eq_nil (h : Holds A tree stored) : tree.root = .nil ↔ stored = [] := by
  cases hroot : tree.root with
  | nil =>
    have hperm := h.perm
    rw [hroot, inorder_nil] at hperm
    simp [hperm.nil_eq]
  | node p l r =>
    have hperm := h.perm
    rw [hroot, inorder_node] at hperm
    have : stored ≠ [] := by
      rintro rfl
      simpa using hperm.length_eq
    simp [this]

theorem Holds.insert (h : Holds A tree stored) (point : P) :
    Holds A (tree.insert A point).1
      (if (tree.insert A point).2 then point :: stored else stored) := by
  have hperm := insertNode_perm (A := A) point tree.root 0
  have hvalid := valid_insertNode point h.valid
  rw [KDTree.insert]
  split
  next root heq =>
    rw [heq] at hperm hvalid
    exact ⟨hperm.trans (h.perm.cons point), by rw [h.size]; rfl, hvalid⟩
  next root heq =>
    rw [heq] at hperm hvalid
    exact ⟨hperm.trans h.perm, h.size, hvalid⟩

theorem Holds.insertAll (h : Holds A tree stored) (inserts : List P) :
    Holds A (tree.insertAll A inserts).1 (stored ++ (tree.insertAll A inserts).2) := by
  induction inserts generalizing tree stored with
  | nil =>
    rw [KDTree.insertAll, List.append_nil]
    exact h
  | cons point inserts ih =>
    have hrest := ih (h.insert point)
    rw [KDTree.insertAll]
    refine ⟨hrest.perm.trans ?_, hrest.size.trans ?_, hrest.valid⟩
    all_goals dsimp only; split
    · exact List.perm_middle.symm
    · exact List.Perm.refl _
    · simp only [List.length_append, List.length_cons]
      omega
    · rfl

end Shape

section Distance
variable [CommRing R] [IsStrictOrderedRing R] {A : Accessor P R} {query p : P}

/-- The distance to a point is no less than its part along an axis. -/
theorem axis_le_squaredDistance (query x : P) {d : Nat} (hd : d < A.K) :
    (A.get query d - A.get x d) * (A.get query d - A.get x d) ≤ squaredDistance A query x := by
  have hsum : squaredDistance A query x = ((List.range A.K).map fun d =>
      (A.get query d - A.get x d) * (A.get query d - A.get x d)).sum := by
    rw [List.sum_eq_foldl, List.foldl_map]
    rfl
  rw [hsum]
  refine List.single_le_sum ?_ _ (List.mem_map_of_mem (List.mem_range.mpr hd))
  intro y hy
  obtain ⟨d, _, rfl⟩ := List.mem_map.mp hy
  exact mul_self_nonneg _

/-- Every point behind the splitting plane is at least as far as the plane. -/
theorem plane_le_squaredDistance {x : P} {d : Nat} (hd : d < A.K)
    (h : (A.get query d ≤ A.get p d ∧ A.get p d ≤ A.get x d) ∨
      (A.get p d ≤ A.get query d ∧ A.get x d ≤ A.get p d)) :
    (A.get p d - A.get query d) * (A.get p d - A.get query d) ≤ squaredDistance A query x := by
  refine le_trans ?_ (axis_le_squaredDistance query x hd)
  rcases h with ⟨hqp, hpx⟩ | ⟨hpq, hxp⟩ <;> nlinarith

end Distance

section Searches
variable [CommRing R] [IsStrictOrderedRing R] {A : Accessor P R} {query : P} {S : Type}

/-- The two subtrees of a node are the one with the query and one that lies
behind the plane. -/
theorem Valid.far_side (query : P) {p : P} {l r : BinaryTree P} {depth : Nat}
    (h : Valid A depth (.node p l r)) :
    ∀ x ∈ (if A.get query (depth % A.K) < A.get p (depth % A.K) then r else l).inorder id,
      (A.get p (depth % A.K) - A.get query (depth % A.K)) *
        (A.get p (depth % A.K) - A.get query (depth % A.K)) ≤ squaredDistance A query x := by
  obtain ⟨hl, hr, _, _⟩ := h
  have haxis : depth % A.K < A.K := Nat.mod_lt _ A.pos
  intro x hx
  split at hx
  next hlt => exact plane_le_squaredDistance haxis (.inl ⟨hlt.le, hr x hx⟩)
  next hge => exact plane_le_squaredDistance haxis (.inr ⟨not_lt.mp hge, hl x hx⟩)

/-- A property of the points considered so far and of what was found holds after
the search if one more point keeps it, and leaving out points behind a plane
that is not crossed. -/
theorem search_spec {consider : P → S → S} {crosses : R → S → Bool}
    (Inv : Multiset P → S → Prop)
    (hconsider : ∀ p V found, Inv V found → Inv (p ::ₘ V) (consider p found))
    (hskip : ∀ planeSq V W found, Inv V found → crosses planeSq found = false →
      (∀ x ∈ W, planeSq ≤ squaredDistance A query x) → Inv (W + V) found)
    {t : BinaryTree P} {depth : Nat} (hvalid : Valid A depth t) {V : Multiset P} {found : S}
    (hinv : Inv V found) :
    Inv (↑(t.inorder id) + V) (search A consider crosses query t depth found) := by
  induction t generalizing depth V found with
  | nil =>
    rw [search, inorder_nil, Multiset.coe_nil, zero_add]
    exact hinv
  | node p l r ihl ihr =>
    have hplane := hvalid.far_side query
    obtain ⟨_, _, hvl, hvr⟩ := hvalid
    have hright : (↑((BinaryTree.node p l r).inorder id) + V : Multiset P) =
        ↑(r.inorder id) + (p ::ₘ (↑(l.inorder id) + V)) := by
      rw [inorder_node, ← Multiset.coe_add, ← Multiset.cons_coe]
      simp only [id, Multiset.add_cons, Multiset.cons_add]
      rw [add_left_comm, add_assoc]
    have hleft : (↑((BinaryTree.node p l r).inorder id) + V : Multiset P) =
        ↑(l.inorder id) + (p ::ₘ (↑(r.inorder id) + V)) := by
      rw [hright, Multiset.add_cons, Multiset.add_cons, add_left_comm]
    rw [search]
    dsimp only
    split at hplane
    next hlt =>
      have hnear := hconsider p _ _ (ihl hvl hinv)
      rw [hright]
      simp only [hlt, if_true]
      split
      · exact ihr hvr hnear
      · exact hskip _ _ _ _ hnear (Bool.not_eq_true _ ▸ ‹_›) hplane
    next hge =>
      have hnear := hconsider p _ _ (ihr hvr hinv)
      rw [hleft]
      simp only [hge, if_false]
      split
      · exact ihl hvl hnear
      · exact hskip _ _ _ _ hnear (Bool.not_eq_true _ ▸ ‹_›) hplane

section Nearest

variable (A) in
/-- Nothing considered is closer than `distSq`, which is that of `best`, or still
the start value. -/
structure Found (maxValue : R) (query : P) (V : Multiset P) (found : Best P R) : Prop where
  least : ∀ x ∈ V, found.distSq ≤ squaredDistance A query x
  attained : found = ⟨none, maxValue⟩ ∨ ∃ x ∈ V, squaredDistance A query x < maxValue ∧
    found = ⟨some x, squaredDistance A query x⟩

variable {maxValue : R}

theorem nearestSearch_spec {t : BinaryTree P} (hvalid : Valid A 0 t) :
    Found A maxValue query ↑(t.inorder id) (nearestSearch A query t 0 ⟨none, maxValue⟩) := by
  have hstart : Found A maxValue query 0 ⟨none, maxValue⟩ := ⟨nofun, .inl rfl⟩
  rw [← add_zero (↑(t.inorder id) : Multiset P)]
  refine search_spec _ ?_ ?_ hvalid hstart
  · intro p V found h
    have hle : found.distSq ≤ maxValue := by
      rcases h.attained with rfl | ⟨x, _, hx, rfl⟩
      · exact le_refl _
      · exact hx.le
    dsimp only
    split
    next hlt =>
      refine ⟨?_, .inr ⟨p, Multiset.mem_cons_self p V, hlt.trans_le hle, rfl⟩⟩
      intro x hx
      rcases Multiset.mem_cons.mp hx with rfl | hx
      · exact le_refl _
      · exact hlt.le.trans (h.least x hx)
    next hge =>
      refine ⟨?_, ?_⟩
      · intro x hx
        rcases Multiset.mem_cons.mp hx with rfl | hx
        · exact not_lt.mp hge
        · exact h.least x hx
      · rcases h.attained with hstart | ⟨x, hx, hlt, heq⟩
        · exact .inl hstart
        · exact .inr ⟨x, Multiset.mem_cons_of_mem hx, hlt, heq⟩
  · intro planeSq V W found h hcross hW
    have hplane : found.distSq ≤ planeSq := not_lt.mp (of_decide_eq_false hcross)
    refine ⟨?_, ?_⟩
    · intro x hx
      rcases Multiset.mem_add.mp hx with hx | hx
      · exact hplane.trans (hW x hx)
      · exact h.least x hx
    · rcases h.attained with hstart | ⟨x, hx, hlt, heq⟩
      · exact .inl hstart
      · exact .inr ⟨x, Multiset.mem_add.mpr (.inr hx), hlt, heq⟩

end Nearest

section Closest
variable (Q : PriorityQueue (R × P) Prod.fst)

variable (A) in
/-- A point as it stands in the heap. -/
def entry (query p : P) : R × P := (squaredDistance A query p, p)

variable {Q} {k : Nat}

/-- The heap holds the `k` closest of the points considered. -/
theorem knnSearch_spec (query : P) {t : BinaryTree P} (hvalid : Valid A 0 t) (hpos : 0 < k) :
    Smallest Prod.fst k (Q.entries (knnSearch A Q k query t 0 Q.empty))
      (Multiset.map (entry A query) ↑(t.inorder id)) := by
  have hstart : Smallest Prod.fst k (Q.entries Q.empty) (Multiset.map (entry A query) 0) := by
    rw [Q.entries_empty, Multiset.map_zero]
    exact Smallest.zero
  rw [← add_zero (↑(t.inorder id) : Multiset P)]
  refine search_spec
    (fun V heap => Smallest Prod.fst k (Q.entries heap) (Multiset.map (entry A query) V))
    ?_ ?_ hvalid hstart
  · intro p V heap h
    rw [Multiset.map_cons]
    dsimp only
    split
    next hlt =>
      rw [Q.entries_push]
      exact h.push (by rwa [Q.card_entries])
    next hge =>
      obtain ⟨e, htop⟩ := Q.top_some (h := heap) (by omega)
      have hpop := Q.entries_pop e heap htop
      have hmax := Q.top_max e heap htop
      rw [htop, Option.any_some]
      split
      next hcloser =>
        rw [Q.entries_push]
        rw [hpop] at h hmax
        refine h.replace ?_ ?_ ?_
        · rw [← hpop, Q.card_entries]
          omega
        · intro y hy
          exact hmax y (Multiset.mem_cons_of_mem hy)
        · exact (of_decide_eq_true hcloser).le
      next hfarther =>
        rw [← Multiset.singleton_add]
        refine h.keep ?_ ?_
        · rw [Q.card_entries]
          omega
        · intro x hx y hy
          rw [Multiset.mem_singleton.mp hy]
          have hle : e.1 ≤ squaredDistance A query p := by simpa using hfarther
          exact (hmax x hx).trans hle
  · intro planeSq V W heap h hcross hW
    obtain ⟨hsize, hclose⟩ := Bool.or_eq_false_iff.mp hcross
    have hge : ¬ Q.size heap < k := of_decide_eq_false hsize
    obtain ⟨e, htop⟩ := Q.top_some (h := heap) (by omega)
    rw [htop, Option.any_some] at hclose
    have hplane : e.1 ≤ planeSq := not_lt.mp (of_decide_eq_false hclose)
    rw [Multiset.map_add]
    refine h.keep ?_ ?_
    · rw [Q.card_entries]
      omega
    · intro x hx y hy
      obtain ⟨w, hw, rfl⟩ := Multiset.mem_map.mp hy
      exact ((Q.top_max e heap htop x hx).trans hplane).trans (hW w hw)

end Closest

section Range

variable (A) in
def within (query : P) (radiusSq : R) (points : List P) : List P :=
  points.filter fun x => decide (squaredDistance A query x ≤ radiusSq)

/-- The search adds what is within the radius, in some order. -/
theorem rangeSearchNode_spec {t : BinaryTree P} {depth : Nat} (hvalid : Valid A depth t)
    (radiusSq : R) (result : List P) :
    (↑(rangeSearchNode A query radiusSq t depth result) : Multiset P) =
      ↑result + ↑(within A query radiusSq (t.inorder id)) := by
  induction t generalizing depth result with
  | nil => exact (add_zero _).symm
  | node p l r ihl ihr =>
    have hplane := hvalid.far_side query
    obtain ⟨_, _, hvl, hvr⟩ := hvalid
    have hself : (if squaredDistance A query p ≤ radiusSq then result ++ [p] else result) =
        result ++ within A query radiusSq [p] := by
      split <;> simp [within, *]
    have hall : (↑(within A query radiusSq ((BinaryTree.node p l r).inorder id)) : Multiset P) =
        ↑(within A query radiusSq (l.inorder id)) + (↑(within A query radiusSq [p]) +
          ↑(within A query radiusSq (r.inorder id))) := by
      rw [inorder_node, ← List.singleton_append, within, List.filter_append, List.filter_append,
        ← Multiset.coe_add, ← Multiset.coe_add]
      rfl
    have hskip : ∀ points : List P, ¬ (A.get p (depth % A.K) - A.get query (depth % A.K)) *
          (A.get p (depth % A.K) - A.get query (depth % A.K)) ≤ radiusSq →
        (∀ x ∈ points, (A.get p (depth % A.K) - A.get query (depth % A.K)) *
          (A.get p (depth % A.K) - A.get query (depth % A.K)) ≤ squaredDistance A query x) →
        within A query radiusSq points = [] := by
      intro points hcross hpoints
      rw [within, List.filter_eq_nil_iff]
      intro x hx hnear
      exact hcross ((hpoints x hx).trans (of_decide_eq_true hnear))
    rw [rangeSearchNode, hall]
    dsimp only
    rw [hself]
    split at hplane
    next hlt =>
      simp only [hlt, if_true]
      split
      · rw [ihr hvr, ihl hvl, ← Multiset.coe_add]
        abel
      · rw [ihl hvl, hskip _ ‹_› hplane, ← Multiset.coe_add, Multiset.coe_nil]
        abel
    next hge =>
      simp only [hge, if_false]
      split
      · rw [ihl hvl, ihr hvr, ← Multiset.coe_add]
        abel
      · rw [ihr hvr, hskip _ ‹_› hplane, ← Multiset.coe_add, Multiset.coe_nil]
        abel

end Range

section Queries
variable {Q : PriorityQueue (R × P) Prod.fst} {maxValue : R} {tree : KDTree P} {stored : List P}

variable (A) in
/-- A stored point that no other is closer than, and none only if there is none. -/
def Nearest (query : P) (stored : List P) (found : Option P) : Prop :=
  (stored = [] ∧ found = none) ∨ ∃ x ∈ stored, found = some x ∧
    ∀ y ∈ stored, squaredDistance A query x ≤ squaredDistance A query y

variable (A) in
/-- `k` of the stored points, or all if there are fewer, with the smallest
distances, the closest first. -/
def Closest (query : P) (stored : List P) (k : Nat) (found : List P) : Prop :=
  (↑found : Multiset P) ≤ ↑stored ∧ found.length = min k stored.length ∧
    found.map (squaredDistance A query) =
      ((stored.map (squaredDistance A query)).insertionSort (· ≤ ·)).take k

variable (A Q maxValue) in
/-- The queries from a point agree with a look at every stored point. -/
structure Agrees (tree : KDTree P) (query : P) (stored : List P) : Prop where
  size : tree.size = stored.length
  nearest : Nearest A query stored (tree.nearestNeighbor A maxValue query)
  closest : ∀ k, Closest A query stored k (tree.kNearestNeighbors A Q query k)
  range : ∀ radius, 0 ≤ radius → (tree.rangeSearch A query radius).Perm
    (stored.filter fun x => decide (squaredDistance A query x ≤ radius ^ 2))

theorem Holds.nearestNeighbor (h : Holds A tree stored) :
    Nearest A query stored (tree.nearestNeighbor A maxValue query) ↔
      stored = [] ∨ ∃ x ∈ stored, squaredDistance A query x < maxValue := by
  by_cases hnil : tree.root = .nil
  · have hstored := h.eq_nil.mp hnil
    simp [hstored, Nearest, KDTree.nearestNeighbor, hnil, isNull]
  have hne : stored ≠ [] := fun hs => hnil (h.eq_nil.mpr hs)
  have hmem : ∀ x, x ∈ (↑(tree.root.inorder id) : Multiset P) ↔ x ∈ stored :=
    fun x => h.perm.mem_iff
  have hresult : tree.nearestNeighbor A maxValue query =
      (nearestSearch A query tree.root 0 ⟨none, maxValue⟩).best := by
    rw [KDTree.nearestNeighbor, if_neg (by rwa [isNull_iff])]
  obtain ⟨hleast, hattained⟩ := nearestSearch_spec h.valid
  rw [hresult, Nearest, or_iff_right (fun hs => hne hs.1), or_iff_right hne]
  rcases hattained with hstart | ⟨x, hx, hlt, hfound⟩
  · -- nothing was below the start value
    rw [hstart] at hleast ⊢
    constructor
    · rintro ⟨x, _, hnone, _⟩
      cases hnone
    · rintro ⟨x, hx, hlt⟩
      exact absurd hlt (not_lt.mpr (hleast x ((hmem x).mpr hx)))
  · rw [hfound] at hleast ⊢
    refine iff_of_true ⟨x, (hmem x).mp hx, rfl, ?_⟩ ⟨x, (hmem x).mp hx, hlt⟩
    intro y hy
    exact hleast y ((hmem y).mpr hy)

theorem Holds.kNearestNeighbors (h : Holds A tree stored) (k : Nat) :
    Closest A query stored k (tree.kNearestNeighbors A Q query k) := by
  rw [KDTree.kNearestNeighbors]
  split
  next hk =>
    subst hk
    exact ⟨Multiset.zero_le _, by simp, by simp⟩
  next hk =>
    split
    next hnull =>
      rw [h.eq_nil.mp (isNull_iff.mp hnull)]
      simp [Closest]
    next hnull =>
      dsimp only
      generalize hheap : knnSearch A Q k query tree.root 0 Q.empty = heap
      generalize hout : (Q.drain (Q.size heap) heap).reverse = out
      have hentries : (↑out : Multiset (R × P)) = Q.entries heap := by
        rw [← hout, ← Q.drain_entries _ rfl]
        exact Multiset.coe_eq_coe.mpr (List.reverse_perm _)
      have hsorted : out.Pairwise fun a b => a.1 ≤ b.1 := by
        rw [← hout, List.pairwise_reverse]
        exact Q.drain_sorted _ rfl
      have hsmallest : Smallest Prod.fst k (↑out : Multiset (R × P))
          ↑(stored.map (entry A query)) := by
        have hspec := knnSearch_spec query (Q := Q) h.valid (Nat.pos_of_ne_zero hk)
        rw [hheap, ← hentries, Multiset.map_coe,
          Multiset.coe_eq_coe.mpr (h.perm.map (entry A query))] at hspec
        exact hspec
      have hkeys : out.map Prod.fst = (out.map Prod.snd).map (squaredDistance A query) := by
        rw [List.map_map]
        refine List.map_congr_left ?_
        intro e he
        have hmem := Multiset.mem_of_le hsmallest.le (Multiset.mem_coe.mpr he)
        obtain ⟨x, _, rfl⟩ := List.mem_map.mp (Multiset.mem_coe.mp hmem)
        rfl
      have hsnd : (stored.map (entry A query)).map Prod.snd = stored := by
        rw [List.map_map]
        exact List.map_id stored
      have hfst : (stored.map (entry A query)).map Prod.fst =
          stored.map (squaredDistance A query) := by
        rw [List.map_map]
        rfl
      rw [← List.map_reverse, hout]
      refine ⟨?_, ?_, ?_⟩
      · have hle := Multiset.map_le_map (f := Prod.snd) hsmallest.le
        rwa [Multiset.map_coe, Multiset.map_coe, hsnd] at hle
      · obtain ⟨_, _, hcard, _⟩ := hsmallest
        simpa using hcard
      · rw [← hkeys, hsmallest.map_key hsorted, hfst]

theorem Holds.rangeSearch (h : Holds A tree stored) (radius : R) :
    (tree.rangeSearch A query radius).Perm
      (stored.filter fun x => decide (squaredDistance A query x ≤ radius ^ 2)) := by
  rw [KDTree.rangeSearch]
  split
  next hnull =>
    rw [h.eq_nil.mp (isNull_iff.mp hnull)]
    exact List.Perm.refl _
  next hnull =>
    refine List.Perm.trans ?_ (h.perm.filter _)
    rw [← Multiset.coe_eq_coe, rangeSearchNode_spec h.valid, Multiset.coe_nil, zero_add, pow_two]
    rfl

/-- After a build and insertions the queries from a point are right exactly if
there is no point, or one whose squared distance is below the start value of
`bestDistSq`. -/
theorem queries_iff (A : Accessor P R) (nth : NthElement P R)
    (Q : PriorityQueue (R × P) Prod.fst) (maxValue : R) (points inserts : List P) (query : P) :
    let (tree, taken) := (build A nth points).insertAll A inserts
    Agrees A Q maxValue tree query (points ++ taken) ↔
      points ++ taken = [] ∨ ∃ x ∈ points ++ taken, squaredDistance A query x < maxValue := by
  have h := (holds_build (A := A) nth points).insertAll inserts
  constructor
  · intro hagrees
    exact h.nearestNeighbor.mp hagrees.nearest
  · intro hclose
    exact ⟨h.size, h.nearestNeighbor.mpr hclose, h.kNearestNeighbors, fun radius _ => h.rangeSearch radius⟩

end Queries

end Searches

section Line

/-- Numbers as points of one dimension. -/
def line : Accessor Rat Rat := ⟨1, by decide, fun p _ => p, fun a b => decide (a = b)⟩

/-- The greatest finite `double`. -/
def maxDouble : Rat := 2 ^ 1024 - 2 ^ 971

def ofLine (points inserts : List Rat) : KDTree Rat × List Rat :=
  (build line .sorting points).insertAll line inserts

theorem queries_iff_line :
    Agrees line (.sortedList Prod.fst) maxDouble (ofLine [3, 1] [2]).1 0
      ([3, 1] ++ (ofLine [3, 1] [2]).2) := by
  refine (queries_iff line .sorting (.sortedList Prod.fst) maxDouble [3, 1] [2] 0).mpr
    (.inr ⟨3, List.mem_append_left _ List.mem_cons_self, ?_⟩)
  decide +kernel

/-- The only point is too far away for the start value of the search. -/
theorem nearestNeighbor_far :
    ¬ Nearest line 0 [2 ^ 512]
      ((build line .sorting [2 ^ 512]).nearestNeighbor line maxDouble 0) := by
  have h := holds_build (A := line) .sorting [2 ^ 512]
  rw [h.nearestNeighbor]
  decide +kernel

end Line

section Descent
variable (A : Accessor P R)

/-- The points on the way down that the coordinates of a point take. -/
def path (point : P) : BinaryTree P → Nat → List P
  | .nil, _ => []
  | .node p l r, depth =>
    if A.get point (depth % A.K) < A.get p (depth % A.K) then p :: path point l (depth + 1)
    else p :: path point r (depth + 1)

variable {A} {point : P} {depth : Nat} {t : BinaryTree P}

end Descent

section Plane

end Plane
end Cppforge.Spatial.KDTree
