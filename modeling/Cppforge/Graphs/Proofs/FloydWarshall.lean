import Cppforge.Graphs.ShortestPaths
import Cppforge.Graphs.Proofs.BellmanFord
import Cppforge.Lib.AllPairs

namespace Cppforge.Graphs.FloydWarshall
open Function Walks AllPairs AllPairsShortestPathResult

variable {n : Nat} {g : Graph n} {r r' : AllPairsShortestPathResult n} {i j k u v x : Fin n}
  {S : Fin n → Prop} {w : Int} {p : List (Fin n)}

section Cells

/-- Both matrices at one place. -/
def cell (r : AllPairsShortestPathResult n) (i j : Fin n) : Int × Option (Fin n) :=
  (r.distances i j, r.next i j)

theorem set_cell (r : AllPairsShortestPathResult n) (a b : Fin n) (d : Int) (x : Option (Fin n))
    (i j : Fin n) : cell (r.set a b d x) i j = if i = a ∧ j = b then (d, x) else cell r i j := by
  by_cases hi : i = a
  · subst hi
    by_cases hj : j = b <;> simp [cell, AllPairsShortestPathResult.set, hj]
  · simp [cell, AllPairsShortestPathResult.set, hi]

/-- The edge that is written last. -/
def lastEdge (g : Graph n) (u v : Fin n) : Option (Edge n) :=
  (g.getAdjList u).reverse.find? (·.target = v)

theorem foldl_setEdge (edges : List (Edge n)) (r : AllPairsShortestPathResult n) (u i j : Fin n) :
    cell (edges.foldl (setEdge u) r) i j =
      if i = u then (edges.reverse.find? (·.target = j)).elim (cell r i j)
        fun edge => (edge.weight, some edge.target)
      else cell r i j := by
  induction edges generalizing r with
  | nil => simp
  | cons edge rest ih =>
    rw [List.foldl_cons, ih, setEdge, set_cell, List.reverse_cons, List.find?_append]
    by_cases hi : i = u
    · cases hrest : rest.reverse.find? (·.target = j) with
      | some last => simp [hi]
      | none =>
        by_cases hj : edge.target = j
        · simp [hi, hj]
        · simp [hi, hj, Ne.symm hj]
    · simp [hi]

theorem foldl_setEdges (g : Graph n) (nodes : List (Fin n)) (r : AllPairsShortestPathResult n)
    (i j : Fin n) : cell (nodes.foldl (setEdges g) r) i j =
      if i ∈ nodes then
        (lastEdge g i j).elim (cell r i j) fun edge => (edge.weight, some edge.target)
      else cell r i j := by
  induction nodes generalizing r with
  | nil => simp
  | cons u rest ih =>
    rw [List.foldl_cons, ih, setEdges, foldl_setEdge]
    by_cases hi : i = u
    · subst hi
      rw [← lastEdge]
      cases lastEdge g i j <;> simp
    · simp [hi]

theorem foldl_setDiagonal (nodes : List (Fin n)) (r : AllPairsShortestPathResult n) (i j : Fin n) :
    cell (nodes.foldl setDiagonal r) i j = if i = j ∧ i ∈ nodes then (0, some i) else
      cell r i j := by
  induction nodes generalizing r with
  | nil => simp
  | cons u rest ih =>
    rw [List.foldl_cons, ih, setDiagonal, set_cell]
    by_cases hj : i = j
    · subst hj
      by_cases hi : i = u <;> simp [hi]
    · have hcell : ¬ (i = u ∧ j = u) := fun h => hj (h.1.trans h.2.symm)
      simp [hj, hcell]

theorem init_cell (g : Graph n) (i j : Fin n) : cell (init g) i j =
    (lastEdge g i j).elim (if i = j then (0, some i) else (infinity, none))
      fun edge => (edge.weight, some edge.target) := by
  have hstart : cell (⟨fun _ _ => infinity, fun _ _ => none, false⟩ : AllPairsShortestPathResult n)
      i j = (infinity, none) := rfl
  simp only [init, foldl_setEdges, foldl_setDiagonal, List.mem_finRange, and_true, if_true, hstart]

end Cells

section Relaxing

/-- No sum of two distances overflows, and no node is less than 0 from itself. -/
structure Ranged (r : AllPairsShortestPathResult n) : Prop where
  diagonal : ∀ i, 0 ≤ r.distances i i
  ge_infinity : ∀ i j, -infinity ≤ r.distances i j
  le_infinity : ∀ i j, r.distances i j ≤ infinity

theorem Ranged.add_eq (h : Ranged r) (i k j : Fin n) :
    add32 (r.distances i k) (r.distances k j) = r.distances i k + r.distances k j := by
  have hik := h.ge_infinity i k
  have hkj := h.ge_infinity k j
  have hik' := h.le_infinity i k
  have hkj' := h.le_infinity k j
  rw [infinity, int32Max] at hik hkj hik' hkj'
  refine add32_eq ⟨by omega, ?_⟩
  rw [int32Max]
  omega

structure Bounded (r : AllPairsShortestPathResult n) : Prop where
  nonneg : ∀ i j, 0 ≤ r.distances i j
  le_infinity : ∀ i j, r.distances i j ≤ infinity

theorem Bounded.ranged (h : Bounded r) : Ranged r := by
  refine ⟨fun i => h.nonneg i i, ?_, h.le_infinity⟩
  intro i j
  have hij := h.nonneg i j
  rw [infinity, int32Max]
  omega

/-- The cell after the turn for `k` of the main loop. -/
def lowered (k : Fin n) (r : AllPairsShortestPathResult n) (i j : Fin n) : Int × Option (Fin n) :=
  (lowerDist k r.distances i j, lowerNext k r.distances r.next i j)

/-- The cells in `P` have had their turn. -/
def Partly (k : Fin n) (r r' : AllPairsShortestPathResult n) (P : Fin n → Fin n → Prop) : Prop :=
  ∀ i j, (P i j → cell r' i j = lowered k r i j) ∧ (¬ P i j → cell r' i j = cell r i j)

/-- Row and column `k` stay as they are. -/
theorem Ranged.lowered_eq (h : Ranged r) (hk : i = k ∨ j = k) : lowered k r i j = cell r i j := by
  have hkk := h.diagonal k
  have hkeep : ¬ r.distances i k + r.distances k j < r.distances i j := by
    rcases hk with rfl | rfl <;> omega
  simp [lowered, lowerDist, lowerNext, cell, hkeep]

theorem Partly.kept {P : Fin n → Fin n → Prop} (h : Partly k r r' P) (hr : Ranged r)
    (hk : i = k ∨ j = k) : cell r' i j = cell r i j := by
  by_cases hP : P i j
  · exact ((h i j).1 hP).trans (hr.lowered_eq hk)
  · exact (h i j).2 hP

theorem relax_spec {P : Fin n → Fin n → Prop} (h : Partly k r r' P) (hr : Ranged r) (i j : Fin n) :
    Partly k r (relax k i r' j) (fun a b => P a b ∨ a = i ∧ b = j) := by
  have hik := h.kept hr (i := i) (j := k) (.inr rfl)
  have hkj := h.kept hr (i := k) (j := j) (.inl rfl)
  rw [cell, cell, Prod.mk.injEq] at hik hkj
  have hrelax : relax k i r' j =
      if r.distances i k + r.distances k j < r'.distances i j then
        r'.set i j (r.distances i k + r.distances k j) (r.next i k) else r' := by
    rw [relax, hik.1, hik.2, hkj.1, hr.add_eq]
  have hcell : cell (relax k i r' j) i j = lowered k r i j := by
    rw [hrelax]
    by_cases hP : P i j
    · have hold := (h i j).1 hP
      have hdist : r'.distances i j = lowerDist k r.distances i j := congrArg Prod.fst hold
      have hle := (lowerDist_le k r.distances i j).2
      rw [if_neg (by omega), hold]
    · have hold := (h i j).2 hP
      have hdist : r'.distances i j = r.distances i j := congrArg Prod.fst hold
      by_cases hlow : r.distances i k + r.distances k j < r.distances i j
      · rw [if_pos (by omega), set_cell, if_pos ⟨rfl, rfl⟩]
        simp [lowered, lowerDist, lowerNext, hlow]
      · rw [if_neg (by omega), hold]
        simp [lowered, lowerDist, lowerNext, cell, hlow]
  have hother : ∀ a b, ¬ (a = i ∧ b = j) → cell (relax k i r' j) a b = cell r' a b := by
    intro a b hab
    rw [hrelax]
    split
    · rw [set_cell, if_neg hab]
    · rfl
  intro a b
  by_cases hab : a = i ∧ b = j
  · obtain ⟨rfl, rfl⟩ := hab
    exact ⟨fun _ => hcell, fun hnot => absurd (.inr ⟨rfl, rfl⟩) hnot⟩
  · rw [hother a b hab]
    exact ⟨fun hP => (h a b).1 (hP.resolve_right hab),
      fun hnot => (h a b).2 fun hP => hnot (.inl hP)⟩

theorem Partly.congr {P P' : Fin n → Fin n → Prop} (h : Partly k r r' P)
    (heq : ∀ a b, P a b ↔ P' a b) : Partly k r r' P' := by
  intro a b
  rw [← heq]
  exact h a b

theorem foldl_relax {P : Fin n → Fin n → Prop} (h : Partly k r r' P) (hr : Ranged r) (i : Fin n)
    (cols : List (Fin n)) :
    Partly k r (cols.foldl (relax k i) r') (fun a b => P a b ∨ a = i ∧ b ∈ cols) := by
  induction cols generalizing r' P with
  | nil => exact h.congr fun a b => by simp
  | cons j cols ih =>
    refine (ih (relax_spec h hr i j)).congr fun a b => ?_
    rw [List.mem_cons]
    tauto

theorem foldl_relaxRow {P : Fin n → Fin n → Prop} (h : Partly k r r' P) (hr : Ranged r)
    (rows : List (Fin n)) :
    Partly k r (rows.foldl (relaxRow k) r') (fun a b => P a b ∨ a ∈ rows) := by
  induction rows generalizing r' P with
  | nil => exact h.congr fun a b => by simp
  | cons i rows ih =>
    refine (ih (foldl_relax h hr i (List.finRange n))).congr fun a b => ?_
    simp only [List.mem_finRange, List.mem_cons]
    tauto

/-- In place or not, a turn of the main loop gives the same matrices. -/
theorem relaxAll_cell (hr : Ranged r) (k i j : Fin n) : cell (relaxAll r k) i j =
    lowered k r i j := by
  have hstart : Partly k r r fun _ _ => False := fun i j => ⟨False.elim, fun _ => rfl⟩
  exact (foldl_relaxRow hstart hr (List.finRange n) i j).1 (.inr (List.mem_finRange i))

end Relaxing

section Tables

/-- The edges that are left of parallel ones. -/
def Written (g : Graph n) (u v : Fin n) (w : Int) : Prop :=
  ∃ edge, lastEdge g u v = some edge ∧ edge.weight = w

theorem lastEdge_some {edge : Edge n} (h : lastEdge g u v = some edge) :
    edge ∈ g.getAdjList u ∧ edge.target = v :=
  ⟨List.mem_reverse.mp (List.mem_of_find?_eq_some h), by simpa using List.find?_some h⟩

theorem Written.hasEdge (h : Written g u v w) : g.HasEdge u v w := by
  obtain ⟨edge, hlast, rfl⟩ := h
  obtain ⟨hedge, htarget⟩ := lastEdge_some hlast
  exact ⟨edge, hedge, htarget, rfl⟩

theorem exists_written (h : g.HasEdge u v w) : ∃ c, Written g u v c := by
  obtain ⟨edge, hedge, htarget, _⟩ := h
  have hsome : (lastEdge g u v).isSome := by
    rw [lastEdge, List.find?_isSome]
    exact ⟨edge, List.mem_reverse.mpr hedge, by simpa using htarget⟩
  obtain ⟨last, hlast⟩ := Option.isSome_iff_exists.mp hsome
  exact ⟨last.weight, last, hlast, rfl⟩

/-- The distances without what the diagonal holds of walks back. -/
def clip (d : Fin n → Fin n → Int) (i j : Fin n) : Int := if i = j then 0 else d i j

theorem clip_ne {d : Fin n → Fin n → Int} (h : i ≠ j) : clip d i j = d i j := if_neg h

/-- Both matrices hold walks over the edges written that go through `S`. -/
structure Good (g : Graph n) (S : Fin n → Prop) (r : AllPairsShortestPathResult n) : Prop where
  table : ∃ len, Table (Written g) infinity S (clip r.distances) r.next len
  loops : Loops (Written g) S (clip r.distances) fun i => r.distances i i
  le_infinity : ∀ i, r.distances i i ≤ infinity
  started : ∀ i, r.next i i ≠ none

theorem Good.bounded (h : Good g S r) : Bounded r := by
  obtain ⟨len, ht⟩ := h.table
  constructor
  · intro i j
    by_cases hij : i = j
    · subst hij
      exact h.loops.nonneg i
    · exact clip_ne (d := r.distances) hij ▸ ht.nonneg i j
  · intro i j
    by_cases hij : i = j
    · subst hij
      exact h.le_infinity i
    · exact clip_ne (d := r.distances) hij ▸ ht.le_bound i j

theorem clip_lowered (h : Good g S r) (k : Fin n) :
    clip (lowerDist k r.distances) = lowerDist k (clip r.distances) ∧
      ∀ i j, i ≠ j → lowerNext k r.distances r.next i j =
        lowerNext k (clip r.distances) r.next i j := by
  obtain ⟨len, ht⟩ := h.table
  have hkk := h.loops.nonneg k
  -- a turn lowers nothing in the row and the column of `k`, where the two could differ
  have hsame : ∀ i j, i ≠ j → (¬ r.distances i k + r.distances k j < r.distances i j ∧
      ¬ clip r.distances i k + clip r.distances k j < r.distances i j) ∨
      (clip r.distances i k = r.distances i k ∧ clip r.distances k j = r.distances k j) := by
    intro i j hij
    by_cases hik : i = k
    · subst hik
      simp only [clip, if_true, if_neg hij]
      omega
    · by_cases hkj : k = j
      · subst hkj
        simp only [clip, if_true, if_neg hij]
        omega
      · exact .inr ⟨clip_ne hik, clip_ne hkj⟩
  constructor
  · funext i j
    by_cases hij : i = j
    · subst hij
      have hii := (ht.self i).1
      have hik := ht.nonneg i k
      have hki := ht.nonneg k i
      rw [lowerDist, if_neg (by omega), clip, clip, if_pos rfl, if_pos rfl]
    · rw [clip_ne hij, lowerDist, lowerDist, clip_ne hij]
      rcases hsame i j hij with ⟨hraw, hclip⟩ | ⟨hik, hkj⟩
      · rw [if_neg hraw, if_neg hclip]
      · rw [hik, hkj]
  · intro i j hij
    rw [lowerNext, lowerNext, clip_ne hij]
    rcases hsame i j hij with ⟨hraw, hclip⟩ | ⟨hik, hkj⟩
    · rw [if_neg hraw, if_neg hclip]
    · rw [hik, hkj]

theorem lowerLoop_clip (h : Good g S r) (k : Fin n) :
    (fun i => lowerDist k r.distances i i) =
      lowerLoop k (clip r.distances) fun i => r.distances i i := by
  funext i
  have hkk := h.loops.nonneg k
  by_cases hik : i = k
  · subst hik
    rw [lowerDist, lowerLoop, if_neg (by omega), if_neg fun hlow => hlow.1 rfl]
  · rw [lowerDist, lowerLoop, clip_ne hik, clip_ne (Ne.symm hik)]
    simp only [ne_eq, hik, not_false_eq_true, true_and]

theorem Good.relaxAll (h : Good g S r) (k : Fin n) :
    Good g (fun x => S x ∨ x = k) (FloydWarshall.relaxAll r k) := by
  obtain ⟨len, ht⟩ := h.table
  have hcell := relaxAll_cell h.bounded.ranged k
  have hdist : (FloydWarshall.relaxAll r k).distances = lowerDist k r.distances := by
    funext i j
    exact congrArg Prod.fst (hcell i j)
  have hnext : (FloydWarshall.relaxAll r k).next = lowerNext k r.distances r.next := by
    funext i j
    exact congrArg Prod.snd (hcell i j)
  obtain ⟨hclip, hclipnext⟩ := clip_lowered h k
  refine ⟨⟨lowerLen k (clip r.distances) len, ?_⟩, ?_, ?_, ?_⟩
  · rw [hdist, hnext, hclip]
    exact (ht.step k).congr_next hclipnext
  · have hstep := h.loops.step ht h.le_infinity k
    rwa [← hclip, ← lowerLoop_clip h k, ← hdist] at hstep
  · intro i
    rw [hdist]
    exact (lowerDist_le k r.distances i i).1.trans (h.le_infinity i)
  · intro i
    rw [hnext, lowerNext]
    split
    · rename_i hlow
      have hki := h.bounded.nonneg k i
      have hle := h.le_infinity i
      have hik : i ≠ k := by
        rintro rfl
        omega
      obtain ⟨x, _, hx, _⟩ := ht.hop i k hik (by rw [clip_ne hik]; omega)
      rw [hx]
      exact Option.some_ne_none x
    · exact h.started i

/-- Edges that are not negative and together stay below the infinity of the matrix. -/
structure Light (g : Graph n) : Prop where
  nonneg : g.NonNegative
  total : g.totalWeight < infinity

theorem Light.sane (hg : Light g) : Sane g := by
  refine ⟨hg.nonneg, hg.total.trans ?_⟩
  rw [infinity, int32Max]
  omega

theorem Light.weight (hg : Light g) (he : g.HasEdge u v w) : 0 ≤ w ∧ w < infinity := by
  have hout := hg.nonneg.le_out u v w he
  have hall : g.outWeight u ≤ g.totalWeight :=
    Finset.single_le_sum (f := g.outWeight) (fun x _ => hg.nonneg.out_nonneg x) (Finset.mem_univ u)
  exact ⟨hg.nonneg.hasEdge u v w he, hout.trans_lt (hall.trans_lt hg.total)⟩

theorem init_written (h : Written g i j w) :
    (init g).distances i j = w ∧ (init g).next i j = some j := by
  obtain ⟨edge, hlast, rfl⟩ := h
  have hinit := init_cell g i j
  rw [hlast, Option.elim_some, (lastEdge_some hlast).2] at hinit
  exact Prod.mk.inj hinit

theorem init_unwritten (h : ∀ w, ¬ Written g i j w) :
    (init g).distances i j = (if i = j then 0 else infinity) ∧
      (init g).next i j = if i = j then some i else none := by
  have hinit := init_cell g i j
  cases hlast : lastEdge g i j with
  | none =>
    rw [hlast, Option.elim_none, cell] at hinit
    by_cases hij : i = j
    · simp only [if_pos hij] at hinit ⊢
      exact Prod.mk.inj hinit
    · simp only [if_neg hij] at hinit ⊢
      exact Prod.mk.inj hinit
  | some edge => exact absurd ⟨edge, hlast, rfl⟩ (h edge.weight)

theorem init_bounds (hg : Light g) (i j : Fin n) :
    0 ≤ (init g).distances i j ∧ (init g).distances i j ≤ infinity := by
  have hinf : 0 ≤ infinity := by simp [infinity, int32Max]
  by_cases hw : ∃ w, Written g i j w
  · obtain ⟨w, hw⟩ := hw
    obtain ⟨hnonneg, hlt⟩ := hg.weight hw.hasEdge
    rw [(init_written hw).1]
    exact ⟨hnonneg, hlt.le⟩
  · rw [(init_unwritten fun w h => hw ⟨w, h⟩).1]
    split
    · exact ⟨le_rfl, hinf⟩
    · exact ⟨hinf, le_rfl⟩

theorem good_init (hg : Light g) : Good g (fun _ => False) (init g) := by
  have hbounds := init_bounds hg
  refine ⟨⟨fun i j => if i = j then 0 else 1, ?_⟩, ?_, fun i => (hbounds i i).2, ?_⟩
  · refine ⟨?_, ?_, fun i => by simp [clip], ?_, fun i x j hx => hx.elim, ?_⟩
    · intro i j
      rw [clip]
      split
      · exact le_rfl
      · exact (hbounds i j).1
    · intro i j
      rw [clip]
      split
      · exact (hbounds i i).1.trans (hbounds i i).2
      · exact (hbounds i j).2
    · intro i j w hw
      have hnonneg := (hg.weight hw.hasEdge).1
      rw [clip, (init_written hw).1]
      split
      · exact hnonneg
      · exact le_rfl
    · intro i j hij hlt
      rw [clip_ne hij] at hlt ⊢
      by_cases hw : ∃ w, Written g i j w
      · obtain ⟨w, hw⟩ := hw
        obtain ⟨hdist, hnext⟩ := init_written hw
        exact ⟨j, w, hnext, hw, .inl rfl, by simp [hdist, clip], by simp [hij]⟩
      · rw [(init_unwritten fun w h => hw ⟨w, h⟩).1, if_neg hij] at hlt
        exact absurd hlt (lt_irrefl _)
  · refine ⟨fun i => (hbounds i i).1, fun i w hw => (init_written hw).1.le, fun i x hx => hx.elim,
      ?_, ?_⟩
    · rintro i ⟨w, hw⟩
      exact ⟨i, w, [i], 0, hw, .nil i, by rw [(init_written hw).1, Int.add_zero]⟩
    · intro i hnone
      simpa using (init_unwritten hnone).1
  · intro i
    by_cases hw : ∃ w, Written g i i w
    · obtain ⟨w, hw⟩ := hw
      simp [(init_written hw).2]
    · simp [(init_unwritten fun w h => hw ⟨w, h⟩).2]

theorem foldl_good (h : Good g S r) (nodes : List (Fin n)) :
    Good g (fun x => S x ∨ x ∈ nodes) (nodes.foldl FloydWarshall.relaxAll r) := by
  induction nodes generalizing S r with
  | nil => simpa using h
  | cons k nodes ih => simpa [or_assoc] using ih (h.relaxAll k)

/-- At the end walks may go through all nodes, and no cycle is negative. -/
theorem compute_good (hg : Light g) :
    Good g (fun _ => True) (compute g) ∧ (compute g).hasNegativeCycle = false := by
  have hgood := foldl_good (good_init hg) (List.finRange n)
  simp only [false_or, List.mem_finRange] at hgood
  refine ⟨⟨hgood.table, hgood.loops, hgood.le_infinity, hgood.started⟩, ?_⟩
  simp only [compute, List.any_eq_false]
  intro i _
  simpa using hgood.loops.nonneg i

end Tables

section Paths

theorem follow_eq {source target : Fin n} (h : Hops r.next target i p) (hsource : source ∉ p)
    {turns : Nat} (hturns : p.length < turns) (path : List (Fin n)) :
    follow r.next source target turns i path = some (path ++ p) := by
  induction h generalizing turns path with
  | stop =>
    obtain ⟨turns, rfl⟩ := Nat.exists_eq_add_one_of_ne_zero (Nat.ne_zero_of_lt hturns)
    simp [follow]
  | @hop i x p hne hx _ ih =>
    obtain ⟨turns, rfl⟩ := Nat.exists_eq_add_one_of_ne_zero (Nat.ne_zero_of_lt hturns)
    obtain ⟨hxs, hp⟩ := List.ne_and_not_mem_of_not_mem_cons hsource
    have hrest := ih hp (Nat.lt_of_succ_lt_succ hturns) (path ++ [x])
    simp [follow, hne, hx, Ne.symm hxs, hrest]

theorem reconstructPath_eq (hr : r.hasNegativeCycle = false) (hstart : r.next u v ≠ none)
    (h : Hops r.next v u p) (hnodup : (u :: p).Nodup) :
    r.reconstructPath u.val v.val = some (u :: p) := by
  have hlen := hnodup.length_le_card
  rw [Fintype.card_fin, List.length_cons] at hlen
  have hfollow := follow_eq h (List.nodup_cons.mp hnodup).1 hlen [u]
  simp [reconstructPath, hr, node_val, hstart, hfollow]

/-- What is reached over the edges written has a distance and a path. -/
theorem compute_walk (hg : Light g) (h : Reaches (Written g) u v) :
    ∃ p, (compute g).reconstructPath u.val v.val = some p ∧
      Walk (Written g) u p v (clip (compute g).distances u v) := by
  obtain ⟨hgood, hcycle⟩ := compute_good hg
  obtain ⟨len, ht⟩ := hgood.table
  have hlt : clip (compute g).distances u v < infinity := by
    obtain ⟨p, w, hp, hw⟩ := h.le_total (fun u v w hw => (hg.weight hw.hasEdge).1)
      hg.nonneg.out_nonneg fun u v w hw => hg.nonneg.le_out u v w hw.hasEdge
    exact (ht.least (fun _ => trivial) hp).trans_lt (hw.trans_lt hg.total)
  obtain ⟨p, hhops, hwalk, hnodup⟩ := ht.walk hlt
  refine ⟨u :: p, reconstructPath_eq hcycle ?_ hhops hnodup, hwalk⟩
  cases hhops with
  | stop => exact hgood.started u
  | hop _ hx _ => exact hx ▸ Option.some_ne_none _

end Paths

section Agreement

/-- Nothing is lost when a later edge overwrites the entry of an earlier one: between different
nodes a walk over the edges that are left weighs no more, and a node with an edge to itself is on
a cycle of them that weighs nothing. -/
structure Covered (g : Graph n) : Prop where
  edge : ∀ u v w, g.HasEdge u v w → u ≠ v → ∃ p c, Walk (Written g) u p v c ∧ c ≤ w
  loop : ∀ u w, g.HasEdge u u w → Round (Written g) u 0

theorem Covered.walk (h : Covered g) (hg : Light g) (hw : Walk g.HasEdge u p v w) :
    ∃ q c, Walk (Written g) u q v c ∧ c ≤ w := by
  induction hw with
  | nil => exact ⟨[u], 0, .nil u, le_rfl⟩
  | @snoc v x p w c _ he ih =>
    obtain ⟨q, w', hq, hle⟩ := ih
    by_cases hvx : v = x
    · have hc := (hg.weight he).1
      exact ⟨q, w', hvx ▸ hq, by omega⟩
    · obtain ⟨q', c', hq', hle'⟩ := h.edge v x c he hvx
      obtain ⟨q'', hq''⟩ := hq.append hq'
      exact ⟨q'', _, hq'', by omega⟩

theorem Covered.diagonal (h : Covered g) (hg : Light g) (u : Fin n) :
    (compute g).distances u u = 0 := by
  obtain ⟨hgood, _⟩ := compute_good hg
  obtain ⟨len, ht⟩ := hgood.table
  by_cases hloop : ∃ w, Written g u u w
  · obtain ⟨w, hw⟩ := hloop
    exact le_antisymm (hgood.loops.least ht (fun _ => trivial) (h.loop u w hw.hasEdge))
      (hgood.loops.nonneg u)
  · exact hgood.loops.none u fun w hw => hloop ⟨w, hw⟩

/-- The two algorithms agree exactly where no entry that matters is overwritten. -/
theorem compute_agrees_iff (g : Graph n) (hnonneg : g.NonNegative)
    (htotal : g.totalWeight < int32Max / 2) :
    (∀ u v, Reaches g.HasEdge u v →
      (compute g).distances u v = (BellmanFord.shortestPath add32 g u.val).distance v ∧
      ∃ p, (compute g).reconstructPath u.val v.val = some p ∧
        Walk g.HasEdge u p v ((compute g).distances u v)) ↔ Covered g := by
  have hg : Light g := ⟨hnonneg, htotal⟩
  obtain ⟨hgood, hcycle⟩ := compute_good hg
  obtain ⟨len, ht⟩ := hgood.table
  have hbellman := fun u => (BellmanFord.shortestPath_spec hg.sane u).distance
  constructor
  · intro h
    refine ⟨?_, ?_⟩
    · intro u v w he huv
      have hreach : Reaches g.HasEdge u v := ⟨_, _, .edge he⟩
      have hle : (compute g).distances u v ≤ w :=
        (h u v hreach).1 ▸ (hbellman u v).least _ _ (.edge he)
      have hlt : clip (compute g).distances u v < infinity := by
        rw [clip_ne huv]
        exact hle.trans_lt (hg.weight he).2
      obtain ⟨p, _, hwalk, _⟩ := ht.walk hlt
      rw [clip_ne huv] at hwalk
      exact ⟨u :: p, _, hwalk, hle⟩
    · intro u w he
      have hle : (compute g).distances u u ≤ 0 :=
        (h u u (.refl u)).1 ▸ (hbellman u u).least _ _ (.nil u)
      have hzero := le_antisymm hle (hgood.loops.nonneg u)
      exact hzero ▸ hgood.loops.found u (exists_written he)
  · intro h u v hreach
    have hdist : clip (compute g).distances u v = (compute g).distances u v := by
      by_cases huv : u = v
      · subst huv
        rw [clip, if_pos rfl, h.diagonal hg]
      · exact clip_ne huv
    obtain ⟨p, w, hp⟩ := hreach
    obtain ⟨q, c, hq, _⟩ := h.walk hg hp
    obtain ⟨path, hpath, hwalk⟩ := compute_walk hg ⟨q, c, hq⟩
    rw [hdist] at hwalk
    have hwalk' := hwalk.mono fun u v w hw => hw.hasEdge
    refine ⟨?_, path, hpath, hwalk'⟩
    refine le_antisymm ?_ ((hbellman u v).least _ _ hwalk')
    obtain ⟨p', hp'⟩ := (hbellman u v).walk ((hbellman u v).reached ⟨p, w, hp⟩)
    obtain ⟨q', c', hq', hle⟩ := h.walk hg hp'
    have hleast := ht.least (fun _ => trivial) hq'
    rw [hdist] at hleast
    exact hleast.trans hle

/-- Two parallel edges, the lighter one first. -/
def parallel : Graph 2 where
  adjList u := match u with
    | 0 => [⟨.last 1, 3, by decide⟩, ⟨.last 1, 5, by decide⟩]
    | 1 => []

theorem compute_parallel_iff :
    (∀ u v, Reaches parallel.HasEdge u v →
      (compute parallel).distances u v =
      (BellmanFord.shortestPath add32 parallel u.val).distance v ∧
      ∃ p, (compute parallel).reconstructPath u.val v.val = some p ∧
        Walk parallel.HasEdge u p v ((compute parallel).distances u v)) ↔ Covered parallel := by
  have hnonneg : parallel.NonNegative := by
    unfold Graph.NonNegative
    decide
  exact compute_agrees_iff parallel hnonneg (by decide)

theorem compute_parallel : parallel.NonNegative ∧ parallel.totalWeight < int32Max / 2 ∧
    ¬ ∀ u v, Reaches parallel.HasEdge u v →
      (compute parallel).distances u v =
      (BellmanFord.shortestPath add32 parallel u.val).distance v ∧
      ∃ p, (compute parallel).reconstructPath u.val v.val = some p ∧
        Walk parallel.HasEdge u p v ((compute parallel).distances u v) := by
  refine ⟨?_, by decide, ?_⟩
  · unfold Graph.NonNegative
    decide
  · intro h
    have hreach : Reaches parallel.HasEdge 0 1 := 
      ⟨_, _, .edge ⟨⟨.last 1, 3, by decide⟩, List.mem_cons_self, rfl, rfl⟩⟩
    have hdist := (h 0 1 hreach).1
    revert hdist
    decide

end Agreement

end Cppforge.Graphs.FloydWarshall
