import Cppforge.Graphs.Proofs.Kruskal
import Mathlib.Algebra.BigOperators.Fin

namespace Cppforge.Graphs.PrimMST
open Function SpanningForest

variable {n : Nat} {Q : Heap n} {g : Graph n} {s s' : State Q} {u v root : Fin n} {edge : Edge n}

section Keys

/-- Of the nodes outside the tree: a key below `INT32_MAX` is queued, with an edge from the tree
that has it, and no entry is below the key. -/
structure Queued (g : Graph n) (s : State Q) : Prop where
  bounded : ∀ v, s.key v ≤ int32Max
  queued : ∀ v, s.inMst v = false → s.key v < int32Max → ⟨v, s.key v⟩ ∈ Q.entries s.pq
  fresh : ∀ x ∈ Q.entries s.pq, s.inMst x.node = false → s.key x.node ≤ x.key
  below : ∀ x ∈ Q.entries s.pq, x.key < int32Max
  offered : ∀ v, s.inMst v = false → s.key v < int32Max →
    ∃ p, s.parent v = some p ∧ s.inMst p = true ∧ g.HasEdge p v (s.key v)

/-- What the turns over the edges of a node change. -/
structure Lowered (s s' : State Q) (edges : List (Edge n)) : Prop where
  inMst : s'.inMst = s.inMst
  result : s'.result = s.result
  key_le : ∀ v, s'.key v ≤ s.key v
  key_edge : ∀ edge ∈ edges, s.inMst edge.target = false → s'.key edge.target ≤ edge.weight
  size : Q.size s'.pq ≤ Q.size s.pq + edges.length

theorem updateKey_lowered (u : Fin n) (s : State Q) (edge : Edge n) :
    Lowered s (updateKey u s edge) [edge] := by
  rw [updateKey]
  split
  · rename_i hlow
    refine ⟨rfl, rfl, ?_, ?_, ?_⟩
    · intro v
      by_cases hv : v = edge.target
      · subst hv
        simpa using hlow.2.le
      · simp [hv]
    · intro edge' hedge' _
      obtain rfl := List.mem_singleton.mp hedge'
      simp
    · change Q.size (Q.push _ s.pq) ≤ _
      rw [← Q.card_entries, Q.entries_push, Multiset.card_cons, Q.card_entries]
      exact le_rfl
  · rename_i hhigh
    refine ⟨rfl, rfl, fun _ => le_rfl, ?_, Nat.le_succ _⟩
    intro edge' hedge' hout
    obtain rfl := List.mem_singleton.mp hedge'
    exact not_lt.mp fun hlt => hhigh ⟨hout, hlt⟩

theorem Queued.updateKey (h : Queued g s) (hu : s.inMst u = true) (hedge : edge ∈ g.getAdjList u) :
    Queued g (updateKey u s edge) := by
  rw [PrimMST.updateKey]
  split
  · rename_i hlow
    have hentries : Q.entries (Q.push ⟨edge.target, edge.weight⟩ s.pq) =
        ⟨edge.target, edge.weight⟩ ::ₘ Q.entries s.pq := Q.entries_push _ _
    have hweight := hlow.2.trans_le (h.bounded edge.target)
    refine ⟨?_, ?_, ?_, ?_, ?_⟩
    · intro v
      by_cases hv : v = edge.target
      · subst hv
        simpa using hweight.le
      · simpa [hv] using h.bounded v
    · intro v hv hkey
      change _ ∈ Q.entries (Q.push _ s.pq)
      rw [hentries, Multiset.mem_cons]
      by_cases hve : v = edge.target
      · subst hve
        simp
      · simp only [update_of_ne hve] at hkey ⊢
        exact .inr (h.queued v hv hkey)
    · intro x hx hout
      change x ∈ Q.entries (Q.push _ s.pq) at hx
      rw [hentries, Multiset.mem_cons] at hx
      by_cases hxe : x.node = edge.target
      · rcases hx with rfl | hx
        · simp
        · have hold := h.fresh x hx hout
          rw [hxe] at hold ⊢
          simpa using hlow.2.le.trans hold
      · rcases hx with rfl | hx
        · exact absurd rfl hxe
        · simpa [hxe] using h.fresh x hx hout
    · intro x hx
      change x ∈ Q.entries (Q.push _ s.pq) at hx
      rw [hentries, Multiset.mem_cons] at hx
      rcases hx with rfl | hx
      · exact hweight
      · exact h.below x hx
    · intro v hv hkey
      by_cases hve : v = edge.target
      · subst hve
        exact ⟨u, by simp, hu, edge, hedge, rfl, by simp⟩
      · simp only [update_of_ne hve] at hkey ⊢
        exact h.offered v hv hkey
  · exact h

theorem Queued.foldl (h : Queued g s) (hu : s.inMst u = true) {edges : List (Edge n)}
    (hedges : ∀ edge ∈ edges, edge ∈ g.getAdjList u) :
    Queued g (edges.foldl (PrimMST.updateKey u) s) ∧
      Lowered s (edges.foldl (PrimMST.updateKey u) s) edges := by
  induction edges generalizing s with
  | nil => exact ⟨h, rfl, rfl, fun _ => le_rfl, by simp, le_rfl⟩
  | cons edge edges ih =>
    obtain ⟨hedge, hrest⟩ := List.forall_mem_cons.mp hedges
    have hone := updateKey_lowered u s edge
    obtain ⟨hqueued, hmore⟩ := ih (h.updateKey hu hedge) (by rw [hone.inMst, hu]) hrest
    refine ⟨hqueued, hmore.inMst.trans hone.inMst, hmore.result.trans hone.result,
      fun v => (hmore.key_le v).trans (hone.key_le v), ?_, ?_⟩
    · intro edge' hedge' hout
      rcases List.mem_cons.mp hedge' with rfl | hedge'
      · exact (hmore.key_le _).trans (hone.key_edge edge' (List.mem_singleton_self _) hout)
      · exact hmore.key_edge edge' hedge' (by rw [hone.inMst, hout])
    · have hsize := hmore.size
      have hsize₁ := hone.size
      simp only [List.foldl_cons, List.length_cons, List.length_nil] at hsize hsize₁ ⊢
      omega

end Keys

section Trees
variable {top : PrimState n}

structure Grown (g : Graph n) (root : Fin n) (s : State Q) : Prop where
  queued : Queued g s
  tree : Tree ends EdgeInfo.weight g.Contains (s.inMst · = true) s.result.edges
  small : ∀ e ∈ s.result.edges, e.weight < int32Max
  total : Totalled s.result
  root : s.inMst root = true
  crossing : ∀ u v w, s.inMst u = true → s.inMst v = false → g.HasEdge u v w → s.key v ≤ w

/-- The directed edges of the nodes that are not visited yet. -/
def pending (g : Graph n) (s : State Q) : Nat :=
  ∑ v, if s.inMst v then 0 else (g.getAdjList v).length

theorem pending_visit (g : Graph n) {s s' : State Q} (hu : s.inMst u = false)
    (h : s'.inMst = update s.inMst u true) :
    pending g s' + (g.getAdjList u).length = pending g s := by
  rw [pending, pending, h, ← Finset.add_sum_erase _ _ (Finset.mem_univ u),
    ← Finset.add_sum_erase _ _ (Finset.mem_univ u)]
  have hrest : ∑ v ∈ Finset.univ.erase u,
      (if update s.inMst u true v then 0 else (g.getAdjList v).length) =
      ∑ v ∈ Finset.univ.erase u, if s.inMst v then 0 else (g.getAdjList v).length := by
    refine Finset.sum_congr rfl ?_
    intro v hv
    rw [update_of_ne (Finset.ne_of_mem_erase hv)]
  rw [hrest]
  simp [hu]
  omega

/-- An entry of a node of the tree may go. -/
theorem Grown.stale (h : Grown g root s) (htop : Q.top s.pq = some top)
    (hin : s.inMst top.node = true) : Grown g root { s with pq := Q.pop s.pq } := by
  have hpop := Q.entries_pop top s.pq htop
  have hsub : ∀ x ∈ Q.entries (Q.pop s.pq), x ∈ Q.entries s.pq := fun x hx =>
    hpop ▸ Multiset.mem_cons_of_mem hx
  refine ⟨⟨h.queued.bounded, ?_, ?_, ?_, h.queued.offered⟩, h.tree, h.small, h.total, h.root,
    h.crossing⟩
  · intro v hv hkey
    have hentry := h.queued.queued v hv hkey
    rw [hpop, Multiset.mem_cons] at hentry
    rcases hentry with rfl | hentry
    · rw [hv] at hin
      cases hin
    · exact hentry
  · exact fun x hx => h.queued.fresh x (hsub x hx)
  · exact fun x hx => h.queued.below x (hsub x hx)

/-- The node on top has the least key outside the tree. -/
theorem Grown.least (h : Grown g root s) (htop : Q.top s.pq = some top)
    (hout : s.inMst top.node = false) :
    s.key top.node < int32Max ∧ ∀ v, s.inMst v = false → s.key top.node ≤ s.key v := by
  have hmem : top ∈ Q.entries s.pq := by
    rw [Q.entries_pop top s.pq htop]
    exact Multiset.mem_cons_self _ _
  have hfresh := h.queued.fresh top hmem hout
  have hbelow := h.queued.below top hmem
  refine ⟨by omega, ?_⟩
  intro v hv
  have hbound := h.queued.bounded v
  by_cases hkey : s.key v < int32Max
  · have hmax := Q.top_max top s.pq htop _ (h.queued.queued v hv hkey)
    simp only at hmax
    omega
  · omega

theorem Queued.addNode (h : Queued g s) (htop : Q.top s.pq = some top) :
    Queued g (addNode top.node { s with pq := Q.pop s.pq }) := by
  have hpop := Q.entries_pop top s.pq htop
  have hsub : ∀ x ∈ Q.entries (Q.pop s.pq), x ∈ Q.entries s.pq := fun x hx =>
    hpop ▸ Multiset.mem_cons_of_mem hx
  have hout : ∀ v, update s.inMst top.node true v = false → v ≠ top.node ∧ s.inMst v = false := by
    intro v hv
    by_cases hvt : v = top.node
    · rw [hvt, update_self] at hv
      cases hv
    · rw [update_of_ne hvt] at hv
      exact ⟨hvt, hv⟩
  refine ⟨h.bounded, ?_, ?_, fun x hx => h.below x (hsub x hx), ?_⟩
  · intro v hv hkey
    obtain ⟨hvt, hv⟩ := hout v hv
    have hentry := h.queued v hv hkey
    rw [hpop, Multiset.mem_cons] at hentry
    rcases hentry with rfl | hentry
    · exact absurd rfl hvt
    · exact hentry
  · intro x hx hxo
    exact h.fresh x (hsub x hx) (hout _ hxo).2
  · intro v hv hkey
    obtain ⟨p, hp, hpin, hedge⟩ := h.offered v (hout v hv).2 hkey
    refine ⟨p, hp, ?_, hedge⟩
    by_cases hpt : p = top.node
    · rw [hpt]
      exact update_self ..
    · exact (update_of_ne hpt ..).trans hpin

/-- No edge that leaves the tree is lighter than the least key. -/
theorem Grown.lightest (h : Grown g root s) (hg : g.Symm) {k : Int}
    (hleast : ∀ v, s.inMst v = false → k ≤ s.key v) {e : EdgeInfo n} (he : g.Contains e)
    (hcross : ¬ (s.inMst e.source = true ↔ s.inMst e.target = true)) : k ≤ e.weight := by
  cases hs : s.inMst e.source with
  | true =>
    have ht : s.inMst e.target = false := by simpa [hs] using hcross
    exact (hleast _ ht).trans (h.crossing _ _ _ hs ht he)
  | false =>
    have ht : s.inMst e.target = true := by simpa [hs] using hcross
    exact (hleast _ hs).trans (h.crossing _ _ _ ht hs (hg _ _ _ he))

/-- The edges of a new node of the tree are gone through. -/
theorem Grown.join (h : Grown g root s) (hg : g.Symm) (htop : Q.top s.pq = some top)
    (hout : s.inMst top.node = false) :
    let t := addNode top.node { s with pq := Q.pop s.pq }
    Grown g root ((g.getAdjList top.node).foldl (PrimMST.updateKey top.node) t) ∧
      Lowered t ((g.getAdjList top.node).foldl (PrimMST.updateKey top.node) t)
        (g.getAdjList top.node) := by
  intro t
  obtain ⟨hkey, hleast⟩ := h.least htop hout
  obtain ⟨p, hp, hpin, hedge⟩ := h.queued.offered top.node hout hkey
  have hself : t.inMst top.node = true := update_self ..
  obtain ⟨hqueued, hlow⟩ := (h.queued.addNode htop).foldl hself (fun edge he => he)
  refine ⟨?_, hlow⟩
  let e : EdgeInfo n := ⟨p, top.node, s.key top.node⟩
  have hresult : t.result = s.result.push e := by
    simp only [t, e, addNode, hp]
  have hin : ∀ v, t.inMst v = true ↔ s.inMst v = true ∨ v = top.node := by
    intro v
    by_cases hv : v = top.node
    · subst hv
      simp [hself]
    · simp [t, PrimMST.addNode, hv]
  have hgrow := h.tree.grow (e := e) hedge hpin (by simp [ends, e, hout])
    fun f hf hcross => h.lightest hg hleast hf hcross
  refine ⟨hqueued, ?_, ?_, ?_, ?_, ?_⟩
  · rw [hlow.result, hlow.inMst, hresult, funext fun v => propext (hin v)]
    exact hgrow
  · rw [hlow.result, hresult]
    intro f hf
    rcases List.mem_append.mp hf with hf | hf
    · exact h.small f hf
    · rw [List.mem_singleton.mp hf]
      exact hkey
  · rw [hlow.result, hresult]
    exact h.total.push e
  · rw [hlow.inMst]
    exact (hin root).mpr (.inl h.root)
  · rw [hlow.inMst]
    intro u v w hu hv hw
    have hvout : s.inMst v = false := by
      cases hsv : s.inMst v with
      | false => rfl
      | true => exact absurd (hv.symm.trans ((hin v).mpr (.inl hsv))) (by decide)
    rcases (hin u).mp hu with hu | rfl
    · exact (hlow.key_le v).trans (h.crossing u v w hu hvout hw)
    · obtain ⟨edge, hmem, rfl, rfl⟩ := hw
      exact hlow.key_edge edge hmem hv

/-- A turn of the loop keeps the tree, and brings it nearer to the end. -/
theorem Grown.visit (h : Grown g root s) (hg : g.Symm) (htop : Q.top s.pq = some top) :
    let s' := PrimMST.visit g top.node { s with pq := Q.pop s.pq }
    Grown g root s' ∧ Q.size s'.pq + pending g s' < Q.size s.pq + pending g s := by
  intro s'
  have hsize : Q.size (Q.pop s.pq) + 1 = Q.size s.pq := by
    rw [← Q.card_entries, ← Q.card_entries, Q.entries_pop top s.pq htop, Multiset.card_cons]
  cases hin : s.inMst top.node with
  | true =>
    have hs' : s' = { s with pq := Q.pop s.pq } := if_pos hin
    rw [hs']
    refine ⟨h.stale htop hin, ?_⟩
    change Q.size (Q.pop s.pq) + pending g s < _
    omega
  | false =>
    have hs' : s' = _ := if_neg (by simp [hin])
    obtain ⟨hgrown, hlow⟩ := h.join hg htop hin
    rw [hs']
    refine ⟨hgrown, ?_⟩
    have hpending := pending_visit g hin hlow.inMst
    have hlowsize := hlow.size
    change _ ≤ Q.size (Q.pop s.pq) + _ at hlowsize
    omega

/-- The loop ends, and then nothing is queued. -/
theorem loop_spec (hg : g.Symm) {turns : Nat} (h : Grown g root s)
    (hturns : Q.size s.pq + pending g s < turns) :
    ∃ s', loop g turns s = some s' ∧ Grown g root s' ∧ Q.entries s'.pq = 0 := by
  induction turns generalizing s with
  | zero => omega
  | succ turns ih =>
    rw [loop]
    cases htop : Q.top s.pq with
    | none => exact ⟨s, rfl, h, Q.top_none s.pq htop⟩
    | some top =>
      obtain ⟨hgrown, hless⟩ := h.visit hg htop
      exact ih hgrown (by omega)

/-- The first turn makes a tree of the root alone. -/
theorem start_spec (Q : Heap n) (g : Graph n) (root : Fin n) (turns : Nat) :
    ∃ s : State Q, loop g (turns + 1) (start Q root) = loop g turns s ∧ Grown g root s ∧
      Q.size s.pq + pending g s ≤ ((List.finRange n).map fun u => (g.getAdjList u).length).sum := by
  have hentries : Q.entries (start Q root).pq = {⟨root, 0⟩} := by
    change Q.entries (Q.push _ Q.empty) = _
    rw [Q.entries_push, Q.entries_empty]
    rfl
  cases htop : Q.top (start Q root).pq with
  | none =>
    have hnone := Q.top_none _ htop
    rw [hentries] at hnone
    cases Multiset.singleton_ne_zero _ hnone
  | some top =>
    have hpop := Q.entries_pop top _ htop
    rw [hentries, Multiset.singleton_eq_cons_iff] at hpop
    obtain ⟨rfl, hrest⟩ := hpop
    let t := addNode root { start Q root with pq := Q.pop (start Q root).pq }
    have hnodes : ∀ v, t.inMst v = true ↔ v = root := by
      intro v
      by_cases hv : v = root
      · subst hv
        simp [t, addNode]
      · simp [t, addNode, start, hv]
    have hkeys : ∀ v, t.inMst v = false → t.key v = int32Max := by
      intro v hv
      have hne : v ≠ root := fun heq => by simp [(hnodes v).mpr heq] at hv
      change update (fun _ => int32Max) root 0 v = _
      rw [update_of_ne hne]
    have hqueued : Queued g t := by
      refine ⟨?_, ?_, ?_, ?_, ?_⟩
      · intro v
        by_cases hv : v = root
        · subst hv
          simp [t, addNode, start, int32Max]
        · simp [t, addNode, start, hv]
      · intro v hv hkey
        exact absurd (hkeys v hv) hkey.ne
      · intro x hx
        rw [show Q.entries t.pq = 0 from hrest] at hx
        cases Multiset.notMem_zero x hx
      · intro x hx
        rw [show Q.entries t.pq = 0 from hrest] at hx
        cases Multiset.notMem_zero x hx
      · intro v hv hkey
        exact absurd (hkeys v hv) hkey.ne
    have hroot : t.inMst root = true := (hnodes root).mpr rfl
    obtain ⟨hfold, hlow⟩ := hqueued.foldl hroot (fun edge he => he)
    refine ⟨(g.getAdjList root).foldl (PrimMST.updateKey root) t, ?_, ⟨hfold, ?_, ?_, ?_, ?_, ?_⟩, ?_⟩
    · rw [loop, htop]
      rfl
    · rw [hlow.result, hlow.inMst, funext fun v => propext (hnodes v)]
      exact Tree.single ends EdgeInfo.weight g.Contains root
    · rw [hlow.result]
      intro e he
      cases he
    · rw [hlow.result]
      exact totalled_nil
    · rw [hlow.inMst]
      exact hroot
    · rw [hlow.inMst]
      intro u v w hu hv hw
      obtain rfl := (hnodes u).mp hu
      obtain ⟨edge, hmem, rfl, rfl⟩ := hw
      exact hlow.key_edge edge hmem hv
    · have hpending : pending g ((g.getAdjList root).foldl (PrimMST.updateKey root) t) +
          (g.getAdjList root).length = pending g (start Q root) :=
        pending_visit g rfl hlow.inMst
      have hall : pending g (start Q root) =
          ((List.finRange n).map fun u => (g.getAdjList u).length).sum := by
        rw [pending, Fin.sum_univ_def]
        rfl
      have hempty : Q.size t.pq = 0 := by
        rw [← Q.card_entries, show Q.entries t.pq = 0 from hrest, Multiset.card_zero]
      have hsize := hlow.size
      omega

/-- The edges that the sentinel does not hide. -/
def Below (g : Graph n) (e : EdgeInfo n) : Prop := g.Contains e ∧ e.weight < int32Max

/-- At the end the tree is on the nodes within reach of the root. -/
theorem Grown.reach (h : Grown g root s) (hg : g.Symm) (hempty : Q.entries s.pq = 0) (v : Fin n) :
    s.inMst v = true ↔ Joined ends (Below g) root v := by
  constructor
  · intro hv
    exact (h.tree.connected root v h.root hv).mono fun e he => ⟨h.tree.edges e he, h.small e he⟩
  · intro hv
    by_contra hout
    obtain ⟨e, ⟨he, hsmall⟩, hcross⟩ := hv.crossing (S := fun u => s.inMst u = true)
      (fun heq => hout (heq.mp h.root))
    refine absurd (h.lightest hg ?_ he hcross) (not_le.mpr hsmall)
    intro u hu
    by_contra hkey
    have hentry := h.queued.queued u hu (not_le.mp hkey)
    rw [hempty] at hentry
    cases Multiset.notMem_zero _ hentry

theorem compute_tree (Q : Heap n) (root : Fin n) (hg : g.Symm) (hroot : root.val = 0) :
    ∃ result, compute Q g = some result ∧ Totalled result ∧
      Tree ends EdgeInfo.weight g.Contains (Joined ends (Below g) root) result.edges := by
  obtain ⟨s, hfirst, hgrown, hsize⟩ := start_spec Q g root (turns g - 1)
  have hturns : Q.size s.pq + pending g s < turns g - 1 := by
    rw [turns]
    omega
  obtain ⟨s', hrun, hend, hempty⟩ := loop_spec hg hgrown hturns
  refine ⟨s'.result, ?_, hend.total, ?_⟩
  · have hn : n ≠ 0 := fun h => absurd root.isLt (by omega)
    have hzero : (⟨0, Nat.pos_of_ne_zero hn⟩ : Fin n) = root := Fin.ext hroot.symm
    have hturns : turns g - 1 + 1 = turns g := Nat.sub_add_cancel (Nat.le_add_left 1 _)
    rw [hturns] at hfirst
    rw [compute, dif_neg hn, hzero, hfirst, hrun, Option.map_some]
  · have hnodes : (fun v => s'.inMst v = true) = Joined ends (Below g) root :=
      funext fun v => propext (hend.reach hg hempty v)
    exact hnodes ▸ hend.tree

end Trees

section Agreement
variable {sorting : KeySort (EdgeInfo n) Int} {F : List (EdgeInfo n)}

/-- Every edge but a loop is within reach of node 0, by edges lighter than `INT32_MAX`. -/
def InReach (g : Graph n) : Prop :=
  ∀ root : Fin n, root.val = 0 → ∀ e, g.Contains e → e.source ≠ e.target →
    Joined ends (Below g) root e.source

/-- A tree on the nodes that edges are at spans the graph. -/
theorem spanning_of_inReach (hg : g.Symm) (hroot : root.val = 0) (hreach : InReach g)
    (h : Tree ends EdgeInfo.weight g.Contains (Joined ends (Below g) root) F) :
    Spanning g F ∧ Light ends EdgeInfo.weight F g.Contains := by
  have hends : ∀ e, g.Contains e → e.source ≠ e.target →
      Joined ends (Below g) root e.source ∧ Joined ends (Below g) root e.target := fun e he hne =>
    ⟨hreach root hroot e he hne,
      hreach root hroot ⟨e.target, e.source, e.weight⟩ (hg _ _ _ he) (Ne.symm hne)⟩
  have hlight : Light ends EdgeInfo.weight F g.Contains := by
    intro w u v huv
    refine huv.bind fun e he => ?_
    by_cases hloop : e.source = e.target
    · change Joined ends _ e.source e.target
      rw [hloop]
      exact .refl _
    · obtain ⟨hs, ht⟩ := hends e he.1 hloop
      exact h.light w _ _ hs ht (Joined.edge he)
  refine ⟨⟨h.edges, h.forest, ?_⟩, hlight⟩
  intro u v huv
  have hrange := huv.mono fun e he => (⟨he, he.inRange.2⟩ : g.Contains e ∧ e.weight ≤ int32Max)
  exact (hlight int32Max u v hrange).mono fun e he => he.1

/-- A tree with as many edges as a spanning forest has reached all edges. -/
theorem inReach_of_length {G : List (EdgeInfo n)} (hG : Spanning g G)
    (h : ∀ root : Fin n, root.val = 0 →
      Tree ends EdgeInfo.weight g.Contains (Joined ends (Below g) root) F)
    (hlen : F.length = G.length) : InReach g := by
  intro root hroot e he hne
  have hall : ∀ H : List (EdgeInfo n), ∀ f ∈ H, (ends f).1 ∈ Finset.univ ∧ (ends f).2 ∈ Finset.univ :=
    fun H f _ => ⟨Finset.mem_univ _, Finset.mem_univ _⟩
  have htree := h root hroot
  have hjoined : Joined ends (· ∈ F) e.source e.target :=
    hG.forest.joined_of_length htree.forest (hall G) (hall F)
      (fun u v huv => hG.spans u v (huv.mono htree.edges)) hlen.ge (Finset.mem_univ _)
      (Finset.mem_univ _) (hG.spans _ _ (Joined.edge he))
  obtain ⟨f, hf, hcross⟩ := hjoined.crossing (S := (· = e.source))
    (fun heq => hne (heq.mp rfl).symm)
  obtain ⟨hs, ht⟩ := htree.inside f hf
  by_cases hsource : (ends f).1 = e.source
  · exact hsource ▸ hs
  · have htarget : (ends f).2 = e.source := by
      by_contra htarget
      exact hcross (iff_of_false hsource htarget)
    exact htarget ▸ ht

/-- Prim's algorithm, which starts at node 0 only and takes `INT32_MAX` for no edge, agrees with
Kruskal's exactly when all edges are within its reach. -/
theorem agrees_iff (Q : Heap n) (sorting : KeySort (EdgeInfo n) Int)
    (calls : List (Int × Int × Int32)) (hg : Graph.undirected n calls = some g) :
    ∃ p k, compute Q g = some p ∧ KruskalMST.compute sorting g = some k ∧
      ((p.totalWeight = k.totalWeight ∧ p.edges.length = k.edges.length) ↔ InReach g) := by
  have hsymm := Graph.undirected_symm hg
  obtain ⟨k, hk, hspan, hlight, htotal⟩ := KruskalMST.compute_spec sorting hsymm
  by_cases hn : n = 0
  · subst hn
    refine ⟨⟨[], 0⟩, k, by simp [compute], hk, ?_⟩
    rw [KruskalMST.compute, if_pos rfl, Option.some.injEq] at hk
    subst hk
    exact iff_of_true ⟨rfl, rfl⟩ fun root => root.elim0
  · obtain ⟨p, hp, htotalp, htree⟩ :=
      compute_tree Q ⟨0, Nat.pos_of_ne_zero hn⟩ hsymm rfl
    refine ⟨p, k, hp, hk, ?_, ?_⟩
    · rintro ⟨_, hlen⟩
      refine inReach_of_length hspan ?_ hlen
      intro root hroot
      obtain rfl : root = ⟨0, Nat.pos_of_ne_zero hn⟩ := Fin.ext hroot
      exact htree
    · intro hreach
      obtain ⟨hspanp, hlightp⟩ := spanning_of_inReach hsymm rfl hreach htree
      refine ⟨?_, hspanp.length_eq hspan⟩
      have hsame : weightOf p.edges = weightOf k.edges :=
        le_antisymm (hspanp.minimal hlightp hspan) (hspan.minimal hlight hspanp)
      rw [show p.totalWeight = _ from htotalp, show k.totalWeight = _ from htotal, hsame]

/-- Node 0 is on no edge. -/
theorem agrees_fails :
    ∃ g, Graph.undirected 3 [(1, 2, 5)] = some g ∧ SumsInRange g ∧
      ∃ p k, compute (.sortedList _) g = some p ∧
        KruskalMST.compute (KeySort.insertion _ _) g = some k ∧
        ¬ (p.totalWeight = k.totalWeight ∧ p.edges.length = k.edges.length) := by
  refine ⟨_, rfl, sumsInRange_of_small (W := 5) (by decide) (by decide), ⟨[], 0⟩,
    ⟨[⟨1, 2, 5⟩], 5⟩, by decide, by decide, by decide⟩

/-- A path from node 0, with a tie and a loop. -/
theorem agrees_path :
    ∃ g, Graph.undirected 3 [(0, 1, 2), (1, 2, 2), (2, 2, -1)] = some g ∧
      ∃ p k, compute (.sortedList _) g = some p ∧
        KruskalMST.compute (KeySort.insertion _ _) g = some k ∧
        ((p.totalWeight = k.totalWeight ∧ p.edges.length = k.edges.length) ↔ InReach g) := by
  refine ⟨_, rfl, ?_⟩
  exact agrees_iff _ _ [(0, 1, 2), (1, 2, 2), (2, 2, -1)] rfl

end Agreement

section Components
variable {F G : List (EdgeInfo n)}

/-- Edges of the graph without a cycle, in the component of a node, that join all of it. -/
structure SpansComponent (g : Graph n) (root : Fin n) (F : List (EdgeInfo n)) : Prop where
  edges : ∀ e ∈ F, g.Contains e
  inside : ∀ e ∈ F, Joined ends g.Contains root e.source ∧ Joined ends g.Contains root e.target
  forest : IsForest ends F
  connected : ∀ v, Joined ends g.Contains root v → Joined ends (· ∈ F) root v

/-- Other edges of the component are joined by those of the tree. -/
theorem SpansComponent.joined (h : SpansComponent g root F) (hG : SpansComponent g root G) :
    ∀ u v, Joined ends (· ∈ G) u v → Joined ends (· ∈ F) u v := by
  intro u v huv
  refine huv.bind fun e he => ?_
  obtain ⟨hs, ht⟩ := hG.inside e he
  exact .trans _ _ _ (.symm _ _ (h.connected _ hs)) (h.connected _ ht)

theorem SpansComponent.length_eq (hF : SpansComponent g root F) (hG : SpansComponent g root G) :
    F.length = G.length := by
  have hall : ∀ H : List (EdgeInfo n), ∀ e ∈ H, (ends e).1 ∈ Finset.univ ∧ (ends e).2 ∈ Finset.univ :=
    fun H e _ => ⟨Finset.mem_univ _, Finset.mem_univ _⟩
  refine le_antisymm ?_ ?_
  · exact hG.forest.length_le hF.forest (hall G) (hall F) (hG.joined hF)
  · exact hF.forest.length_le hG.forest (hall F) (hall G) (hF.joined hG)

/-- No edge at `INT32_MAX` is hidden by the sentinel. -/
theorem below_eq (hw : ∀ u, ∀ edge ∈ g.getAdjList u, edge.weight < int32Max) :
    Below g = g.Contains := by
  funext e
  refine propext ⟨fun h => h.1, fun h => ⟨h, ?_⟩⟩
  obtain ⟨edge, hedge, -, hweight⟩ := h
  exact hweight ▸ hw _ edge hedge

/-- A light tree on a component is minimal there. -/
theorem tree_minimal
    (h : Tree ends EdgeInfo.weight g.Contains (Joined ends g.Contains root) F) :
    SpansComponent g root F ∧ ∀ G, SpansComponent g root G → weightOf F ≤ weightOf G := by
  have hspans : SpansComponent g root F :=
    ⟨h.edges, h.inside, h.forest, fun v hv => h.connected root v (.refl root) hv⟩
  refine ⟨hspans, ?_⟩
  intro G hG
  have hlight : Light ends EdgeInfo.weight F fun e => g.Contains e ∧
      Joined ends g.Contains root e.source ∧ Joined ends g.Contains root e.target := by
    intro w u v huv
    refine huv.bind fun e he => ?_
    obtain ⟨⟨hedge, hs, ht⟩, hle⟩ := he
    exact h.light w _ _ hs ht (Joined.edge ⟨hedge, hle⟩)
  exact hlight.sum_le (S := Finset.univ) hspans.forest hG.forest
    (fun _ _ => ⟨Finset.mem_univ _, Finset.mem_univ _⟩)
    (fun _ _ => ⟨Finset.mem_univ _, Finset.mem_univ _⟩)
    (fun e he => ⟨hG.edges e he, hG.inside e he⟩) (hspans.length_eq hG)

/-- The result is a minimal spanning tree of the component of node 0. -/
theorem compute_component (Q : Heap n) (calls : List (Int × Int × Int32))
    (hg : Graph.undirected n calls = some g)
    (hw : ∀ u, ∀ edge ∈ g.getAdjList u, edge.weight < int32Max) (hsums : SumsInRange g) :
    ∃ result, compute Q g = some result ∧ result.totalWeight = weightOf result.edges ∧
      (n = 0 → result.edges = []) ∧
      ∀ root : Fin n, root.val = 0 → SpansComponent g root result.edges ∧
        ∀ F, SpansComponent g root F → result.totalWeight ≤ weightOf F := by
  by_cases hn : n = 0
  · subst hn
    exact ⟨⟨[], 0⟩, by rw [compute, dif_pos rfl], rfl, fun _ => rfl, fun root => root.elim0⟩
  · obtain ⟨result, hrun, htotal, htree⟩ :=
      compute_tree Q ⟨0, Nat.pos_of_ne_zero hn⟩ (Graph.undirected_symm hg) rfl
    rw [below_eq hw] at htree
    obtain ⟨hspans, hminimal⟩ := tree_minimal htree
    have hweight := htotal.eq (hsums _ hspans.edges hspans.forest)
    refine ⟨result, hrun, hweight, fun hzero => absurd hzero hn, ?_⟩
    intro root hroot
    obtain rfl : root = ⟨0, Nat.pos_of_ne_zero hn⟩ := Fin.ext hroot
    exact ⟨hspans, fun F hF => hweight ▸ hminimal F hF⟩

/-- Parallel edges, a loop, and two nodes out of reach. -/
theorem compute_component_parallel :
    ∃ g, Graph.undirected 5 [(0, 1, 4), (0, 1, -3), (1, 2, 4), (2, 2, 1), (3, 4, 2)] = some g ∧
      ∃ result, compute (.sortedList _) g = some result ∧
        result.totalWeight = weightOf result.edges ∧ (5 = 0 → result.edges = []) ∧
        ∀ root : Fin 5, root.val = 0 → SpansComponent g root result.edges ∧
          ∀ F, SpansComponent g root F → result.totalWeight ≤ weightOf F := by
  refine ⟨_, rfl, ?_⟩
  apply compute_component _ [(0, 1, 4), (0, 1, -3), (1, 2, 4), (2, 2, 1), (3, 4, 2)] rfl
  · decide
  · exact sumsInRange_of_small (W := 4) (by decide) (by decide)

end Components

end Cppforge.Graphs.PrimMST
