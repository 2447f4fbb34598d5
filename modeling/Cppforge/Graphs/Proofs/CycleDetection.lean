import Cppforge.Graphs.Proofs.TopologicalSort
import Cppforge.Lib.Cuts
import Mathlib.Data.List.Chain

namespace Cppforge.Graphs
open Function

variable {n : Nat} {g : Graph n} {u v : Fin n}

/-- A walk back to where it starts, over at least one edge. -/
def ClosedWalk (g : Graph n) (walk : List (Fin n)) : Prop :=
  (∃ v l, walk = v :: l ++ [v]) ∧ walk.IsChain g.Adjacent

namespace CycleDetection
variable {s s' : Search n} {t t' : TopologicalSort.Search n} {path A B : List (Fin n)}
  {depth : Nat} {ok : Bool}

/-- The edge along which a node was entered. -/
def Link (g : Graph n) (s : Search n) (x y : Fin n) : Prop := s.parent x = some y ∧ g.Adjacent y x

/-- The nodes in progress, the latest first. -/
structure OnPath (g : Graph n) (s : Search n) (path : List (Fin n)) : Prop where
  nodup : path.Nodup
  inProgress : ∀ x, s.state x = .inProgress ↔ x ∈ path
  links : path.IsChain (Link g s)
  cycle : s.cycle = []

/-- What was entered stays so, from the same parent. -/
def Keeps (s s' : Search n) : Prop :=
  ∀ x, s.state x ≠ .unvisited → s'.state x ≠ .unvisited ∧ s'.parent x = s.parent x

theorem Keeps.refl (s : Search n) : Keeps s s := fun _ hx => ⟨hx, rfl⟩

theorem Keeps.trans {s₁ : Search n} (h : Keeps s s₁) (h' : Keeps s₁ s') : Keeps s s' := by
  intro x hx
  obtain ⟨hstate, hparent⟩ := h x hx
  obtain ⟨hstate', hparent'⟩ := h' x hstate
  exact ⟨hstate', hparent'.trans hparent⟩

theorem OnPath.entered (h : OnPath g s path) {x : Fin n} (hx : x ∈ path) :
    s.state x ≠ .unvisited := by
  rw [(h.inProgress x).mpr hx]
  exact Color.noConfusion

theorem OnPath.links_keep (h : OnPath g s path) (hk : Keeps s s') : path.IsChain (Link g s') := by
  refine h.links.imp_of_mem_imp ?_
  rintro x y hx _ ⟨hparent, hadj⟩
  exact ⟨(hk x (h.entered hx)).2.trans hparent, hadj⟩

theorem OnPath.enter (h : OnPath g s path) (hu : s.state u = .unvisited)
    (hlink : (u :: path).IsChain (Link g s)) :
    OnPath g { s with state := update s.state u .inProgress } (u :: path) := by
  have hfresh : u ∉ path := fun hin => h.entered hin hu
  refine ⟨h.nodup.cons hfresh, ?_, hlink, h.cycle⟩
  intro x
  by_cases hx : x = u
  · simp [hx]
  · simp [hx, h.inProgress]

theorem OnPath.leave (h : OnPath g s (u :: path)) :
    OnPath g { s with state := update s.state u .finished } path := by
  obtain ⟨hfresh, hnodup⟩ := List.nodup_cons.mp h.nodup
  refine ⟨hnodup, ?_, h.links.tail, h.cycle⟩
  intro x
  by_cases hx : x = u
  · subst hx
    simpa using hfresh
  · simp [hx, h.inProgress]

/-- The climb from the end of the path goes through all that comes after the node sought. -/
theorem climb_spec (hlinks : (A ++ v :: B).IsChain (Link g s)) (hv : v ∉ A) {turns : Nat}
    (hturns : A.length < turns) (hu : (A ++ [v]).head? = some u) :
    climb s.parent v turns u = some A := by
  induction A generalizing u turns with
  | nil =>
    obtain rfl : v = u := by simpa using hu
    obtain ⟨turns, rfl⟩ := Nat.exists_eq_add_one_of_ne_zero (Nat.ne_zero_of_lt hturns)
    simp [climb]
  | cons x A ih =>
    obtain rfl : x = u := by simpa using hu
    obtain ⟨turns, rfl⟩ := Nat.exists_eq_add_one_of_ne_zero (Nat.ne_zero_of_lt hturns)
    obtain ⟨hx, hA⟩ := List.ne_and_not_mem_of_not_mem_cons hv
    obtain ⟨y, hy⟩ : ∃ y, (A ++ [v]).head? = some y := by cases A <;> simp
    have hhead : (A ++ v :: B).head? = some y := by
      cases A <;> simpa using hy
    obtain ⟨hlink, hrest⟩ := List.isChain_cons.mp hlinks
    have hparent := (hlink y hhead).1
    have hclimb := ih hrest hA (Nat.lt_of_succ_lt_succ hturns) hy
    simp [climb, Ne.symm hx, hparent, hclimb]

/-- An edge from the end of a path back to a node of it closes a walk. -/
theorem closeCycle_walk (hnodup : (u :: path).Nodup) (hlinks : (u :: path).IsChain (Link g s))
    (hcycle : s.cycle = []) (hv : v ∈ u :: path) (he : g.Adjacent u v) :
    ∃ s', closeCycle s u v = some s' ∧ ClosedWalk g s'.cycle := by
  obtain ⟨A, B, hsplit⟩ := List.append_of_mem hv
  rw [hsplit] at hnodup hlinks
  have hA : v ∉ A := fun hin => List.disjoint_of_nodup_append hnodup hin List.mem_cons_self
  have hlen : A.length < n := by
    have hall := hnodup.length_le_card
    rw [Fintype.card_fin, List.length_append, List.length_cons] at hall
    omega
  have hu : (A ++ [v]).head? = some u := by
    have hhead := congrArg List.head? hsplit
    cases A <;> simpa using hhead.symm
  have hclimb := climb_spec hlinks hA hlen hu
  refine ⟨{ s with cycle := (v :: A ++ [v]).reverse },
    by simp [closeCycle, hclimb, hcycle], ⟨v, A.reverse, by simp⟩, ?_⟩
  have hback : (A ++ [v]).IsChain fun x y => g.Adjacent y x := by
    have hleft : (A ++ [v] ++ B).IsChain (Link g s) := by simpa using hlinks
    exact hleft.left_of_append.imp fun x y hxy => hxy.2
  refine List.isChain_reverse.mpr (List.isChain_cons.mpr ⟨?_, hback⟩)
  intro y hy
  obtain rfl := Option.some.inj (hu.symm.trans hy)
  exact he

/-- A back edge closes a walk. -/
theorem closeCycle_spec (h : OnPath g s (u :: path)) (hv : v ∈ u :: path) (he : g.Adjacent u v) :
    ∃ s', closeCycle s u v = some s' ∧ ClosedWalk g s'.cycle :=
  closeCycle_walk h.nodup h.links h.cycle hv he

/-- The two searches colour the same nodes, and one finds a cycle where the other gives up. -/
def Mirrors (g : Graph n) (path : List (Fin n)) (s : Search n) (ok : Bool)
    (t' : TopologicalSort.Search n) (r : Option (Bool × Search n)) : Prop :=
  (ok = true ∧ ∃ s', r = some (false, s') ∧ s'.state = t'.state ∧ OnPath g s' path ∧ Keeps s s') ∨
    ok = false ∧ ∃ s', r = some (true, s') ∧ ClosedWalk g s'.cycle

theorem Mirrors.after {r : Option (Bool × Search n)} {s₁ : Search n}
    (h : Mirrors g path s₁ ok t' r) (hk : Keeps s s₁) : Mirrors g path s ok t' r :=
  h.imp_left fun ⟨hok, s', hr, hstate, hpath, hkeep⟩ =>
    ⟨hok, s', hr, hstate, hpath, hk.trans hkeep⟩

def Follows (g : Graph n) (dfs : Fin n → Search n → Option (Bool × Search n))
    (dfs' : Fin n → TopologicalSort.Search n → Option (Bool × TopologicalSort.Search n)) : Prop :=
  ∀ u s t path ok t', s.state = t.state → OnPath g s path → s.state u = .unvisited →
    (u :: path).IsChain (Link g s) → dfs' u t = some (ok, t') → Mirrors g path s ok t' (dfs u s)

theorem exploreEdges_follows {dfs : Fin n → Search n → Option (Bool × Search n)}
    {dfs' : Fin n → TopologicalSort.Search n → Option (Bool × TopologicalSort.Search n)}
    (hdfs : Follows g dfs dfs') (edges : List (Edge n))
    (hedges : ∀ edge ∈ edges, g.Adjacent u edge.target) (hst : s.state = t.state)
    (hs : OnPath g s (u :: path)) (hrun : TopologicalSort.exploreEdges dfs' edges t = some (ok, t')) :
    Mirrors g (u :: path) s ok t' (exploreEdges dfs u edges s) := by
  induction edges generalizing s t with
  | nil =>
    obtain ⟨rfl, rfl⟩ := Prod.mk.inj (Option.some.inj hrun)
    exact .inl ⟨rfl, s, rfl, hst, hs, .refl s⟩
  | cons edge rest ih =>
    obtain ⟨he, hrest⟩ := List.forall_mem_cons.mp hedges
    cases hstate : t.state edge.target with
    | inProgress =>
      simp only [TopologicalSort.exploreEdges, hstate, Option.some.injEq, Prod.mk.injEq] at hrun
      obtain ⟨rfl, rfl⟩ := hrun
      rw [← hst] at hstate
      obtain ⟨s', hclose, hwalk⟩ := closeCycle_spec hs ((hs.inProgress _).mp hstate) he
      exact .inr ⟨rfl, s', by simp [exploreEdges, hstate, hclose], hwalk⟩
    | finished =>
      simp only [TopologicalSort.exploreEdges, hstate] at hrun
      rw [← hst] at hstate
      simp only [exploreEdges, hstate]
      exact ih hrest hst hs hrun
    | unvisited =>
      simp only [TopologicalSort.exploreEdges, hstate, Option.bind_eq_bind,
        Option.bind_eq_some_iff] at hrun
      obtain ⟨⟨ok₁, t₁⟩, hcall, hrun⟩ := hrun
      rw [← hst] at hstate
      have hkeep : Keeps s { s with parent := update s.parent edge.target (some u) } := by
        intro x hx
        have hne : x ≠ edge.target := fun hx' => hx (hx' ▸ hstate)
        exact ⟨hx, by simp [hne]⟩
      have hpath : OnPath g { s with parent := update s.parent edge.target (some u) } (u :: path) :=
        ⟨hs.nodup, hs.inProgress, hs.links_keep hkeep, hs.cycle⟩
      have hlink : (edge.target :: u :: path).IsChain
          (Link g { s with parent := update s.parent edge.target (some u) }) :=
        List.isChain_cons_cons.mpr ⟨⟨by simp, he⟩, hpath.links⟩
      rcases hdfs edge.target { s with parent := update s.parent edge.target (some u) } t _ ok₁ t₁
        hst hpath hstate hlink hcall with
        ⟨rfl, s₁, hdfs₁, hst₁, hpath₁, hkeep₁⟩ | ⟨rfl, s₁, hdfs₁, hwalk⟩
      · simp only [exploreEdges, hstate, hdfs₁, Option.bind_eq_bind, Option.bind_some]
        exact (ih hrest hst₁ hpath₁ (by simpa using hrun)).after (hkeep.trans hkeep₁)
      · obtain ⟨rfl, rfl⟩ : false = ok ∧ t₁ = t' := by simpa using hrun
        exact .inr ⟨rfl, s₁, by simp [exploreEdges, hstate, hdfs₁], hwalk⟩

theorem dfsDetectDirected_follows (g : Graph n) (depth : Nat) :
    Follows g (dfsDetectDirected g depth) (TopologicalSort.dfsTopo g depth) := by
  induction depth with
  | zero =>
    intro u s t path ok t' _ _ _ _ hrun
    cases hrun
  | succ depth ih =>
    intro u s t path ok t' hst hs hu hlink hrun
    obtain ⟨⟨ok₁, t₁⟩, hexplore, hrun⟩ := Option.bind_eq_some_iff.mp hrun
    have hkeep : Keeps s { s with state := update s.state u .inProgress } := by
      intro x hx
      have hne : x ≠ u := fun hx' => hx (hx' ▸ hu)
      exact ⟨by simpa [hne] using hx, rfl⟩
    have hst' : update s.state u .inProgress = update t.state u .inProgress := by rw [hst]
    rcases exploreEdges_follows ih (g.getAdjList u) (fun edge hedge => ⟨edge, hedge, rfl⟩)
      hst' (hs.enter hu hlink) hexplore with
      ⟨rfl, s₁, hrun₁, hst₁, hpath₁, hkeep₁⟩ | ⟨rfl, s₁, hrun₁, hwalk⟩
    · obtain ⟨rfl, rfl⟩ := Prod.mk.inj (Option.some.inj hrun)
      refine .inl ⟨rfl, _, by simp [dfsDetectDirected, hrun₁], by rw [hst₁], hpath₁.leave, ?_⟩
      refine (hkeep.trans hkeep₁).trans ?_
      intro x hx
      by_cases hxu : x = u
      · simp [hxu]
      · simpa [hxu] using hx
    · obtain ⟨rfl, rfl⟩ := Prod.mk.inj (Option.some.inj hrun)
      exact .inr ⟨rfl, s₁, by simp [dfsDetectDirected, hrun₁], hwalk⟩

theorem searchAll_follows (nodes : List (Fin n)) (hst : s.state = t.state) (hs : OnPath g s [])
    (hrun : TopologicalSort.searchAll g nodes t = some (ok, t')) :
    Mirrors g [] s ok t' (searchAll g nodes s) := by
  induction nodes generalizing s t with
  | nil =>
    obtain ⟨rfl, rfl⟩ := Prod.mk.inj (Option.some.inj hrun)
    exact .inl ⟨rfl, s, rfl, hst, hs, .refl s⟩
  | cons i rest ih =>
    by_cases hi : t.state i = .unvisited
    · simp only [TopologicalSort.searchAll, if_pos hi, Option.bind_eq_bind,
        Option.bind_eq_some_iff] at hrun
      obtain ⟨⟨ok₁, t₁⟩, hcall, hrun⟩ := hrun
      rw [← hst] at hi
      rcases dfsDetectDirected_follows g n i s t [] ok₁ t₁ hst hs hi (List.isChain_singleton i) hcall with
        ⟨rfl, s₁, hdfs, hst₁, hpath₁, hkeep₁⟩ | ⟨rfl, s₁, hdfs, hwalk⟩
      · simp only [searchAll, if_pos hi, hdfs, Option.bind_eq_bind, Option.bind_some]
        exact (ih hst₁ hpath₁ (by simpa using hrun)).after hkeep₁
      · obtain ⟨rfl, rfl⟩ : false = ok ∧ t₁ = t' := by simpa using hrun
        exact .inr ⟨rfl, s₁, by simp [searchAll, hi, hdfs], hwalk⟩
    · simp only [TopologicalSort.searchAll, if_neg hi] at hrun
      rw [← hst] at hi
      simp only [searchAll, if_neg hi]
      exact ih hst hs hrun

theorem detectDirected_spec (hrun : TopologicalSort.searchAll g (List.finRange n)
    ⟨fun _ => .unvisited, []⟩ = some (ok, t')) :
    ∃ c, detectDirected g = some c ∧ c.hasCycle = !ok ∧ (ok = false → ClosedWalk g c.cycle) := by
  have hstart : OnPath g ⟨fun _ => .unvisited, fun _ => none, []⟩ [] :=
    ⟨List.nodup_nil, fun x => by simp, List.isChain_nil, rfl⟩
  rcases searchAll_follows (List.finRange n) rfl hstart hrun with
    ⟨rfl, s, hs, _⟩ | ⟨rfl, s, hs, hwalk⟩
  · exact ⟨⟨false, s.cycle⟩, by simp [detectDirected, hs], rfl, fun h => Bool.noConfusion h⟩
  · exact ⟨⟨true, s.cycle⟩, by simp [detectDirected, hs], rfl, fun _ => hwalk⟩

/-- The two orders and the search for a cycle agree with the graph. -/
theorem detectDirected_agrees (g : Graph n) : ∃ sorted kahn found,
    TopologicalSort.sort g = some sorted ∧ TopologicalSort.sortKahn g = some kahn ∧
    detectDirected g = some found ∧
    sorted.hasCycle = kahn.hasCycle ∧ kahn.hasCycle = found.hasCycle ∧
    (found.hasCycle = true ↔ ∃ v, Relation.TransGen g.Adjacent v v) ∧
    (found.hasCycle = false → Topological g sorted.order ∧ Topological g kahn.order) ∧
    (found.hasCycle = true → sorted.order = [] ∧ kahn.order = [] ∧ ClosedWalk g found.cycle) := by
  rcases TopologicalSort.sort_spec g with ⟨t, hall, hsort, hsorted, hno⟩ | ⟨t, hall, hsort, hcycle⟩
  · obtain ⟨c, hdetect, hfound, _⟩ := detectDirected_spec hall
    rcases TopologicalSort.sortKahn_spec g with ⟨order, hkahn, horder, _⟩ | ⟨_, hcycle⟩
    · refine ⟨_, _, c, hsort, hkahn, hdetect, rfl, hfound.symm, ?_, fun _ => ⟨hsorted, horder⟩, ?_⟩
      · simpa [hfound, Graph.Cyclic] using hno
      · simp [hfound]
    · exact absurd hcycle hno
  · obtain ⟨c, hdetect, hfound, hwalk⟩ := detectDirected_spec hall
    rcases TopologicalSort.sortKahn_spec g with ⟨order, _, _, hno⟩ | ⟨hkahn, _⟩
    · exact absurd hcycle hno
    · refine ⟨_, _, c, hsort, hkahn, hdetect, rfl, hfound.symm, ?_, ?_, ?_⟩
      · simpa [hfound, Graph.Cyclic] using hcycle
      · simp [hfound]
      · exact fun _ => ⟨rfl, rfl, hwalk rfl⟩

section Undirected
open Relation Cuts

variable {s₀ s₁ : Search n} {done rest : List (Edge n)} {w x y : Fin n}
  {bs : List (Fin n × (Fin n → Prop))}

/-- Where edges lead, but for those back to the node that was left for this one. -/
def onward (path : List (Fin n)) (edges : List (Edge n)) : List (Fin n) :=
  (edges.map Edge.target).filter fun v => some v ≠ path.head?

/-- The edges of `u`, which `path` leads to, begin trees apart from the path and each other. -/
inductive Hanging (g : Graph n) : List (Fin n) → Fin n → Prop
  | tree {path : List (Fin n)} {u : Fin n} (hnodup : (onward path (g.getAdjList u)).Nodup)
      (hout : ∀ x ∈ onward path (g.getAdjList u), x ∉ u :: path)
      (hbelow : ∀ x ∈ onward path (g.getAdjList u), Hanging g (u :: path) x) : Hanging g path u

/-- The first edge of `u` that does not begin a tree repeats one before it, or leads to a node of
which this is true in turn. -/
inductive Misleading (g : Graph n) : List (Fin n) → Fin n → Prop
  | twice {path front rest : List (Fin n)} {u w : Fin n}
      (hedges : onward path (g.getAdjList u) = front ++ w :: rest) (hnodup : front.Nodup)
      (hfront : ∀ x ∈ front, x ∉ u :: path ∧ Hanging g (u :: path) x) (hw : w ∈ front) :
      Misleading g path u
  | further {path front rest : List (Fin n)} {u w : Fin n}
      (hedges : onward path (g.getAdjList u) = front ++ w :: rest) (hnodup : front.Nodup)
      (hfront : ∀ x ∈ front, x ∉ u :: path ∧ Hanging g (u :: path) x) (hw : w ∉ front)
      (hout : w ∉ u :: path) (h : Misleading g (u :: path) w) : Misleading g path u

theorem Hanging.not_misleading (h : Hanging g path u) : ¬ Misleading g path u := by
  induction h with
  | tree hnodup _ hbelow ih =>
    intro hmis
    cases hmis with
    | twice hedges _ _ hw =>
      rw [hedges] at hnodup
      exact List.disjoint_of_nodup_append hnodup hw List.mem_cons_self
    | further hedges _ _ _ _ h =>
      exact ih _ (hedges ▸ List.mem_append_right _ List.mem_cons_self) h

/-- An edge that closes a walk is neither in front of one that repeats another nor behind it. -/
theorem not_misleading {front behind : List (Fin n)}
    (hedges : onward path (g.getAdjList u) = front ++ w :: behind) (hnodup : front.Nodup)
    (hfront : ∀ x ∈ front, Hanging g (u :: path) x) (hw : w ∉ front)
    (hcloses : w ∈ u :: path ∨ ¬ Hanging g (u :: path) w ∧ ¬ Misleading g (u :: path) w) :
    ¬ Misleading g path u := by
  have hcompare : ∀ {front' rest' : List (Fin n)} {w' : Fin n},
      onward path (g.getAdjList u) = front' ++ w' :: rest' →
      (∀ x ∈ front', x ∉ u :: path ∧ Hanging g (u :: path) x) →
      (∃ more, front = front' ++ w' :: more) ∨ front' = front ∧ w' = w := by
    intro front' rest' w' hedges' hfront'
    rw [hedges] at hedges'
    rcases List.append_eq_append_iff.mp hedges' with ⟨more, rfl, hmore⟩ | ⟨more, rfl, hmore⟩
    · cases more with
      | nil =>
        rw [List.nil_append, List.cons.injEq] at hmore
        exact .inr ⟨List.append_nil front, hmore.1.symm⟩
      | cons x more =>
        rw [List.cons_append, List.cons.injEq] at hmore
        obtain ⟨rfl, _⟩ := hmore
        obtain ⟨hout, hhang⟩ := hfront' w (List.mem_append_right _ List.mem_cons_self)
        rcases hcloses with hin | hneither
        · exact absurd hin hout
        · exact absurd hhang hneither.1
    · cases more with
      | nil =>
        rw [List.nil_append, List.cons.injEq] at hmore
        exact .inr ⟨(List.append_nil front').symm, hmore.1⟩
      | cons x more =>
        rw [List.cons_append, List.cons.injEq] at hmore
        exact .inl ⟨more, by rw [hmore.1]⟩
  intro hmis
  cases hmis with
  | twice hedges' _ hfront' hw' =>
    rcases hcompare hedges' hfront' with ⟨more, rfl⟩ | ⟨rfl, rfl⟩
    · exact List.disjoint_of_nodup_append hnodup hw' List.mem_cons_self
    · exact hw hw'
  | further hedges' _ hfront' _ hout h =>
    rcases hcompare hedges' hfront' with ⟨more, rfl⟩ | ⟨rfl, rfl⟩
    · exact (hfront _ (List.mem_append_right _ List.mem_cons_self)).not_misleading h
    · rcases hcloses with hin | hneither
      · exact hout hin
      · exact hneither.2 h

/-- The climb to a node that is not on the path goes past the root. -/
theorem climb_none (hlinks : (u :: path).IsChain (Link g s))
    (hroot : ∀ r ∈ (u :: path).getLast?, s.parent r = none) (hv : v ∉ u :: path) (turns : Nat) :
    climb s.parent v turns u = none := by
  induction turns generalizing u path with
  | zero => rfl
  | succ turns ih =>
    obtain ⟨hvu, hrest⟩ := List.ne_and_not_mem_of_not_mem_cons hv
    cases path with
    | nil =>
      have hparent := hroot u (by simp)
      simp [climb, Ne.symm hvu, hparent]
    | cons p path =>
      obtain ⟨⟨hparent, _⟩, hlinks⟩ := List.isChain_cons_cons.mp hlinks
      have hclimb := ih hlinks (by simpa using hroot) hrest
      simp [climb, Ne.symm hvu, hparent, hclimb]

/-- What is entered between two states. -/
def Entered (s s' : Search n) (x : Fin n) : Prop :=
  s'.state x = .inProgress ∧ s.state x = .unvisited

/-- What is not entered is left as it is. -/
def Leaves (s s' : Search n) : Prop :=
  ∀ x, ¬ Entered s s' x → s'.state x = s.state x ∧ s'.parent x = s.parent x

/-- `path` leads to where the search is, the latest first; what was left has nothing unvisited
around it. -/
structure Trail (g : Graph n) (s : Search n) (path : List (Fin n)) : Prop where
  nodup : path.Nodup
  visited : ∀ x ∈ path, s.state x = .inProgress
  links : path.IsChain (Link g s)
  root : ∀ r ∈ path.getLast?, s.parent r = none
  explored : ∀ x, s.state x = .inProgress → x ∉ path → ∀ y, g.Adjacent x y →
    s.state y = .inProgress
  colors : ∀ x, s.state x = .unvisited ∨ s.state x = .inProgress
  cycle : s.cycle = []

/-- A single edge that nothing goes around. -/
def Single (g : Graph n) (x y : Fin n) : Prop :=
  CutPair g.Adjacent x y ∧ ((g.getAdjList x).map Edge.target).count y = 1

/-- A call that finds no cycle. -/
structure Clear (g : Graph n) (path : List (Fin n)) (u : Fin n) (s s' : Search n) : Prop where
  trail : Trail g s' path
  leaves : Leaves s s'
  branch : Branch g.Adjacent path u (Entered s s')
  alone : ∀ x y, Entered s s' x → g.Adjacent x y →
    Entered s s' y ∨ x = u ∧ some y = path.head?
  single : ∀ x y, Entered s s' x → g.Adjacent x y → ¬ (x = u ∧ some y = path.head?) →
    Single g x y ∨ Single g y x
  hanging : Hanging g path u

/-- A call that finds a cycle where there is one. -/
structure Closing (g : Graph n) (path : List (Fin n)) (u : Fin n) : Prop where
  hanging : ¬ Hanging g path u
  misleading : ¬ Misleading g path u
  around : ∃ x y, g.Adjacent x y ∧ ¬ CutPair g.Adjacent x y

inductive Outcome (g : Graph n) (path : List (Fin n)) (u : Fin n) (s : Search n) :
    Option (Bool × Search n) → Prop
  | clear {s' : Search n} (h : Clear g path u s s') : Outcome g path u s (some (false, s'))
  | closed {s' : Search n} (hwalk : ClosedWalk g s'.cycle) (h : Closing g path u) :
      Outcome g path u s (some (true, s'))
  | lost (h : Misleading g path u) : Outcome g path u s none

def unvisited (s : Search n) : Finset (Fin n) := Finset.univ.filter (s.state · = .unvisited)

/-- Where a call for `u` begins, which may have a parent already. -/
structure Begins (g : Graph n) (path : List (Fin n)) (u : Fin n) (s : Search n) : Prop where
  trail : Trail g s path
  unvisited : s.state u = .unvisited
  links : (u :: path).IsChain (Link g s)
  root : ∀ r ∈ (u :: path).getLast?, s.parent r = none

def Decides (g : Graph n) (dfs : Fin n → Option (Fin n) → Search n → Option (Bool × Search n))
    (depth : Nat) : Prop :=
  ∀ u path s, Begins g path u s → (CycleDetection.unvisited s).card ≤ depth →
    Outcome g path u s (dfs u path.head? s)

/-- In the loop of a call for `u` from `s₀`, when its first edges have led to trees only. -/
structure Scanning (g : Graph n) (path : List (Fin n)) (u : Fin n) (s₀ s : Search n)
    (done : List (Edge n)) (bs : List (Fin n × (Fin n → Prop))) : Prop where
  trail : Trail g s (u :: path)
  leaves : Leaves s₀ s
  entered : ∀ x, Entered s₀ s x ↔ x = u ∨ ∃ b ∈ bs, b.2 x
  branch : ∀ b ∈ bs, Branch g.Adjacent (u :: path) b.1 b.2
  alone : ∀ b ∈ bs, ∀ x y, b.2 x → g.Adjacent x y → b.2 y ∨ x = b.1 ∧ y = u
  single : ∀ b ∈ bs, ∀ x y, b.2 x → g.Adjacent x y → ¬ (x = b.1 ∧ y = u) →
    Single g x y ∨ Single g y x
  children : bs.map Prod.fst = onward path done
  nodup : (onward path done).Nodup
  hanging : ∀ b ∈ bs, Hanging g (u :: path) b.1

section Scan
variable (hE : ∀ a b, g.Adjacent a b → g.Adjacent b a)

theorem Begins.start (h : Begins g path u s) :
    Scanning g path u s { s with state := update s.state u .inProgress } [] [] := by
  have hu := h.unvisited
  have hvisited : ∀ {x}, s.state x = .inProgress → x ≠ u := by
    rintro x hx rfl
    rw [hu] at hx
    cases hx
  have hout : u ∉ path := fun hin => hvisited (h.trail.visited u hin) rfl
  have hentered : ∀ x, Entered s { s with state := update s.state u .inProgress } x ↔ x = u := by
    intro x
    by_cases hxu : x = u
    · simp [Entered, hxu, hu]
    · simp [Entered, hxu]
      intro hx
      simp [hx]
  refine ⟨⟨h.trail.nodup.cons hout, ?_, h.links, h.root, ?_, ?_, h.trail.cycle⟩, ?_, ?_, ?_, ?_,
    ?_, rfl, .nil, ?_⟩
  · intro x hx
    rcases List.mem_cons.mp hx with rfl | hx
    · simp
    · simp [hvisited (h.trail.visited x hx), h.trail.visited x hx]
  · intro x hx hxout y hxy
    obtain ⟨hxu, hxout⟩ := List.ne_and_not_mem_of_not_mem_cons hxout
    have hxs : s.state x = .inProgress := by simpa [hxu] using hx
    have hy := h.trail.explored x hxs hxout y hxy
    simp [hvisited hy, hy]
  · intro x
    by_cases hxu : x = u
    · simp [hxu]
    · simpa [hxu] using h.trail.colors x
  · intro x hx
    rw [hentered] at hx
    simp [hx]
  · intro x
    simpa using hentered x
  all_goals exact fun b hb => absurd hb List.not_mem_nil

theorem onward_append (path : List (Fin n)) (done rest : List (Edge n)) :
    onward path (done ++ rest) = onward path done ++ onward path rest := by
  rw [onward, List.map_append, List.filter_append]
  rfl

theorem onward_parent {edge : Edge n} (h : some edge.target = path.head?) :
    onward path [edge] = [] := by
  simp [onward, h]

theorem onward_other {edge : Edge n} (h : some edge.target ≠ path.head?) :
    onward path [edge] = [edge.target] := by
  simp [onward, h]

theorem onward_split {edge : Edge n} (hedges : done ++ edge :: rest = g.getAdjList u)
    (hother : some edge.target ≠ path.head?) : onward path (g.getAdjList u) =
      onward path done ++ edge.target :: onward path rest := by
  rw [← hedges, List.append_cons, onward_append, onward_append, onward_other hother,
    List.append_assoc, List.singleton_append]

theorem Scanning.skip {edge : Edge n} (h : Scanning g path u s₀ s done bs)
    (hv : some edge.target = path.head?) : Scanning g path u s₀ s (done ++ [edge]) bs := by
  have hsame : onward path (done ++ [edge]) = onward path done := by
    rw [onward_append, onward_parent hv, List.append_nil]
  exact ⟨h.trail, h.leaves, h.entered, h.branch, h.alone, h.single, hsame ▸ h.children,
    hsame ▸ h.nodup, h.hanging⟩

theorem Scanning.mem_children (h : Scanning g path u s₀ s done bs) :
    x ∈ onward path done ↔ ∃ b ∈ bs, b.1 = x := by
  rw [← h.children]
  exact List.mem_map

theorem Scanning.child_out (h : Scanning g path u s₀ s done bs) {b : Fin n × (Fin n → Prop)}
    (hb : b ∈ bs) : b.1 ∉ u :: path := fun hin => (h.branch b hb).fresh _ hin (h.branch b hb).root

theorem Scanning.front (h : Scanning g path u s₀ s done bs) :
    ∀ x ∈ onward path done, x ∉ u :: path ∧ Hanging g (u :: path) x := by
  intro x hx
  obtain ⟨b, hb, rfl⟩ := h.mem_children.mp hx
  exact ⟨h.child_out hb, h.hanging b hb⟩

theorem not_entered (h : s.state x = .inProgress) : ¬ Entered s s' x := by
  intro hgiven
  obtain ⟨_, hx⟩ := hgiven
  rw [h] at hx
  cases hx

theorem Leaves.keeps (h : Leaves s s') (hx : s.state x = .inProgress) :
    s'.state x = .inProgress ∧ s'.parent x = s.parent x := by
  obtain ⟨hstate, hparent⟩ := h x (not_entered hx)
  exact ⟨hstate.trans hx, hparent⟩

include hE in
/-- A neighbour that was visited is on the path or the start of a branch. -/
theorem Scanning.visited_cases (h : Scanning g path u s₀ s done bs) (hs₀ : Begins g path u s₀)
    (he : g.Adjacent u v) (hv : s.state v = .inProgress) :
    v ∈ u :: path ∨ v ∈ onward path done := by
  rcases hs₀.trail.colors v with hold | hold
  · rcases (h.entered v).mp ⟨hv, hold⟩ with rfl | ⟨b, hb, hbv⟩
    · exact .inl List.mem_cons_self
    · rcases h.alone b hb v u hbv (hE _ _ he) with hbu | ⟨rfl, _⟩
      · exact absurd hbu ((h.branch b hb).fresh u List.mem_cons_self)
      · exact .inr (h.mem_children.mpr ⟨b, hb, rfl⟩)
  · by_cases hin : v ∈ path
    · exact .inl (List.mem_cons_of_mem u hin)
    · have hu := hs₀.trail.explored v hold hin u (hE _ _ he)
      rw [hs₀.unvisited] at hu
      cases hu

theorem Trail.visited_before (h : Trail g s path) (hx : s'.state x = .inProgress) :
    s.state x = .inProgress ∨ Entered s s' x := by
  rcases h.colors x with hxs | hxs
  · exact .inr ⟨hx, hxs⟩
  · exact .inl hxs

theorem Trail.joined (h : Trail g s path) (hE : ∀ a b, g.Adjacent a b → g.Adjacent b a) :
    path.IsChain g.Adjacent := h.links.imp fun _ _ hxy => hE _ _ hxy.2

include hE in
/-- An edge back to the path that does not lead to the parent closes a cycle. -/
theorem Scanning.closing {edge : Edge n} (h : Scanning g path u s₀ s done bs)
    (hedges : done ++ edge :: rest = g.getAdjList u) (hother : some edge.target ≠ path.head?)
    (hv : edge.target ∈ u :: path) : Closing g path u := by
  have he : g.Adjacent u edge.target :=
    ⟨edge, hedges ▸ List.mem_append_right done List.mem_cons_self, rfl⟩
  have hsplit := onward_split hedges hother
  refine ⟨fun hhang => ?_, ?_, u, edge.target, he, fun hcut => ?_⟩
  · cases hhang with
    | tree _ hout _ =>
      exact hout _ (hsplit ▸ List.mem_append_right _ List.mem_cons_self) hv
  · exact not_misleading hsplit h.nodup (fun x hx => (h.front x hx).2)
      (fun hin => (h.front _ hin).1 hv) (.inl hv)
  · rcases List.mem_cons.mp hv with heq | hin
    · rw [heq] at hcut
      exact hcut.2 (.refl u)
    · cases path with
      | nil => cases hin
      | cons p path =>
        refine not_cutPair_back (h.trail.joined hE) (List.nodup_cons.mp h.trail.nodup).1 hin ?_ hcut
        exact fun heq => hother (congrArg some heq)

/-- What the search below a new node finds it finds. -/
theorem Scanning.closing_below {edge : Edge n} (h : Scanning g path u s₀ s done bs)
    (hedges : done ++ edge :: rest = g.getAdjList u) (hother : some edge.target ≠ path.head?)
    (hnew : edge.target ∉ onward path done) (hbelow : Closing g (u :: path) edge.target) :
    Closing g path u := by
  have hsplit := onward_split hedges hother
  refine ⟨fun hhang => ?_, ?_, hbelow.around⟩
  · cases hhang with
    | tree _ _ hall =>
      exact hbelow.hanging (hall _ (hsplit ▸ List.mem_append_right _ List.mem_cons_self))
  · exact not_misleading hsplit h.nodup (fun x hx => (h.front x hx).2) hnew
      (.inr ⟨hbelow.hanging, hbelow.misleading⟩)

/-- The edge to a child has been followed when the child is entered. -/
theorem Scanning.begins (h : Scanning g path u s₀ s done bs) (he : g.Adjacent u v)
    (hv : s.state v = .unvisited) :
    Begins g (u :: path) v { s with parent := update s.parent v (some u) } := by
  have hout : ∀ x ∈ u :: path, x ≠ v := by
    rintro x hx rfl
    rw [h.trail.visited x hx] at hv
    cases hv
  have hlinks : (u :: path).IsChain (Link g { s with parent := update s.parent v (some u) }) := by
    refine h.trail.links.imp_of_mem_imp ?_
    intro x y hx _ hxy
    exact ⟨by simpa [hout x hx] using hxy.1, hxy.2⟩
  have hroot : ∀ r ∈ (u :: path).getLast?, update s.parent v (some u) r = none := by
    intro r hr
    rw [update_of_ne (hout r (List.mem_of_getLast? hr))]
    exact h.trail.root r hr
  exact ⟨⟨h.trail.nodup, h.trail.visited, hlinks, hroot, h.trail.explored, h.trail.colors,
    h.trail.cycle⟩, hv, List.isChain_cons_cons.mpr ⟨⟨by simp, he⟩, hlinks⟩, by simpa using hroot⟩

theorem Scanning.not_seen (h : Scanning g path u s₀ s done bs) (hv : s.state v = .unvisited) :
    v ∉ onward path done := by
  intro hin
  obtain ⟨b, hb, rfl⟩ := h.mem_children.mp hin
  have hvisited := ((h.entered _).mpr (.inr ⟨b, hb, (h.branch b hb).root⟩)).1
  rw [hv] at hvisited
  cases hvisited

/-- The parent is noted just before the call, for a node that it enters. -/
theorem Clear.leaves_before
    (h : Clear g path v { s with parent := update s.parent v (some u) } s') : Leaves s s' := by
  intro x hx
  obtain ⟨hstate, hparent⟩ := h.leaves x hx
  have hxv : x ≠ v := fun heq => hx (heq ▸ h.branch.root)
  exact ⟨hstate, by simpa [hxv] using hparent⟩

/-- A child that finds no cycle is one more branch. -/
theorem Scanning.child {edge : Edge n} (h : Scanning g path u s₀ s done bs)
    (hother : some edge.target ≠ path.head?) (hv : s.state edge.target = .unvisited)
    (hcall : Clear g (u :: path) edge.target
      { s with parent := update s.parent edge.target (some u) } s') :
    Scanning g path u s₀ s' (done ++ [edge]) (bs ++ [(edge.target, Entered s s')]) := by
  have hbranch : Branch g.Adjacent (u :: path) edge.target (Entered s s') := hcall.branch
  have hleaves := hcall.leaves_before
  have hentered : ∀ x, Entered s₀ s' x ↔ Entered s₀ s x ∨ Entered s s' x := by
    intro x
    constructor
    · intro hx
      exact (h.trail.visited_before hx.1).imp_left fun hxs => ⟨hxs, hx.2⟩
    · intro hgiven
      rcases hgiven with hx | hx
      · exact ⟨(hleaves.keeps hx.1).1, hx.2⟩
      · refine ⟨hx.1, ?_⟩
        by_contra hx₀
        have hsame := (h.leaves x fun hin => hx₀ hin.2).1
        exact hx₀ (hsame.symm.trans hx.2)
  have hnone := h.not_seen hv
  have honward : onward path (done ++ [edge]) = onward path done ++ [edge.target] := by
    rw [onward_append, onward_other hother]
  refine ⟨hcall.trail, ?_, ?_, ?_, ?_, ?_, ?_, ?_, ?_⟩
  · intro x hx
    rw [hentered, not_or] at hx
    obtain ⟨hstate, hparent⟩ := hleaves x hx.2
    obtain ⟨hstate₀, hparent₀⟩ := h.leaves x hx.1
    exact ⟨hstate.trans hstate₀, hparent.trans hparent₀⟩
  · intro x
    rw [hentered, h.entered]
    simp [or_and_right, exists_or, or_assoc]
  · intro b hb
    rcases List.mem_append.mp hb with hb | hb
    · exact h.branch b hb
    · exact List.mem_singleton.mp hb ▸ hbranch
  · intro b hb
    rcases List.mem_append.mp hb with hb | hb
    · exact h.alone b hb
    · rw [List.mem_singleton.mp hb]
      intro x y hx hxy
      exact (hcall.alone x y hx hxy).imp_right fun hand => ⟨hand.1, Option.some.inj hand.2⟩
  · intro b hb
    rcases List.mem_append.mp hb with hb | hb
    · exact h.single b hb
    · rw [List.mem_singleton.mp hb]
      intro x y hx hxy hnot
      exact hcall.single x y hx hxy fun hand => hnot ⟨hand.1, Option.some.inj hand.2⟩
  · rw [honward, ← h.children, List.map_append]
    rfl
  · rw [honward]
    exact List.nodup_append'.mpr ⟨h.nodup, List.pairwise_singleton _ _, by simpa using hnone⟩
  · intro b hb
    rcases List.mem_append.mp hb with hb | hb
    · exact h.hanging b hb
    · exact List.mem_singleton.mp hb ▸ hcall.hanging

include hE in
/-- When all edges have led to trees the node is the root of one. -/
theorem Scanning.finish (h : Scanning g path u s₀ s (g.getAdjList u) bs)
    (hs₀ : Begins g path u s₀) : Clear g path u s₀ s := by
  have hroot : Entered s₀ s u := (h.entered u).mpr (.inl rfl)
  have hin : ∀ b ∈ bs, ∀ x, b.2 x → Entered s₀ s x := fun b hb x hx =>
    (h.entered x).mpr (.inr ⟨b, hb, hx⟩)
  have hnext : ∀ y, g.Adjacent u y → some y = path.head? ∨ ∃ b ∈ bs, b.1 = y := by
    intro y huy
    obtain ⟨edge, hedge, rfl⟩ := huy
    by_cases hparent : some edge.target = path.head?
    · exact .inl hparent
    · exact .inr (h.mem_children.mp (List.mem_filter.mpr
        ⟨List.mem_map_of_mem hedge, by simpa using hparent⟩))
  have hchild : ∀ b ∈ bs, g.Adjacent u b.1 := by
    intro b hb
    obtain ⟨edge, hedge, htarget⟩ := List.mem_map.mp
      (List.mem_of_mem_filter (h.mem_children.mpr ⟨b, hb, rfl⟩))
    exact ⟨edge, hedge, htarget⟩
  have hother : ∀ b ∈ bs, some b.1 ≠ path.head? := fun b hb hparent =>
    h.child_out hb (List.mem_cons_of_mem u (List.mem_of_mem_head? hparent.symm))
  have hsingle : ∀ b ∈ bs, Single g u b.1 := by
    intro b hb
    refine ⟨((h.branch b hb).cutPair_iff hE (h.trail.joined hE) (hchild b hb)).mpr
      (h.alone b hb), ?_⟩
    have hcount := List.count_eq_one_of_mem h.nodup (h.mem_children.mpr ⟨b, hb, rfl⟩)
    rwa [onward, List.count_filter (by simpa using hother b hb)] at hcount
  have hexplored : ∀ x, s.state x = .inProgress → x ∉ path → ∀ y, g.Adjacent x y →
      s.state y = .inProgress := by
    intro x hx hout y hxy
    by_cases hxu : x = u
    · subst hxu
      rcases hnext y hxy with hparent | ⟨b, hb, rfl⟩
      · exact h.trail.visited y (List.mem_cons_of_mem x (List.mem_of_mem_head? hparent.symm))
      · exact (hin b hb _ (h.branch b hb).root).1
    · exact h.trail.explored x hx (by simp [hxu, hout]) y hxy
  refine ⟨⟨h.trail.nodup.of_cons, fun x hx => h.trail.visited x (List.mem_cons_of_mem u hx),
    h.trail.links.tail, ?_, hexplored, h.trail.colors, h.trail.cycle⟩, h.leaves, ?_, ?_, ?_, ?_⟩
  · intro r hr
    have hrp := hs₀.trail.root r hr
    have hrv := hs₀.trail.visited r (List.mem_of_getLast? hr)
    exact ((h.leaves.keeps hrv).2).trans hrp
  · refine branch_of_branches h.entered h.branch hchild (fun y huy => ?_) fun z hz =>
      not_entered (hs₀.trail.visited z hz)
    rcases hnext y huy with hparent | ⟨b, hb, rfl⟩
    · exact .inr (List.mem_of_mem_head? hparent.symm)
    · exact .inl (hin b hb _ (h.branch b hb).root)
  · intro x y hx hxy
    rcases (h.entered x).mp hx with rfl | ⟨b, hb, hbx⟩
    · rcases hnext y hxy with hparent | ⟨b, hb, rfl⟩
      · exact .inr ⟨rfl, hparent⟩
      · exact .inl (hin b hb _ (h.branch b hb).root)
    · rcases h.alone b hb x y hbx hxy with hby | ⟨_, rfl⟩
      · exact .inl (hin b hb y hby)
      · exact .inl hroot
  · intro x y hx hxy hnot
    rcases (h.entered x).mp hx with rfl | ⟨b, hb, hbx⟩
    · rcases hnext y hxy with hparent | ⟨b, hb, rfl⟩
      · exact absurd ⟨rfl, hparent⟩ hnot
      · exact .inl (hsingle b hb)
    · by_cases hup : x = b.1 ∧ y = u
      · obtain ⟨rfl, rfl⟩ := hup
        exact .inr (hsingle b hb)
      · exact h.single b hb x y hbx hxy hup
  · refine .tree h.nodup (fun x hx => (h.front x hx).1) fun x hx => (h.front x hx).2

end Scan

section Runs
variable (hE : ∀ a b, g.Adjacent a b → g.Adjacent b a)

theorem mem_unvisited : x ∈ unvisited s ↔ s.state x = .unvisited := by simp [unvisited]

theorem Leaves.unvisited_subset (h : Leaves s s') : unvisited s' ⊆ unvisited s := by
  intro x hx
  rw [mem_unvisited] at hx ⊢
  by_contra hne
  have hsame := (h x fun hin => hne hin.2).1
  exact hne (hsame.symm.trans hx)

include hE

theorem exploreUndirected_outcome
    {dfs : Fin n → Option (Fin n) → Search n → Option (Bool × Search n)}
    (hdfs : Decides g dfs depth) (hs₀ : Begins g path u s₀)
    (h : Scanning g path u s₀ s done bs) (hedges : done ++ rest = g.getAdjList u)
    (hcard : (unvisited s).card ≤ depth) :
    Outcome g path u s₀ (exploreUndirected dfs u path.head? rest s) := by
  induction rest generalizing s done bs with
  | nil =>
    rw [List.append_nil] at hedges
    subst hedges
    exact .clear (h.finish hE hs₀)
  | cons edge rest ih =>
    have he : g.Adjacent u edge.target :=
      ⟨edge, hedges ▸ List.mem_append_right done List.mem_cons_self, rfl⟩
    have hedges' := hedges
    rw [List.append_cons] at hedges'
    simp only [exploreUndirected]
    by_cases hparent : some edge.target = path.head?
    · rw [if_pos hparent]
      exact ih (h.skip hparent) hedges' hcard
    · rw [if_neg hparent]
      rcases h.trail.colors edge.target with hv | hv
      · have hcall := hdfs edge.target (u :: path) _ (h.begins he hv) hcard
        rw [List.head?_cons] at hcall
        simp only [hv]
        generalize dfs edge.target (some u)
          { s with parent := update s.parent edge.target (some u) } = result at hcall
        have hnew := h.not_seen hv
        cases hcall with
        | @clear s' hclear =>
          have hless := hclear.leaves_before.unvisited_subset
          exact ih (h.child hparent hv hclear) hedges'
            ((Finset.card_le_card hless).trans hcard)
        | closed hwalk hclosing =>
          exact .closed hwalk (h.closing_below hedges hparent hnew hclosing)
        | lost hmis =>
          have hout : edge.target ∉ u :: path := by
            intro hin
            rw [h.trail.visited _ hin] at hv
            cases hv
          exact .lost (.further (onward_split hedges hparent) h.nodup h.front hnew hout hmis)
      · simp only [hv]
        rcases h.visited_cases hE hs₀ he hv with hin | hin
        · obtain ⟨s', hclose, hwalk⟩ :=
            closeCycle_walk h.trail.nodup h.trail.links h.trail.cycle hin he
          rw [hclose]
          exact .closed hwalk (h.closing hE hedges hparent hin)
        · have hnone : closeCycle s u edge.target = none := by
            rw [closeCycle, climb_none h.trail.links h.trail.root (h.front _ hin).1]
            rfl
          rw [hnone]
          exact .lost (.twice (onward_split hedges hparent) h.nodup h.front hin)

theorem dfsDetectUndirected_decides (depth : Nat) :
    Decides g (dfsDetectUndirected g depth) depth := by
  induction depth with
  | zero =>
    intro u path s hs hcard
    have hmem := mem_unvisited.mpr hs.unvisited
    rw [Finset.card_eq_zero.mp (Nat.le_zero.mp hcard)] at hmem
    exact absurd hmem (Finset.notMem_empty u)
  | succ depth ih =>
    intro u path s hs hcard
    have hstart := hs.start
    have hless : (unvisited { s with state := update s.state u .inProgress }).card <
        (unvisited s).card := by
      refine Finset.card_lt_card ⟨hstart.leaves.unvisited_subset, fun hsub => ?_⟩
      have hin := mem_unvisited.mp (hsub (mem_unvisited.mpr hs.unvisited))
      simp at hin
    exact exploreUndirected_outcome hE ih hs hstart (List.nil_append _) (by omega)

/-- The node that its component is searched from. -/
def Least (g : Graph n) (r : Fin n) : Prop := ∀ a, EqvGen g.Adjacent r a → r ≤ a

/-- The state between two calls of `detectUndirected`. -/
structure Settled (g : Graph n) (s : Search n) : Prop where
  trail : Trail g s []
  parent : ∀ x, s.state x = .unvisited → s.parent x = none
  single : ∀ x y, s.state x = .inProgress → g.Adjacent x y → Single g x y ∨ Single g y x
  hanging : ∀ r, s.state r = .inProgress → Least g r → Hanging g [] r

theorem Settled.least (h : Settled g s) (hu : s.state u = .unvisited)
    (hbelow : ∀ a < u, s.state a = .inProgress) : Least g u := by
  intro a ha
  by_contra hlt
  have hclosed : ∀ x y, g.Adjacent x y → s.state x = .inProgress → s.state y = .inProgress :=
    fun x y hxy hx => h.trail.explored x hx List.not_mem_nil y hxy
  have hua := (mem_iff_of_joined (S := fun x => s.state x = .inProgress)
    (fun x y hxy => ⟨hclosed x y hxy, hclosed y x (hE _ _ hxy)⟩) ha).mpr (hbelow a (not_le.mp hlt))
  rw [hu] at hua
  cases hua

omit hE in
theorem Settled.begins (h : Settled g s) (hu : s.state u = .unvisited) : Begins g [] u s :=
  ⟨h.trail, hu, List.isChain_singleton u, by simpa using h.parent u hu⟩

omit hE in
theorem Settled.call (h : Settled g s) (hu : Least g u) (hcall : Clear g [] u s s') :
    Settled g s' := by
  refine ⟨hcall.trail, ?_, ?_, ?_⟩
  · intro x hx
    have hnot : ¬ Entered s s' x := by
      intro hgiven
      obtain ⟨hx', _⟩ := hgiven
      rw [hx] at hx'
      cases hx'
    obtain ⟨hstate, hparent⟩ := hcall.leaves x hnot
    exact hparent.trans (h.parent x (hstate.symm.trans hx))
  · intro x y hx hxy
    rcases h.trail.visited_before hx with hold | hnew
    · exact h.single x y hold hxy
    · exact hcall.single x y hnew hxy fun hand => Option.some_ne_none y hand.2
  · intro r hr hleast
    rcases h.trail.visited_before hr with hold | hnew
    · exact h.hanging r hold hleast
    · have hjoined := (hcall.branch.joined r hnew).mono fun _ _ hab => hab.2.2
      obtain rfl := le_antisymm (hleast u (.symm _ _ hjoined)) (hu r hjoined)
      exact hcall.hanging

theorem searchUndirected_spec {front behind : List (Fin n)} (h : Settled g s)
    (hnodes : front ++ behind = List.finRange n)
    (hfront : ∀ a ∈ front, s.state a = .inProgress) :
    (∃ s', searchUndirected g behind s = some (false, s') ∧ Settled g s' ∧
      ∀ a, s'.state a = .inProgress) ∨
    ∃ r, Least g r ∧ (∀ i < r, Least g i → Hanging g [] i) ∧
      ((∃ s', searchUndirected g behind s = some (true, s') ∧ ClosedWalk g s'.cycle ∧
        Closing g [] r) ∨ searchUndirected g behind s = none ∧ Misleading g [] r) := by
  induction behind generalizing s front with
  | nil =>
    refine .inl ⟨s, rfl, h, fun a => hfront a ?_⟩
    rw [List.append_nil] at hnodes
    exact hnodes ▸ List.mem_finRange a
  | cons i behind ih =>
    have hbelow : ∀ a < i, s.state a = .inProgress := fun a ha =>
      hfront a (Graph.mem_front hnodes ha)
    rw [List.append_cons] at hnodes
    rw [searchUndirected]
    rcases h.trail.colors i with hi | hi
    · rw [if_pos hi]
      have hleast := h.least hE hi hbelow
      have hlower : ∀ a < i, Least g a → Hanging g [] a := fun a ha => h.hanging a (hbelow a ha)
      have hcall := dfsDetectUndirected_decides hE n i [] s (h.begins hi)
        ((Finset.card_le_univ _).trans (Fintype.card_fin n).le)
      rw [List.head?_nil] at hcall
      generalize dfsDetectUndirected g n i none s = result at hcall
      cases hcall with
      | @clear s' hclear =>
        refine ih (h.call hleast hclear) hnodes fun a ha => ?_
        rcases List.mem_append.mp ha with ha | ha
        · exact (hclear.leaves.keeps (hfront a ha)).1
        · exact List.mem_singleton.mp ha ▸ hclear.branch.root.1
      | closed hwalk hclosing => exact .inr ⟨i, hleast, hlower, .inl ⟨_, rfl, hwalk, hclosing⟩⟩
      | lost hmis => exact .inr ⟨i, hleast, hlower, .inr ⟨rfl, hmis⟩⟩
    · rw [if_neg (by simp [hi])]
      refine ih h hnodes fun a ha => ?_
      rcases List.mem_append.mp ha with ha | ha
      · exact hfront a ha
      · exact List.mem_singleton.mp ha ▸ hi

end Runs

section Forests
variable {calls : List (Int × Int × Int32)}

/-- As many edges as there are more nodes than components. -/
def IsForest (g : Graph n) (calls : List (Int × Int × Int32)) : Prop :=
  calls.length + components g.Adjacent = n

/-- In the first component that is no tree, the first edge that the search from the least node
finds to a visited node other than the parent repeats an edge that it has followed. -/
def Misled (g : Graph n) : Prop :=
  ∃ r, Least g r ∧ (∀ i < r, Least g i → Hanging g [] i) ∧ Misleading g [] r

/-- No cycle is found exactly in a forest, and a cycle that is found is a closed walk. -/
structure Detects (g : Graph n) (calls : List (Int × Int × Int32)) (found : CycleResult n) :
    Prop where
  forest : found.hasCycle = false ↔ IsForest g calls
  closed : found.hasCycle = true → ClosedWalk g found.cycle

theorem isForest_iff (hg : Graph.undirected n calls = some g) :
    IsForest g calls ↔ ∀ x y, g.Adjacent x y → Single g x y := by
  obtain ⟨pairs, hpairs⟩ := Graph.exists_pairs (Graph.inNodes_of_undirected hg)
  have hends : calls.map Graph.ends = (pairs.map (pair id)).map Graph.numbers := by
    rw [hpairs, List.map_map]
    rfl
  have hlinked : g.Adjacent = Linked id pairs := by
    funext u v
    rw [Linked, ← List.mem_map_of_injective Graph.numbers_injective, ← hends]
    exact propext (Graph.undirected_adjacent hg)
  have hlength : calls.length = pairs.length := by
    simpa using congrArg List.length hends
  have hcard : pairs.length + components (Linked id pairs) = n ↔
      SpanningForest.IsForest id pairs := by
    rw [isForest_iff_length, Fintype.card_fin]
  rw [IsForest, hlength, hlinked, hcard, isForest_iff_cutPair, ← hlinked]
  refine forall₂_congr fun u v => imp_congr_right fun _ => and_congr_right fun hcut => ?_
  have huv : u ≠ v := by
    rintro rfl
    exact hcut.2 (.refl u)
  rw [Graph.undirected_count hg huv, hends,
    List.count_map_of_injective _ _ Graph.numbers_injective]

theorem Single.symm (hg : Graph.undirected n calls = some g) (h : Single g x y) :
    Single g y x := by
  obtain ⟨hcut, hcount⟩ := h
  have hxy : x ≠ y := by
    rintro rfl
    exact hcut.2 (.refl x)
  refine ⟨hcut.symm (Graph.adjacent_symm hg), ?_⟩
  rw [Graph.undirected_count hg hxy.symm, Sym2.eq_swap, ← Graph.undirected_count hg hxy, hcount]

theorem settled_start (g : Graph n) : Settled g ⟨fun _ => .unvisited, fun _ => none, []⟩ := by
  refine ⟨⟨.nil, ?_, .nil, ?_, ?_, fun _ => .inl rfl, rfl⟩, fun _ _ => rfl, ?_, ?_⟩
  · exact fun x hx => absurd hx List.not_mem_nil
  · exact fun r hr => by cases hr
  · exact fun x hx => by cases hx
  · exact fun x y hx => by cases hx
  · exact fun r hr => by cases hr

/-- Where a cycle is found no component before it is misleading, nor can one after it be. -/
theorem Closing.not_misled {r : Fin n} (h : Closing g [] r) (hr : Least g r)
    (hlower : ∀ i < r, Least g i → Hanging g [] i) : ¬ Misled g := by
  intro hmisled
  obtain ⟨r', hr', hlower', hmis⟩ := hmisled
  rcases lt_trichotomy r r' with hlt | rfl | hlt
  · exact h.hanging (hlower' r hlt hr)
  · exact h.misleading hmis
  · exact (hlower r' hlt hr').not_misleading hmis

/-- Without parallel edges no search is misled. -/
theorem Misleading.parallel (h : Misleading g path u) :
    ∃ x y, x ≠ y ∧ 1 < ((g.getAdjList x).map Edge.target).count y := by
  induction h with
  | @twice path front rest u w hedges _ hfront hw =>
    refine ⟨u, w, (List.ne_of_not_mem_cons (hfront w hw).1).symm, ?_⟩
    have hfew := (List.filter_sublist (l := (g.getAdjList u).map Edge.target)
      (p := fun v => some v ≠ path.head?)).count_le w
    have hmany : 0 < front.count w := List.count_pos_iff.mpr hw
    rw [← onward, hedges, List.count_append, List.count_cons_self] at hfew
    omega
  | further _ _ _ _ _ _ ih => exact ih

theorem detectUndirected_iff (hg : Graph.undirected n calls = some g) :
    (∃ found, detectUndirected g = some found ∧ Detects g calls found) ↔ ¬ Misled g := by
  have hforest := isForest_iff hg
  rw [detectUndirected]
  rcases searchUndirected_spec (Graph.adjacent_symm hg) (settled_start g) (List.nil_append _)
    (fun a ha => absurd ha List.not_mem_nil) with ⟨s, hsearch, hsettled, hall⟩ |
    ⟨r, hr, hlower, ⟨s, hsearch, hwalk, hclosing⟩ | ⟨hsearch, hmis⟩⟩
  · have hdetects : Detects g calls ⟨false, s.cycle⟩ := by
      refine ⟨iff_of_true rfl (hforest.mpr fun x y hxy => ?_), fun h => Bool.noConfusion h⟩
      rcases hsettled.single x y (hall x) hxy with hsingle | hsingle
      · exact hsingle
      · exact hsingle.symm hg
    refine iff_of_true ⟨⟨false, s.cycle⟩, by rw [hsearch]; rfl, hdetects⟩ fun hmisled => ?_
    obtain ⟨r, hr, _, hmis⟩ := hmisled
    exact (hsettled.hanging r (hall r) hr).not_misleading hmis
  · obtain ⟨x, y, hxy, haround⟩ := hclosing.around
    have hdetects : Detects g calls ⟨true, s.cycle⟩ :=
      ⟨iff_of_false Bool.noConfusion fun h => haround (hforest.mp h x y hxy).1, fun _ => hwalk⟩
    exact iff_of_true ⟨⟨true, s.cycle⟩, by rw [hsearch]; rfl, hdetects⟩
      (hclosing.not_misled hr hlower)
  · refine iff_of_false (fun h => ?_) (not_not.mpr ⟨r, hr, hlower, hmis⟩)
    obtain ⟨found, hfound, _⟩ := h
    rw [hsearch] at hfound
    cases hfound

theorem detectUndirected_iff_triangle :
    ∃ g, Graph.undirected 3 [(0, 1, 1), (1, 2, 1), (2, 0, 1)] = some g ∧
      ((∃ found, detectUndirected g = some found ∧
        Detects g [(0, 1, 1), (1, 2, 1), (2, 0, 1)] found) ↔ ¬ Misled g) := by
  obtain ⟨g, hg⟩ : ∃ g, Graph.undirected 3 [(0, 1, 1), (1, 2, 1), (2, 0, 1)] = some g := ⟨_, rfl⟩
  exact ⟨g, hg, detectUndirected_iff hg⟩

/-- The second edge is taken for one back to the child, from which no parent leads down. -/
theorem detectUndirected_fails :
    ¬ ∀ (n : Nat) (calls : List (Int × Int × Int32)) (g : Graph n),
      Graph.undirected n calls = some g →
      ∃ found, detectUndirected g = some found ∧ Detects g calls found := by
  intro hall
  obtain ⟨g, hg, hlost⟩ : ∃ g, Graph.undirected 2 [(0, 1, 1), (0, 1, 1)] = some g ∧
      (detectUndirected g).isNone := ⟨_, rfl, by decide⟩
  obtain ⟨found, hfound, _⟩ := hall 2 _ g hg
  rw [hfound] at hlost
  cases hlost

end Forests

end Undirected

end CycleDetection

end Cppforge.Graphs
