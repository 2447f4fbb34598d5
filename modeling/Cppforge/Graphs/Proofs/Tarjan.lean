import Cppforge.Graphs.LowLinks
import Cppforge.Graphs.Proofs.TopologicalSort
import Cppforge.Lib.Components

namespace Cppforge.Graphs
open Function Components Relation

variable {n : Nat} {g : Graph n} {u v : Fin n}

def Graph.Reach (g : Graph n) : Fin n → Fin n → Prop := ReflTransGen g.Adjacent

/-- The components are not empty, share no node, and hold the nodes that have their number. -/
structure SCCResult.Consistent (result : SCCResult n) : Prop where
  member : ∀ v (i : Nat),
    (∃ component, result.components[i]? = some component ∧ v ∈ component) ↔ result.componentId v = i
  nonempty : ∀ component ∈ result.components, component ≠ []
  nodup : result.components.flatten.Nodup

namespace TarjanSCC
variable {s s₀ s' : Search n} {grey new rest taken : List (Fin n)} {a : Int} {depth : Nat}

section Components

/-- What the components say while nodes are left without one. -/
structure Listed (result : SCCResult n) : Prop where
  consistent : result.Consistent
  bounds : ∀ v, -1 ≤ result.componentId v ∧ result.componentId v < result.components.length

theorem Listed.add {result : SCCResult n} (h : Listed result) (hne : taken ≠ [])
    (hnodup : taken.Nodup) (hfresh : ∀ v ∈ taken, result.componentId v = -1) :
    Listed ⟨result.components ++ [taken],
      fun v => if v ∈ taken then result.components.length else result.componentId v⟩ := by
  have hold : ∀ v, v ∈ result.components.flatten → v ∉ taken := by
    intro v hv htaken
    obtain ⟨component, hcomponent, hv⟩ := List.mem_flatten.mp hv
    obtain ⟨i, hi⟩ := List.mem_iff_getElem?.mp hcomponent
    have hid := (h.consistent.member v i).mp ⟨component, hi, hv⟩
    rw [hfresh v htaken] at hid
    omega
  refine ⟨⟨?_, ?_, ?_⟩, ?_⟩
  · intro v i
    dsimp only
    have hmember := h.consistent.member v i
    have hbounds := h.bounds v
    rcases Nat.lt_trichotomy i result.components.length with hi | rfl | hi
    · rw [List.getElem?_append_left hi, hmember]
      by_cases hv : v ∈ taken
      · rw [if_pos hv, hfresh v hv]
        omega
      · rw [if_neg hv]
    · by_cases hv : v ∈ taken
      · simp [hv]
      · simp only [List.getElem?_concat_length, Option.some.injEq, exists_eq_left', hv, if_false,
          false_iff]
        omega
    · rw [List.getElem?_eq_none (by rw [List.length_append, List.length_singleton]; omega)]
      simp only [reduceCtorEq, false_and, exists_false, false_iff]
      split <;> omega
  · intro component hcomponent
    rcases List.mem_append.mp hcomponent with hin | hin
    · exact h.consistent.nonempty component hin
    · exact List.mem_singleton.mp hin ▸ hne
  · rw [List.flatten_append, List.flatten_singleton]
    exact h.consistent.nodup.append hnodup fun v hv htaken => hold v hv htaken
  · intro v
    have hbounds := h.bounds v
    simp only [List.length_append, List.length_singleton]
    split <;> omega

theorem Listed.partition {result : SCCResult n} (h : Listed result)
    (hall : ∀ v, result.componentId v ≠ -1) : result.components.flatten.Perm (List.finRange n) := by
  refine perm_finRange h.consistent.nodup fun v => ?_
  obtain ⟨i, hi⟩ : ∃ i : Nat, result.componentId v = i :=
    Int.eq_ofNat_of_zero_le (by have := h.bounds v; have := hall v; omega)
  obtain ⟨component, hcomponent, hv⟩ := (h.consistent.member v i).mpr hi
  exact List.mem_flatten.mpr ⟨component, List.mem_of_getElem? hcomponent, hv⟩

end Components

section Popping

/-- What a run of pops leaves. -/
def popped (s : Search n) (taken rest : List (Fin n)) : Search n :=
  { s with
    st := rest
    onStack := fun x => s.onStack x && decide (x ∉ taken)
    result := ⟨s.result.components,
      fun x => if x ∈ taken then s.result.components.length else s.result.componentId x⟩ }

theorem pop_eq (s : Search n) (u : Fin n) (rest : List (Fin n)) : s.pop u rest = popped s [u] rest := by
  simp only [Search.pop, popped, Search.mk.injEq, SCCResult.mk.injEq, true_and]
  constructor
  · funext x
    by_cases hx : x = u <;> simp [hx]
  · funext x
    by_cases hx : x = u <;> simp [hx]

theorem popped_pop (s : Search n) (w : Fin n) (st taken rest : List (Fin n)) :
    popped (s.pop w st) taken rest = popped s (w :: taken) rest := by
  rw [pop_eq]
  simp only [popped, Search.mk.injEq, SCCResult.mk.injEq, true_and]
  constructor
  · funext x
    by_cases hx : x = w <;> simp [hx]
  · funext x
    by_cases hx : x = w <;> by_cases ht : x ∈ taken <;> simp [hx, ht]

/-- The component is what lies on the stack down to `u`. -/
theorem popComponent_eq (s : Search n) (hu : u ∉ new) (rest : List (Fin n)) :
    popComponent u (new ++ u :: rest) s = some (new ++ [u], popped s (new ++ [u]) rest) := by
  induction new generalizing s with
  | nil => simp [popComponent, pop_eq]
  | cons w new ih =>
    obtain ⟨hw, hnew⟩ := List.ne_and_not_mem_of_not_mem_cons hu
    simp [popComponent, Ne.symm hw, ih _ hnew, popped_pop]

end Popping

section Searching

/-- `grey` is in progress, the latest first. -/
structure Inv (g : Graph n) (grey : List (Fin n)) (s : Search n) : Prop where
  waiting : Waiting g.Adjacent s.index s.st grey
  onStack : ∀ x, s.onStack x = true ↔ x ∈ s.st
  numbered : Numbered g.Adjacent (s.result.componentId · ≠ -1) s.result.componentId
  entered : ∀ x, s.index x ≠ -1 ↔ x ∈ s.st ∨ s.result.componentId x ≠ -1
  waits : ∀ x ∈ s.st, s.result.componentId x = -1
  index_lt : ∀ x, s.index x < s.currentIndex
  current : 0 ≤ s.currentIndex
  explored : ∀ x ∈ s.st, x ∉ grey → ∀ y, g.Adjacent x y → s.index y ≠ -1
  listed : Listed s.result

def unvisited (s : Search n) : Finset (Fin n) := Finset.univ.filter (s.index · = -1)

theorem mem_unvisited {x : Fin n} : x ∈ unvisited s ↔ s.index x = -1 := by
  simp [unvisited]

/-- What was entered keeps its index. -/
def Grows (s s' : Search n) : Prop := ∀ x, s.index x ≠ -1 → s'.index x = s.index x

theorem Grows.trans {t : Search n} (h : Grows s t) (h' : Grows t s') : Grows s s' := by
  intro x hx
  have hone := h x hx
  exact (h' x (hone ▸ hx)).trans hone

theorem Grows.unvisited_subset (h : Grows s s') : unvisited s' ⊆ unvisited s := by
  intro x hx
  rw [mem_unvisited] at hx ⊢
  by_contra hne
  exact hne ((h x hne).symm.trans hx)

/-- A call for `u` from `s`: `new` is what it leaves on the stack. -/
structure Visited (g : Graph n) (grey : List (Fin n)) (u : Fin n) (s s' : Search n)
    (new : List (Fin n)) : Prop where
  inv : Inv g grey s'
  grows : Grows s s'
  lowlink : ∀ x, s.index x ≠ -1 → s'.lowlink x = s.lowlink x
  index : s'.index u = s.currentIndex
  stack : s'.st = new ++ s.st
  low : s'.lowlink u = s.currentIndex ∨ ∃ y ∈ s.st, s'.lowlink u = s.index y ∧ g.Reach u y
  out : ∀ x ∈ new, ∀ y ∈ s.st, g.Adjacent x y → s'.lowlink u ≤ s.index y

def Visits (g : Graph n) (dfs : Fin n → Search n → Option (Search n)) (depth : Nat) : Prop :=
  ∀ u s grey, Inv g grey s → s.index u = -1 → (∀ z ∈ grey, g.Reach z u) →
    (unvisited s).card ≤ depth → ∃ s' new, dfs u s = some s' ∧ Visited g grey u s s' new

/-- In the loop of a call for `u` from `s₀`: `new` has come on the stack above `u`. -/
structure Exploring (g : Graph n) (grey : List (Fin n)) (u : Fin n) (s₀ s : Search n)
    (new : List (Fin n)) : Prop where
  inv : Inv g (u :: grey) s
  grows : Grows s₀ s
  lowlink : ∀ x, s₀.index x ≠ -1 → s.lowlink x = s₀.lowlink x
  index : s.index u = s₀.currentIndex
  stack : s.st = new ++ u :: s₀.st
  low : s.lowlink u = s₀.currentIndex ∨ ∃ y ∈ s₀.st, s.lowlink u = s₀.index y ∧ g.Reach u y
  out : ∀ x ∈ new, ∀ y ∈ s₀.st, g.Adjacent x y → s.lowlink u ≤ s₀.index y

theorem Inv.index_ne (h : Inv g grey s) {x : Fin n} (hx : x ∈ s.st) : s.index x ≠ -1 :=
  (h.entered x).mpr (.inl hx)

theorem Inv.lower (h : Inv g grey s) (u : Fin n) (a : Int) : Inv g grey (s.lower u a) :=
  ⟨h.waiting, h.onStack, h.numbered, h.entered, h.waits, h.index_lt, h.current, h.explored, h.listed⟩

theorem Inv.enter (h : Inv g grey s) (hu : s.index u = -1) (hlead : ∀ z ∈ grey, g.Reach z u) :
    Inv g (u :: grey) (s.enter u) := by
  have hfresh : ∀ x ∈ s.st, x ≠ u := fun x hx hxu => h.index_ne hx (hxu ▸ hu)
  have hold : ∀ x ∈ s.st, (s.enter u).index x = s.index x := by
    intro x hx
    simp [Search.enter, hfresh x hx]
  have hnew : (s.enter u).index u = s.currentIndex := by simp [Search.enter]
  have hid : s.result.componentId u = -1 := by
    by_contra hid
    exact (h.entered u).mpr (.inr hid) hu
  have hcurrent := h.current
  refine ⟨?_, ?_, h.numbered, ?_, ?_, ?_, ?_, ?_, h.listed⟩
  · refine (h.waiting.congr hold).push ?_ hlead
    intro x hx
    rw [hold x hx, hnew]
    exact h.index_lt x
  · intro x
    by_cases hx : x = u
    · simp [Search.enter, hx]
    · simp [Search.enter, hx, h.onStack]
  · intro x
    by_cases hx : x = u
    · simp [Search.enter, hx]
      omega
    · simpa [Search.enter, hx] using h.entered x
  · intro x hx
    rcases List.mem_cons.mp hx with rfl | hx
    · exact hid
    · exact h.waits x hx
  · intro x
    have hlt := h.index_lt x
    by_cases hx : x = u
    · simp [Search.enter, hx]
    · simp [Search.enter, hx]
      omega
  · simp only [Search.enter]
    omega
  · intro x hx hgrey y he
    obtain ⟨hxu, hxg⟩ := List.ne_and_not_mem_of_not_mem_cons hgrey
    have hxs : x ∈ s.st := List.mem_of_ne_of_mem hxu hx
    have hy := h.explored x hxs hxg y he
    by_cases hyu : y = u
    · exact absurd (hyu ▸ hu) hy
    · simpa [Search.enter, hyu] using hy

theorem exploring_enter (h : Inv g grey s) (hu : s.index u = -1)
    (hlead : ∀ z ∈ grey, g.Reach z u) : Exploring g grey u s (s.enter u) [] := by
  have hne : ∀ {x}, s.index x ≠ -1 → x ≠ u := fun hx hxu => hx (hxu ▸ hu)
  refine ⟨h.enter hu hlead, ?_, ?_, ?_, rfl, .inl ?_, ?_⟩
  · intro x hx
    simp [Search.enter, hne hx]
  · intro x hx
    simp [Search.enter, hne hx]
  · simp [Search.enter]
  · simp [Search.enter]
  · intro x hx
    cases hx

/-- Nodes on the stack that `u` reaches are not below it, or may be its lowlink. -/
theorem Exploring.floor (h : Exploring g grey u s₀ s new) (h₀ : Inv g grey s₀) {y : Fin n}
    (hy : y ∈ s.st) (hr : g.Reach u y) :
    s₀.currentIndex ≤ s.index y ∨ ∃ z ∈ s₀.st, s.index y = s₀.index z ∧ g.Reach u z := by
  have hwaiting := h.inv.waiting
  rw [h.stack] at hwaiting hy
  rcases List.mem_append.mp hy with hy | hy
  · exact .inl (h.index ▸ (hwaiting.above hy).le)
  · rcases List.mem_cons.mp hy with rfl | hy
    · exact .inl h.index.ge
    · exact .inr ⟨y, hy, h.grows y (h₀.index_ne hy), hr⟩

theorem Exploring.low_le (h : Exploring g grey u s₀ s new) (h₀ : Inv g grey s₀) :
    s.lowlink u ≤ s₀.currentIndex := by
  rcases h.low with hlow | ⟨y, _, hlow, _⟩
  · exact hlow.le
  · exact hlow ▸ (h₀.index_lt y).le

theorem low_min {b : Int}
    (hlow : b = s₀.currentIndex ∨ ∃ y ∈ s₀.st, b = s₀.index y ∧ g.Reach u y)
    (hb : b ≤ s₀.currentIndex)
    (ha : s₀.currentIndex ≤ a ∨ ∃ y ∈ s₀.st, a = s₀.index y ∧ g.Reach u y) :
    min b a = s₀.currentIndex ∨ ∃ y ∈ s₀.st, min b a = s₀.index y ∧ g.Reach u y := by
  rcases ha with ha | ha
  · rwa [min_eq_left (hb.trans ha)]
  · rcases le_total b a with hle | hle
    · rwa [min_eq_left hle]
    · exact .inr ((min_eq_right hle).symm ▸ ha)

theorem Exploring.lower (h : Exploring g grey u s₀ s new) (h₀ : Inv g grey s₀)
    (hu : s₀.index u = -1)
    (ha : s₀.currentIndex ≤ a ∨ ∃ y ∈ s₀.st, a = s₀.index y ∧ g.Reach u y) :
    Exploring g grey u s₀ (s.lower u a) new := by
  have hlow : (s.lower u a).lowlink u = min (s.lowlink u) a := by simp [Search.lower]
  refine ⟨h.inv.lower u a, h.grows, ?_, h.index, h.stack, ?_, ?_⟩
  · intro x hx
    have hne : x ≠ u := fun hxu => hx (hxu ▸ hu)
    simpa [Search.lower, hne] using h.lowlink x hx
  · rw [hlow]
    exact low_min h.low (h.low_le h₀) ha
  · intro x hx y hy he
    rw [hlow]
    exact (min_le_left _ _).trans (h.out x hx y hy he)

/-- A call from the loop, with the lowlink it passes up. -/
theorem Exploring.visit (h : Exploring g grey u s₀ s new) (h₀ : Inv g grey s₀)
    (hu : s₀.index u = -1) (he : g.Adjacent u v) {new' : List (Fin n)}
    (hv : Visited g (u :: grey) v s s' new') :
    Exploring g grey u s₀ (s'.lower u (s'.lowlink v)) (new' ++ new) := by
  have hus : u ∈ s.st := h.stack ▸ List.mem_append_right new List.mem_cons_self
  have hsub : ∀ {y}, y ∈ s₀.st → y ∈ s.st := fun hy =>
    h.stack ▸ List.mem_append_right new (List.mem_cons_of_mem u hy)
  have hlow : (s'.lower u (s'.lowlink v)).lowlink u = min (s.lowlink u) (s'.lowlink v) := by
    simp [Search.lower, hv.lowlink u (h.inv.index_ne hus)]
  refine ⟨hv.inv.lower u _, h.grows.trans hv.grows, ?_, ?_, ?_, ?_, ?_⟩
  · intro x hx
    have hne : x ≠ u := fun hxu => hx (hxu ▸ hu)
    have hxs : s.index x ≠ -1 := (h.grows x hx).symm ▸ hx
    simpa [Search.lower, hne] using (hv.lowlink x hxs).trans (h.lowlink x hx)
  · exact (hv.grows u (h.inv.index_ne hus)).trans h.index
  · simp [Search.lower, hv.stack, h.stack]
  · rw [hlow]
    refine low_min h.low (h.low_le h₀) ?_
    rcases hv.low with hv | ⟨y, hy, hv, hr⟩
    · exact .inl (hv ▸ h.index ▸ (h.inv.index_lt u).le)
    · rw [hv]
      exact h.floor h₀ hy (.head he hr)
  · intro x hx y hy hxy
    rw [hlow]
    rcases List.mem_append.mp hx with hx | hx
    · have hout := hv.out x hx y (hsub hy) hxy
      rw [h.grows y (h₀.index_ne hy)] at hout
      exact (min_le_right _ _).trans hout
    · exact (min_le_left _ _).trans (h.out x hx y hy hxy)

/-- What an edge of `u` has left behind. -/
def Seen (s₀ s : Search n) (u y : Fin n) : Prop :=
  s.index y ≠ -1 ∧ (y ∈ s₀.st → s.lowlink u ≤ s₀.index y)

theorem exploreEdges_spec {dfs : Fin n → Search n → Option (Search n)} (hdfs : Visits g dfs depth)
    (h₀ : Inv g grey s₀) (hu : s₀.index u = -1) (hlead : ∀ z ∈ grey, g.Reach z u)
    (edges : List (Edge n)) (hedges : ∀ edge ∈ edges, g.Adjacent u edge.target)
    (h : Exploring g grey u s₀ s new) (hcard : (unvisited s).card ≤ depth) :
    ∃ s' new', exploreEdges dfs u edges s = some s' ∧ Exploring g grey u s₀ s' new' ∧
      (∀ y, Seen s₀ s u y → Seen s₀ s' u y) ∧ ∀ edge ∈ edges, Seen s₀ s' u edge.target := by
  induction edges generalizing s new with
  | nil => exact ⟨s, new, rfl, h, fun y hy => hy, fun edge hedge => by cases hedge⟩
  | cons edge rest ih =>
    obtain ⟨he, hrest⟩ := List.forall_mem_cons.mp hedges
    have hus : u ∈ s.st := h.stack ▸ List.mem_append_right new List.mem_cons_self
    -- the rest of the loop from a state in which this edge is dealt with
    have hnext : ∀ (t : Search n) (newt : List (Fin n)),
        exploreEdges dfs u (edge :: rest) s = exploreEdges dfs u rest t →
        Exploring g grey u s₀ t newt → Grows s t → t.lowlink u ≤ s.lowlink u →
        Seen s₀ t u edge.target →
        ∃ s' new', exploreEdges dfs u (edge :: rest) s = some s' ∧ Exploring g grey u s₀ s' new' ∧
          (∀ y, Seen s₀ s u y → Seen s₀ s' u y) ∧ ∀ e ∈ edge :: rest, Seen s₀ s' u e.target := by
      intro t newt hrun ht hgrows hlow hseen
      obtain ⟨s', new', hrun', hs', hkeep, hall⟩ :=
        ih hrest ht ((Finset.card_le_card hgrows.unvisited_subset).trans hcard)
      refine ⟨s', new', hrun.trans hrun', hs', ?_, List.forall_mem_cons.mpr ⟨hkeep _ hseen, hall⟩⟩
      intro y hy
      refine hkeep y ⟨(hgrows y hy.1).symm ▸ hy.1, ?_⟩
      exact fun hin => hlow.trans (hy.2 hin)
    by_cases hnone : s.index edge.target = -1
    · have hlead' : ∀ z ∈ u :: grey, g.Reach z edge.target := by
        intro z hz
        rcases List.mem_cons.mp hz with rfl | hz
        · exact .single he
        · exact (hlead z hz).tail he
      obtain ⟨t, newt, hcall, ht⟩ := hdfs edge.target s (u :: grey) h.inv hnone hlead' hcard
      refine hnext _ _ (by simp [exploreEdges, hnone, hcall]) (h.visit h₀ hu he ht) ht.grows ?_ ?_
      · simp [Search.lower, ht.lowlink u (h.inv.index_ne hus)]
      · have hcurrent := h.inv.current
        have hindex := ht.index
        refine ⟨by simp only [Search.lower]; omega, ?_⟩
        intro hin
        exact absurd hnone (h.inv.index_ne (h.stack ▸ List.mem_append_right new (List.mem_cons_of_mem u hin)))
    · by_cases hon : s.onStack edge.target = true
      · have hin := (h.inv.onStack _).mp hon
        refine hnext _ _ (by simp [exploreEdges, hnone, hon])
          (h.lower h₀ hu (h.floor h₀ hin (.single he))) (fun x _ => rfl) ?_ ⟨hnone, ?_⟩
        · simp [Search.lower]
        · intro hin₀
          simp [Search.lower, h.grows _ (h₀.index_ne hin₀)]
      · refine hnext s new (by simp [exploreEdges, hnone, hon]) h (fun x _ => rfl) le_rfl ⟨hnone, ?_⟩
        intro hin₀
        refine absurd ((h.inv.onStack _).mpr ?_) hon
        exact h.stack ▸ List.mem_append_right new (List.mem_cons_of_mem u hin₀)

end Searching

section Closing

/-- The state after a component has been taken off the stack. -/
def closed (s : Search n) (taken rest : List (Fin n)) : Search n :=
  { popped s taken rest with
    result := ⟨s.result.components ++ [taken],
      fun x => if x ∈ taken then s.result.components.length else s.result.componentId x⟩ }

theorem closeComponent_eq (hst : s.st = new ++ u :: rest) (hu : u ∉ new) :
    closeComponent u s = some (closed s (new ++ [u]) rest) := by
  simp [closeComponent, hst, popComponent_eq s hu, closed, popped]

theorem closed_onStack {x : Fin n} :
    (closed s taken rest).onStack x = true ↔ s.onStack x = true ∧ x ∉ taken := by
  simp [closed, popped]

theorem closed_id {x : Fin n} (hx : x ∉ taken) :
    (closed s taken rest).result.componentId x = s.result.componentId x := by
  simp [closed, hx]

theorem closed_id_ne {x : Fin n} : (closed s taken rest).result.componentId x ≠ -1 ↔
    s.result.componentId x ≠ -1 ∨ x ∈ taken := by
  by_cases hx : x ∈ taken
  · have hid : (closed s taken rest).result.componentId x = s.result.components.length := by
      simp [closed, hx]
    rw [hid]
    simp only [hx, or_true, iff_true]
    omega
  · simp [closed_id hx, hx]

/-- When no edge leads below `u` on the stack, what lies above it is a component. -/
theorem Inv.close (h : Inv g (u :: grey) s) (hst : s.st = new ++ u :: rest)
    (hgrey : ∀ z ∈ grey, z ∈ rest)
    (hout : ∀ x y, x ∈ new ++ [u] → g.Adjacent x y → y ∈ new ++ [u] ∨ s.result.componentId y ≠ -1) :
    Inv g grey (closed s (new ++ [u]) rest) := by
  have hsplit : s.st = (new ++ [u]) ++ rest := by simp [hst]
  have hwaiting := h.waiting
  rw [hst] at hwaiting
  have hnodup : ((new ++ [u]) ++ rest).Nodup := hsplit ▸ h.waiting.nodup
  have hapart : ∀ {x}, x ∈ rest → x ∉ new ++ [u] := fun hrest htaken =>
    List.disjoint_of_nodup_append hnodup htaken hrest
  have hwaits : ∀ x ∈ new ++ [u], s.result.componentId x = -1 := fun x hx =>
    h.waits x (hsplit ▸ List.mem_append_left rest hx)
  have hin : ∀ {x}, x ∈ rest → x ∈ s.st := fun hx => hsplit ▸ List.mem_append_right _ hx
  refine ⟨hwaiting.pop hgrey, ?_, ?_, ?_, ?_, h.index_lt, h.current, ?_, ?_⟩
  · intro x
    rw [closed_onStack, h.onStack, hsplit, List.mem_append]
    constructor
    · rintro ⟨hx, hnot⟩
      exact hx.resolve_left hnot
    · intro hx
      exact ⟨.inr hx, hapart hx⟩
  · have hjoin := hwaiting.component hgrey (fun x y hx he => (h.numbered.closed x y hx he).1)
      (fun x hx hid => hid (h.waits x (hin hx))) hout
    refine h.numbered.add (c := s.result.components.length) (fun x => closed_id_ne) ?_ ?_ hout hjoin
    · intro x hx
      simp only [closed, if_pos hx]
    · intro x hx
      have hfresh : x ∉ new ++ [u] := fun hin => hx (hwaits x hin)
      exact ⟨hfresh, closed_id hfresh, (h.listed.bounds x).2⟩
  · intro x
    have hentered := h.entered x
    rw [hsplit, List.mem_append] at hentered
    rw [closed_id_ne]
    change s.index x ≠ -1 ↔ x ∈ rest ∨ _
    rw [hentered]
    tauto
  · intro x hx
    rw [closed_id (hapart hx)]
    exact h.waits x (hin hx)
  · intro x hx hxg
    have hxu : x ≠ u := fun hxu => hapart hx (List.mem_append_right new (List.mem_singleton.mpr hxu))
    exact h.explored x (hin hx) fun hmem => hxg (List.mem_of_ne_of_mem hxu hmem)
  · exact h.listed.add (by simp) hnodup.of_append_left hwaits

/-- The end of a call. -/
theorem Exploring.finish (h : Exploring g grey u s₀ s new) (h₀ : Inv g grey s₀)
    (hseen : ∀ y, g.Adjacent u y → Seen s₀ s u y) : ∃ s' new',
    (if s.lowlink u = s.index u then closeComponent u s else some s) = some s' ∧
      Visited g grey u s₀ s' new' := by
  have hgrey := h₀.waiting.held
  have hwaiting := h.inv.waiting
  rw [h.stack] at hwaiting
  have hnew : u ∉ new := fun hin => List.disjoint_of_nodup_append hwaiting.nodup hin List.mem_cons_self
  have hnewgrey : ∀ x ∈ new, x ∉ u :: grey := by
    intro x hx hxg
    refine List.disjoint_of_nodup_append hwaiting.nodup hx ?_
    rcases List.mem_cons.mp hxg with rfl | hxg
    · exact List.mem_cons_self
    · exact List.mem_cons_of_mem u (hgrey x hxg)
  have hold : ∀ {x}, x ∈ new → x ∈ s.st := fun hx => h.stack ▸ List.mem_append_left _ hx
  by_cases hroot : s.lowlink u = s.index u
  · rw [if_pos hroot, closeComponent_eq h.stack hnew]
    refine ⟨_, [], rfl, h.inv.close h.stack hgrey ?_, h.grows, h.lowlink, h.index, rfl,
      .inl (hroot.trans h.index), fun x hx => by cases hx⟩
    intro x y hx he
    have hentered : s.index y ≠ -1 := by
      rcases List.mem_append.mp hx with hx | hx
      · exact h.inv.explored x (hold hx) (hnewgrey x hx) y he
      · exact (hseen y (List.mem_singleton.mp hx ▸ he)).1
    rcases (h.inv.entered y).mp hentered with hy | hy
    · rw [h.stack, List.append_cons, List.mem_append] at hy
      refine hy.imp_right fun hy => ?_
      -- an edge further down would have lowered the lowlink
      have hlow : s.lowlink u ≤ s₀.index y := by
        rcases List.mem_append.mp hx with hx | hx
        · exact h.out x hx y hy he
        · exact (hseen y (List.mem_singleton.mp hx ▸ he)).2 hy
      rw [hroot, h.index] at hlow
      exact absurd hlow (not_le.mpr (h₀.index_lt y))
    · exact .inr hy
  · rw [if_neg hroot]
    have hlow : ∃ y ∈ s₀.st, s.lowlink u = s₀.index y ∧ g.Reach u y :=
      h.low.resolve_left fun hlow => hroot (hlow.trans h.index.symm)
    obtain ⟨y, hy, hlow, hr⟩ := hlow
    have hys : s.index y = s₀.index y := h.grows y (h₀.index_ne hy)
    have hlt : s.index y < s.index u := by
      rw [hys, h.index]
      exact h₀.index_lt y
    have hymem : y ∈ s.st := h.stack ▸ List.mem_append_right new (List.mem_cons_of_mem u hy)
    refine ⟨s, new ++ [u], rfl, ⟨h.inv.waiting.settle hymem hlt hr, h.inv.onStack, h.inv.numbered,
      h.inv.entered, h.inv.waits, h.inv.index_lt, h.inv.current, ?_, h.inv.listed⟩, h.grows,
      h.lowlink, h.index, by simp [h.stack], .inr ⟨y, hy, hlow, hr⟩, ?_⟩
    · intro x hx hxg z he
      by_cases hxu : x = u
      · exact (hseen z (hxu ▸ he)).1
      · exact h.inv.explored x hx (fun hmem => hxg (List.mem_of_ne_of_mem hxu hmem)) z he
    · intro x hx z hz he
      rcases List.mem_append.mp hx with hx | hx
      · exact h.out x hx z hz he
      · exact (hseen z (List.mem_singleton.mp hx ▸ he)).2 hz

theorem card_enter (hu : s.index u = -1) (hcurrent : 0 ≤ s.currentIndex)
    (hcard : (unvisited s).card ≤ depth + 1) : (unvisited (s.enter u)).card ≤ depth := by
  have herase : unvisited (s.enter u) = (unvisited s).erase u := by
    ext x
    simp only [Finset.mem_erase, mem_unvisited]
    by_cases hx : x = u
    · simp [Search.enter, hx]
      omega
    · simp [Search.enter, hx]
  have hmem : u ∈ unvisited s := mem_unvisited.mpr hu
  rw [herase, Finset.card_erase_of_mem hmem]
  omega

theorem tarjanDFS_spec (g : Graph n) (depth : Nat) : Visits g (tarjanDFS g depth) depth := by
  induction depth with
  | zero =>
    intro u s grey _ hu _ hcard
    have hmem : u ∈ unvisited s := mem_unvisited.mpr hu
    simp [Finset.card_eq_zero.mp (Nat.le_zero.mp hcard)] at hmem
  | succ depth ih =>
    intro u s grey h hu hlead hcard
    obtain ⟨t, new, hrun, ht, _, hseen⟩ := exploreEdges_spec ih h hu hlead (g.getAdjList u)
      (fun edge hedge => ⟨edge, hedge, rfl⟩) (exploring_enter h hu hlead)
      (card_enter hu h.current hcard)
    have hall : ∀ y, g.Adjacent u y → Seen s t u y := by
      rintro y ⟨edge, hedge, rfl⟩
      exact hseen edge hedge
    obtain ⟨s', new', hfinish, hs'⟩ := ht.finish h hall
    exact ⟨s', new', by simpa [tarjanDFS, hrun] using hfinish, hs'⟩

end Closing

section Rooting

theorem inv_start (g : Graph n) : Inv g [] (.start n) := by
  refine ⟨.nil, ?_, ⟨?_, ?_⟩, ?_, ?_, ?_, le_rfl, ?_, ⟨⟨?_, ?_, List.nodup_nil⟩, ?_⟩⟩ <;>
    simp [Search.start]

/-- After each root nothing is left on the stack. -/
theorem searchAll_spec (nodes : List (Fin n)) (h : Inv g [] s) :
    ∃ s', searchAll g nodes s = some s' ∧ Inv g [] s' ∧ Grows s s' ∧
      ∀ x ∈ nodes, s'.index x ≠ -1 := by
  induction nodes generalizing s with
  | nil => exact ⟨s, rfl, h, fun x _ => rfl, fun x hx => by cases hx⟩
  | cons i rest ih =>
    by_cases hi : s.index i = -1
    · have hcard : (unvisited s).card ≤ n := by simpa using Finset.card_le_univ (unvisited s)
      obtain ⟨t, new, hrun, ht⟩ :=
        tarjanDFS_spec g n i s [] h hi (fun z hz => by cases hz) hcard
      obtain ⟨s', hrun', hs', hgrows, hall⟩ := ih ht.inv
      have hit : t.index i ≠ -1 := by
        have hcurrent := h.current
        rw [ht.index]
        omega
      refine ⟨s', by simp [searchAll, hi, hrun, hrun'], hs', ht.grows.trans hgrows, ?_⟩
      exact List.forall_mem_cons.mpr ⟨(hgrows i hit).symm ▸ hit, hall⟩
    · obtain ⟨s', hrun, hs', hgrows, hall⟩ := ih h
      refine ⟨s', by simp [searchAll, hi, hrun], hs', hgrows, ?_⟩
      exact List.forall_mem_cons.mpr ⟨(hgrows i hi).symm ▸ hi, hall⟩

/-- The components of the graph, numbered against its edges. -/
theorem compute_components (g : Graph n) :
    (∃ result, compute g = some result ∧
      (∀ u v, result.componentId u = result.componentId v ↔ g.Reach u v ∧ g.Reach v u) ∧
      result.components.flatten.Perm (List.finRange n) ∧ result.Consistent ∧
      ∀ u v, g.Adjacent u v → result.componentId v ≤ result.componentId u) ∧
    ∀ k, ∃ s, searchAll g ((List.finRange n).take k) (.start n) = some s ∧ s.st = [] := by
  constructor
  · obtain ⟨s, hrun, hs, _, hall⟩ := searchAll_spec (List.finRange n) (inv_start g)
    have hdone : ∀ v, s.result.componentId v ≠ -1 := by
      intro v
      refine ((hs.entered v).mp (hall v (List.mem_finRange v))).resolve_left ?_
      rw [hs.waiting.eq_nil]
      exact List.not_mem_nil
    have hcompute : compute g = some s.result := by
      by_cases hn : n = 0
      · subst hn
        obtain rfl : Search.start 0 = s := by simpa [searchAll] using hrun
        rfl
      · simp [compute, hn, hrun]
    refine ⟨s.result, hcompute, fun u v => hs.numbered.eq_iff (hdone u) (hdone v),
      hs.listed.partition hdone, hs.listed.consistent, ?_⟩
    exact fun u v he => (hs.numbered.closed u v (hdone u) he).2
  · intro k
    obtain ⟨s, hrun, hs, _⟩ := searchAll_spec ((List.finRange n).take k) (inv_start g)
    exact ⟨s, hrun, hs.waiting.eq_nil⟩

end Rooting

end TarjanSCC

end Cppforge.Graphs
