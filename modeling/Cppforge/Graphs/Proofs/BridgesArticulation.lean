import Cppforge.Graphs.LowLinks
import Cppforge.Lib.Cuts

/-! The low values tell which branches of the search hang on one node or one edge. -/

namespace Cppforge.Graphs.BridgesArticulation
open Function Relation Cuts
open Cppforge.Graphs.Graph (numbers numbers_injective)

variable {n : Nat} {g : Graph n} {s s₀ s₁ s' : Search n} {path : List (Fin n)}
  {u v x y : Fin n} {depth : Nat} {bs : List (Fin n × (Fin n → Prop))}

section Searching

/-- What was entered between two states. -/
def New (s s' : Search n) (x : Fin n) : Prop := s'.visited x = true ∧ s.visited x = false

def Search.pairs (s : Search n) : List (Sym2 (Fin n)) :=
  s.result.bridges.map fun bridge => s(bridge.1, bridge.2)

def Search.points (s : Search n) : List (Fin n) := s.result.articulationPoints

/-- `path` is in progress, the latest first. -/
structure Inv (g : Graph n) (path : List (Fin n)) (s : Search n) : Prop where
  entered : ∀ z ∈ path, s.visited z = true
  chain : path.IsChain g.Adjacent
  sorted : path.Pairwise fun x y => s.tin y < s.tin x
  explored : ∀ x, s.visited x = true → x ∉ path → ∀ y, g.Adjacent x y → s.visited y = true
  tin_lt : ∀ x, s.visited x = true → s.tin x < s.timer

/-- What was entered keeps its numbers. -/
def Keeps (s s' : Search n) : Prop := ∀ x, s.visited x = true → s'.visited x = true ∧
  s'.tin x = s.tin x

/-- A call for `u` from `s`. -/
structure Searched (g : Graph n) (path : List (Fin n)) (u : Fin n) (s s' : Search n) : Prop where
  inv : Inv g path s'
  keeps : Keeps s s'
  keeps_low : ∀ x, s.visited x = true → s'.low x = s.low x
  branch : Branch g.Adjacent path u (New s s')
  late : ∀ x, New s s' x → s.timer ≤ s'.tin x
  timer_le : s.timer ≤ s'.timer
  least : ∀ x y, New s s' x → y ∈ path → g.Adjacent x y → ¬ (x = u ∧ some y = path.head?) →
    s'.low u ≤ s.tin y
  found : s'.low u = s.timer ∨ ∃ x y, New s s' x ∧ y ∈ path ∧ g.Adjacent x y ∧
    ¬ (x = u ∧ some y = path.head?) ∧ s'.low u = s.tin y
  pairs : ∀ a b, s'.pairs.count s(a, b) =
    s.pairs.count s(a, b) + pairsIn g.Adjacent (New s s') a b
  points : ∀ x, New s s' x → ∃ px bs, Fork g.Adjacent px x bs ∧
    s'.points.count x = s.points.count x + notes g.Adjacent x bs px ∧
    (x = u → px = path) ∧ (x ≠ u → px ≠ [])
  points_old : ∀ x, ¬ New s s' x → s'.points.count x = s.points.count x

def unvisited (s : Search n) : Finset (Fin n) := Finset.univ.filter (s.visited · = false)

def Searches (g : Graph n) (dfs : Fin n → Option (Fin n) → Search n → Option (Search n))
    (depth : Nat) : Prop :=
  ∀ u path s, Inv g path s → s.visited u = false → (u :: path).IsChain g.Adjacent →
    (unvisited s).card ≤ depth → ∃ s', dfs u path.head? s = some s' ∧ Searched g path u s s'

open Classical in
/-- How often a node is noted in the loop over its edges, which is before a root is. -/
noncomputable def notesAbove (g : Graph n) (u : Fin n) (bs : List (Fin n × (Fin n → Prop))) :
    List (Fin n) → Nat
  | [] => 0
  | _ :: _ => bs.countP fun b => Closed g.Adjacent b.2 u

/-- In the loop of a call for `u` from `s₀`, after some of its edges. -/
structure Exploring (g : Graph n) (path : List (Fin n)) (u : Fin n) (s₀ s : Search n)
    (done : List (Edge n)) (bs : List (Fin n × (Fin n → Prop))) : Prop where
  inv : Inv g (u :: path) s
  keeps : Keeps s₀ s
  keeps_low : ∀ x, s₀.visited x = true → s.low x = s₀.low x
  tin : s.tin u = s₀.timer
  new : ∀ x, New s₀ s x ↔ x = u ∨ ∃ b ∈ bs, b.2 x
  late : ∀ x, New s₀ s x → s₀.timer ≤ s.tin x
  timer_le : s₀.timer ≤ s.timer
  branch : ∀ b ∈ bs, Branch g.Adjacent (u :: path) b.1 b.2
  child : ∀ b ∈ bs, g.Adjacent u b.1
  apart : bs.Pairwise fun b c => ∀ x, b.2 x → ¬ c.2 x
  seen : ∀ edge ∈ done, s.visited edge.target = true
  low_le : s.low u ≤ s₀.timer
  least : ∀ x y, New s₀ s x → y ∈ path → g.Adjacent x y → ¬ (x = u ∧ some y = path.head?) →
    (x = u → ∃ edge ∈ done, edge.target = y) → s.low u ≤ s₀.tin y
  found : s.low u = s₀.timer ∨ ∃ x y, New s₀ s x ∧ y ∈ path ∧ g.Adjacent x y ∧
    ¬ (x = u ∧ some y = path.head?) ∧ s.low u = s₀.tin y
  pairs : ∀ a b, s.pairs.count s(a, b) =
    s₀.pairs.count s(a, b) + pairsIn g.Adjacent (New s₀ s) a b
  points : ∀ x, New s₀ s x → x ≠ u → ∃ px bs, Fork g.Adjacent px x bs ∧
    s.points.count x = s₀.points.count x + notes g.Adjacent x bs px ∧ px ≠ []
  points_here : s.points.count u = s₀.points.count u + notesAbove g u bs path
  points_old : ∀ x, ¬ New s₀ s x → s.points.count x = s₀.points.count x

theorem Inv.path_nodup (h : Inv g path s) : path.Nodup :=
  h.sorted.imp fun hlt => ne_of_apply_ne s.tin hlt.ne'

theorem not_new_of_visited (h : s.visited x = true) : ¬ New s s' x := by
  intro hgiven
  obtain ⟨_, hx⟩ := hgiven
  rw [h] at hx
  exact Bool.noConfusion hx

theorem new_or_old (hx : s'.visited x = true) :
    New s s' x ∨ s.visited x = true := by
  cases hold : s.visited x with
  | false => exact .inl ⟨hx, hold⟩
  | true => exact .inr rfl

theorem new_trans (h : Keeps s₀ s) (h' : Keeps s s') :
    New s₀ s' x ↔ New s₀ s x ∨ New s s' x := by
  constructor
  · intro hgiven
    obtain ⟨hx, hx₀⟩ := hgiven
    rcases new_or_old hx with hnew | hold
    · exact .inr hnew
    · exact .inl ⟨hold, hx₀⟩
  · intro hgiven
    rcases hgiven with ⟨hx, hx₀⟩ | ⟨hx', hx⟩
    · exact ⟨(h' x hx).1, hx₀⟩
    · refine ⟨hx', ?_⟩
      by_contra hx₀
      rw [(h x (by simpa using hx₀)).1] at hx
      exact Bool.noConfusion hx

section Branches
variable (hE : ∀ a b, g.Adjacent a b → g.Adjacent b a)

/-- What a node that is entered is next to is new or in progress. -/
theorem Inv.fresh_out (h : Inv g path s) (hE : ∀ a b, g.Adjacent a b → g.Adjacent b a)
    (hu : s.visited u = false) (huv : g.Adjacent u v) (hv : s.visited v = true) : v ∈ path := by
  by_contra hout
  rw [h.explored v hv hout u (hE _ _ huv)] at hu
  exact Bool.noConfusion hu

/-- Only the edges between the two join `u` with a branch that gets no lower than itself. -/
theorem Searched.bridge_iff (h : Searched g (u :: path) v s s')
    (hE : ∀ a b, g.Adjacent a b → g.Adjacent b a) (hs : Inv g (u :: path) s)
    (huv : g.Adjacent u v) : s'.low v > s.tin u ↔ CutPair g.Adjacent u v := by
  rw [h.branch.cutPair_iff hE hs.chain huv]
  have hle : ∀ y ∈ u :: path, s.tin y ≤ s.tin u := by
    intro y hy
    rcases List.mem_cons.mp hy with rfl | hy
    · exact le_rfl
    · exact (List.rel_of_pairwise_cons hs.sorted hy).le
  constructor
  · intro hlow x y hx hxy
    by_contra hother
    rw [not_or] at hother
    have hy := (h.branch.out x y hx hxy).resolve_left hother.1
    have hleast := h.least x y hx hy hxy fun heq =>
      hother.2 ⟨heq.1, Option.some.inj heq.2⟩
    have := hle y hy
    omega
  · intro hall
    rcases h.found with heq | ⟨x, y, hx, hy, hxy, hother, _⟩
    · rw [heq]
      exact hs.tin_lt u (hs.entered u List.mem_cons_self)
    · rcases hall x y hx hxy with hnew | heq
      · exact absurd hnew (h.branch.fresh y hy)
      · exact absurd ⟨heq.1, congrArg some heq.2⟩ hother

/-- A branch that gets as low as `u` at most hangs on `u`. -/
theorem Searched.closed_iff (h : Searched g (u :: path) v s s') (hs : Inv g (u :: path) s) :
    s'.low v ≥ s.tin u ↔ Closed g.Adjacent (New s s') u := by
  have hlt : ∀ y ∈ path, s.tin y < s.tin u := fun y hy => List.rel_of_pairwise_cons hs.sorted hy
  constructor
  · intro hlow x y hx hxy
    by_contra hother
    rw [not_or] at hother
    have hy := (h.branch.out x y hx hxy).resolve_left hother.1
    have hleast := h.least x y hx hy hxy fun heq => hother.2 (Option.some.inj heq.2)
    have := hlt y ((List.mem_cons.mp hy).resolve_left hother.2)
    omega
  · intro hclosed
    rcases h.found with heq | ⟨x, y, hx, hy, hxy, _, heq⟩
    · rw [heq]
      exact (hs.tin_lt u (hs.entered u List.mem_cons_self)).le
    · rcases hclosed x y hx hxy with hnew | rfl
      · exact absurd hnew (h.branch.fresh y hy)
      · exact heq.ge

end Branches

section Loop

theorem Inv.lower (h : Inv g path s) (u : Fin n) (a : Int) : Inv g path (s.lower u a) :=
  ⟨h.entered, h.chain, h.sorted, h.explored, h.tin_lt⟩

theorem Inv.enter (h : Inv g path s) (hu : s.visited u = false)
    (hchain : (u :: path).IsChain g.Adjacent) : Inv g (u :: path) (s.enter u) := by
  have hold : ∀ {x}, s.visited x = true → (s.enter u).visited x = true ∧
      (s.enter u).tin x = s.tin x := by
    intro x hx
    have hxu : x ≠ u := by
      rintro rfl
      rw [hu] at hx
      exact Bool.noConfusion hx
    simp [Search.enter, hxu, hx]
  have hnew : (s.enter u).tin u = s.timer := by simp [Search.enter]
  refine ⟨?_, hchain, ?_, ?_, ?_⟩
  · intro z hz
    rcases List.mem_cons.mp hz with rfl | hz
    · simp [Search.enter]
    · exact (hold (h.entered z hz)).1
  · refine List.pairwise_cons.mpr ⟨fun y hy => ?_, ?_⟩
    · have hyv := h.entered y hy
      rw [hnew, (hold hyv).2]
      exact h.tin_lt y hyv
    · refine h.sorted.imp_of_mem fun hx hy hlt => ?_
      rwa [(hold (h.entered _ hx)).2, (hold (h.entered _ hy)).2]
  · intro x hx hout y hxy
    obtain ⟨hxu, hout⟩ := List.ne_and_not_mem_of_not_mem_cons hout
    refine (hold (h.explored x ?_ hout y hxy)).1
    simpa [Search.enter, hxu] using hx
  · intro x hx
    by_cases hxu : x = u
    · rw [hxu, hnew]
      exact Int.lt_succ s.timer
    · have hxs : s.visited x = true := by simpa [Search.enter, hxu] using hx
      rw [(hold hxs).2]
      exact (h.tin_lt x hxs).trans (Int.lt_succ s.timer)

theorem Exploring.start (h : Inv g path s) (hu : s.visited u = false)
    (hchain : (u :: path).IsChain g.Adjacent) : Exploring g path u s (s.enter u) [] [] := by
  have hne : ∀ {x}, s.visited x = true → x ≠ u := by
    rintro x hx rfl
    rw [hu] at hx
    exact Bool.noConfusion hx
  have hnew : ∀ x, New s (s.enter u) x ↔ x = u := by
    intro x
    by_cases hxu : x = u
    · simp [New, Search.enter, hxu, hu]
    · simp [New, Search.enter, hxu]
  refine ⟨h.enter hu hchain, ?_, ?_, ?_, ?_, ?_, ?_, ?_, ?_, .nil, ?_, ?_, ?_, ?_, ?_, ?_, ?_, ?_⟩
  · intro x hx
    simp [Search.enter, hne hx, hx]
  · intro x hx
    simp [Search.enter, hne hx]
  · simp [Search.enter]
  · intro x
    simpa using hnew x
  · intro x hx
    simp [Search.enter, (hnew x).mp hx]
  · exact (Int.lt_succ s.timer).le
  · exact fun b hb => absurd hb List.not_mem_nil
  · exact fun b hb => absurd hb List.not_mem_nil
  · exact fun edge hedge => absurd hedge List.not_mem_nil
  · simp [Search.enter]
  · intro x y hx _ _ _ hseen
    obtain ⟨edge, hedge, _⟩ := hseen ((hnew x).mp hx)
    cases hedge
  · exact .inl (by simp [Search.enter])
  · intro a b
    have hnone : pairsIn g.Adjacent (New s (s.enter u)) a b = 0 := by
      rw [pairsIn, if_neg]
      intro hgiven
      obtain ⟨ha, hb, -, hcut⟩ := hgiven
      rw [(hnew a).mp ha, (hnew b).mp hb] at hcut
      exact hcut (.refl u)
    rw [hnone]
    rfl
  · exact fun x hx hxu => absurd ((hnew x).mp hx) hxu
  · cases path <;> simp [notesAbove, Search.enter, Search.points]
  · exact fun x _ => rfl

/-- The edge to the parent is passed over. -/
theorem Exploring.skip {done : List (Edge n)} {edge : Edge n}
    (h : Exploring g path u s₀ s done bs) (hv : some edge.target = path.head?) :
    Exploring g path u s₀ s (done ++ [edge]) bs := by
  have hin : edge.target ∈ path := List.mem_of_mem_head? hv.symm
  refine ⟨h.inv, h.keeps, h.keeps_low, h.tin, h.new, h.late, h.timer_le, h.branch, h.child,
    h.apart, ?_, h.low_le, ?_, h.found, h.pairs, h.points, h.points_here, h.points_old⟩
  · intro e he
    rcases List.mem_append.mp he with he | he
    · exact h.seen e he
    · rw [List.mem_singleton.mp he]
      exact h.inv.entered _ (List.mem_cons_of_mem u hin)
  · intro x y hx hy hxy hother hseen
    refine h.least x y hx hy hxy hother fun hxu => ?_
    obtain ⟨e, he, hey⟩ := hseen hxu
    rcases List.mem_append.mp he with he | he
    · exact ⟨e, he, hey⟩
    · rw [List.mem_singleton.mp he] at hey
      exact absurd ⟨hxu, hey ▸ hv⟩ hother

/-- An edge to a node that was entered before. -/
theorem Exploring.back {done : List (Edge n)} {edge : Edge n}
    (h : Exploring g path u s₀ s done bs) (hs₀ : Inv g path s₀)
    (hE : ∀ a b, g.Adjacent a b → g.Adjacent b a) (hu : s₀.visited u = false)
    (he : g.Adjacent u edge.target) (hv : s.visited edge.target = true)
    (hother : some edge.target ≠ path.head?) :
    Exploring g path u s₀ (s.lower u (s.tin edge.target)) (done ++ [edge]) bs := by
  have hlow : (s.lower u (s.tin edge.target)).low u = min (s.low u) (s.tin edge.target) := by
    simp [Search.lower]
  have hu' : New s₀ s u := (h.new u).mpr (.inl rfl)
  refine ⟨h.inv.lower u _, h.keeps, ?_, h.tin, h.new, h.late, h.timer_le, h.branch, h.child,
    h.apart, ?_, ?_, ?_, ?_, h.pairs, h.points, h.points_here, h.points_old⟩
  · intro x hx
    have hxu : x ≠ u := fun heq => not_new_of_visited hx (heq ▸ hu')
    simpa [Search.lower, hxu] using h.keeps_low x hx
  · intro e he
    rcases List.mem_append.mp he with he | he
    · exact h.seen e he
    · rwa [List.mem_singleton.mp he]
  · rw [hlow]
    exact (min_le_left _ _).trans h.low_le
  · intro x y hx hy hxy hnot hseen
    rw [hlow]
    by_cases hin : x = u → ∃ e ∈ done, e.target = y
    · exact (min_le_left _ _).trans (h.least x y hx hy hxy hnot hin)
    · push Not at hin
      obtain ⟨hxu, hnone⟩ := hin
      obtain ⟨e, he, hey⟩ := hseen hxu
      rcases List.mem_append.mp he with he | he
      · exact absurd hey (hnone e he)
      · rw [List.mem_singleton.mp he] at hey
        rw [hey, (h.keeps y (hs₀.entered y hy)).2]
        exact min_le_right _ _
  · rw [hlow]
    by_cases hless : s.tin edge.target < s.low u
    · -- what is new was entered later than `u`
      have hold : s₀.visited edge.target = true := by
        rcases new_or_old hv with hnew | hold
        · exact absurd (hless.trans_le h.low_le) (not_lt.mpr (h.late _ hnew))
        · exact hold
      have hpath := hs₀.fresh_out hE hu he hold
      refine .inr ⟨u, edge.target, hu', hpath, he, fun heq => hother heq.2, ?_⟩
      rw [min_eq_right hless.le, (h.keeps _ hold).2]
    · rw [min_eq_left (not_lt.mp hless)]
      exact h.found

section Child
variable (s : Search n) (u v : Fin n) (parentNode : Option (Fin n))

@[simp] theorem afterChild_visited : (s.afterChild u parentNode v).visited = s.visited := by
  simp only [Search.afterChild]
  split_ifs <;> rfl

@[simp] theorem afterChild_tin : (s.afterChild u parentNode v).tin = s.tin := by
  simp only [Search.afterChild]
  split_ifs <;> rfl

@[simp] theorem afterChild_timer : (s.afterChild u parentNode v).timer = s.timer := by
  simp only [Search.afterChild]
  split_ifs <;> rfl

@[simp] theorem afterChild_low :
    (s.afterChild u parentNode v).low = update s.low u (min (s.low u) (s.low v)) := by
  simp only [Search.afterChild]
  split_ifs <;> rfl

theorem afterChild_pairs (huv : v ≠ u) : (s.afterChild u parentNode v).pairs =
    s.pairs ++ if s.low v > s.tin u then [s(u, v)] else [] := by
  simp only [Search.afterChild, Search.lower, update_of_ne huv, gt_iff_lt]
  split_ifs <;> simp_all [Search.pairs, Search.addBridge, Search.addPoint]

theorem afterChild_points (huv : v ≠ u) : (s.afterChild u parentNode v).points =
    s.points ++ if parentNode ≠ none ∧ s.low v ≥ s.tin u then [u] else [] := by
  simp only [Search.afterChild, Search.lower, update_of_ne huv, gt_iff_lt]
  split_ifs <;> simp_all [Search.points, Search.addBridge, Search.addPoint]

end Child

theorem Inv.congr (h : Inv g path s) (hvisited : s'.visited = s.visited) (htin : s'.tin = s.tin)
    (htimer : s'.timer = s.timer) : Inv g path s' := by
  refine ⟨?_, h.chain, ?_, ?_, ?_⟩
  · rw [hvisited]
    exact h.entered
  · rw [htin]
    exact h.sorted
  · rw [hvisited]
    exact h.explored
  · rw [hvisited, htin, htimer]
    exact h.tin_lt

theorem Keeps.trans (h : Keeps s₀ s) (h' : Keeps s s') : Keeps s₀ s' := by
  intro x hx
  obtain ⟨hvisited, htin⟩ := h x hx
  obtain ⟨hvisited', htin'⟩ := h' x hvisited
  exact ⟨hvisited', htin'.trans htin⟩

section Call
variable {done : List (Edge n)} {edge : Edge n}

theorem Exploring.entered (h : Exploring g path u s₀ s done bs) : s.visited u = true :=
  h.inv.entered u List.mem_cons_self

theorem Exploring.call_new (h : Exploring g path u s₀ s done bs)
    (hcall : Searched g (u :: path) v s s₁) (x : Fin n) :
    New s₀ (s₁.afterChild u path.head? v) x ↔ New s₀ s x ∨ New s s₁ x := by
  rw [New, afterChild_visited]
  exact new_trans h.keeps hcall.keeps

theorem Exploring.call_low (h : Exploring g path u s₀ s done bs)
    (hcall : Searched g (u :: path) v s s₁) :
    (s₁.afterChild u path.head? v).low u = min (s.low u) (s₁.low v) := by
  rw [afterChild_low, update_self, hcall.keeps_low u h.entered]

theorem Exploring.call_tin (h : Exploring g path u s₀ s done bs)
    (hcall : Searched g (u :: path) v s s₁) : s₁.tin u = s₀.timer :=
  ((hcall.keeps u h.entered).2).trans h.tin

theorem Searched.ne_above (hcall : Searched g (u :: path) v s s₁) : v ≠ u := fun heq =>
  hcall.branch.fresh u List.mem_cons_self (heq ▸ hcall.branch.root)

theorem Exploring.call_least (h : Exploring g path u s₀ s done bs) (hs₀ : Inv g path s₀)
    (hcall : Searched g (u :: path) v s s₁) (hx : New s s₁ x) (hy : y ∈ path)
    (hxy : g.Adjacent x y) : s₁.low v ≤ s₀.tin y := by
  have hyu : y ≠ u := by
    rintro rfl
    exact not_new_of_visited (hs₀.entered y hy) ((h.new y).mpr (.inl rfl))
  have hle := hcall.least x y hx (List.mem_cons_of_mem u hy) hxy fun heq =>
    hyu (Option.some.inj heq.2)
  rwa [(h.keeps y (hs₀.entered y hy)).2] at hle

/-- A child that gets lower than `u` does so by an edge to a node further down. -/
theorem Exploring.call_found (h : Exploring g path u s₀ s done bs) (hs₀ : Inv g path s₀)
    (hcall : Searched g (u :: path) v s s₁) (hless : s₁.low v < s₀.timer) :
    ∃ x y, New s s₁ x ∧ y ∈ path ∧ g.Adjacent x y ∧ s₁.low v = s₀.tin y := by
  rcases hcall.found with heq | ⟨x, y, hx, hy, hxy, _, heq⟩
  · have := h.timer_le
    omega
  · rcases List.mem_cons.mp hy with rfl | hy
    · rw [heq, h.tin] at hless
      exact absurd hless (lt_irrefl _)
    · exact ⟨x, y, hx, hy, hxy, heq.trans (h.keeps y (hs₀.entered y hy)).2⟩

theorem Exploring.call_pairs (h : Exploring g path u s₀ s done bs) (hs₀ : Inv g path s₀)
    (hE : ∀ a b, g.Adjacent a b → g.Adjacent b a) (huv : g.Adjacent u v)
    (hcall : Searched g (u :: path) v s s₁) (a b : Fin n) :
    (s₁.afterChild u path.head? v).pairs.count s(a, b) = s₀.pairs.count s(a, b) +
      pairsIn g.Adjacent (fun x => New s₀ s x ∨ New s s₁ x) a b := by
  classical
  have hgrow := pairsIn_grow hcall.branch hE huv ((h.new u).mpr (.inl rfl))
    (fun x hx => not_new_of_visited hx.1) (fun z hz => not_new_of_visited (hs₀.entered z hz)) a b
  have hbridge := hcall.bridge_iff hE h.inv huv
  rw [h.tin, ← h.call_tin hcall] at hbridge
  rw [afterChild_pairs _ _ _ _ hcall.ne_above, List.count_append, hcall.pairs, h.pairs, hgrow]
  rw [← Nat.add_assoc, ← Nat.add_assoc]
  congr 1
  by_cases hlow : s₁.low v > s₁.tin u
  · have hcut := hbridge.mp hlow
    simp only [if_pos hlow, hcut, and_true, List.count_singleton, beq_iff_eq,
      @eq_comm _ s(u, v), Sym2.eq_iff]
  · simp [hlow, mt hbridge.mpr hlow]

theorem Exploring.call_points (h : Exploring g path u s₀ s done bs)
    (hcall : Searched g (u :: path) v s s₁) :
    (s₁.afterChild u path.head? v).points.count u = s₀.points.count u +
      notesAbove g u ((v, New s s₁) :: bs) path := by
  have hclosed := hcall.closed_iff h.inv
  rw [h.tin, ← h.call_tin hcall] at hclosed
  rw [afterChild_points _ _ _ _ hcall.ne_above, List.count_append,
    hcall.points_old u (not_new_of_visited h.entered), h.points_here]
  cases path with
  | nil => simp [notesAbove]
  | cons p path =>
    rw [notesAbove, notesAbove, List.countP_cons]
    by_cases hlow : s₁.low v ≥ s₁.tin u
    · simp [hlow, hclosed.mp hlow, Nat.add_assoc]
    · simp [hlow, mt hclosed.mpr hlow]

/-- The edge to a node that is entered along it. -/
theorem Exploring.call (h : Exploring g path u s₀ s done bs) (hs₀ : Inv g path s₀)
    (hE : ∀ a b, g.Adjacent a b → g.Adjacent b a) (he : g.Adjacent u edge.target)
    (hcall : Searched g (u :: path) edge.target s s₁) :
    Exploring g path u s₀ (s₁.afterChild u path.head? edge.target) (done ++ [edge])
      ((edge.target, New s s₁) :: bs) := by
  have hnew := h.call_new hcall
  have hlow := h.call_low hcall
  have hu := (h.new u).mpr (.inl rfl)
  have hbefore : ∀ x, New s₀ s x → ¬ New s s₁ x := fun x hx => not_new_of_visited hx.1
  have hkeeps : Keeps s₀ (s₁.afterChild u path.head? edge.target) := by
    intro x hx
    rw [afterChild_visited, afterChild_tin]
    exact h.keeps.trans hcall.keeps x hx
  refine ⟨hcall.inv.congr (by simp) (by simp) (by simp), hkeeps, ?_, ?_, ?_, ?_, ?_, ?_, ?_, ?_, ?_,
    ?_, ?_, ?_, ?_, ?_, ?_, ?_⟩
  · intro x hx
    have hxu : x ≠ u := fun heq => not_new_of_visited hx (heq ▸ hu)
    rw [afterChild_low, update_of_ne hxu, hcall.keeps_low x (h.keeps x hx).1, h.keeps_low x hx]
  · rw [afterChild_tin, h.call_tin hcall]
  · intro x
    rw [hnew, h.new]
    simp [or_comm, or_left_comm]
  · intro x hx
    rw [afterChild_tin]
    rcases (hnew x).mp hx with hx | hx
    · rw [(hcall.keeps x hx.1).2]
      exact h.late x hx
    · exact h.timer_le.trans (hcall.late x hx)
  · rw [afterChild_timer]
    exact h.timer_le.trans hcall.timer_le
  · exact List.forall_mem_cons.mpr ⟨hcall.branch, h.branch⟩
  · exact List.forall_mem_cons.mpr ⟨he, h.child⟩
  · refine h.apart.cons fun b hb x hx hbx => ?_
    exact hbefore x ((h.new x).mpr (.inr ⟨b, hb, hbx⟩)) hx
  · intro e he
    rw [afterChild_visited]
    rcases List.mem_append.mp he with he | he
    · exact (hcall.keeps _ (h.seen e he)).1
    · rw [List.mem_singleton.mp he]
      exact hcall.branch.root.1
  · rw [hlow]
    exact (min_le_left _ _).trans h.low_le
  · intro x y hx hy hxy hnot hseen
    rw [hlow]
    rcases (hnew x).mp hx with hx | hx
    · refine (min_le_left _ _).trans (h.least x y hx hy hxy hnot fun hxu => ?_)
      obtain ⟨e, he, hey⟩ := hseen hxu
      rcases List.mem_append.mp he with he | he
      · exact ⟨e, he, hey⟩
      · rw [List.mem_singleton.mp he] at hey
        exact absurd hcall.branch.root
          (hey ▸ hcall.branch.fresh y (List.mem_cons_of_mem u hy))
    · exact (min_le_right _ _).trans (h.call_least hs₀ hcall hx hy hxy)
  · rw [hlow]
    by_cases hless : s₁.low edge.target < s.low u
    · obtain ⟨x, y, hx, hy, hxy, heq⟩ := h.call_found hs₀ hcall (hless.trans_le h.low_le)
      rw [min_eq_right hless.le]
      exact .inr ⟨x, y, (hnew x).mpr (.inr hx), hy, hxy,
        fun hxu => hbefore u hu (hxu.1 ▸ hx), heq⟩
    · rw [min_eq_left (not_lt.mp hless)]
      refine h.found.imp_right ?_
      intro hgiven
      obtain ⟨x, y, hx, hrest⟩ := hgiven
      exact ⟨x, y, (hnew x).mpr (.inl hx), hrest⟩
  · intro a b
    rw [h.call_pairs hs₀ hE he hcall, funext fun x => propext (hnew x)]
  · intro x hx hxu
    have hsame : (s₁.afterChild u path.head? edge.target).points.count x = s₁.points.count x := by
      rw [afterChild_points _ _ _ _ hcall.ne_above, List.count_append]
      split <;> simp [Ne.symm hxu]
    rw [hsame]
    rcases (hnew x).mp hx with hx | hx
    · rw [hcall.points_old x (hbefore x hx)]
      exact h.points x hx hxu
    · obtain ⟨px, bs, hfork, hcount, hroot, hother⟩ := hcall.points x hx
      refine ⟨px, bs, hfork, ?_, ?_⟩
      · rw [hcount, h.points_old x fun hold => hbefore x hold hx]
      · by_cases hxv : x = edge.target
        · rw [hroot hxv]
          exact List.cons_ne_nil u path
        · exact hother hxv
  · exact h.call_points hcall
  · intro x hx
    have hxnew := not_or.mp (mt (hnew x).mpr hx)
    have hxu : x ≠ u := fun heq => hxnew.1 (heq ▸ hu)
    rw [afterChild_points _ _ _ _ hcall.ne_above, List.count_append,
      hcall.points_old x hxnew.2, h.points_old x hxnew.1]
    split <;> simp [Ne.symm hxu]

end Call

section Finish
variable (h : Exploring g path u s₀ s (g.getAdjList u) bs) (hs₀ : Inv g path s₀)
  (hE : ∀ a b, g.Adjacent a b → g.Adjacent b a) (hu : s₀.visited u = false)
include h hs₀ hE hu

theorem Exploring.around (huv : g.Adjacent u v) : New s₀ s v ∨ v ∈ path := by
  obtain ⟨edge, hedge, rfl⟩ := huv
  exact (new_or_old (h.seen edge hedge)).imp_right (hs₀.fresh_out hE hu ⟨edge, hedge, rfl⟩)

theorem Exploring.whole : Branch g.Adjacent path u (New s₀ s) :=
  branch_of_branches h.new h.branch h.child (fun _ huy => h.around hs₀ hE hu huy)
    fun z hz => not_new_of_visited (hs₀.entered z hz)

theorem Exploring.fork : Fork g.Adjacent path u bs := by
  refine ⟨h.inv.chain, (List.nodup_cons.mp h.inv.path_nodup).1, h.branch, h.child, h.apart, ?_⟩
  intro y huy
  rcases h.around hs₀ hE hu huy with hnew | hin
  · exact ((h.new y).mp hnew).imp_right .inr
  · exact .inr (.inl hin)

omit hs₀ hE hu in
theorem Exploring.leave : Inv g path s := by
  refine ⟨fun z hz => h.inv.entered z (List.mem_cons_of_mem u hz), h.inv.chain.tail,
    h.inv.sorted.tail, ?_, h.inv.tin_lt⟩
  intro x hx hout y hxy
  by_cases hxu : x = u
  · obtain ⟨edge, hedge, rfl⟩ := hxu ▸ hxy
    exact h.seen edge hedge
  · exact h.inv.explored x hx (by simp [hxu, hout]) y hxy

/-- A root with several children is noted at the end. -/
theorem Exploring.finish : Searched g path u s₀
    (if path.head? = none ∧ bs.length > 1 then s.addPoint u else s) := by
  have hfork := h.fork hs₀ hE hu
  have hadd : ∀ x, x ≠ u → (s.addPoint u).points.count x = s.points.count x := by
    intro x hx
    simp [Search.points, Search.addPoint, Ne.symm hx]
  have hhere : (if path.head? = none ∧ bs.length > 1 then s.addPoint u else s).points.count u =
      s₀.points.count u + notes g.Adjacent u bs path := by
    cases path with
    | nil =>
      have hcount : s.points.count u = s₀.points.count u := h.points_here
      by_cases hmore : bs.length > 1
      · rw [if_pos ⟨rfl, hmore⟩, notes, if_pos hmore, ← hcount]
        simp [Search.points, Search.addPoint]
      · rw [if_neg fun hand => hmore hand.2, notes, if_neg hmore]
        exact hcount
    | cons p path =>
      rw [if_neg fun hand => Option.some_ne_none p hand.1]
      exact h.points_here
  have hother : ∀ x, x ≠ u →
      (if path.head? = none ∧ bs.length > 1 then s.addPoint u else s).points.count x =
        s.points.count x := by
    intro x hx
    split
    · exact hadd x hx
    · rfl
  have hwhole := h.whole hs₀ hE hu
  have hseen : ∀ x y, g.Adjacent x y → x = u → ∃ edge ∈ g.getAdjList u, edge.target = y := by
    rintro x y hxy rfl
    exact hxy
  generalize hs' : (if path.head? = none ∧ bs.length > 1 then s.addPoint u else s) = s' at *
  obtain ⟨hvisited, htin, hlow, htimer, hpairs⟩ : s'.visited = s.visited ∧ s'.tin = s.tin ∧
      s'.low = s.low ∧ s'.timer = s.timer ∧ s'.pairs = s.pairs := by
    rw [← hs']
    split <;> exact ⟨rfl, rfl, rfl, rfl, rfl⟩
  have hnew : New s₀ s' = New s₀ s := by
    funext x
    rw [New, hvisited, New]
  refine ⟨h.leave.congr hvisited htin htimer, ?_, ?_, hnew ▸ hwhole, ?_, ?_, ?_, ?_,
    ?_, ?_, ?_⟩
  · intro x hx
    rw [hvisited, htin]
    exact h.keeps x hx
  · rw [hlow]
    exact h.keeps_low
  · rw [hnew, htin]
    exact h.late
  · rw [htimer]
    exact h.timer_le
  · intro x y hx hy hxy hnot
    rw [hnew] at hx
    rw [hlow]
    exact h.least x y hx hy hxy hnot (hseen x y hxy)
  · rw [hnew, hlow]
    exact h.found
  · rw [hnew, hpairs]
    exact h.pairs
  · intro x hx
    rw [hnew] at hx
    by_cases hxu : x = u
    · subst hxu
      exact ⟨path, bs, hfork, hhere, fun _ => rfl, fun hne => absurd rfl hne⟩
    · obtain ⟨px, bx, hforkx, hcount, hpx⟩ := h.points x hx hxu
      exact ⟨px, bx, hforkx, (hother x hxu).trans hcount, fun heq => absurd heq hxu, fun _ => hpx⟩
  · intro x hx
    rw [hnew] at hx
    have hxu : x ≠ u := fun heq => hx (heq ▸ hwhole.root)
    exact (hother x hxu).trans (h.points_old x hx)

end Finish

end Loop

section Runs
variable (hE : ∀ a b, g.Adjacent a b → g.Adjacent b a)

theorem mem_unvisited : x ∈ unvisited s ↔ s.visited x = false := by simp [unvisited]

theorem Keeps.unvisited_subset (h : Keeps s s') : unvisited s' ⊆ unvisited s := by
  intro x hx
  rw [mem_unvisited] at hx ⊢
  by_contra hne
  rw [(h x (by simpa using hne)).1] at hx
  exact Bool.noConfusion hx

include hE

theorem exploreEdges_spec {dfs : Fin n → Option (Fin n) → Search n → Option (Search n)}
    (hdfs : Searches g dfs depth) (hs₀ : Inv g path s₀) (hu : s₀.visited u = false)
    {done rest : List (Edge n)} (h : Exploring g path u s₀ s done bs)
    (hedges : done ++ rest = g.getAdjList u) (hcard : (unvisited s).card ≤ depth) :
    ∃ s' bs', exploreEdges dfs u path.head? rest s bs.length = some (s', bs'.length) ∧
      Exploring g path u s₀ s' (g.getAdjList u) bs' := by
  induction rest generalizing s done bs with
  | nil =>
    rw [List.append_nil] at hedges
    exact ⟨s, bs, rfl, hedges ▸ h⟩
  | cons edge rest ih =>
    have he : g.Adjacent u edge.target :=
      ⟨edge, hedges ▸ List.mem_append_right done List.mem_cons_self, rfl⟩
    rw [List.append_cons] at hedges
    simp only [exploreEdges]
    by_cases hparent : some edge.target = path.head?
    · rw [if_pos hparent]
      exact ih (h.skip hparent) hedges hcard
    · rw [if_neg hparent]
      by_cases hv : s.visited edge.target = true
      · rw [if_pos hv]
        exact ih (h.back hs₀ hE hu he hv hparent) hedges hcard
      · rw [if_neg hv]
        obtain ⟨s₁, hrun, hcall⟩ := hdfs edge.target (u :: path) s h.inv
          (by simpa using hv) (h.inv.chain.cons_cons (hE _ _ he)) hcard
        rw [List.head?_cons] at hrun
        rw [hrun]
        refine ih (h.call hs₀ hE he hcall) hedges ?_
        have hkeeps : Keeps s (s₁.afterChild u path.head? edge.target) := by
          intro x hx
          rw [afterChild_visited, afterChild_tin]
          exact hcall.keeps x hx
        exact (Finset.card_le_card hkeeps.unvisited_subset).trans hcard

theorem dfsBridges_searches (depth : Nat) : Searches g (dfsBridges g depth) depth := by
  induction depth with
  | zero =>
    intro u path s _ hu _ hcard
    have hmem := mem_unvisited.mpr hu
    rw [Finset.card_eq_zero.mp (Nat.le_zero.mp hcard)] at hmem
    exact absurd hmem (Finset.notMem_empty u)
  | succ depth ih =>
    intro u path s hs hu hchain hcard
    have hstart := Exploring.start hs hu hchain
    have hless : (unvisited (s.enter u)).card < (unvisited s).card := by
      refine Finset.card_lt_card ⟨hstart.keeps.unvisited_subset, fun hsub => ?_⟩
      have hin := mem_unvisited.mp (hsub (mem_unvisited.mpr hu))
      simp [Search.enter] at hin
    obtain ⟨s', bs, hrun, hdone⟩ := exploreEdges_spec hE ih hs hu hstart (List.nil_append _)
      (by omega)
    refine ⟨_, ?_, hdone.finish hs hE hu⟩
    rw [List.length_nil] at hrun
    simp [dfsBridges, hrun]

/-- The state between two calls of `compute`. -/
structure Between (g : Graph n) (s : Search n) : Prop where
  inv : Inv g [] s
  pairs : ∀ a b, s.pairs.count s(a, b) = pairsIn g.Adjacent (s.visited · = true) a b
  points : ∀ x, s.visited x = true → ∃ px bs, Fork g.Adjacent px x bs ∧
    s.points.count x = notes g.Adjacent x bs px ∧
    (px = [] ↔ ∀ a, EqvGen g.Adjacent x a → x ≤ a)
  points_none : ∀ x, s.visited x = false → s.points.count x = 0

theorem Between.call (h : Between g s)
    (hbelow : ∀ a < u, s.visited a = true) (hcall : Searched g [] u s s') : Between g s' := by
  have hvisited : ∀ x, s'.visited x = true ↔ s.visited x = true ∨ New s s' x := by
    refine fun x => ⟨fun hx => (new_or_old hx).symm, ?_⟩
    intro hgiven
    rcases hgiven with hx | hx
    · exact (hcall.keeps x hx).1
    · exact hx.1
  have hclosed : ∀ x y, g.Adjacent x y → s.visited x = true → s.visited y = true :=
    fun x y hxy hx => h.inv.explored x hx List.not_mem_nil y hxy
  refine ⟨hcall.inv, ?_, ?_, ?_⟩
  · intro a b
    rw [hcall.pairs, h.pairs, funext fun x => propext (hvisited x)]
    refine (pairsIn_union hE (fun x hx => not_new_of_visited hx) (fun a b ha hb hab => ?_) a b).symm
    exact not_new_of_visited (hclosed a b hab ha) hb
  · intro x hx
    rcases (hvisited x).mp hx with hold | hnew
    · obtain ⟨px, bs, hfork, hcount, hroot⟩ := h.points x hold
      exact ⟨px, bs, hfork, (hcall.points_old x (not_new_of_visited hold)).trans hcount, hroot⟩
    · obtain ⟨px, bs, hfork, hcount, hroot, hother⟩ := hcall.points x hnew
      refine ⟨px, bs, hfork, by rw [hcount, h.points_none x hnew.2, Nat.zero_add], ?_⟩
      have hle : u ≤ x := by
        by_contra hlt
        exact not_new_of_visited (hbelow x (not_le.mp hlt)) hnew
      constructor
      · intro hpx a ha
        have hxu : x = u := by
          by_contra hxu
          exact hother hxu hpx
        by_contra hlt
        have hiff := mem_iff_of_joined
          (fun a b hab => ⟨hclosed a b hab, hclosed b a (hE _ _ hab)⟩) ha
        exact not_new_of_visited (hiff.mpr (hbelow a (hxu ▸ not_le.mp hlt))) hnew
      · intro hleast
        have hjoined : EqvGen g.Adjacent u x :=
          (hcall.branch.joined x hnew).mono fun _ _ hab => hab.2.2
        exact hroot (le_antisymm (hleast u (.symm _ _ hjoined)) hle)
  · intro x hx
    have hxnew := not_or.mp (mt (hvisited x).mpr (by simp [hx]))
    rw [hcall.points_old x hxnew.2]
    exact h.points_none x (by simpa using hxnew.1)

theorem searchAll_spec {done rest : List (Fin n)} (h : Between g s)
    (hnodes : done ++ rest = List.finRange n) (hdone : ∀ a ∈ done, s.visited a = true) :
    ∃ s', searchAll g rest s = some s' ∧ Between g s' ∧ ∀ a, s'.visited a = true := by
  induction rest generalizing s done with
  | nil =>
    refine ⟨s, rfl, h, fun a => hdone a ?_⟩
    rw [List.append_nil] at hnodes
    exact hnodes ▸ List.mem_finRange a
  | cons i rest ih =>
    have hbelow : ∀ a < i, s.visited a = true := fun a ha =>
      hdone a (Graph.mem_front hnodes ha)
    rw [List.append_cons] at hnodes
    rw [searchAll]
    by_cases hi : s.visited i = true
    · rw [if_pos hi]
      refine ih h hnodes fun a ha => ?_
      rcases List.mem_append.mp ha with ha | ha
      · exact hdone a ha
      · exact List.mem_singleton.mp ha ▸ hi
    · rw [if_neg hi]
      obtain ⟨s', hrun, hcall⟩ := dfsBridges_searches hE n i [] s h.inv (by simpa using hi)
        (List.isChain_singleton i) ((Finset.card_le_univ _).trans (Fintype.card_fin n).le)
      rw [List.head?_nil] at hrun
      rw [hrun]
      refine ih (h.call hE hbelow hcall) hnodes fun a ha => ?_
      rcases List.mem_append.mp ha with ha | ha
      · exact (hcall.keeps a (hdone a ha)).1
      · exact List.mem_singleton.mp ha ▸ hcall.branch.root.1

/-- What the result says of the graph. -/
structure Exact (g : Graph n) (result : BridgesArticulationResult n) : Prop where
  pairs : ∀ a b, (result.bridges.map fun bridge => s(bridge.1, bridge.2)).count s(a, b) =
    pairsIn g.Adjacent (fun _ => True) a b
  points : ∀ x, ∃ px bs, Fork g.Adjacent px x bs ∧
    result.articulationPoints.count x = notes g.Adjacent x bs px ∧
    (px = [] ↔ ∀ a, EqvGen g.Adjacent x a → x ≤ a)

theorem compute_exact : ∃ result, compute g = some result ∧ Exact g result := by
  by_cases hn : n = 0
  · subst hn
    exact ⟨⟨[], []⟩, rfl, fun a => a.elim0, fun x => x.elim0⟩
  · have hstart : Between g (.start n) := by
      refine ⟨⟨?_, .nil, .nil, ?_, ?_⟩, ?_, ?_, ?_⟩
      · exact fun z hz => absurd hz List.not_mem_nil
      · exact fun x hx => absurd hx Bool.false_ne_true
      · exact fun x hx => absurd hx Bool.false_ne_true
      · intro a b
        have hnone : pairsIn g.Adjacent (fun x => (Search.start n).visited x = true) a b = 0 :=
          if_neg fun hin => Bool.false_ne_true hin.1
        rw [hnone]
        rfl
      · exact fun x hx => absurd hx Bool.false_ne_true
      · exact fun x _ => rfl
    obtain ⟨s, hrun, hs, hall⟩ := searchAll_spec hE hstart (List.nil_append _)
      fun a ha => absurd ha List.not_mem_nil
    refine ⟨s.result, by simp [compute, hn, hrun], ?_, fun x => hs.points x (hall x)⟩
    intro a b
    have hpairs := hs.pairs a b
    rwa [funext fun x => propext (iff_true_intro (hall x))] at hpairs

end Runs

end Searching

section Claims
variable {result : BridgesArticulationResult n} {calls : List (Int × Int × Int32)}

theorem Exact.mem_points (h : Exact g result) (hE : ∀ a b, g.Adjacent a b → g.Adjacent b a)
    (u : Fin n) : u ∈ result.articulationPoints ↔ CutNode g.Adjacent u := by
  obtain ⟨px, bs, hfork, hcount, _⟩ := h.points u
  rw [← List.count_pos_iff, hcount]
  exact hfork.notes_pos hE

/-- The articulation points are the nodes without which there are more components. -/
theorem articulationPoints_exact (g : Graph n) (hE : ∀ u v, g.Adjacent u v → g.Adjacent v u) :
    ∃ result, compute g = some result ∧ ∀ u, u ∈ result.articulationPoints ↔
      components g.Adjacent < components (Rest g.Adjacent u) := by
  obtain ⟨result, hrun, hexact⟩ := compute_exact hE
  refine ⟨result, hrun, fun u => ?_⟩
  rw [components_rest_lt_iff]
  exact hexact.mem_points hE u

/-- Parallel edges, a loop, and a node on no edge. -/
theorem articulationPoints_exact_parallel :
    ∃ g, Graph.undirected 5 [(0, 1, 1), (0, 1, 1), (1, 2, 1), (2, 2, 1)] = some g ∧
      ∃ result, compute g = some result ∧ ∀ u, u ∈ result.articulationPoints ↔
        components g.Adjacent < components (Rest g.Adjacent u) := by
  obtain ⟨g, hg⟩ : ∃ g, Graph.undirected 5 [(0, 1, 1), (0, 1, 1), (1, 2, 1), (2, 2, 1)] = some g :=
    ⟨_, rfl⟩
  exact ⟨g, hg, articulationPoints_exact g (Graph.adjacent_symm hg)⟩

/-- One call less leaves more components. -/
def IsBridge (n : Nat) (calls : List (Int × Int × Int32)) (i : Nat) : Prop :=
  ∃ g g', Graph.undirected n calls = some g ∧ Graph.undirected n (calls.eraseIdx i) = some g' ∧
    components g.Adjacent < components g'.Adjacent

open Classical in
/-- The ends of the edges whose removal leaves more components, one for each edge. -/
noncomputable def bridgeEnds (n : Nat) (calls : List (Int × Int × Int32)) : List (Sym2 Int) :=
  ((List.finRange calls.length).filter fun i : Fin calls.length => IsBridge n calls i).map
    fun i => Graph.ends (calls.get i)

/-- Each edge that is a bridge and each articulation point is listed once, and nothing else. -/
structure Lists (g : Graph n) (calls : List (Int × Int × Int32))
    (result : BridgesArticulationResult n) : Prop where
  bridges : (result.bridges.map fun bridge => s((bridge.1.val : Int), (bridge.2.val : Int))).Perm
    (bridgeEnds n calls)
  points : ∀ u, u ∈ result.articulationPoints ↔
    components g.Adjacent < components (Rest g.Adjacent u)
  once : result.articulationPoints.Nodup

/-- Nodes that nothing but the edges between them joins are joined by one edge only. -/
def SingleBridges (g : Graph n) (calls : List (Int × Int × Int32)) : Prop :=
  ∀ u v, CutPair g.Adjacent u v → (calls.map Graph.ends).count s((u.val : Int), (v.val : Int)) = 1

/-- Only the least node of a component falls apart into more than two. -/
def FallInTwo (g : Graph n) : Prop :=
  ∀ u, (∃ a < u, EqvGen g.Adjacent u a) → InTwo g.Adjacent u

theorem isBridge_iff (hg : Graph.undirected n calls = some g) (i : Fin calls.length)
    (hi : Graph.ends (calls.get i) = numbers s(u, v)) :
    IsBridge n calls i ↔ CutPair g.Adjacent u v ∧
      (calls.map Graph.ends).count (numbers s(u, v)) = 1 := by
  obtain ⟨g', hg'⟩ := Graph.undirected_subset hg (List.eraseIdx_subset (k := i.val))
  have hold : ∀ a b, g.Adjacent a b ↔ numbers s(a, b) ∈ calls.map Graph.ends := fun a b =>
    Graph.undirected_adjacent hg
  have hnew : ∀ a b, g'.Adjacent a b ↔ numbers s(a, b) ∈ (calls.eraseIdx i).map Graph.ends :=
    fun a b => Graph.undirected_adjacent hg'
  have hperm : (calls.map Graph.ends).Perm
      (numbers s(u, v) :: (calls.eraseIdx i).map Graph.ends) := by
    rw [← hi]
    exact ((List.getElem_cons_eraseIdx_perm i.isLt).map Graph.ends).symm
  have hcount := hperm.count_eq (numbers s(u, v))
  rw [List.count_cons_self] at hcount
  have hmem : ∀ a b, g.Adjacent a b ↔ s(a, b) = s(u, v) ∨ g'.Adjacent a b := by
    intro a b
    rw [hold, hnew, hperm.mem_iff, List.mem_cons, numbers_injective.eq_iff]
  have hless : ∀ a b, g'.Adjacent a b → g.Adjacent a b := fun a b hab => (hmem a b).mpr (.inr hab)
  constructor
  · intro hgiven
    obtain ⟨g₁, g₂, hg₁, hg₂, hlt⟩ := hgiven
    obtain rfl := Option.some.inj (hg.symm.trans hg₁)
    obtain rfl := Option.some.inj (hg'.symm.trans hg₂)
    obtain ⟨a, b, hab, hapart⟩ := (components_mono_lt_iff hless).mp hlt
    refine ⟨⟨(hmem u v).mpr (.inl rfl), fun hjoin => hapart (joined_bind hab ?_)⟩, ?_⟩
    · have hjoin' : EqvGen g'.Adjacent u v := hjoin.mono fun x y hxy =>
        ((hmem x y).mp hxy.1).resolve_left hxy.2
      intro x y hxy
      rcases (hmem x y).mp hxy with heq | hxy
      · rcases Sym2.eq_iff.mp heq with ⟨rfl, rfl⟩ | ⟨rfl, rfl⟩
        · exact hjoin'
        · exact .symm _ _ hjoin'
      · exact .rel _ _ hxy
    · by_contra hmore
      refine hapart (hab.mono fun x y hxy => ?_)
      rcases (hmem x y).mp hxy with heq | hxy
      · rw [hnew, heq]
        exact List.count_pos_iff.mp (by omega)
      · exact hxy
  · intro hgiven
    obtain ⟨hcut, hone⟩ := hgiven
    refine ⟨g, g', hg, hg', (components_mono_lt_iff hless).mpr ⟨u, v, .rel _ _ hcut.1, ?_⟩⟩
    refine fun hjoin => hcut.2 (hjoin.mono fun x y hxy => ⟨hless x y hxy, fun heq => ?_⟩)
    rw [hnew, heq, ← List.count_pos_iff] at hxy
    omega

open Classical in
/-- A pair stands in the list of bridges once or not at all. -/
theorem count_bridgeEnds (hg : Graph.undirected n calls = some g) (u v : Fin n) :
    (bridgeEnds n calls).count (numbers s(u, v)) = if CutPair g.Adjacent u v ∧
      (calls.map Graph.ends).count (numbers s(u, v)) = 1 then 1 else 0 := by
  have hfilter : (bridgeEnds n calls).count (numbers s(u, v)) = (List.finRange calls.length).countP
      fun i => Graph.ends (calls.get i) = numbers s(u, v) ∧ IsBridge n calls i := by
    rw [bridgeEnds, List.count, List.countP_map, List.countP_filter]
    simp [Bool.decide_and, beq_eq_decide]
  rw [hfilter]
  by_cases hone : CutPair g.Adjacent u v ∧ (calls.map Graph.ends).count (numbers s(u, v)) = 1
  · have hall : (calls.map Graph.ends).count (numbers s(u, v)) = (List.finRange calls.length).countP
        fun i => Graph.ends (calls.get i) = numbers s(u, v) := by
      conv_lhs => rw [← List.map_get_finRange calls]
      rw [List.map_map, List.count, List.countP_map]
      simp [Function.comp_def, beq_eq_decide]
    rw [if_pos hone, ← hone.2, hall]
    refine List.countP_congr fun i _ => ?_
    simp only [decide_eq_true_eq]
    exact and_iff_left_of_imp fun hi => (isBridge_iff hg i hi).mpr hone
  · rw [if_neg hone, List.countP_eq_zero]
    intro i _ hi
    obtain ⟨hi, hbridge⟩ := of_decide_eq_true hi
    exact hone ((isBridge_iff hg i hi).mp hbridge)

theorem Exact.bridges_iff (h : Exact g result) (hg : Graph.undirected n calls = some g) :
    (result.bridges.map fun bridge => s((bridge.1.val : Int), (bridge.2.val : Int))).Perm
      (bridgeEnds n calls) ↔ SingleBridges g calls := by
  classical
  have hpairs : (result.bridges.map fun bridge => s((bridge.1.val : Int), (bridge.2.val : Int))) =
      (result.bridges.map fun bridge => s(bridge.1, bridge.2)).map numbers := by
    rw [List.map_map]
    rfl
  have hleft : ∀ u v, ((result.bridges.map fun bridge => s(bridge.1, bridge.2)).map numbers).count
      (numbers s(u, v)) = if CutPair g.Adjacent u v then 1 else 0 := by
    intro u v
    rw [List.count_map_of_injective _ _ numbers_injective, h.pairs, pairsIn]
    simp
  rw [hpairs, List.perm_iff_count]
  constructor
  · intro hperm u v hcut
    have hcount := (hleft u v).symm.trans (hperm (numbers s(u, v)))
    rw [count_bridgeEnds hg, if_pos hcut] at hcount
    by_contra hmore
    rw [if_neg fun hand => hmore hand.2] at hcount
    exact Nat.one_ne_zero hcount
  · intro hsingle pair
    by_cases hpair : ∃ u v, pair = numbers (n := n) s(u, v)
    · obtain ⟨u, v, rfl⟩ := hpair
      rw [hleft, count_bridgeEnds hg]
      refine if_congr (iff_self_and.mpr fun hcut => hsingle u v hcut) rfl rfl
    · have hout : ∀ l : List (Sym2 Int), (∀ p ∈ l, ∃ u v, p = numbers (n := n) s(u, v)) →
          l.count pair = 0 := fun l hl =>
        List.count_eq_zero.mpr fun hin => hpair (hl pair hin)
      rw [hout, hout]
      · intro p hp
        obtain ⟨i, _, rfl⟩ := List.mem_map.mp hp
        obtain ⟨u, v, hu, hv⟩ := Graph.inNodes_of_undirected hg _ (List.get_mem calls i)
        exact ⟨u, v, by rw [Graph.ends, Graph.node_eq hu, Graph.node_eq hv]; rfl⟩
      · intro p hp
        obtain ⟨q, hq, rfl⟩ := List.mem_map.mp hp
        obtain ⟨bridge, _, rfl⟩ := List.mem_map.mp hq
        exact ⟨bridge.1, bridge.2, rfl⟩

theorem Exact.nodup_iff (h : Exact g result) (hE : ∀ a b, g.Adjacent a b → g.Adjacent b a) :
    result.articulationPoints.Nodup ↔ FallInTwo g := by
  rw [List.nodup_iff_count_le_one]
  refine forall_congr' fun u => ?_
  obtain ⟨px, bs, hfork, hcount, hroot⟩ := h.points u
  rw [hcount]
  cases px with
  | nil =>
    refine iff_of_true ?_ fun hless => ?_
    · rw [notes]
      split <;> omega
    · obtain ⟨a, ha, hua⟩ := hless
      exact absurd (hroot.mp rfl a hua) (not_le.mpr ha)
  | cons p path =>
    rw [hfork.notes_le_one hE]
    refine ⟨fun htwo _ => htwo, fun hall => hall ?_⟩
    by_contra hnone
    push Not at hnone
    exact List.cons_ne_nil p path (hroot.mpr fun a hua => le_of_not_gt fun ha => hnone a ha hua)

/-- The lists are right exactly for graphs of which every bridge is a single edge and in which no
node but the least of its component joins three parts. -/
theorem lists_iff (calls : List (Int × Int × Int32)) (hg : Graph.undirected n calls = some g) :
    ∃ result, compute g = some result ∧
      (Lists g calls result ↔ SingleBridges g calls ∧ FallInTwo g) := by
  have hE := Graph.adjacent_symm hg
  obtain ⟨result, hrun, hexact⟩ := compute_exact hE
  refine ⟨result, hrun, ?_, ?_⟩
  · intro h
    exact ⟨(hexact.bridges_iff hg).mp h.bridges, (hexact.nodup_iff hE).mp h.once⟩
  · intro hgiven
    obtain ⟨hsingle, htwo⟩ := hgiven
    refine ⟨(hexact.bridges_iff hg).mpr hsingle, fun u => ?_, (hexact.nodup_iff hE).mpr htwo⟩
    rw [components_rest_lt_iff]
    exact hexact.mem_points hE u

/-- A path of three bridges. -/
theorem lists_iff_path : ∃ g, Graph.undirected 4 [(0, 1, 1), (1, 2, 1), (2, 3, 1)] = some g ∧
    ∃ result, compute g = some result ∧
      (Lists g [(0, 1, 1), (1, 2, 1), (2, 3, 1)] result ↔
        SingleBridges g [(0, 1, 1), (1, 2, 1), (2, 3, 1)] ∧ FallInTwo g) := by
  obtain ⟨g, hg⟩ : ∃ g, Graph.undirected 4 [(0, 1, 1), (1, 2, 1), (2, 3, 1)] = some g := ⟨_, rfl⟩
  exact ⟨g, hg, lists_iff [(0, 1, 1), (1, 2, 1), (2, 3, 1)] hg⟩

/-- Neither edge between nodes 0 and 1 is a bridge, and node 1 joins three parts. -/
theorem lists_fails : ∃ g result,
    Graph.undirected 4 [(0, 1, 1), (0, 1, 1), (1, 2, 1), (1, 3, 1)] = some g ∧
      compute g = some result ∧ ¬ result.articulationPoints.Nodup ∧
      ¬ (result.bridges.map fun bridge => s((bridge.1.val : Int), (bridge.2.val : Int))).Perm
        (bridgeEnds 4 [(0, 1, 1), (0, 1, 1), (1, 2, 1), (1, 3, 1)]) := by
  obtain ⟨g, hg, hrun⟩ : ∃ g,
      Graph.undirected 4 [(0, 1, 1), (0, 1, 1), (1, 2, 1), (1, 3, 1)] = some g ∧
        compute g = some ⟨[(1, 2), (1, 3), (0, 1)], [1, 1]⟩ := ⟨_, rfl, rfl⟩
  obtain ⟨result, hrun', hexact⟩ := compute_exact (Graph.adjacent_symm hg)
  obtain rfl := Option.some.inj (hrun.symm.trans hrun')
  refine ⟨g, _, hg, hrun, by decide, fun hperm => ?_⟩
  have hcut : CutPair g.Adjacent 0 1 := by
    by_contra hcut
    have hpairs := hexact.pairs 0 1
    rw [pairsIn, if_neg fun hin => hcut hin.2.2] at hpairs
    exact absurd hpairs (by decide)
  exact absurd ((hexact.bridges_iff hg).mp hperm 0 1 hcut) (by decide)

end Claims

end Cppforge.Graphs.BridgesArticulation
