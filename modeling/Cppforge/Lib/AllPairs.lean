import Cppforge.Lib.Walks
import Mathlib.Data.List.Duplicate

/-! Distances between all pairs of nodes, over walks through more and more nodes, with the first
node of a walk for each. -/

namespace AllPairs
open Walks

variable {α : Type} {E : α → α → Int → Prop} {bound c w : Int} {S : α → Prop} {d : α → α → Int}
  {next next' : α → α → Option α} {len : α → α → Nat} {loop : α → Int} {i j k x u v : α}
  {p : List α}

/-- `S` is what walks may go through; `len` counts the edges of the walks found. -/
structure Table (E : α → α → Int → Prop) (bound : Int) (S : α → Prop) (d : α → α → Int)
    (next : α → α → Option α) (len : α → α → Nat) : Prop where
  nonneg : ∀ i j, 0 ≤ d i j
  le_bound : ∀ i j, d i j ≤ bound
  self : ∀ i, d i i = 0 ∧ len i i = 0
  edge : ∀ i j c, E i j c → d i j ≤ c
  through : ∀ i x j, S x → d i j ≤ d i x + d x j
  hop : ∀ i j, i ≠ j → d i j < bound → ∃ x c, next i j = some x ∧ E i x c ∧ (x = j ∨ S x) ∧
    d i j = c + d x j ∧ len i j = len x j + 1

/-- The nodes that `next` leads through to the target. -/
inductive Hops (next : α → α → Option α) (target : α) : α → List α → Prop
  | stop : Hops next target target []
  | hop {i x : α} {p : List α} (hne : i ≠ target) (hx : next i target = some x)
      (h : Hops next target x p) : Hops next target i (x :: p)

/-- A walk out of a node and back, over at least one edge. -/
def Round (E : α → α → Int → Prop) (i : α) (w : Int) : Prop :=
  ∃ x c p w', E i x c ∧ Walk E x p i w' ∧ w = c + w'

/-- The weights of the walks back; 0 stands where a node has no edge to itself. -/
structure Loops (E : α → α → Int → Prop) (S : α → Prop) (d : α → α → Int) (loop : α → Int) :
    Prop where
  nonneg : ∀ i, 0 ≤ loop i
  edge : ∀ i c, E i i c → loop i ≤ c
  through : ∀ i x, S x → x ≠ i → loop i ≤ d i x + d x i
  found : ∀ i, (∃ c, E i i c) → Round E i (loop i)
  none : ∀ i, (∀ c, ¬ E i i c) → loop i = 0

namespace Table

theorem edge_nonneg (h : Table E bound S d next len) (he : E i j c) : 0 ≤ c :=
  (h.nonneg i j).trans (h.edge i j c he)

/-- A walk of the weight found, without a node twice. -/
theorem walk (h : Table E bound S d next len) (hlt : d i j < bound) :
    ∃ p, Hops next j i p ∧ Walk E i (i :: p) j (d i j) ∧ (i :: p).Nodup := by
  suffices hlen : ∃ p, Hops next j i p ∧ Walk E i (i :: p) j (d i j) ∧ (i :: p).Nodup ∧
      ∀ y ∈ i :: p, len y j ≤ len i j by
    obtain ⟨p, hhops, hwalk, hnodup, _⟩ := hlen
    exact ⟨p, hhops, hwalk, hnodup⟩
  generalize hl : len i j = l
  induction l using Nat.strong_induction_on generalizing i with
  | _ l ih =>
    by_cases hij : i = j
    · subst hij
      rw [(h.self i).1]
      exact ⟨[], .stop, .nil i, List.pairwise_singleton _ i, by simp [hl]⟩
    · obtain ⟨x, c, hx, he, _, hd, hless⟩ := h.hop i j hij hlt
      have hc := h.edge_nonneg he
      obtain ⟨p, hhops, hwalk, hnodup, hbelow⟩ := ih (len x j) (by omega) (by omega) rfl
      refine ⟨x :: p, .hop hij hx hhops, hd ▸ .cons he hwalk,
        List.nodup_cons.mpr ⟨?_, hnodup⟩, ?_⟩
      · intro hmem
        have hle := hbelow i hmem
        omega
      · intro y hy
        rcases List.mem_cons.mp hy with rfl | hy
        · omega
        · have hle := hbelow y hy
          omega

/-- When walks may go through all nodes no walk weighs less. -/
theorem least (h : Table E bound S d next len) (hall : ∀ x, S x) (hw : Walk E i p j w) :
    d i j ≤ w := by
  induction hw with
  | nil => exact (h.self _).1.le
  | @snoc v x _ w c _ he ih =>
    have hthrough := h.through i v x (hall v)
    have hedge := h.edge v x c he
    omega

theorem congr_next (h : Table E bound S d next len) (heq : ∀ i j, i ≠ j → next' i j = next i j) :
    Table E bound S d next' len := by
  refine ⟨h.nonneg, h.le_bound, h.self, h.edge, h.through, ?_⟩
  intro i j hij hlt
  rw [heq i j hij]
  exact h.hop i j hij hlt

end Table

section Steps

/-- The distance through `k` where it is less. -/
def lowerDist (k : α) (d : α → α → Int) (i j : α) : Int :=
  if d i k + d k j < d i j then d i k + d k j else d i j

def lowerNext (k : α) (d : α → α → Int) (next : α → α → Option α) (i j : α) : Option α :=
  if d i k + d k j < d i j then next i k else next i j

def lowerLen (k : α) (d : α → α → Int) (len : α → α → Nat) (i j : α) : Nat :=
  if d i k + d k j < d i j then len i k + len k j else len i j

theorem lowerDist_le (k : α) (d : α → α → Int) (i j : α) :
    lowerDist k d i j ≤ d i j ∧ lowerDist k d i j ≤ d i k + d k j := by
  rw [lowerDist]
  split <;> omega

theorem lowerDist_eq (k : α) (d : α → α → Int) (i j : α) :
    lowerDist k d i j = d i j ∨ lowerDist k d i j = d i k + d k j := by
  rw [lowerDist]
  split
  · exact .inr rfl
  · exact .inl rfl

/-- Distances that count what a walk climbs less. -/
def reweigh (h : α → Int) (d : α → α → Int) (i j : α) : Int := d i j + h i - h j

theorem reweigh_less {h : α → Int} : reweigh h d i k + reweigh h d k j < reweigh h d i j ↔
    d i k + d k j < d i j := by
  rw [reweigh, reweigh, reweigh]
  omega

theorem lowerDist_reweigh (h : α → Int) (k : α) (d : α → α → Int) :
    lowerDist k (reweigh h d) = reweigh h (lowerDist k d) := by
  funext i j
  by_cases hless : d i k + d k j < d i j
  · rw [lowerDist, if_pos (reweigh_less.mpr hless), reweigh, reweigh, reweigh, lowerDist,
      if_pos hless]
    omega
  · rw [lowerDist, if_neg fun h => hless (reweigh_less.mp h), reweigh, reweigh, lowerDist,
      if_neg hless]

theorem Table.step_through (h : Table E bound S d next len) (hx : S x ∨ x = k) :
    lowerDist k d i j ≤ lowerDist k d i x + lowerDist k d x j := by
  have hij := lowerDist_le k d i j
  have hik := h.nonneg k k
  rcases hx with hx | rfl
  · have h₁ := h.through i x j hx
    have h₂ := h.through k x j hx
    have h₃ := h.through i x k hx
    have h₄ := h.nonneg k x
    have h₅ := h.nonneg x k
    rcases lowerDist_eq k d i x with hix | hix <;>
      rcases lowerDist_eq k d x j with hxj | hxj <;> omega
  · have hself := (h.self x).1
    rcases lowerDist_eq x d i x with hix | hix <;>
      rcases lowerDist_eq x d x j with hxj | hxj <;> omega

/-- A walk that is lowered goes on with one that is lowered too. -/
theorem Table.step_hop (h : Table E bound S d next len) (hij : i ≠ j)
    (hlt : lowerDist k d i j < bound) : ∃ x c, lowerNext k d next i j = some x ∧ E i x c ∧
      (x = j ∨ S x ∨ x = k) ∧ lowerDist k d i j = c + lowerDist k d x j ∧
      lowerLen k d len i j = lowerLen k d len x j + 1 := by
  have hself := h.self k
  by_cases hlow : d i k + d k j < d i j
  · have hik : i ≠ k := by
      rintro rfl
      omega
    have hbound := h.le_bound i j
    have hkj := h.nonneg k j
    obtain ⟨x, c, hx, he, hS, hd, hl⟩ := h.hop i k hik (by omega)
    have hlow' : (x = k ∧ ¬ d x k + d k j < d x j) ∨ d x k + d k j < d x j := by
      rcases hS with rfl | hS
      · exact .inl ⟨rfl, by omega⟩
      · have hthrough := h.through i x j hS
        have hedge := h.edge i x c he
        exact .inr (by omega)
    refine ⟨x, c, by simp [lowerNext, hlow, hx], he, .inr (hS.symm), ?_, ?_⟩
    · rcases hlow' with ⟨rfl, hkeep⟩ | hlow'
      · rw [lowerDist, lowerDist, if_pos hlow, if_neg hkeep]
        omega
      · rw [lowerDist, lowerDist, if_pos hlow, if_pos hlow']
        omega
    · rcases hlow' with ⟨rfl, hkeep⟩ | hlow'
      · rw [lowerLen, lowerLen, if_pos hlow, if_neg hkeep]
        omega
      · rw [lowerLen, lowerLen, if_pos hlow, if_pos hlow']
        omega
  · rw [lowerDist, if_neg hlow] at hlt
    obtain ⟨x, c, hx, he, hS, hd, hl⟩ := h.hop i j hij hlt
    have hkeep : ¬ d x k + d k j < d x j := by
      rcases hS with rfl | hS
      · have hxk := h.nonneg x k
        have hkx := h.nonneg k x
        have hx := (h.self x).1
        omega
      · have hthrough := h.through i x k hS
        have hedge := h.edge i x c he
        omega
    refine ⟨x, c, by simp [lowerNext, hlow, hx], he, hS.imp_right .inl, ?_, ?_⟩
    · rw [lowerDist, lowerDist, if_neg hlow, if_neg hkeep, hd]
    · rw [lowerLen, lowerLen, if_neg hlow, if_neg hkeep, hl]

theorem Table.step (h : Table E bound S d next len) (k : α) :
    Table E bound (fun x => S x ∨ x = k) (lowerDist k d) (lowerNext k d next)
      (lowerLen k d len) := by
  refine ⟨?_, ?_, ?_, ?_, fun i x j hx => h.step_through hx, fun i j hij hlt => h.step_hop hij hlt⟩
  · intro i j
    have hij := h.nonneg i j
    have hik := h.nonneg i k
    have hkj := h.nonneg k j
    rcases lowerDist_eq k d i j with heq | heq <;> omega
  · intro i j
    exact (lowerDist_le k d i j).1.trans (h.le_bound i j)
  · intro i
    have hkeep : ¬ d i k + d k i < d i i := by
      have hik := h.nonneg i k
      have hki := h.nonneg k i
      have hi := (h.self i).1
      omega
    rw [lowerDist, lowerLen, if_neg hkeep, if_neg hkeep]
    exact h.self i
  · intro i j c he
    exact (lowerDist_le k d i j).1.trans (h.edge i j c he)

/-- The same for walks back. -/
def lowerLoop [DecidableEq α] (k : α) (d : α → α → Int) (loop : α → Int) (i : α) : Int :=
  if i ≠ k ∧ d i k + d k i < loop i then d i k + d k i else loop i

theorem Loops.step [DecidableEq α] (h : Loops E S d loop) (htable : Table E bound S d next len)
    (hbound : ∀ i, loop i ≤ bound) (k : α) :
    Loops E (fun x => S x ∨ x = k) (lowerDist k d) (lowerLoop k d loop) := by
  have hle : ∀ i, lowerLoop k d loop i ≤ loop i := by
    intro i
    rw [lowerLoop]
    split <;> omega
  refine ⟨?_, fun i c he => (hle i).trans (h.edge i c he), ?_, ?_, ?_⟩
  · intro i
    have hi := h.nonneg i
    have hik := htable.nonneg i k
    have hki := htable.nonneg k i
    rw [lowerLoop]
    split <;> omega
  · intro i x hx hxi
    have hself := (htable.self k).1
    have hkx := htable.nonneg k x
    have hxk := htable.nonneg x k
    have hnew : i ≠ k → lowerLoop k d loop i ≤ d i k + d k i := by
      intro hik
      by_cases hlow : d i k + d k i < loop i
      · rw [lowerLoop, if_pos ⟨hik, hlow⟩]
      · exact (hle i).trans (not_lt.mp hlow)
    have hother := hle i
    by_cases hik : i = k
    · subst hik
      have hold := h.through i x (hx.resolve_right hxi) hxi
      rcases lowerDist_eq i d i x with hix | hix <;>
        rcases lowerDist_eq i d x i with hxi | hxi <;> omega
    · have hlow := hnew hik
      rcases hx with hx | rfl
      · have hold := h.through i x hx hxi
        have hout := htable.through i x k hx
        have hback := htable.through k x i hx
        rcases lowerDist_eq k d i x with hix | hix <;>
          rcases lowerDist_eq k d x i with hxi | hxi <;> omega
      · rcases lowerDist_eq x d i x with hix | hix <;>
          rcases lowerDist_eq x d x i with hxi | hxi <;> omega
  · intro i hi
    obtain ⟨x₀, c₀, p₀, w₀, he₀, hw₀, hloop⟩ := h.found i hi
    by_cases hlow : i ≠ k ∧ d i k + d k i < loop i
    · rw [lowerLoop, if_pos hlow]
      have hi := hbound i
      have hik := htable.nonneg i k
      have hki := htable.nonneg k i
      obtain ⟨x, c, _, he, _, hd, _⟩ := htable.hop i k hlow.1 (by omega)
      have hc := htable.edge_nonneg he
      obtain ⟨p, _, hp, _⟩ := htable.walk (i := x) (j := k) (by omega)
      obtain ⟨q, _, hq, _⟩ := htable.walk (i := k) (j := i) (by omega)
      obtain ⟨r, hr⟩ := hp.append hq
      exact ⟨x, c, r, _, he, hr, by omega⟩
    · rw [lowerLoop, if_neg hlow]
      exact h.found i hi
  · intro i hi
    have hzero := h.none i hi
    have hik := htable.nonneg i k
    have hki := htable.nonneg k i
    rw [lowerLoop, if_neg fun hlow => ?_, hzero]
    have hlow := hlow.2
    omega

/-- When walks may go through all nodes no walk back weighs less. -/
theorem Loops.least (h : Loops E S d loop) (htable : Table E bound S d next len)
    (hall : ∀ x, S x) (hround : Round E i w) : loop i ≤ w := by
  obtain ⟨x, c, p, w', he, hw, rfl⟩ := hround
  have hrest := htable.least hall hw
  by_cases hxi : x = i
  · subst hxi
    have hedge := h.edge x c he
    have hself := htable.nonneg x x
    omega
  · have hthrough := h.through i x (hall x) hxi
    have hedge := htable.edge i x c he
    omega

end Steps

section Passing
variable {q q' q₁ q₂ : List α} {w' : Int}

/-- A walk over at least one edge, and the nodes between its ends. -/
inductive Passing (E : α → α → Int → Prop) : α → List α → α → Int → Prop
  | edge {u v : α} {c : Int} (he : E u v c) : Passing E u [] v c
  | snoc {u x v : α} {q : List α} {w c : Int} (h : Passing E u q x w) (he : E x v c) :
      Passing E u (q ++ [x]) v (w + c)

theorem Passing.append (h : Passing E u q x w) (h' : Passing E x q' v w') :
    Passing E u (q ++ x :: q') v (w + w') := by
  induction h' with
  | edge he => exact h.snoc he
  | snoc _ he ih =>
    rw [← Int.add_assoc]
    simpa using ih.snoc he

theorem Passing.split (h : Passing E u (q₁ ++ x :: q₂) v w) :
    ∃ w₁ w₂, Passing E u q₁ x w₁ ∧ Passing E x q₂ v w₂ ∧ w = w₁ + w₂ := by
  generalize hq : q₁ ++ x :: q₂ = q at h
  induction h generalizing q₂ with
  | edge => simp at hq
  | @snoc y v q w c hwalk he ih =>
    cases q₂ using List.reverseRecOn with
    | nil =>
      obtain ⟨rfl, hxy⟩ := List.append_inj' hq rfl
      obtain rfl := List.head_eq_of_cons_eq hxy
      exact ⟨w, c, hwalk, .edge he, rfl⟩
    | append_singleton q₂ z =>
      rw [← List.cons_append, ← List.append_assoc] at hq
      obtain ⟨rfl, hzy⟩ := List.append_inj' hq rfl
      obtain rfl := List.head_eq_of_cons_eq hzy
      obtain ⟨w₁, w₂, h₁, h₂, rfl⟩ := ih rfl
      exact ⟨w₁, w₂ + c, h₁, h₂.snoc he, by omega⟩

theorem exists_twice (h : ¬ q.Nodup) : ∃ a y b c, q = a ++ y :: (b ++ y :: c) := by
  obtain ⟨y, hy⟩ := List.exists_duplicate_iff_not_nodup.mpr h
  obtain ⟨front, back, rfl, hfront, hback⟩ :=
    List.cons_sublist_iff.mp (List.duplicate_iff_sublist.mp hy)
  obtain ⟨a, b, rfl⟩ := List.append_of_mem hfront
  obtain ⟨b', c, rfl⟩ := List.append_of_mem (List.singleton_sublist.mp hback)
  exact ⟨a, y, b ++ b', c, by simp⟩

/-- A walk back of a negative weight holds one without a node twice. -/
theorem Passing.simple (h : Passing E x q x w) (hneg : w < 0) :
    ∃ y q' w', Passing E y q' y w' ∧ w' < 0 ∧ q'.Nodup := by
  generalize hl : q.length = l
  induction l using Nat.strong_induction_on generalizing x q w with
  | _ l ih =>
    by_cases hnodup : q.Nodup
    · exact ⟨x, q, w, h, hneg, hnodup⟩
    · -- the part between the two is negative, or the rest without it is
      obtain ⟨a, y, b, c, rfl⟩ := exists_twice hnodup
      obtain ⟨w₁, _, h₁, hrest, rfl⟩ := h.split
      obtain ⟨w₂, w₃, h₂, h₃, rfl⟩ := hrest.split
      simp only [List.length_append, List.length_cons] at hl
      by_cases hinner : w₂ < 0
      · exact ih b.length (by omega) h₂ hinner rfl
      · refine ih (a ++ y :: c).length ?_ (h₁.append h₃) (by omega) rfl
        simp only [List.length_append, List.length_cons]
        omega

end Passing

section Composed
variable {ts ts' : List (α × α × α)}

/-- The weights of the walks that turns put together, each of two from the turns before. -/
inductive Composed (d : α → α → Int) : List (α × α × α) → α → α → Int → Prop
  | start (i j : α) : Composed d [] i j (d i j)
  | keep {ts : List (α × α × α)} {i j : α} {w : Int} (h : Composed d ts i j w) (t : α × α × α) :
      Composed d (ts ++ [t]) i j w
  | join {ts : List (α × α × α)} {i k j : α} {w w' : Int} (h : Composed d ts i k w)
      (h' : Composed d ts k j w') : Composed d (ts ++ [(k, i, j)]) i j (w + w')

theorem Composed.mono (h : Composed d ts i j w) (hts : ts <+: ts') : Composed d ts' i j w := by
  obtain ⟨rest, rfl⟩ := hts
  induction rest generalizing ts with
  | nil => rwa [List.append_nil]
  | cons t rest ih =>
    rw [List.append_cons]
    exact ih (h.keep t)

/-- A potential that no entry climbs in vain is climbed by no walk in vain. -/
theorem Composed.potential {h : α → Int} (hd : ∀ i j, 0 ≤ reweigh h d i j)
    (hw : Composed d ts i j w) : 0 ≤ w + h i - h j := by
  induction hw with
  | start i j => exact hd i j
  | keep _ _ ih => exact ih
  | join _ _ ih ih' => omega

end Composed

section Turns
open Function
variable [DecidableEq α] {ts : List (α × α × α)} {q nodes : List α}

/-- A turn for `k`, `i` and `j`, in place. -/
def lowerAt (d : α → α → Int) : α × α × α → α → α → Int
  | (k, i, j) => update d i (update (d i) j (lowerDist k d i j))

theorem lowerAt_self (d : α → α → Int) (k i j : α) :
    lowerAt d (k, i, j) i j = lowerDist k d i j := by
  simp [lowerAt]

theorem lowerAt_ne (d : α → α → Int) (k : α) {i j a b : α} (h : ¬ (a = i ∧ b = j)) :
    lowerAt d (k, i, j) a b = d a b := by
  by_cases ha : a = i
  · subst ha
    have hb : b ≠ j := fun hb => h ⟨rfl, hb⟩
    simp [lowerAt, hb]
  · simp [lowerAt, ha]

theorem lowerAt_le (d : α → α → Int) (t : α × α × α) (a b : α) : lowerAt d t a b ≤ d a b := by
  obtain ⟨k, i, j⟩ := t
  by_cases h : a = i ∧ b = j
  · obtain ⟨rfl, rfl⟩ := h
    rw [lowerAt_self]
    exact (lowerDist_le k d a b).1
  · rw [lowerAt_ne d k h]

theorem foldl_lowerAt_le (ts : List (α × α × α)) (d : α → α → Int) (a b : α) :
    ts.foldl lowerAt d a b ≤ d a b := by
  induction ts generalizing d with
  | nil => exact le_rfl
  | cons t ts ih => exact (ih _).trans (lowerAt_le d t a b)

/-- After the turns the matrix holds one of the weights, and the least of them. -/
theorem composed_foldl (d : α → α → Int) (ts : List (α × α × α)) (i j : α) :
    Composed d ts i j (ts.foldl lowerAt d i j) := by
  induction ts using List.reverseRecOn generalizing i j with
  | nil => exact .start i j
  | append_singleton ts t ih =>
    obtain ⟨k, a, b⟩ := t
    rw [List.foldl_append, List.foldl_cons, List.foldl_nil]
    by_cases h : i = a ∧ j = b
    · obtain ⟨rfl, rfl⟩ := h
      rw [lowerAt_self]
      rcases lowerDist_eq k (ts.foldl lowerAt d) i j with heq | heq
      · rw [heq]
        exact (ih i j).keep _
      · rw [heq]
        exact (ih i k).join (ih k j)
    · rw [lowerAt_ne _ k h]
      exact (ih i j).keep _

/-- The turns for one node after the other in the place of `k`, each for all pairs of nodes. -/
def turns (nodes ks : List α) : List (α × α × α) :=
  ks.flatMap fun k => nodes.flatMap fun i => nodes.map fun j => (k, i, j)

end Turns

end AllPairs
