import Mathlib.Data.List.Basic
import Mathlib.Algebra.Group.Nat.Defs

/-! Neighbours combined level by level until one value remains, where a last value
without a neighbour is combined with itself. -/

namespace Pairing

variable {α β γ : Type}

/-- The combinations as a term. -/
inductive Tree (α : Type) where
  | leaf (a : α)
  | node (l r : Tree α)

namespace Tree

def eval (g : α → β) (f : β → β → β) : Tree α → β
  | leaf a => g a
  | node l r => f (l.eval g f) (r.eval g f)

def leaves : Tree α → List α
  | leaf a => [a]
  | node l r => l.leaves ++ r.leaves

/-- All leaves are at one depth. -/
inductive Perfect : Nat → Tree α → Prop
  | leaf (a : α) : Perfect 0 (leaf a)
  | node {d : Nat} {l r : Tree α} (hl : Perfect d l) (hr : Perfect d r) : Perfect (d + 1) (node l r)

theorem Perfect.length_leaves {d : Nat} {t : Tree α} (h : Perfect d t) :
    t.leaves.length = 2 ^ d := by
  induction h with
  | leaf a => rfl
  | @node d l r _ _ ihl ihr =>
    simp only [leaves, List.length_append, ihl, ihr]
    omega

theorem Perfect.eq_of_leaves {d : Nat} {t t' : Tree α} (h : Perfect d t) (h' : Perfect d t')
    (heq : t.leaves = t'.leaves) : t = t' := by
  induction h generalizing t' with
  | leaf a =>
    cases h' with
    | leaf a' => simpa [leaves] using heq
  | node hl hr ihl ihr =>
    cases h' with
    | node hl' hr' =>
      obtain ⟨hleft, hright⟩ := List.append_inj heq (by rw [hl.length_leaves, hl'.length_leaves])
      rw [ihl hl' hleft, ihr hr' hright]

def depth (t : Tree α) : Nat := t.eval (fun _ => 0) fun d _ => d + 1

theorem Perfect.depth_eq {d : Nat} {t : Tree α} (h : Perfect d t) : t.depth = d := by
  induction h with
  | leaf a => rfl
  | node hl hr ihl ihr => simpa [depth, eval] using ihl

/-- Trees with all leaves at one depth are told apart by their leaves. -/
theorem Perfect.leaves_inj {d d' : Nat} {t t' : Tree α} (h : Perfect d t) (h' : Perfect d' t') :
    t.leaves = t'.leaves ↔ t = t' := by
  refine ⟨?_, fun heq => heq ▸ rfl⟩
  intro heq
  have hdepth : 2 ^ d = 2 ^ d' := by rw [← h.length_leaves, ← h'.length_leaves, heq]
  have hd : d = d' := (Nat.pow_right_inj Nat.one_lt_two).mp hdepth
  subst hd
  exact h.eq_of_leaves h' heq

end Tree

/-- One level of combinations. -/
def pairUp (f : α → α → β) : List α → List β
  | [] => []
  | [a] => [f a a]
  | a :: b :: rest => f a b :: pairUp f rest

theorem length_pairUp (f : α → α → β) (xs : List α) :
    (pairUp f xs).length = (xs.length + 1) / 2 := by
  fun_induction pairUp f xs with
  | case1 => simp
  | case2 => simp
  | case3 a b rest ih =>
    simp only [List.length_cons, ih]
    omega

theorem map_pairUp (g : β → γ) (f : α → α → β) (xs : List α) :
    (pairUp f xs).map g = pairUp (fun a b => g (f a b)) xs := by
  fun_induction pairUp f xs with
  | case1 => rfl
  | case2 a => rfl
  | case3 a b rest ih => simp [pairUp, ih]

theorem pairUp_map (f : β → β → γ) (g : α → β) (xs : List α) :
    pairUp f (xs.map g) = pairUp (fun a b => f (g a) (g b)) xs := by
  fun_induction pairUp (fun a b => f (g a) (g b)) xs with
  | case1 => rfl
  | case2 a => rfl
  | case3 a b rest ih => simp [pairUp, ih]

theorem mem_pairUp {f : α → α → β} {xs : List α} {y : β} (h : y ∈ pairUp f xs) :
    ∃ a ∈ xs, ∃ b ∈ xs, y = f a b := by
  fun_induction pairUp f xs with
  | case1 => simp at h
  | case2 a => exact ⟨a, by simp, a, by simp, by simpa using h⟩
  | case3 a b rest ih =>
    rcases List.mem_cons.mp h with hy | hy
    · exact ⟨a, by simp, b, by simp, hy⟩
    · obtain ⟨c, hc, d, hd, hy⟩ := ih hy
      exact ⟨c, by simp [hc], d, by simp [hd], hy⟩

/-- The neighbour of a value, itself where it has none, and whether it stands in front. -/
def neighbour? (xs : List α) (i : Nat) : Option (α × Bool) :=
  if i % 2 = 0 then
    if i + 1 < xs.length then xs[i + 1]?.map (·, false) else xs[i]?.map (·, false)
  else xs[i - 1]?.map (·, true)

/-- The combination of a value with its neighbour. -/
def join (f : α → α → β) (a : α) (side : α × Bool) : β :=
  if side.2 then f side.1 a else f a side.1

/-- Every value has a neighbour, and their combination is in the next level. -/
theorem pairUp_neighbour (f : α → α → β) {xs : List α} {i : Nat} {a : α} (h : xs[i]? = some a) :
    ∃ side, neighbour? xs i = some side ∧ (pairUp f xs)[i / 2]? = some (join f a side) := by
  fun_induction pairUp f xs generalizing i with
  | case1 => simp at h
  | case2 b =>
    match i with
    | 0 => exact ⟨(b, false), rfl, by simp_all [join]⟩
    | i + 1 => simp at h
  | case3 b c rest ih =>
    match i with
    | 0 => exact ⟨(c, false), rfl, by simp_all [join]⟩
    | 1 => exact ⟨(b, true), rfl, by simp_all [join]⟩
    | i + 2 =>
      obtain ⟨side, hside, hnext⟩ := ih h
      refine ⟨side, ?_, by simpa using hnext⟩
      rw [← hside]
      by_cases hodd : i % 2 = 0
      · have hroom : i + 2 + 1 < (b :: c :: rest).length ↔ i + 1 < rest.length := by
          simp only [List.length_cons]
          omega
        simp only [neighbour?, hodd, Nat.add_mod_right, hroom]
        rfl
      · have hpos : i + 2 - 1 = (i - 1) + 2 := by omega
        simp [neighbour?, hodd, hpos]

/-- The second of a pair stands behind the first, or is the first where the values end. -/
def second (n p : Nat) : Nat := if 2 * p + 1 < n then 2 * p + 1 else 2 * p

theorem second_succ (n p : Nat) : second (n + 2) (p + 1) = second n p + 2 := by
  unfold second
  split <;> split <;> omega

/-- A value of the next level is the combination of the pair below it. -/
theorem pairUp_getElem? {xs : List α} {p : Nat} {a b : α} (ha : xs[2 * p]? = some a)
    (hb : xs[second xs.length p]? = some b) (f : α → α → β) :
    (pairUp f xs)[p]? = some (f a b) := by
  fun_induction pairUp f xs generalizing p with
  | case1 => simp at ha
  | case2 c =>
    match p with
    | 0 =>
      obtain rfl : c = a := by simpa using ha
      obtain rfl : c = b := by simpa [second] using hb
      rfl
    | p + 1 => simp [Nat.mul_add] at ha
  | case3 c d rest ih =>
    match p with
    | 0 =>
      obtain rfl : c = a := by simpa using ha
      obtain rfl : d = b := by simpa [second] using hb
      rfl
    | p + 1 =>
      rw [List.length_cons, List.length_cons, second_succ] at hb
      exact ih (by simpa [Nat.mul_add] using ha) (by simpa using hb)

theorem exists_pair {xs : List α} {p : Nat} (h : p < (xs.length + 1) / 2) :
    ∃ a b, xs[2 * p]? = some a ∧ xs[second xs.length p]? = some b := by
  have hsecond : second xs.length p < xs.length := by
    unfold second
    split <;> omega
  exact ⟨_, _, List.getElem?_eq_getElem (by omega), List.getElem?_eq_getElem hsecond⟩

/-- All levels, from the values to the one that remains. -/
def levels (f : α → α → α) (xs : List α) : List (List α) :=
  if 1 < xs.length then xs :: levels f (pairUp f xs) else [xs]
termination_by xs.length
decreasing_by
  rw [length_pairUp]
  omega

/-- The position, among a number of values, that the sides of the neighbours on the way up
lead down to: `true` stands for a neighbour in front. -/
def spelled : Nat → List Bool → Nat
  | _, [] => 0
  | n, front :: above =>
    if front then second n (spelled ((n + 1) / 2) above) else 2 * spelled ((n + 1) / 2) above

/-- The side of a position and its half lead down to it. -/
theorem spelled_cons {n i : Nat} {front : Bool} {above : List Bool} (h : i < n)
    (hfront : front = decide (i % 2 = 1)) (habove : spelled ((n + 1) / 2) above = i / 2) :
    spelled n (front :: above) = i := by
  simp only [spelled, habove, hfront, decide_eq_true_eq, second]
  split
  · split <;> omega
  · omega

theorem neighbour?_side {xs : List α} {i : Nat} {side : α × Bool}
    (h : neighbour? xs i = some side) : side.2 = decide (i % 2 = 1) := by
  unfold neighbour? at h
  split at h
  · rename_i heven
    have hodd : ¬ i % 2 = 1 := by omega
    split at h
    all_goals
      obtain ⟨a, _, rfl⟩ := Option.map_eq_some_iff.mp h
      simp [hodd]
  · rename_i heven
    obtain ⟨a, _, rfl⟩ := Option.map_eq_some_iff.mp h
    simp only [true_eq_decide_iff]
    omega

/-- The value that remains. -/
def top (f : α → α → α) (xs : List α) : Option α :=
  if 1 < xs.length then top f (pairUp f xs) else xs.head?
termination_by xs.length
decreasing_by
  rw [length_pairUp]
  omega

theorem levels_head? (f : α → α → α) (xs : List α) : (levels f xs).head? = some xs := by
  fun_cases levels f xs with
  | case1 => rfl
  | case2 => rfl

theorem levels_getLast? (f : α → α → α) (xs : List α) :
    (levels f xs).getLast?.bind List.head? = top f xs := by
  fun_induction levels f xs with
  | case1 xs hlen ih =>
    have hne : levels f (pairUp f xs) ≠ [] := by
      intro hnil
      simpa [hnil] using levels_head? f (pairUp f xs)
    rw [top, if_pos hlen, ← ih, List.getLast?_cons_of_ne_nil hne]
  | case2 xs hlen => simp [top, hlen]

theorem top_map {f : α → α → α} {f' : β → β → β} {g : α → β}
    (hg : ∀ a b, g (f a b) = f' (g a) (g b)) (xs : List α) :
    top f' (xs.map g) = (top f xs).map g := by
  fun_induction top f xs with
  | case1 xs hlen ih =>
    have hpairs : pairUp f' (xs.map g) = (pairUp f xs).map g := by
      simp only [pairUp_map, map_pairUp, hg]
    rw [top, List.length_map, if_pos hlen, hpairs, ih]
  | case2 xs hlen => rw [top, List.length_map, if_neg hlen, List.head?_map]

theorem top_eq_none (f : α → α → α) {xs : List α} : top f xs = none ↔ xs = [] := by
  fun_induction top f xs with
  | case1 xs hlen ih =>
    rw [ih, ← List.length_eq_zero_iff, ← List.length_eq_zero_iff, length_pairUp]
    omega
  | case2 xs hlen => exact List.head?_eq_none_iff

/-- The term that remains of the values. -/
def tree (xs : List α) : Option (Tree α) := top Tree.node (xs.map Tree.leaf)

/-- The values at the leaves, where each level of odd length repeats its last. -/
def padded (xs : List α) : Option (List α) := top (· ++ ·) (xs.map fun a => [a])

theorem top_eval (g : α → β) (f : β → β → β) (xs : List α) :
    top f (xs.map g) = (tree xs).map (Tree.eval g f) := by
  have hmap : xs.map g = (xs.map Tree.leaf).map (Tree.eval g f) := by
    simp [Function.comp_def, Tree.eval]
  rw [hmap]
  exact top_map (fun _ _ => rfl) _

theorem padded_eq (xs : List α) : padded xs = (tree xs).map Tree.leaves := by
  have hmap : (xs.map fun a => [a]) = (xs.map Tree.leaf).map Tree.leaves := by
    simp [Function.comp_def, Tree.leaves]
  rw [padded, hmap]
  exact top_map (fun _ _ => rfl) _

theorem top_perfect {d : Nat} {ts : List (Tree α)} (h : ∀ t ∈ ts, t.Perfect d) {t : Tree α}
    (htop : top Tree.node ts = some t) : ∃ d', t.Perfect d' := by
  fun_induction top Tree.node ts generalizing d with
  | case1 ts hlen ih =>
    refine @ih (d + 1) ?_ htop
    intro u hu
    obtain ⟨a, ha, b, hb, rfl⟩ := mem_pairUp hu
    exact .node (h a ha) (h b hb)
  | case2 ts hlen => exact ⟨d, h t (List.mem_of_head? htop)⟩

theorem tree_perfect {xs : List α} {t : Tree α} (h : tree xs = some t) : ∃ d, t.Perfect d := by
  refine top_perfect (d := 0) ?_ h
  intro t ht
  obtain ⟨a, _, rfl⟩ := List.mem_map.mp ht
  exact .leaf a

theorem tree_leaves {xs : List α} {t : Tree α} (h : tree xs = some t) : ∀ a ∈ t.leaves, a ∈ xs := by
  have htop : ∀ ts : List (Tree α), top Tree.node ts = some t →
      ∀ a ∈ t.leaves, ∃ u ∈ ts, a ∈ u.leaves := by
    intro ts hts
    fun_induction top Tree.node ts with
    | case1 ts hlen ih =>
      intro a ha
      obtain ⟨u, hu, ha⟩ := ih hts a ha
      obtain ⟨b, hb, c, hc, rfl⟩ := mem_pairUp hu
      rcases List.mem_append.mp ha with ha | ha
      · exact ⟨b, hb, ha⟩
      · exact ⟨c, hc, ha⟩
    | case2 ts hlen => exact fun a ha => ⟨t, List.mem_of_head? hts, ha⟩
  intro a ha
  obtain ⟨u, hu, ha⟩ := htop _ h a ha
  obtain ⟨b, hb, rfl⟩ := List.mem_map.mp hu
  rwa [List.mem_singleton.mp ha]

/-- The depth depends on the number of values only. -/
theorem tree_depth {xs ys : List α} (h : xs.length = ys.length) :
    (tree xs).map Tree.depth = (tree ys).map Tree.depth := by
  have hdepth : ∀ zs : List α, (tree zs).map Tree.depth =
      top (fun d _ => d + 1) (List.replicate zs.length 0) := by
    intro zs
    rw [← List.map_const', top_eval]
    rfl
  rw [hdepth, hdepth, h]

theorem pairUp_node_injective {ts ts' : List (Tree α)} (hlen : ts.length = ts'.length)
    (h : pairUp Tree.node ts = pairUp Tree.node ts') : ts = ts' := by
  fun_induction pairUp Tree.node ts generalizing ts' with
  | case1 => exact (List.length_eq_zero_iff.mp hlen.symm).symm
  | case2 t =>
    match ts' with
    | [t'] => simpa [pairUp] using h
  | case3 t u rest ih =>
    match ts' with
    | t' :: u' :: rest' =>
      simp only [pairUp, List.cons.injEq, Tree.node.injEq] at h
      rw [h.1.1, h.1.2, ih (by simpa using hlen) h.2]

/-- The term shows all values, their number given. -/
theorem top_node_injective {ts ts' : List (Tree α)} (hlen : ts.length = ts'.length)
    (h : top Tree.node ts = top Tree.node ts') : ts = ts' := by
  fun_induction top Tree.node ts generalizing ts' with
  | case1 ts hmany ih =>
    rw [top.eq_def Tree.node ts', if_pos (hlen ▸ hmany)] at h
    exact pairUp_node_injective hlen (ih (by rw [length_pairUp, length_pairUp, hlen]) h)
  | case2 ts hmany =>
    rw [top, if_neg (hlen ▸ hmany)] at h
    match ts, ts' with
    | [], [] => rfl
    | [t], [t'] => simpa using h
    | _ :: _ :: _, _ => simp at hmany

theorem tree_injective {xs ys : List α} (hlen : xs.length = ys.length) (h : tree xs = tree ys) :
    xs = ys := by
  have heq := top_node_injective (by simpa using hlen) h
  exact List.map_injective_iff.mpr (fun a b hab => Tree.leaf.inj hab) heq

theorem padded_inj {xs ys : List α} : padded xs = padded ys ↔ tree xs = tree ys := by
  rw [padded_eq, padded_eq]
  refine ⟨?_, fun h => h ▸ rfl⟩
  intro h
  cases hx : tree xs with
  | none => cases hy : tree ys with
    | none => rfl
    | some t => simp [hx, hy] at h
  | some t => cases hy : tree ys with
    | none => simp [hx, hy] at h
    | some t' =>
      obtain ⟨d, hd⟩ := tree_perfect hx
      obtain ⟨d', hd'⟩ := tree_perfect hy
      rw [hx, hy, Option.map_some, Option.map_some, Option.some.injEq, hd.leaves_inj hd'] at h
      rw [h]

end Pairing
