import Cppforge.Lib.SearchTree
import Mathlib.Data.List.Perm.Basic
import Mathlib.Data.List.Nodup

/-! A tree with a hole: the frames on the way up, the innermost first. -/

namespace BinaryTree

variable {α κ : Type} {f : α → κ} {t l r : BinaryTree α}

inductive Side where
  | left
  | right
deriving DecidableEq

def Side.other : Side → Side
  | .left => .right
  | .right => .left

@[simp] theorem Side.other_left : Side.left.other = .right := rfl

@[simp] theorem Side.other_right : Side.right.other = .left := rfl

@[simp] theorem Side.other_other (s : Side) : s.other.other = s := by cases s <;> rfl

@[simp] theorem Side.other_ne (s : Side) : s.other ≠ s := by cases s <;> exact nofun

@[simp] theorem Side.ne_other (s : Side) : s ≠ s.other := by cases s <;> exact nofun

/-- A node with the child of one side first. -/
def join (s : Side) (a : α) (t u : BinaryTree α) : BinaryTree α :=
  match s with
  | .left => node a t u
  | .right => node a u t

theorem join_other (s : Side) (a : α) (t u : BinaryTree α) : join s.other a t u = join s a u t := by
  cases s <;> rfl

theorem join_ne_nil (s : Side) (a : α) (t u : BinaryTree α) : join s a t u ≠ nil := by
  cases s <;> exact nofun

theorem exists_join (s : Side) (h : t ≠ nil) : ∃ a u v, t = join s a u v := by
  cases t with
  | nil => exact absurd rfl h
  | node a l r =>
    cases s with
    | left => exact ⟨a, l, r, rfl⟩
    | right => exact ⟨a, r, l, rfl⟩

theorem inorder_join_perm (f : α → κ) (s : Side) (a : α) (t u : BinaryTree α) :
    ((join s a t u).inorder f).Perm (f a :: (t.inorder f ++ u.inorder f)) := by
  cases s with
  | left => exact List.perm_middle
  | right => exact List.perm_middle.trans (List.perm_append_comm.cons _)

/-- Rotations move no entry. -/
theorem inorder_rotate (f : α → κ) (s : Side) (x y : α) (A B C : BinaryTree α) :
    (join s y (join s x A B) C).inorder f = (join s x A (join s y B C)).inorder f := by
  cases s <;> simp [join]

structure Frame (α : Type) where
  side : Side
  key : α
  sibling : BinaryTree α

abbrev Path (α : Type) := List (Frame α)

variable {fr : Frame α} {p q : Path α}

/-- The tree at the hole. -/
def plug (t : BinaryTree α) : Path α → BinaryTree α
  | [] => t
  | fr :: p => (join fr.side fr.key t fr.sibling).plug p

@[simp] theorem plug_nil (t : BinaryTree α) : t.plug [] = t := rfl

@[simp] theorem plug_cons : t.plug (fr :: p) = (join fr.side fr.key t fr.sibling).plug p := rfl

theorem plug_ne_nil (h : t ≠ nil) : t.plug p ≠ nil := by
  induction p generalizing t with
  | nil => exact h
  | cons fr p ih => exact ih (join_ne_nil _ _ _ _)

theorem length_le_numNodes (t : BinaryTree α) (p : Path α) :
    p.length + t.numNodes ≤ (t.plug p).numNodes := by
  induction p generalizing t with
  | nil => simp
  | cons fr p ih =>
    have hle := ih (join fr.side fr.key t fr.sibling)
    have hjoin : (join fr.side fr.key t fr.sibling).numNodes =
        t.numNodes + fr.sibling.numNodes + 1 := by
      cases fr.side <;> simp [join, numNodes, Nat.add_comm]
    rw [plug_cons, List.length_cons]
    omega

theorem plug_append : t.plug (p ++ q) = (t.plug p).plug q := by
  induction p generalizing t with
  | nil => rfl
  | cons fr p ih => exact ih

/-- What stands in front of the hole, and what behind it. -/
def before (f : α → κ) : Path α → List κ
  | [] => []
  | ⟨.left, _, _⟩ :: p => before f p
  | ⟨.right, a, u⟩ :: p => before f p ++ (u.inorder f ++ [f a])

def after (f : α → κ) : Path α → List κ
  | [] => []
  | ⟨.left, a, u⟩ :: p => f a :: (u.inorder f ++ after f p)
  | ⟨.right, _, _⟩ :: p => after f p

theorem inorder_plug (f : α → κ) (t : BinaryTree α) (p : Path α) :
    (t.plug p).inorder f = before f p ++ (t.inorder f ++ after f p) := by
  induction p generalizing t with
  | nil => simp [before, after]
  | cons fr p ih =>
    obtain ⟨s, a, u⟩ := fr
    cases s <;> simp [ih, before, after, join]

/-- Down the left branch nothing stands in front. -/
theorem before_left (f : α → κ) (h : ∀ fr ∈ p, fr.side = .left) : before f p = [] := by
  induction p with
  | nil => rfl
  | cons fr p ih =>
    obtain ⟨s, a, u⟩ := fr
    obtain rfl : s = .left := h _ List.mem_cons_self
    exact ih fun fr hfr => h fr (List.mem_cons_of_mem _ hfr)

/-- The entries of the path. -/
def entries (f : α → κ) (p : Path α) : List κ := before f p ++ after f p

theorem inorder_plug_perm (f : α → κ) (t : BinaryTree α) (p : Path α) :
    ((t.plug p).inorder f).Perm (t.inorder f ++ entries f p) := by
  rw [inorder_plug, entries, ← List.append_assoc, ← List.append_assoc]
  exact List.perm_append_comm.append_right _

theorem entries_cons_perm (f : α → κ) (fr : Frame α) (p : Path α) :
    (entries f (fr :: p)).Perm (f fr.key :: (fr.sibling.inorder f ++ entries f p)) := by
  obtain ⟨s, a, u⟩ := fr
  cases s with
  | left =>
    simp only [entries, before, after]
    refine List.perm_middle.trans (List.Perm.cons _ ?_)
    rw [← List.append_assoc, ← List.append_assoc]
    exact List.perm_append_comm.append_right _
  | right =>
    simp only [entries, before, after]
    have hmid : before f p ++ (u.inorder f ++ [f a]) ++ after f p =
        (before f p ++ u.inorder f) ++ f a :: after f p := by simp
    rw [hmid]
    refine List.perm_middle.trans (List.Perm.cons _ ?_)
    rw [← List.append_assoc]
    exact List.perm_append_comm.append_right _

theorem key_mem_entries (f : α → κ) (h : fr ∈ p) : f fr.key ∈ entries f p := by
  induction p with
  | nil => cases h
  | cons fr' p ih =>
    refine (entries_cons_perm f fr' p).mem_iff.mpr ?_
    rcases List.mem_cons.mp h with rfl | h
    · exact List.mem_cons_self
    · exact List.mem_cons_of_mem _ (List.mem_append_right _ (ih h))

end BinaryTree

namespace RedBlack
open BinaryTree

inductive Color where
  | red
  | black
deriving DecidableEq

variable {α : Type} {color : α → Color} {a : α} {s : Side} {l r t u : BinaryTree α} {c c' : Color}
  {m n : Nat} {fr : Frame α} {path : Path α}

/-- The color of the root; null is black. -/
def rootColor (color : α → Color) : BinaryTree α → Color
  | .nil => .black
  | .node a _ _ => color a

/-- No red node has a red child. -/
def NoRedRed (color : α → Color) : BinaryTree α → Prop
  | .nil => True
  | .node a l r => (color a = .red → rootColor color l = .black ∧ rootColor color r = .black) ∧
      NoRedRed color l ∧ NoRedRed color r

/-- The numbers of black nodes on the paths from the root to null. -/
def blackCounts (color : α → Color) : BinaryTree α → List Nat
  | .nil => [0]
  | .node a l r => (blackCounts color l ++ blackCounts color r).map
      (· + if color a = .black then 1 else 0)

/-- A red-black tree with a root of the color `c` and `n` black nodes on each path. -/
inductive Balanced (color : α → Color) : BinaryTree α → Color → Nat → Prop where
  | nil : Balanced color .nil .black 0
  | red {a : α} {l r : BinaryTree α} {n : Nat} (ha : color a = .red)
      (hl : Balanced color l .black n) (hr : Balanced color r .black n) :
      Balanced color (.node a l r) .red n
  | black {a : α} {l r : BinaryTree α} {c c' : Color} {n : Nat} (ha : color a = .black)
      (hl : Balanced color l c n) (hr : Balanced color r c' n) :
      Balanced color (.node a l r) .black (n + 1)

theorem Balanced.rootColor_eq (h : Balanced color t c n) : rootColor color t = c := by
  cases h with
  | nil => rfl
  | red ha _ _ => exact ha
  | black ha _ _ => exact ha

theorem Balanced.noRedRed (h : Balanced color t c n) : NoRedRed color t := by
  induction h with
  | nil => trivial
  | red ha hl hr ihl ihr => exact ⟨fun _ => ⟨hl.rootColor_eq, hr.rootColor_eq⟩, ihl, ihr⟩
  | black ha hl hr ihl ihr =>
    refine ⟨?_, ihl, ihr⟩
    rw [ha]
    exact nofun

theorem Balanced.counts (h : Balanced color t c n) : ∀ k ∈ blackCounts color t, k = n := by
  induction h with
  | nil => simp [blackCounts]
  | red ha hl hr ihl ihr =>
    intro k hk
    simp only [blackCounts, ha, reduceCtorEq, if_false, List.mem_map, List.mem_append] at hk
    obtain ⟨j, hj | hj, rfl⟩ := hk
    · exact ihl j hj
    · exact ihr j hj
  | black ha hl hr ihl ihr =>
    intro k hk
    simp only [blackCounts, ha, if_true, List.mem_map, List.mem_append] at hk
    obtain ⟨j, hj | hj, rfl⟩ := hk
    · rw [ihl j hj]
    · rw [ihr j hj]

theorem balanced_join_red (ha : color a = .red) (ht : Balanced color t .black n)
    (hu : Balanced color u .black n) : Balanced color (join s a t u) .red n := by
  cases s with
  | left => exact .red ha ht hu
  | right => exact .red ha hu ht

theorem balanced_join_black (ha : color a = .black) (ht : Balanced color t c n)
    (hu : Balanced color u c' n) : Balanced color (join s a t u) .black (n + 1) := by
  cases s with
  | left => exact .black ha ht hu
  | right => exact .black ha hu ht

theorem Balanced.of_red (h : Balanced color (join s a t u) .red n) :
    color a = .red ∧ Balanced color t .black n ∧ Balanced color u .black n := by
  cases s with
  | left =>
    cases h with
    | red ha ht hu => exact ⟨ha, ht, hu⟩
  | right =>
    cases h with
    | red ha hu ht => exact ⟨ha, ht, hu⟩

theorem Balanced.of_black (h : Balanced color (join s a t u) .black n) :
    ∃ m c c', n = m + 1 ∧ color a = .black ∧ Balanced color t c m ∧ Balanced color u c' m := by
  cases s with
  | left =>
    cases h with
    | black ha ht hu => exact ⟨_, _, _, rfl, ha, ht, hu⟩
  | right =>
    cases h with
    | black ha hu ht => exact ⟨_, _, _, rfl, ha, ht, hu⟩

/-- A tree that is balanced once its root is black. -/
def Halves (color : α → Color) (t : BinaryTree α) : Prop :=
  ∃ a l r c c' n, t = .node a l r ∧ Balanced color l c n ∧ Balanced color r c' n

theorem Balanced.halves (h : Balanced color t c n) (hne : t ≠ .nil) : Halves color t := by
  cases h with
  | nil => exact absurd rfl hne
  | red _ hl hr => exact ⟨_, _, _, _, _, _, rfl, hl, hr⟩
  | black _ hl hr => exact ⟨_, _, _, _, _, _, rfl, hl, hr⟩

/-- A hole that a tree of the color `c` with `n` black nodes on each path may fill. -/
inductive Fits (color : α → Color) : Path α → Color → Nat → Prop where
  | nil {n : Nat} : Fits color [] .black n
  | red {fr : Frame α} {path : Path α} {n : Nat} (ha : color fr.key = .red)
      (hu : Balanced color fr.sibling .black n) (h : Fits color path .red n) :
      Fits color (fr :: path) .black n
  | black {fr : Frame α} {path : Path α} {c c' : Color} {n : Nat} (ha : color fr.key = .black)
      (hu : Balanced color fr.sibling c' n) (h : Fits color path .black (n + 1)) :
      Fits color (fr :: path) c n

theorem Fits.plug (h : Fits color path c n) (ht : Balanced color t c n) :
    ∃ m, Balanced color (t.plug path) .black m := by
  induction h generalizing t with
  | nil => exact ⟨_, ht⟩
  | red ha hu _ ih => exact ih (balanced_join_red ha ht hu)
  | black ha hu _ ih => exact ih (balanced_join_black ha ht hu)

theorem Fits.unplug (h : Balanced color (t.plug path) .black m) :
    ∃ c n, Balanced color t c n ∧ Fits color path c n := by
  induction path generalizing t with
  | nil => exact ⟨_, _, h, .nil⟩
  | cons fr path ih =>
    obtain ⟨c, n, hjoin, hpath⟩ := ih h
    cases c with
    | red =>
      obtain ⟨ha, ht, hu⟩ := hjoin.of_red
      exact ⟨_, _, ht, .red ha hu hpath⟩
    | black =>
      obtain ⟨m, c, c', rfl, ha, ht, hu⟩ := hjoin.of_black
      exact ⟨_, _, ht, .black ha hu hpath⟩

/-- Another entry of the same color in the path. -/
theorem Fits.replace {lower : Path α} {b : α}
    (h : Fits color (lower ++ ⟨s, a, u⟩ :: path) c n) (hb : color b = color a) :
    Fits color (lower ++ ⟨s, b, u⟩ :: path) c n := by
  induction lower generalizing c n with
  | nil =>
    cases h with
    | red ha hu h => exact .red (hb.trans ha) hu h
    | black ha hu h => exact .black (hb.trans ha) hu h
  | cons fr lower ih =>
    cases h with
    | red ha hu h => exact .red ha hu (ih h)
    | black ha hu h => exact .black ha hu (ih h)

/-- A black tree fits everywhere. -/
theorem Fits.weaken (h : Fits color path c n) : Fits color path .black n := by
  cases h with
  | nil => exact .nil
  | red ha hu h => exact .red ha hu h
  | black ha hu h => exact .black ha hu h

/-- Above a hole for a red tree there is a black node. -/
theorem Fits.of_red (h : Fits color path .red n) :
    ∃ fr rest c, path = fr :: rest ∧ color fr.key = .black ∧ Balanced color fr.sibling c n ∧
      Fits color rest .black (n + 1) := by
  cases h with
  | black ha hu h => exact ⟨_, _, _, rfl, ha, hu, h⟩

end RedBlack
