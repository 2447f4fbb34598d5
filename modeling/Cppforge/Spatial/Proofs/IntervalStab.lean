import Cppforge.Spatial.Proofs.IntervalRefine
import Mathlib.Order.Interval.Set.LinearOrder

namespace Cppforge.Spatial
open BinaryTree

variable {V D : Type}

namespace Interval
variable [LinearOrder V] {iv other query : Interval V}

theorem contains_iff {point : V} : iv.contains point = true ↔ point ∈ Set.Ico iv.low iv.high := by
  simp [contains]

theorem Admitted.empty_iff (h : iv.Admitted) : iv.empty = false ↔ iv.low < iv.high := by
  rw [empty, decide_eq_false_iff_not]
  exact h.lt_iff_ne.symm

end Interval

namespace IntervalTree
open Avl

section Tagged

/-- The node with its interval as part of the payload. -/
def Cell.tagged (c : Cell V D) : Cell V (Interval V × D) :=
  ⟨c.interval, c.entry, c.maxHigh, c.height⟩

/-- The same tree with every payload named with its interval, so that the answer of a query tells
the entries apart. -/
def tagged (t : IntervalTree V D) : IntervalTree V (Interval V × D) :=
  ⟨t.root.map Cell.tagged, t.size⟩

variable {t : Node V D}

theorem inorder_tagged {κ : Type} (f : Cell V (Interval V × D) → κ) (t : Node V D) :
    (t.map Cell.tagged).inorder f = t.inorder (fun c => f c.tagged) := by
  induction t with
  | nil => rfl
  | node c l r ihl ihr => simp only [BinaryTree.map, inorder_node, ihl, ihr]

theorem height_tagged (t : Node V D) : (t.map Cell.tagged).height = t.height := by
  induction t with
  | nil => rfl
  | node c l r ihl ihr => simp only [BinaryTree.map, BinaryTree.height, ihl, ihr]

variable [LinearOrder V]

theorem StatsTrue.tagged (ht : StatsTrue t) : StatsTrue (t.map Cell.tagged) := by
  induction t with
  | nil => trivial
  | node c l r ihl ihr =>
    obtain ⟨hheight, hmem, hle, hl, hr⟩ := ht
    have hhighs := inorder_tagged (fun c => c.interval.high) (node c l r)
    refine ⟨?_, ?_, ?_, ihl hl, ihr hr⟩
    · exact hheight.trans (congrArg Nat.cast (height_tagged (node c l r)).symm)
    · exact hhighs ▸ hmem
    · exact hhighs ▸ hle

end Tagged

section Stored
variable [LinearOrder V] [DecidableEq D] {t t' : Node V D} {e : Interval V × D} {size size' : Nat}

end Stored

end IntervalTree
end Cppforge.Spatial
