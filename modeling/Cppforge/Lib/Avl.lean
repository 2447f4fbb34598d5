import Cppforge.Lib.SearchTree

/-! Height-balanced trees whose nodes store a height, with or without further
data about the subtree that is recomputed with it. -/

namespace Avl
open BinaryTree

variable {α κ : Type} (height : α → Int) (stamp : α → BinaryTree α → BinaryTree α → α)

/-- The stored height. -/
def getHeight : BinaryTree α → Int
  | .nil => 0
  | .node a _ _ => height a

def getBalance : BinaryTree α → Int
  | .nil => 0
  | .node _ l r => getHeight height l - getHeight height r

/-- A node with its stored data brought up to date. -/
def restamp (a : α) (l r : BinaryTree α) : BinaryTree α := .node (stamp a l r) l r

/-- One or two rotations where one side is higher by two. -/
def rebalance : BinaryTree α → Option (BinaryTree α)
  | .nil => none
  | .node a l r =>
    if 1 < getHeight height l - getHeight height r then
      if getBalance height l < 0 then do
        let l ← rotateLeft (restamp stamp) l
        rotateRight (restamp stamp) (.node a l r)
      else rotateRight (restamp stamp) (.node a l r)
    else if getHeight height l - getHeight height r < -1 then
      if 0 < getBalance height r then do
        let r ← rotateRight (restamp stamp) r
        rotateLeft (restamp stamp) (.node a l r)
      else rotateLeft (restamp stamp) (.node a l r)
    else some (.node a l r)

/-- What is recomputed depends on the children and on what is not recomputed. -/
structure Stamped : Prop where
  height_eq (a : α) (l r : BinaryTree α) :
    height (stamp a l r) = 1 + max (getHeight height l) (getHeight height r)
  again (a : α) (l r l' r' : BinaryTree α) : stamp (stamp a l r) l' r' = stamp a l' r'

/-- All stored data are up to date. -/
def Exact : BinaryTree α → Prop
  | .nil => True
  | .node a l r => stamp a l r = a ∧ Exact l ∧ Exact r

/-- The heights of siblings differ by at most one. -/
def Balanced : BinaryTree α → Prop
  | .nil => True
  | .node _ l r => l.height ≤ r.height + 1 ∧ r.height ≤ l.height + 1 ∧ Balanced l ∧ Balanced r

/-- The invariant of the trees. -/
structure Valid (t : BinaryTree α) : Prop where
  exact : Exact stamp t
  balanced : Balanced t

variable {height : α → Int} {stamp : α → BinaryTree α → BinaryTree α → α} {a b c : α}
  {l r t t' A B C D : BinaryTree α}

theorem valid_nil : Valid stamp (.nil : BinaryTree α) := ⟨trivial, trivial⟩

theorem valid_node : Valid stamp (.node a l r) ↔ stamp a l r = a ∧ l.height ≤ r.height + 1 ∧
    r.height ≤ l.height + 1 ∧ Valid stamp l ∧ Valid stamp r := by
  constructor
  · rintro ⟨⟨ha, hel, her⟩, hlr, hrl, hbl, hbr⟩
    exact ⟨ha, hlr, hrl, ⟨hel, hbl⟩, ⟨her, hbr⟩⟩
  · rintro ⟨ha, hlr, hrl, hl, hr⟩
    exact ⟨⟨ha, hl.exact, hr.exact⟩, hlr, hrl, hl.balanced, hr.balanced⟩

section Stamps
variable (hs : Stamped height stamp)
include hs

theorem getHeight_eq (h : Exact stamp t) : getHeight height t = t.height := by
  induction t with
  | nil => rfl
  | node a l r ihl ihr =>
    obtain ⟨ha, hl, hr⟩ := h
    rw [getHeight, ← ha, hs.height_eq, ihl hl, ihr hr, BinaryTree.height]
    omega

theorem valid_restamp (hl : Valid stamp l) (hr : Valid stamp r) (hlr : l.height ≤ r.height + 1)
    (hrl : r.height ≤ l.height + 1) : Valid stamp (restamp stamp a l r) :=
  valid_node.mpr ⟨hs.again a l r l r, hlr, hrl, hl, hr⟩

end Stamps

@[simp] theorem height_restamp : (restamp stamp a l r).height = max l.height r.height + 1 := rfl

section Rotations
variable (hs : Stamped height stamp)
include hs

/-- The right rotation levels a left side that is higher by two and not lower outside. -/
theorem rotateRight_spec (hl : Valid stamp (.node b A B)) (hr : Valid stamp C)
    (hAB : B.height ≤ A.height) (hA : A.height = C.height + 1) :
    Valid stamp (restamp stamp b A (restamp stamp a B C)) ∧
      (restamp stamp b A (restamp stamp a B C)).height = B.height + 2 := by
  obtain ⟨_, hAB', hBA, hvA, hvB⟩ := valid_node.mp hl
  refine ⟨valid_restamp hs hvA (valid_restamp hs hvB hr ?_ ?_) ?_ ?_, ?_⟩
  all_goals
    try simp only [height_restamp]
    omega

/-- Two rotations level it where it is higher inside. -/
theorem doubleRight_spec (hl : Valid stamp (.node b A (.node c B C))) (hr : Valid stamp D)
    (hA : A.height = D.height) (hc : (BinaryTree.node c B C).height = D.height + 1) :
    Valid stamp (restamp stamp c (restamp stamp b A B) (restamp stamp a C D)) ∧
      (restamp stamp c (restamp stamp b A B) (restamp stamp a C D)).height = D.height + 2 := by
  obtain ⟨_, _, _, hvA, hvc⟩ := valid_node.mp hl
  obtain ⟨_, hBC, hCB, hvB, hvC⟩ := valid_node.mp hvc
  rw [BinaryTree.height] at hc
  refine ⟨valid_restamp hs (valid_restamp hs hvA hvB ?_ ?_) (valid_restamp hs hvC hr ?_ ?_) ?_ ?_,
    ?_⟩
  all_goals
    try simp only [height_restamp]
    omega

theorem rotateLeft_spec (hr : Valid stamp (.node b B C)) (hl : Valid stamp A)
    (hBC : B.height ≤ C.height) (hC : C.height = A.height + 1) :
    Valid stamp (restamp stamp b (restamp stamp a A B) C) ∧
      (restamp stamp b (restamp stamp a A B) C).height = B.height + 2 := by
  obtain ⟨_, hBC', hCB, hvB, hvC⟩ := valid_node.mp hr
  refine ⟨valid_restamp hs (valid_restamp hs hl hvB ?_ ?_) hvC ?_ ?_, ?_⟩
  all_goals
    try simp only [height_restamp]
    omega

theorem doubleLeft_spec (hr : Valid stamp (.node b (.node c B C) D)) (hl : Valid stamp A)
    (hD : D.height = A.height) (hc : (BinaryTree.node c B C).height = A.height + 1) :
    Valid stamp (restamp stamp c (restamp stamp a A B) (restamp stamp b C D)) ∧
      (restamp stamp c (restamp stamp a A B) (restamp stamp b C D)).height = A.height + 2 := by
  obtain ⟨_, _, _, hvc, hvD⟩ := valid_node.mp hr
  obtain ⟨_, hBC, hCB, hvB, hvC⟩ := valid_node.mp hvc
  rw [BinaryTree.height] at hc
  refine ⟨valid_restamp hs (valid_restamp hs hl hvB ?_ ?_) (valid_restamp hs hvC hvD ?_ ?_) ?_ ?_,
    ?_⟩
  all_goals
    try simp only [height_restamp]
    omega

/-- A left side that is higher by two is rotated down. -/
theorem rebalance_left (a : α) (hl : Valid stamp l) (hr : Valid stamp r)
    (hlr : l.height = r.height + 2) :
    ∃ t', rebalance height stamp (restamp stamp a l r) = some t' ∧ Valid stamp t' ∧
      l.height ≤ t'.height ∧ t'.height ≤ l.height + 1 := by
  have hel := getHeight_eq hs hl.exact
  have her := getHeight_eq hs hr.exact
  have hbal : 1 < getHeight height l - getHeight height r := by omega
  cases l with
  | nil => simp at hlr
  | node b A B =>
    obtain ⟨_, hAB, hBA, hvA, hvB⟩ := valid_node.mp hl
    have heA := getHeight_eq hs hvA.exact
    have heB := getHeight_eq hs hvB.exact
    rw [BinaryTree.height] at hlr ⊢
    by_cases hin : A.height < B.height
    · have hneg : getBalance height (.node b A B) < 0 := by
        rw [getBalance]
        omega
      cases B with
      | nil => simp at hin
      | node c B C =>
        obtain ⟨hv, hh⟩ := doubleRight_spec (a := a) hs hl hr (by omega) (by omega)
        refine ⟨_, ?_, hv, by omega, by omega⟩
        simp only [restamp, rebalance, hbal, hneg, if_true, rotateLeft_node, Option.bind_eq_bind,
          Option.bind_some, rotateRight_node, hs.again]
    · have hneg : ¬ getBalance height (.node b A B) < 0 := by
        rw [getBalance]
        omega
      obtain ⟨hv, hh⟩ := rotateRight_spec (a := a) hs hl hr (by omega) (by omega)
      refine ⟨_, ?_, hv, by omega, by omega⟩
      simp only [restamp, rebalance, hbal, hneg, if_true, if_false, rotateRight_node, hs.again]

theorem rebalance_right (a : α) (hl : Valid stamp l) (hr : Valid stamp r)
    (hrl : r.height = l.height + 2) :
    ∃ t', rebalance height stamp (restamp stamp a l r) = some t' ∧ Valid stamp t' ∧
      r.height ≤ t'.height ∧ t'.height ≤ r.height + 1 := by
  have hel := getHeight_eq hs hl.exact
  have her := getHeight_eq hs hr.exact
  have hbal : ¬ 1 < getHeight height l - getHeight height r := by omega
  have hbal' : getHeight height l - getHeight height r < -1 := by omega
  cases r with
  | nil => simp at hrl
  | node b B C =>
    obtain ⟨_, hBC, hCB, hvB, hvC⟩ := valid_node.mp hr
    have heB := getHeight_eq hs hvB.exact
    have heC := getHeight_eq hs hvC.exact
    rw [BinaryTree.height] at hrl ⊢
    by_cases hin : C.height < B.height
    · have hpos : 0 < getBalance height (.node b B C) := by
        rw [getBalance]
        omega
      cases B with
      | nil => simp at hin
      | node c A B =>
        obtain ⟨hv, hh⟩ := doubleLeft_spec (a := a) hs hr hl (by omega) (by omega)
        refine ⟨_, ?_, hv, by omega, by omega⟩
        simp only [restamp, rebalance, hbal, hbal', hpos, if_true, if_false, rotateRight_node,
          Option.bind_eq_bind, Option.bind_some, rotateLeft_node, hs.again]
    · have hpos : ¬ 0 < getBalance height (.node b B C) := by
        rw [getBalance]
        omega
      obtain ⟨hv, hh⟩ := rotateLeft_spec (a := a) hs hr hl (by omega) (by omega)
      refine ⟨_, ?_, hv, by omega, by omega⟩
      simp only [restamp, rebalance, hbal, hbal', hpos, if_true, if_false, rotateLeft_node,
        hs.again]

/-- Siblings whose heights differ by at most two become a valid tree again. -/
theorem rebalance_spec (a : α) (hl : Valid stamp l) (hr : Valid stamp r)
    (hlr : l.height ≤ r.height + 2) (hrl : r.height ≤ l.height + 2) :
    ∃ t', rebalance height stamp (restamp stamp a l r) = some t' ∧ Valid stamp t' ∧
      max l.height r.height ≤ t'.height ∧ t'.height ≤ max l.height r.height + 1 ∧
      (l.height ≤ r.height + 1 → r.height ≤ l.height + 1 →
        t'.height = max l.height r.height + 1) := by
  by_cases hleft : l.height = r.height + 2
  · obtain ⟨t', heq, hv, hlow, hhigh⟩ := rebalance_left hs a hl hr hleft
    exact ⟨t', heq, hv, by omega, by omega, by omega⟩
  · by_cases hright : r.height = l.height + 2
    · obtain ⟨t', heq, hv, hlow, hhigh⟩ := rebalance_right hs a hl hr hright
      exact ⟨t', heq, hv, by omega, by omega, by omega⟩
    · have hel := getHeight_eq hs hl.exact
      have her := getHeight_eq hs hr.exact
      have hbal : ¬ 1 < getHeight height l - getHeight height r := by omega
      have hbal' : ¬ getHeight height l - getHeight height r < -1 := by omega
      have hh : (restamp stamp a l r).height = max l.height r.height + 1 := height_restamp
      refine ⟨restamp stamp a l r, ?_, valid_restamp hs hl hr (by omega) (by omega), by omega,
        by omega, by omega⟩
      simp only [rebalance, hbal, hbal', if_false, restamp]

end Rotations

section Contents
variable {f : α → κ} (hf : ∀ a l r, f (stamp a l r) = f a)
include hf

theorem inorder_restamp :
    (restamp stamp a l r).inorder f = l.inorder f ++ f a :: r.inorder f := by
  rw [restamp, inorder_node, hf]

theorem inorder_rotateRight (h : rotateRight (restamp stamp) t = some t') :
    t'.inorder f = t.inorder f := by
  obtain ⟨x, y, A, B, C, rfl, rfl⟩ := rotateRight_cases h
  simp [inorder_restamp hf]

theorem inorder_rotateLeft (h : rotateLeft (restamp stamp) t = some t') :
    t'.inorder f = t.inorder f := by
  obtain ⟨x, y, A, B, C, rfl, rfl⟩ := rotateLeft_cases h
  simp [inorder_restamp hf]

/-- Rebalancing leaves what is stored as it is. -/
theorem inorder_rebalance (h : rebalance height stamp t = some t') :
    t'.inorder f = t.inorder f := by
  cases t with
  | nil => cases h
  | node a l r =>
    simp only [rebalance] at h
    split at h
    · split at h
      · obtain ⟨l', hl', h⟩ := Option.bind_eq_some_iff.mp h
        rw [inorder_rotateRight hf h, inorder_node, inorder_node, inorder_rotateLeft hf hl']
      · exact inorder_rotateRight hf h
    · split at h
      · split at h
        · obtain ⟨r', hr', h⟩ := Option.bind_eq_some_iff.mp h
          rw [inorder_rotateLeft hf h, inorder_node, inorder_node, inorder_rotateRight hf hr']
        · exact inorder_rotateLeft hf h
      · rw [Option.some.inj h]

end Contents

end Avl
