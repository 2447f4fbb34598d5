import Cppforge.Balanced.SearchTrees
import Cppforge.Lib.Run

namespace Cppforge.Balanced
open BinaryTree SortedKeys

namespace BSTBase
variable {T : Type} [LinearOrder T] {postInsert : TreeNode T → T → Option (TreeNode T)}
  {postRemove : TreeNode T → Option (TreeNode T)} {value : T} {t t' : TreeNode T}

/-- With a hook that keeps the values in place. -/
theorem insertImpl_adds
    (hpost : ∀ t t', postInsert t value = some t' → t'.inorder Cell.data = t.inorder Cell.data)
    (ho : InOrder (· < ·) Cell.data t) (h : insertImpl postInsert value t = some t') :
    Adds value (t.inorder Cell.data) (t'.inorder Cell.data) := by
  induction t generalizing t' with
  | nil =>
    rw [← Option.some.inj h]
    exact Adds.empty value
  | node c l r ihl ihr =>
    obtain ⟨hl, hr, _, _⟩ := inOrder_node.mp ho
    unfold insertImpl at h
    split at h
    · rename_i hlt
      obtain ⟨l', hins, h⟩ := Option.bind_eq_some_iff.mp h
      rw [hpost _ _ h]
      exact (ihl hl hins).left ho hlt
    · split at h
      · rename_i hgt
        obtain ⟨r', hins, h⟩ := Option.bind_eq_some_iff.mp h
        rw [hpost _ _ h]
        exact (ihr hr hins).right ho hgt
      · rename_i hlt hgt
        rw [← Option.some.inj h]
        refine Adds.present ho ?_
        rw [le_antisymm (not_lt.mp hgt) (not_lt.mp hlt)]
        simp

theorem removeImpl_drops
    (hpost : ∀ t t', postRemove t = some t' → t'.inorder Cell.data = t.inorder Cell.data)
    (ho : InOrder (· < ·) Cell.data t) (h : removeImpl postRemove value t = some t') :
    Drops value (t.inorder Cell.data) (t'.inorder Cell.data) := by
  induction t generalizing value t' with
  | nil =>
    rw [← Option.some.inj h]
    exact Drops.absent ho List.not_mem_nil
  | node c l r ihl ihr =>
    obtain ⟨hl, hr, _, _⟩ := inOrder_node.mp ho
    unfold removeImpl at h
    split at h
    · rename_i hlt
      obtain ⟨l', hrem, h⟩ := Option.bind_eq_some_iff.mp h
      rw [hpost _ _ h]
      exact (ihl hl hrem).left ho hlt
    · split at h
      · rename_i hgt
        obtain ⟨r', hrem, h⟩ := Option.bind_eq_some_iff.mp h
        rw [hpost _ _ h]
        exact (ihr hr hrem).right ho hgt
      · rename_i hlt hgt
        obtain rfl : value = c.data := le_antisymm (not_lt.mp hgt) (not_lt.mp hlt)
        have hdrop : Drops c.data ((node c l r).inorder Cell.data)
            (l.inorder Cell.data ++ r.inorder Cell.data) := Drops.here ho
        split at h
        · rename_i hnull
          rw [Bool.and_eq_true, isNull_iff, isNull_iff] at hnull
          obtain ⟨rfl, rfl⟩ := hnull
          rwa [← Option.some.inj h]
        · split at h
          · rename_i hnull
            rw [isNull_iff] at hnull
            subst hnull
            rwa [← Option.some.inj h]
          · split at h
            · rename_i hnull
              rw [isNull_iff] at hnull
              subst hnull
              rw [inorder_nil, List.append_nil] at hdrop
              rwa [← Option.some.inj h]
            · rename_i hnull
              rw [isNull_iff] at hnull
              obtain ⟨s, rest, hmin, hrest⟩ := exists_findMin Cell.data hnull
              rw [hmin, Option.bind_eq_bind, Option.bind_some] at h
              obtain ⟨r', hrem, h⟩ := Option.bind_eq_some_iff.mp h
              -- what the removal leaves on the right is what follows the successor
              have hr' : r'.inorder Cell.data = rest := by
                refine (ihr hr hrem).unique ?_
                rw [InOrder, hrest] at hr
                rw [hrest]
                exact Drops.here (A := []) hr
              rw [hpost _ _ h]
              rw [hrest] at hdrop
              simpa [hr'] using hdrop

end BSTBase

namespace AVLTree
open Avl
variable {T : Type} {value : T} {c : Cell T} {l r t t' : TreeNode T}

theorem stamped : Stamped Cell.height (updated (T := T)) :=
  ⟨fun _ _ _ => rfl, fun _ _ _ _ _ => rfl⟩

theorem data_updated (c : Cell T) (l r : TreeNode T) : (updated c l r).data = c.data := rfl

theorem Avl.Valid.heightsTrue (h : Exact updated t) : HeightsTrue t := by
  induction t with
  | nil => trivial
  | node c l r ihl ihr =>
    obtain ⟨hc, hl, hr⟩ := h
    refine ⟨?_, ihl hl, ihr hr⟩
    have := Avl.getHeight_eq stamped (t := node c l r) ⟨hc, hl, hr⟩
    exact this

theorem inorder_postRemove (h : postRemove t = some t') :
    t'.inorder Cell.data = t.inorder Cell.data := by
  cases t with
  | nil => rw [← Option.some.inj h]
  | node c l r => exact inorder_rebalance (t := .node (updated c l r) l r) data_updated h

section Insertion
variable [LinearOrder T]

theorem inorder_postInsert (h : postInsert t value = some t') :
    t'.inorder Cell.data = t.inorder Cell.data := by
  cases t with
  | nil => cases h
  | node c l r =>
    simp only [postInsert] at h
    split at h
    · cases l with
      | nil => cases h
      | node x A B =>
        simp only at h
        split at h
        · exact inorder_rotateRight data_updated h
        · split at h
          · obtain ⟨l', hl', h⟩ := Option.bind_eq_some_iff.mp h
            rw [inorder_rotateRight data_updated h, inorder_node, inorder_node,
              inorder_rotateLeft data_updated hl']
            rfl
          · rw [← Option.some.inj h]
            rfl
    · split at h
      · cases r with
        | nil => cases h
        | node x A B =>
          simp only at h
          split at h
          · exact inorder_rotateLeft data_updated h
          · split at h
            · obtain ⟨r', hr', h⟩ := Option.bind_eq_some_iff.mp h
              rw [inorder_rotateLeft data_updated h, inorder_node, inorder_node,
                inorder_rotateRight data_updated hr']
              rfl
            · rw [← Option.some.inj h]
              rfl
      · rw [← Option.some.inj h]
        rfl

/-- The side of the inserted value is the higher one. -/
def Leans (value : T) : TreeNode T → Prop
  | .nil => False
  | .node c l r => (value < c.data ∧ l.height = r.height + 1) ∨
      (c.data < value ∧ r.height = l.height + 1)

theorem getBalance_updated (hl : Valid updated l) (hr : Valid updated r) :
    getBalance (.node (updated c l r) l r) = (l.height : Int) - r.height := by
  rw [← Avl.getHeight_eq stamped hl.exact, ← Avl.getHeight_eq stamped hr.exact]
  rfl

/-- The rotation that the comparison picks is the one that the heights ask for. -/
theorem postInsert_left (hl : Valid updated l) (hr : Valid updated r)
    (hlr : l.height ≤ r.height + 2) (hrl : r.height ≤ l.height + 1)
    (hlean : l.height = r.height + 2 → Leans value l) :
    ∃ t', postInsert (.node c l r) value = some t' ∧ Valid updated t' ∧
      (l.height = r.height + 2 → t'.height = l.height) ∧
      (l.height ≠ r.height + 2 → t' = restamp updated c l r) := by
  have hbal := getBalance_updated (c := c) hl hr
  by_cases hleft : l.height = r.height + 2
  · have hpos : 1 < getBalance (.node (updated c l r) l r) := by omega
    cases l with
    | nil => simp at hleft
    | node x A B =>
      obtain ⟨_, hAB, hBA, hvA, hvB⟩ := valid_node.mp hl
      have hheight := hleft
      rw [BinaryTree.height] at hheight
      rcases hlean hleft with ⟨hlt, hA⟩ | ⟨hgt, hB⟩
      · obtain ⟨hv, hh⟩ := rotateRight_spec (a := c) stamped hl hr (by omega) (by omega)
        refine ⟨_, ?_, hv, by omega, by omega⟩
        simp only [postInsert, hpos, hlt, if_true, rotateRight, rotateRight_node]
        rfl
      · cases B with
        | nil => simp at hB
        | node z B C =>
          obtain ⟨hv, hh⟩ := doubleRight_spec (a := c) stamped hl hr (by omega) (by omega)
          refine ⟨_, ?_, hv, by omega, by omega⟩
          simp only [postInsert, hpos, hgt, hgt.asymm, if_true, if_false, rotateLeft,
            rotateLeft_node, Option.bind_eq_bind, Option.bind_some, rotateRight]
          rfl
  · have hpos : ¬ 1 < getBalance (.node (updated c l r) l r) := by omega
    have hneg : ¬ getBalance (.node (updated c l r) l r) < -1 := by omega
    refine ⟨restamp updated c l r, ?_, valid_restamp stamped hl hr (by omega) hrl, by omega,
      fun _ => rfl⟩
    simp only [postInsert, hpos, hneg, if_false]
    rfl

theorem postInsert_right (hl : Valid updated l) (hr : Valid updated r)
    (hrl : r.height ≤ l.height + 2) (hlr : l.height ≤ r.height + 1)
    (hlean : r.height = l.height + 2 → Leans value r) :
    ∃ t', postInsert (.node c l r) value = some t' ∧ Valid updated t' ∧
      (r.height = l.height + 2 → t'.height = r.height) ∧
      (r.height ≠ l.height + 2 → t' = restamp updated c l r) := by
  have hbal := getBalance_updated (c := c) hl hr
  have hpos : ¬ 1 < getBalance (.node (updated c l r) l r) := by omega
  by_cases hright : r.height = l.height + 2
  · have hneg : getBalance (.node (updated c l r) l r) < -1 := by omega
    cases r with
    | nil => simp at hright
    | node y A B =>
      obtain ⟨_, hAB, hBA, hvA, hvB⟩ := valid_node.mp hr
      have hheight := hright
      rw [BinaryTree.height] at hheight
      rcases hlean hright with ⟨hlt, hA⟩ | ⟨hgt, hB⟩
      · cases A with
        | nil => simp at hA
        | node z A C =>
          obtain ⟨hv, hh⟩ := doubleLeft_spec (a := c) stamped hr hl (by omega) (by omega)
          refine ⟨_, ?_, hv, by omega, by omega⟩
          simp only [postInsert, hpos, hneg, hlt, hlt.asymm, if_true, if_false, rotateRight,
            rotateRight_node, Option.bind_eq_bind, Option.bind_some, rotateLeft]
          rfl
      · obtain ⟨hv, hh⟩ := rotateLeft_spec (a := c) stamped hr hl (by omega) (by omega)
        refine ⟨_, ?_, hv, by omega, by omega⟩
        simp only [postInsert, hpos, hneg, hgt, if_true, if_false, rotateLeft, rotateLeft_node]
        rfl
  · have hneg : ¬ getBalance (.node (updated c l r) l r) < -1 := by omega
    refine ⟨restamp updated c l r, ?_, valid_restamp stamped hl hr hlr (by omega), by omega,
      fun _ => rfl⟩
    simp only [postInsert, hpos, hneg, if_false]
    rfl

/-- An insertion that makes a tree higher leaves it higher on the value's side. -/
theorem insertImpl_valid (value : T) (hv : Valid updated t) :
    ∃ t', BSTBase.insertImpl postInsert value t = some t' ∧ Valid updated t' ∧
      (t'.height = t.height ∨
        t'.height = t.height + 1 ∧ (t'.height = 1 ∨ Leans value t')) := by
  induction t with
  | nil =>
    exact ⟨_, rfl, valid_node.mpr ⟨rfl, by simp, by simp, valid_nil, valid_nil⟩, by simp⟩
  | node c l r ihl ihr =>
    obtain ⟨hc, hlr, hrl, hl, hr⟩ := valid_node.mp hv
    unfold BSTBase.insertImpl
    split
    · rename_i hlt
      obtain ⟨l', hins, hl', hgrow⟩ := ihl hl
      obtain ⟨t', hpost, hv', htwo, hone⟩ := postInsert_left (c := c) hl' hr
        (by omega) (by omega) (by
          intro hh
          rcases hgrow with hsame | ⟨_, hleaf | hlean⟩
          · omega
          · omega
          · exact hlean)
      refine ⟨t', by simp [hins, hpost], hv', ?_⟩
      rw [BinaryTree.height]
      by_cases hh : l'.height = r.height + 2
      · left
        rw [htwo hh]
        omega
      · rw [hone hh, height_restamp]
        by_cases hup : l'.height = l.height + 1 ∧ l.height = r.height
        · right
          refine ⟨by omega, .inr (.inl ⟨hlt, by omega⟩)⟩
        · left
          omega
    · split
      · rename_i hgt
        obtain ⟨r', hins, hr', hgrow⟩ := ihr hr
        obtain ⟨t', hpost, hv', htwo, hone⟩ := postInsert_right (c := c) hl hr'
          (by omega) (by omega) (by
            intro hh
            rcases hgrow with hsame | ⟨_, hleaf | hlean⟩
            · omega
            · omega
            · exact hlean)
        refine ⟨t', by simp [hins, hpost], hv', ?_⟩
        rw [BinaryTree.height]
        by_cases hh : r'.height = l.height + 2
        · left
          rw [htwo hh]
          omega
        · rw [hone hh, height_restamp]
          by_cases hup : r'.height = r.height + 1 ∧ l.height = r.height
          · right
            refine ⟨by omega, .inr (.inr ⟨hgt, by omega⟩)⟩
          · left
            omega
      · exact ⟨_, rfl, hv, .inl rfl⟩

end Insertion

section Removal

theorem postRemove_spec (c : Cell T) (hl : Valid updated l) (hr : Valid updated r)
    (hlr : l.height ≤ r.height + 2) (hrl : r.height ≤ l.height + 2) :
    ∃ t', postRemove (.node c l r) = some t' ∧ Valid updated t' ∧
      max l.height r.height ≤ t'.height ∧ t'.height ≤ max l.height r.height + 1 ∧
      (l.height ≤ r.height + 1 → r.height ≤ l.height + 1 →
        t'.height = max l.height r.height + 1) :=
  rebalance_spec stamped c hl hr hlr hrl

theorem removeImpl_valid [LinearOrder T] (value : T) (hv : Valid updated t) :
    ∃ t', BSTBase.removeImpl postRemove value t = some t' ∧ Valid updated t' ∧
      (t'.height = t.height ∨ t'.height + 1 = t.height) := by
  induction t generalizing value with
  | nil => exact ⟨.nil, rfl, valid_nil, .inl rfl⟩
  | node c l r ihl ihr =>
    obtain ⟨hc, hlr, hrl, hl, hr⟩ := valid_node.mp hv
    unfold BSTBase.removeImpl
    rw [BinaryTree.height]
    split
    · obtain ⟨l', hrem, hl', hh⟩ := ihl value hl
      obtain ⟨t', hpost, hv', hlow, hhigh, hflat⟩ :=
        postRemove_spec c hl' hr (by omega) (by omega)
      exact ⟨t', by simp [hrem, hpost], hv', by omega⟩
    · split
      · obtain ⟨r', hrem, hr', hh⟩ := ihr value hr
        obtain ⟨t', hpost, hv', hlow, hhigh, hflat⟩ :=
          postRemove_spec c hl hr' (by omega) (by omega)
        exact ⟨t', by simp [hrem, hpost], hv', by omega⟩
      · split
        · rename_i hnull
          rw [Bool.and_eq_true, isNull_iff, isNull_iff] at hnull
          obtain ⟨rfl, rfl⟩ := hnull
          exact ⟨.nil, rfl, valid_nil, .inr rfl⟩
        · split
          · rename_i hnull
            rw [isNull_iff] at hnull
            subst hnull
            exact ⟨r, rfl, hr, .inr (by simp)⟩
          · split
            · rename_i hnull
              rw [isNull_iff] at hnull
              subst hnull
              exact ⟨l, rfl, hl, .inr (by simp)⟩
            · rename_i hnull
              rw [isNull_iff] at hnull
              obtain ⟨s, _, hmin, _⟩ := exists_findMin Cell.data hnull
              obtain ⟨r', hrem, hr', hh⟩ := ihr s.data hr
              obtain ⟨t', hpost, hv', hlow, hhigh, hflat⟩ :=
                postRemove_spec { c with data := s.data } hl hr' (by omega) (by omega)
              exact ⟨t', by simp [hmin, hrem, hpost], hv', by omega⟩

end Removal

section Runs
variable [LinearOrder T]

/-- A tree that is the set `s`. -/
structure Holds (t : AVLTree T) (s : Finset T) : Prop where
  valid : Valid updated t.root
  sorted : t.inorder.Pairwise (· < ·)
  mem (k : T) : k ∈ t.inorder ↔ k ∈ s

theorem create_holds : Holds (create : AVLTree T) ∅ :=
  ⟨valid_nil, List.Pairwise.nil, by simp [create, inorder]⟩

theorem apply_spec (t : AVLTree T) (s : Finset T) (op : Op T) (h : Holds t s) :
    ∃ t', apply t op = some t' ∧ Holds t' (effect s op) := by
  cases op with
  | insert value =>
    obtain ⟨root, hins, hv, _⟩ := insertImpl_valid value h.valid
    have hadds := BSTBase.insertImpl_adds (fun _ _ => inorder_postInsert) h.sorted hins
    refine ⟨⟨root⟩, by simp [apply, insert, hins], hv, hadds.sorted, ?_⟩
    intro k
    rw [effect, Finset.mem_insert, ← h.mem]
    exact hadds.mem k
  | remove value =>
    obtain ⟨root, hrem, hv, _⟩ := removeImpl_valid value h.valid
    have hdrops := BSTBase.removeImpl_drops (fun _ _ => inorder_postRemove) h.sorted hrem
    refine ⟨⟨root⟩, by simp [apply, remove, hrem], hv, hdrops.sorted, ?_⟩
    intro k
    rw [effect, Finset.mem_erase, ← h.mem]
    exact hdrops.mem k

theorem Holds.find_eq {t : AVLTree T} {s : Finset T} (h : Holds t s) (value : T) :
    t.find value = decide (value ∈ s) := by
  rw [Bool.eq_iff_iff, decide_eq_true_iff, ← h.mem]
  exact isSome_findNode h.sorted

theorem Holds.findValue_eq {t : AVLTree T} {s : Finset T} (h : Holds t s) (value : T) :
    t.findValue value = if value ∈ s then some value else none := by
  have hfind := h.find_eq value
  rw [findValue]
  unfold find at hfind
  cases hnode : t.root.findNode value with
  | none =>
    rw [hnode] at hfind
    simp at hfind
    simp [hfind]
  | some c =>
    rw [hnode] at hfind
    simp at hfind
    simp [hfind, findNode_some hnode]

/-- After any run the tree is the set of the values inserted and not since
removed, with true heights and balanced. -/
theorem run_avl_set (ops : List (Op T)) :
    ∃ t, run ops = some t ∧ t.inorder.Pairwise (· < ·) ∧
      (∀ k, k ∈ t.inorder ↔ k ∈ contents ops) ∧
      (∀ k, t.find k = decide (k ∈ contents ops)) ∧
      (∀ k, t.findValue k = if k ∈ contents ops then some k else none) ∧
      HeightsTrue t.root ∧ Balanced t.root := by
  obtain ⟨t, hrun, h⟩ := Run.follows apply_spec ops create_holds
  exact ⟨t, hrun, h.sorted, h.mem, h.find_eq, h.findValue_eq, Avl.Valid.heightsTrue h.valid.exact,
    h.valid.balanced⟩

end Runs

end AVLTree
end Cppforge.Balanced
