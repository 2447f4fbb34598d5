import Mathlib.Data.List.Sort
import Mathlib.Tactic.Tauto
import Mathlib.Data.Tree.Basic
import Mathlib.Order.Basic

/-! Sets as strictly sorted lists, taken apart at one of their keys, and search trees, some of whose
entries carry a priority, the highest at the top. -/

namespace SortedKeys

variable {κ : Type} [LinearOrder κ] {v m k : κ} {ks ks' A A' B B' : List κ}

/-- `ks'` is `ks` with `v`. -/
structure Adds (v : κ) (ks ks' : List κ) : Prop where
  sorted : ks'.Pairwise (· < ·)
  mem (k : κ) : k ∈ ks' ↔ k = v ∨ k ∈ ks

/-- `ks'` is `ks` without `v`. -/
structure Drops (v : κ) (ks ks' : List κ) : Prop where
  sorted : ks'.Pairwise (· < ·)
  mem (k : κ) : k ∈ ks' ↔ k ≠ v ∧ k ∈ ks

theorem pairwise_mid : (A ++ m :: B).Pairwise (· < ·) ↔
    A.Pairwise (· < ·) ∧ B.Pairwise (· < ·) ∧ (∀ k ∈ A, k < m) ∧ ∀ k ∈ B, m < k := by
  simp only [List.pairwise_append, List.pairwise_cons, List.mem_cons, forall_eq_or_imp]
  constructor
  · rintro ⟨hA, ⟨hmB, hB⟩, hAB⟩
    exact ⟨hA, hB, fun k hk => (hAB k hk).1, hmB⟩
  · rintro ⟨hA, hB, hAm, hmB⟩
    exact ⟨hA, ⟨hmB, hB⟩, fun k hk => ⟨hAm k hk, fun j hj => (hAm k hk).trans (hmB j hj)⟩⟩

theorem Adds.left (h : Adds v A A') (ho : (A ++ m :: B).Pairwise (· < ·)) (hv : v < m) :
    Adds v (A ++ m :: B) (A' ++ m :: B) := by
  obtain ⟨_, hB, hAm, hmB⟩ := pairwise_mid.mp ho
  refine ⟨pairwise_mid.mpr ⟨h.sorted, hB, ?_, hmB⟩, ?_⟩
  · intro k hk
    rcases (h.mem k).mp hk with rfl | hk
    · exact hv
    · exact hAm k hk
  · intro k
    simp only [List.mem_append, h.mem, or_assoc]

theorem Adds.right (h : Adds v B B') (ho : (A ++ m :: B).Pairwise (· < ·)) (hv : m < v) :
    Adds v (A ++ m :: B) (A ++ m :: B') := by
  obtain ⟨hA, _, hAm, hmB⟩ := pairwise_mid.mp ho
  refine ⟨pairwise_mid.mpr ⟨hA, h.sorted, hAm, ?_⟩, ?_⟩
  · intro k hk
    rcases (h.mem k).mp hk with rfl | hk
    · exact hv
    · exact hmB k hk
  · intro k
    simp only [List.mem_append, List.mem_cons, h.mem]
    tauto

theorem Adds.empty (v : κ) : Adds v [] [v] := ⟨List.pairwise_singleton _ v, by simp⟩

theorem Adds.present (ho : ks.Pairwise (· < ·)) (hv : v ∈ ks) : Adds v ks ks := by
  refine ⟨ho, fun k => ⟨.inr, ?_⟩⟩
  rintro (rfl | hk)
  · exact hv
  · exact hk

theorem Drops.left (h : Drops v A A') (ho : (A ++ m :: B).Pairwise (· < ·)) (hv : v < m) :
    Drops v (A ++ m :: B) (A' ++ m :: B) := by
  obtain ⟨_, hB, hAm, hmB⟩ := pairwise_mid.mp ho
  refine ⟨pairwise_mid.mpr ⟨h.sorted, hB, fun k hk => hAm k ((h.mem k).mp hk).2, hmB⟩, ?_⟩
  intro k
  have hne : k = m ∨ k ∈ B → k ≠ v := by
    rintro (rfl | hk)
    · exact hv.ne'
    · exact (hv.trans (hmB k hk)).ne'
  simp only [List.mem_append, List.mem_cons, h.mem]
  tauto

theorem Drops.right (h : Drops v B B') (ho : (A ++ m :: B).Pairwise (· < ·)) (hv : m < v) :
    Drops v (A ++ m :: B) (A ++ m :: B') := by
  obtain ⟨hA, _, hAm, hmB⟩ := pairwise_mid.mp ho
  refine ⟨pairwise_mid.mpr ⟨hA, h.sorted, hAm, fun k hk => hmB k ((h.mem k).mp hk).2⟩, ?_⟩
  intro k
  have hne : k ∈ A ∨ k = m → k ≠ v := by
    rintro (hk | rfl)
    · exact ((hAm k hk).trans hv).ne
    · exact hv.ne
  simp only [List.mem_append, List.mem_cons, h.mem]
  tauto

theorem Drops.here (ho : (A ++ m :: B).Pairwise (· < ·)) : Drops m (A ++ m :: B) (A ++ B) := by
  obtain ⟨_, _, hAm, hmB⟩ := pairwise_mid.mp ho
  refine ⟨ho.sublist ((List.sublist_cons_self m B).append_left A), ?_⟩
  intro k
  have hA : k ∈ A → k ≠ m := fun hk => (hAm k hk).ne
  have hB : k ∈ B → k ≠ m := fun hk => (hmB k hk).ne'
  simp only [List.mem_append, List.mem_cons]
  tauto

theorem Drops.absent (ho : ks.Pairwise (· < ·)) (hv : v ∉ ks) : Drops v ks ks := by
  refine ⟨ho, fun k => ⟨fun hk => ⟨?_, hk⟩, And.right⟩⟩
  rintro rfl
  exact hv hk

/-- There is one list without the key. -/
theorem Adds.length (h : Adds v ks ks') (ho : ks.Pairwise (· < ·)) (hv : v ∉ ks) :
    ks'.length = ks.length + 1 := by
  have hnodup : (v :: ks).Nodup := List.nodup_cons.mpr ⟨hv, ho.imp fun hlt => hlt.ne⟩
  have hperm : ks'.Perm (v :: ks) :=
    (List.perm_ext_iff_of_nodup (h.sorted.imp fun hlt => hlt.ne) hnodup).mpr fun k => by
      simp [h.mem]
  exact hperm.length_eq

theorem Drops.length (h : Drops v ks ks') (ho : ks.Pairwise (· < ·)) (hv : v ∈ ks) :
    ks'.length + 1 = ks.length := by
  have hnot : v ∉ ks' := fun hk => ((h.mem v).mp hk).1 rfl
  have hadd : Adds v ks' ks := by
    refine ⟨ho, fun k => ?_⟩
    rw [h.mem]
    by_cases hk : k = v
    · simp [hk, hv]
    · simp [hk]
  exact (hadd.length h.sorted hnot).symm

theorem Drops.unique (h : Drops v ks A) (h' : Drops v ks B) : A = B :=
  h.sorted.eq_of_mem_iff h'.sorted (fun k => (h.mem k).trans (h'.mem k).symm)

end SortedKeys

namespace BinaryTree

variable {α κ : Type} {f : α → κ} {lt : κ → κ → Prop} {a x y : α} {l r s t t' A B C : BinaryTree α}

def isNull : BinaryTree α → Bool
  | nil => true
  | node _ _ _ => false

@[simp] theorem isNull_node : (node a l r).isNull = false := rfl

@[simp] theorem isNull_iff : t.isNull = true ↔ t = nil := by
  cases t <;> simp [isNull]

/-- What the nodes hold, from left to right. -/
def inorder (f : α → κ) : BinaryTree α → List κ
  | nil => []
  | node a l r => l.inorder f ++ f a :: r.inorder f

@[simp] theorem inorder_nil : (nil : BinaryTree α).inorder f = [] := rfl

@[simp] theorem inorder_node :
    (node a l r).inorder f = l.inorder f ++ f a :: r.inorder f := rfl

theorem map_inorder {β : Type} (g : κ → β) (t : BinaryTree α) :
    (t.inorder f).map g = t.inorder (fun a => g (f a)) := by
  induction t with
  | nil => rfl
  | node a l r ihl ihr => simp only [inorder_node, List.map_append, List.map_cons, ihl, ihr]

theorem length_inorder (t : BinaryTree α) : (t.inorder f).length = t.numNodes := by
  induction t with
  | nil => rfl
  | node a l r ihl ihr =>
    simp only [inorder_node, List.length_append, List.length_cons, ihl, ihr, numNodes]
    omega

section Order

/-- The keys stand in order from left to right. -/
def InOrder (lt : κ → κ → Prop) (f : α → κ) (t : BinaryTree α) : Prop := (t.inorder f).Pairwise lt

theorem inOrder_nil : InOrder lt f nil := List.Pairwise.nil

theorem inOrder_node [IsTrans κ lt] : InOrder lt f (node a l r) ↔
    InOrder lt f l ∧ InOrder lt f r ∧ (∀ k ∈ l.inorder f, lt k (f a)) ∧
      ∀ k ∈ r.inorder f, lt (f a) k := by
  simp only [InOrder, inorder_node, List.pairwise_append, List.pairwise_cons, List.mem_cons,
    forall_eq_or_imp]
  constructor
  · rintro ⟨hl, ⟨har, hr⟩, hlr⟩
    exact ⟨hl, hr, fun k hk => (hlr k hk).1, har⟩
  · rintro ⟨hl, hr, hla, har⟩
    exact ⟨hl, ⟨har, hr⟩, fun k hk => ⟨hla k hk, fun m hm => trans_of lt (hla k hk) (har m hm)⟩⟩

end Order

section Rotation
variable {mk : α → BinaryTree α → BinaryTree α → BinaryTree α}

/-- Rotations; `mk` puts a node on its new children, `none` is a missing child. -/
def rotateRight (mk : α → BinaryTree α → BinaryTree α → BinaryTree α) :
    BinaryTree α → Option (BinaryTree α)
  | node y (node x A B) C => some (mk x A (mk y B C))
  | _ => none

def rotateLeft (mk : α → BinaryTree α → BinaryTree α → BinaryTree α) :
    BinaryTree α → Option (BinaryTree α)
  | node x A (node y B C) => some (mk y (mk x A B) C)
  | _ => none

@[simp] theorem rotateRight_node :
    rotateRight mk (node y (node x A B) C) = some (mk x A (mk y B C)) := rfl

@[simp] theorem rotateLeft_node :
    rotateLeft mk (node x A (node y B C)) = some (mk y (mk x A B) C) := rfl

theorem rotateRight_cases (h : rotateRight mk t = some t') :
    ∃ x y A B C, t = node y (node x A B) C ∧ t' = mk x A (mk y B C) := by
  unfold rotateRight at h
  split at h
  · exact ⟨_, _, _, _, _, rfl, (Option.some.inj h).symm⟩
  · cases h

theorem rotateLeft_cases (h : rotateLeft mk t = some t') :
    ∃ x y A B C, t = node x A (node y B C) ∧ t' = mk y (mk x A B) C := by
  unfold rotateLeft at h
  split at h
  · exact ⟨_, _, _, _, _, rfl, (Option.some.inj h).symm⟩
  · cases h

end Rotation

section Search
variable [LinearOrder κ] {key : κ}

def findNode (f : α → κ) (key : κ) : BinaryTree α → Option α
  | nil => none
  | node a l r =>
    if key = f a then some a else if key < f a then l.findNode f key else r.findNode f key

theorem findNode_some (h : t.findNode f key = some a) : f a = key := by
  induction t with
  | nil => cases h
  | node b l r ihl ihr =>
    unfold findNode at h
    split at h
    · rename_i hb
      rw [← Option.some.inj h, hb]
    · split at h
      · exact ihl h
      · exact ihr h

theorem mem_findNode {β : Type} (g : α → β) (h : t.findNode f key = some a) :
    g a ∈ t.inorder g := by
  induction t with
  | nil => cases h
  | node b l r ihl ihr =>
    rw [inorder_node, List.mem_append, List.mem_cons]
    unfold findNode at h
    split at h
    · exact .inr (.inl (congrArg g (Option.some.inj h).symm))
    · split at h
      · exact .inl (ihl h)
      · exact .inr (.inr (ihr h))

/-- Keys before the root's are on the left. -/
theorem mem_left (ho : InOrder (· < ·) f (node a l r)) (hlt : key < f a) :
    key ∈ (node a l r).inorder f ↔ key ∈ l.inorder f := by
  obtain ⟨_, _, _, har⟩ := inOrder_node.mp ho
  rw [inorder_node, List.mem_append, List.mem_cons]
  refine ⟨?_, .inl⟩
  rintro (hk | rfl | hk)
  · exact hk
  · exact absurd hlt (lt_irrefl _)
  · exact absurd hlt (har key hk).asymm

theorem mem_right (ho : InOrder (· < ·) f (node a l r)) (hlt : f a < key) :
    key ∈ (node a l r).inorder f ↔ key ∈ r.inorder f := by
  obtain ⟨_, _, hla, _⟩ := inOrder_node.mp ho
  rw [inorder_node, List.mem_append, List.mem_cons]
  refine ⟨?_, fun hk => .inr (.inr hk)⟩
  rintro (hk | rfl | hk)
  · exact absurd hlt (hla key hk).asymm
  · exact absurd hlt (lt_irrefl _)
  · exact hk

/-- The way down finds every key of the tree. -/
theorem isSome_findNode (h : InOrder (· < ·) f t) :
    (t.findNode f key).isSome = true ↔ key ∈ t.inorder f := by
  induction t with
  | nil => simp [findNode]
  | node b l r ihl ihr =>
    obtain ⟨hl, hr, _, _⟩ := inOrder_node.mp h
    unfold findNode
    split
    · rename_i hb
      simp [hb]
    · rename_i hb
      split
      · rename_i hlt
        rw [ihl hl, mem_left h hlt]
      · rename_i hlt
        rw [ihr hr, mem_right h (lt_of_le_of_ne (not_lt.mp hlt) (Ne.symm hb))]

end Search

/-- The node at the end of the left branch. -/
def findMin : BinaryTree α → Option α
  | nil => none
  | node a nil _ => some a
  | node _ l _ => l.findMin

/-- It holds the first key. -/
theorem exists_findMin (f : α → κ) (h : t ≠ nil) :
    ∃ a rest, t.findMin = some a ∧ t.inorder f = f a :: rest := by
  induction t with
  | nil => exact absurd rfl h
  | node b l r ihl _ =>
    cases l with
    | nil => exact ⟨b, r.inorder f, rfl, rfl⟩
    | node c A B =>
      obtain ⟨a, rest, hmin, hkeys⟩ := ihl nofun
      refine ⟨a, rest ++ f b :: r.inorder f, hmin, ?_⟩
      rw [inorder_node, hkeys, List.cons_append]

section Priorities
variable {π : Type} {p : α → π} {k : κ}

theorem key_mem (f : α → κ) (h : x ∈ t.inorder id) : f x ∈ t.inorder f := by
  rw [← map_inorder f t] at *
  exact List.mem_map_of_mem h

theorem exists_mem (h : k ∈ t.inorder f) : ∃ x ∈ t.inorder id, f x = k := by
  have hmap : (t.inorder id).map f = t.inorder f := map_inorder f t
  rw [← hmap] at h
  exact List.mem_map.mp h

variable [LinearOrder κ] [PartialOrder π]

theorem entry_left (ho : InOrder (· < ·) f (node a l r)) :
    x ∈ l.inorder id ↔ x ∈ (node a l r).inorder id ∧ f x < f a := by
  obtain ⟨_, _, hla, har⟩ := inOrder_node.mp ho
  rw [inorder_node, List.mem_append, List.mem_cons]
  constructor
  · intro hx
    exact ⟨.inl hx, hla _ (key_mem f hx)⟩
  · rintro ⟨hx | rfl | hx, hlt⟩
    · exact hx
    · exact absurd hlt (lt_irrefl _)
    · exact absurd hlt (har _ (key_mem f hx)).asymm

theorem entry_right (ho : InOrder (· < ·) f (node a l r)) :
    x ∈ r.inorder id ↔ x ∈ (node a l r).inorder id ∧ f a < f x := by
  obtain ⟨_, _, hla, har⟩ := inOrder_node.mp ho
  rw [inorder_node, List.mem_append, List.mem_cons]
  constructor
  · intro hx
    exact ⟨.inr (.inr hx), har _ (key_mem f hx)⟩
  · rintro ⟨hx | rfl | hx, hlt⟩
    · exact absurd hlt (hla _ (key_mem f hx)).asymm
    · exact absurd hlt (lt_irrefl _)
    · exact hx

/-- No entry has a higher priority than one above it. -/
def MaxHeap (p : α → π) : BinaryTree α → Prop
  | nil => True
  | node a l r => (∀ x ∈ l.inorder id, p x ≤ p a) ∧ (∀ x ∈ r.inorder id, p x ≤ p a) ∧
      l.MaxHeap p ∧ r.MaxHeap p

theorem MaxHeap.le_root (h : MaxHeap p (node a l r)) (hx : x ∈ (node a l r).inorder id) :
    p x ≤ p a := by
  obtain ⟨hl, hr, _, _⟩ := h
  rw [inorder_node, List.mem_append, List.mem_cons] at hx
  rcases hx with hx | rfl | hx
  · exact hl x hx
  · exact le_refl _
  · exact hr x hx

/-- With distinct priorities there is one such tree over the same entries. -/
theorem MaxHeap.unique (h : MaxHeap p t) (h' : MaxHeap p t') (ho : InOrder (· < ·) f t)
    (ho' : InOrder (· < ·) f t') (hmem : ∀ x, x ∈ t.inorder id ↔ x ∈ t'.inorder id)
    (hp : ∀ x ∈ t.inorder id, ∀ y ∈ t.inorder id, p x = p y → x = y) : t = t' := by
  induction t generalizing t' with
  | nil =>
    cases t' with
    | nil => rfl
    | node a l r => cases (hmem a).mpr (by simp)
  | node a l r ihl ihr =>
    cases t' with
    | nil => cases (hmem a).mp (by simp)
    | node a' l' r' =>
      have ha' : a' ∈ (node a l r).inorder id := (hmem a').mpr (by simp)
      -- each root is above the other
      obtain rfl : a = a' := by
        refine hp a (by simp) a' ha' (le_antisymm ?_ (h.le_root ha'))
        exact h'.le_root ((hmem a).mp (by simp))
      obtain ⟨_, _, hl, hr⟩ := h
      obtain ⟨_, _, hl', hr'⟩ := h'
      obtain ⟨hol, hor, _, _⟩ := inOrder_node.mp ho
      obtain ⟨hol', hor', _, _⟩ := inOrder_node.mp ho'
      have hleft : l = l' := by
        refine ihl hl hl' hol hol' ?_ ?_
        · intro x
          rw [entry_left ho, entry_left ho', hmem]
        · intro x hx y hy
          exact hp x ((entry_left ho).mp hx).1 y ((entry_left ho).mp hy).1
      have hright : r = r' := by
        refine ihr hr hr' hor hor' ?_ ?_
        · intro x
          rw [entry_right ho, entry_right ho', hmem]
        · intro x hx y hy
          exact hp x ((entry_right ho).mp hx).1 y ((entry_right ho).mp hy).1
      rw [hleft, hright]

end Priorities

end BinaryTree
