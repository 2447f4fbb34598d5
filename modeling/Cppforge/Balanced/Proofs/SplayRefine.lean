import Cppforge.Balanced.SearchTrees
import Cppforge.Lib.Run
import Mathlib.Data.Finset.Card

namespace Cppforge.Balanced.SplayTree
open BinaryTree SortedKeys

variable {T : Type} {value a : T} {l r t t' : BinaryTree T}

/-- The last rotation of a step to the left. -/
theorem raise_left (t : BinaryTree T) :
    ∃ t', (if t.left.isNull then some t else rotateRight t) = some t' ∧
      t'.inorder id = t.inorder id := by
  cases t with
  | nil => exact ⟨.nil, rfl, rfl⟩
  | node a l r =>
    cases l with
    | nil => exact ⟨_, rfl, rfl⟩
    | node b A B => exact ⟨.node b A (.node a B r), rfl, by simp⟩

theorem raise_right (t : BinaryTree T) :
    ∃ t', (if t.right.isNull then some t else rotateLeft t) = some t' ∧
      t'.inorder id = t.inorder id := by
  cases t with
  | nil => exact ⟨.nil, rfl, rfl⟩
  | node a l r =>
    cases r with
    | nil => exact ⟨_, rfl, rfl⟩
    | node b A B => exact ⟨.node b (.node a l A) B, rfl, by simp⟩

section Splay
variable [LinearOrder T]

/-- The search leaves the values where they were, in order. -/
theorem splay_inorder (value : T) (t : BinaryTree T) :
    ∃ t', splay value t = some t' ∧ t'.inorder id = t.inorder id := by
  induction t using splay.induct value with
  | case1 => exact ⟨.nil, by unfold splay; simp, rfl⟩
  | case2 l r => exact ⟨.node value l r, by unfold splay; simp, rfl⟩
  | case3 a r hne hlt => exact ⟨.node a .nil r, by unfold splay; simp [hne, hlt], rfl⟩
  | case4 a r hne hlt b A B hb ih =>
    obtain ⟨A', hA, hkeys⟩ := ih
    obtain ⟨t', ht, hkeys'⟩ := raise_left (.node b A' (.node a B r))
    refine ⟨t', ?_, ?_⟩
    · unfold splay
      simpa [hne, hlt, hb, hA, rotateRight] using ht
    · rw [hkeys']
      simp [hkeys]
  | case5 a r hne hlt b A B hb hb' ih =>
    obtain ⟨B', hB, hkeys⟩ := ih
    cases B' with
    | nil =>
      obtain ⟨t', ht, hkeys'⟩ := raise_left (.node a (.node b A .nil) r)
      refine ⟨t', ?_, ?_⟩
      · unfold splay
        simpa [hne, hlt, hb, hb', hB, isNull] using ht
      · rw [hkeys']
        simp [← hkeys]
    | node c B C =>
      obtain ⟨t', ht, hkeys'⟩ := raise_left (.node a (.node c (.node b A B) C) r)
      refine ⟨t', ?_, ?_⟩
      · unfold splay
        simpa [hne, hlt, hb, hb', hB, rotateLeft] using ht
      · rw [hkeys']
        simp [← hkeys]
  | case6 a r hne hlt b A B hb hb' =>
    obtain ⟨t', ht, hkeys⟩ := raise_left (.node a (.node b A B) r)
    exact ⟨t', by unfold splay; simpa [hne, hlt, hb, hb'] using ht, hkeys⟩
  | case7 a l hne hlt => exact ⟨.node a l .nil, by unfold splay; simp [hne, hlt], rfl⟩
  | case8 a l hne hlt b A B hb ih =>
    obtain ⟨B', hB, hkeys⟩ := ih
    obtain ⟨t', ht, hkeys'⟩ := raise_right (.node b (.node a l A) B')
    refine ⟨t', ?_, ?_⟩
    · unfold splay
      simpa [hne, hlt, hb, hB, rotateLeft] using ht
    · rw [hkeys']
      simp [hkeys]
  | case9 a l hne hlt b A B hb hb' ih =>
    obtain ⟨A', hA, hkeys⟩ := ih
    cases A' with
    | nil =>
      obtain ⟨t', ht, hkeys'⟩ := raise_right (.node a l (.node b .nil B))
      refine ⟨t', ?_, ?_⟩
      · unfold splay
        simpa [hne, hlt, hb, hb', hA, isNull] using ht
      · rw [hkeys']
        simp [← hkeys]
    | node c A C =>
      obtain ⟨t', ht, hkeys'⟩ := raise_right (.node a l (.node c A (.node b C B)))
      refine ⟨t', ?_, ?_⟩
      · unfold splay
        simpa [hne, hlt, hb, hb', hA, rotateRight] using ht
      · rw [hkeys']
        simp [← hkeys]
  | case10 a l hne hlt b A B hb hb' =>
    obtain ⟨t', ht, hkeys⟩ := raise_right (.node a l (.node b A B))
    exact ⟨t', by unfold splay; simpa [hne, hlt, hb, hb'] using ht, hkeys⟩

/-- A value that is there comes to the root. -/
theorem splay_root (ho : InOrder (· < ·) id t) (hv : value ∈ t.inorder id) :
    ∃ l r, splay value t = some (.node value l r) := by
  induction t using splay.induct value with
  | case1 => cases hv
  | case2 l r => exact ⟨l, r, by unfold splay; simp⟩
  | case3 a r hne hlt => cases (mem_left ho hlt).mp hv
  | case4 a r hne hlt b A B hb ih =>
    obtain ⟨hl, _, _, _⟩ := inOrder_node.mp ho
    obtain ⟨hA, _, _, _⟩ := inOrder_node.mp hl
    obtain ⟨A₁, A₂, hsplay⟩ := ih hA ((mem_left hl hb).mp ((mem_left ho hlt).mp hv))
    exact ⟨A₁, .node b A₂ (.node a B r), by unfold splay; simp [hne, hlt, hb, hsplay, rotateRight]⟩
  | case5 a r hne hlt b A B hb hb' ih =>
    obtain ⟨hl, _, _, _⟩ := inOrder_node.mp ho
    obtain ⟨_, hB, _, _⟩ := inOrder_node.mp hl
    obtain ⟨B₁, B₂, hsplay⟩ := ih hB ((mem_right hl hb').mp ((mem_left ho hlt).mp hv))
    exact ⟨.node b A B₁, .node a B₂ r,
      by unfold splay; simp [hne, hlt, hb, hb', hsplay, rotateLeft, rotateRight]⟩
  | case6 a r hne hlt b A B hb hb' =>
    obtain rfl : b = value := le_antisymm (not_lt.mp hb) (not_lt.mp hb')
    exact ⟨A, .node a B r, by unfold splay; simp [hne, hlt, rotateRight]⟩
  | case7 a l hne hlt => cases (mem_right ho (lt_of_le_of_ne (not_lt.mp hlt) hne)).mp hv
  | case8 a l hne hlt b A B hb ih =>
    have hgt : a < value := lt_of_le_of_ne (not_lt.mp hlt) hne
    obtain ⟨_, hr, _, _⟩ := inOrder_node.mp ho
    obtain ⟨_, hB, _, _⟩ := inOrder_node.mp hr
    obtain ⟨B₁, B₂, hsplay⟩ := ih hB ((mem_right hr hb).mp ((mem_right ho hgt).mp hv))
    exact ⟨.node b (.node a l A) B₁, B₂, by unfold splay; simp [hne, hlt, hb, hsplay, rotateLeft]⟩
  | case9 a l hne hlt b A B hb hb' ih =>
    have hgt : a < value := lt_of_le_of_ne (not_lt.mp hlt) hne
    obtain ⟨_, hr, _, _⟩ := inOrder_node.mp ho
    obtain ⟨hA, _, _, _⟩ := inOrder_node.mp hr
    obtain ⟨A₁, A₂, hsplay⟩ := ih hA ((mem_left hr hb').mp ((mem_right ho hgt).mp hv))
    exact ⟨.node a l A₁, .node b A₂ B,
      by unfold splay; simp [hne, hlt, hb, hb', hsplay, rotateLeft, rotateRight]⟩
  | case10 a l hne hlt b A B hb hb' =>
    obtain rfl : b = value := le_antisymm (not_lt.mp hb') (not_lt.mp hb)
    exact ⟨.node a l A, B, by unfold splay; simp [hne, hlt, rotateLeft]⟩

/-- A search for more than every value ends with nothing on the right. -/
theorem splay_max (hv : ∀ k ∈ t.inorder id, k < value) (h : splay value t = some t') :
    t'.right = .nil := by
  induction t using splay.induct value generalizing t' with
  | case1 =>
    unfold splay at h
    rw [← Option.some.inj h]
    rfl
  | case2 l r => exact absurd (hv value (by simp)) (lt_irrefl value)
  | case3 a r hne hlt => exact absurd hlt (hv a (by simp)).asymm
  | case4 a r hne hlt b A B hb ih => exact absurd hlt (hv a (by simp)).asymm
  | case5 a r hne hlt b A B hb hb' ih => exact absurd hlt (hv a (by simp)).asymm
  | case6 a r hne hlt b A B hb hb' => exact absurd hlt (hv a (by simp)).asymm
  | case7 a l hne hlt =>
    unfold splay at h
    simp only [hne, hlt, if_false, Option.some.injEq] at h
    rw [← h]
    rfl
  | case8 a l hne hlt b A B hb ih =>
    obtain ⟨B', hB, _⟩ := splay_inorder value B
    have hnil : B'.right = .nil := ih (fun k hk => hv k (by simp [hk])) hB
    unfold splay at h
    simp only [hne, hlt, hb, hB, if_true, if_false, rotateLeft, rotateLeft_node,
      Option.bind_eq_bind, Option.bind_some] at h
    cases B' with
    | nil =>
      simp only [BinaryTree.right, isNull, if_true, Option.some.injEq] at h
      rw [← h]
      rfl
    | node c C D =>
      simp only [BinaryTree.right, isNull_node, Bool.false_eq_true, if_false, rotateLeft_node,
        Option.some.injEq] at h
      rw [← h]
      exact hnil
  | case9 a l hne hlt b A B hb hb' ih => exact absurd (hv b (by simp)) hb
  | case10 a l hne hlt b A B hb hb' => exact absurd (hv b (by simp)) hb

/-- The sizes count the nodes made. -/
theorem insertImpl_spec (ho : InOrder (· < ·) id t) (size : Nat) :
    ∃ t' l r n, insertImpl value t size = some (t', n) ∧ t' = .node value l r ∧
      Adds value (t.inorder id) (t'.inorder id) ∧
      n = if value ∈ t.inorder id then size else size + 1 := by
  induction t with
  | nil => exact ⟨_, .nil, .nil, size + 1, rfl, rfl, Adds.empty value, by simp⟩
  | node a l r ihl ihr =>
    obtain ⟨hl, hr, _, _⟩ := inOrder_node.mp ho
    unfold insertImpl
    split
    · rename_i hlt
      obtain ⟨l', _, _, n, hins, _, hadds, hn⟩ := ihl hl
      have hadds' : Adds value ((node a l r).inorder id) ((node a l' r).inorder id) :=
        hadds.left ho hlt
      obtain ⟨A, B, hsplay⟩ := splay_root hadds'.sorted ((hadds'.mem value).mpr (.inl rfl))
      obtain ⟨t', hsplay', hkeys⟩ := splay_inorder value (.node a l' r)
      obtain rfl : t' = .node value A B := Option.some.inj (hsplay'.symm.trans hsplay)
      refine ⟨_, A, B, n, by simp [hins, hsplay], rfl, hkeys ▸ hadds', ?_⟩
      simpa only [mem_left ho hlt] using hn
    · rename_i hlt
      split
      · rename_i hgt
        obtain ⟨r', _, _, n, hins, _, hadds, hn⟩ := ihr hr
        have hadds' : Adds value ((node a l r).inorder id) ((node a l r').inorder id) :=
          hadds.right ho hgt
        obtain ⟨A, B, hsplay⟩ := splay_root hadds'.sorted ((hadds'.mem value).mpr (.inl rfl))
        obtain ⟨t', hsplay', hkeys⟩ := splay_inorder value (.node a l r')
        obtain rfl : t' = .node value A B := Option.some.inj (hsplay'.symm.trans hsplay)
        refine ⟨_, A, B, n, by simp [hins, hsplay], rfl, hkeys ▸ hadds', ?_⟩
        simpa only [mem_right ho hgt] using hn
      · rename_i hgt
        obtain rfl : value = a := le_antisymm (not_lt.mp hgt) (not_lt.mp hlt)
        exact ⟨_, l, r, size, rfl, rfl, Adds.present ho (by simp), by simp⟩

end Splay

section Runs
variable [LinearOrder T] {s : Finset T}

/-- A tree that is the set `s`. -/
structure Holds (t : SplayTree T) (s : Finset T) : Prop where
  sorted : t.inorder.Pairwise (· < ·)
  mem (k : T) : k ∈ t.inorder ↔ k ∈ s
  size : t.size = s.card

theorem create_holds : Holds (create : SplayTree T) ∅ :=
  ⟨List.Pairwise.nil, by simp [create, inorder], rfl⟩

theorem Holds.empty {t : SplayTree T} (h : Holds t s) (hnull : t.root = .nil) (k : T) : k ∉ s := by
  rw [← h.mem, inorder, hnull]
  simp

theorem Holds.insert_spec {t : SplayTree T} (h : Holds t s) (value : T) :
    ∃ t', t.insert value = some t' ∧ Holds t' (Insert.insert value s) ∧
      t'.rootValue = some value := by
  obtain ⟨_, l, r, n, hins, rfl, hadds, hn⟩ := insertImpl_spec h.sorted t.size
  refine ⟨⟨.node value l r, n⟩, by simp [insert, hins], ⟨hadds.sorted, ?_, ?_⟩, rfl⟩
  · intro k
    rw [Finset.mem_insert, ← h.mem]
    exact hadds.mem k
  · have hmem : value ∈ t.root.inorder id ↔ value ∈ s := h.mem value
    rw [Finset.card_insert_eq_ite, ← h.size]
    simpa only [hmem] using hn

/-- What a search does to the tree. -/
theorem Holds.splay_spec {t : SplayTree T} (h : Holds t s) (value : T) (hne : t.root ≠ .nil) :
    ∃ a l r, splay value t.root = some (.node a l r) ∧ Holds ⟨.node a l r, t.size⟩ s ∧
      (a = value ↔ value ∈ s) := by
  obtain ⟨t', hsplay, hkeys⟩ := splay_inorder value t.root
  cases t' with
  | nil =>
    refine absurd ?_ hne
    cases hroot : t.root with
    | nil => rfl
    | node a l r => simp [hroot] at hkeys
  | node a l r =>
    have hsame : inorder ⟨.node a l r, t.size⟩ = t.inorder := hkeys
    refine ⟨a, l, r, hsplay, ⟨by rw [hsame]; exact h.sorted, by rw [hsame]; exact h.mem, h.size⟩, ?_⟩
    constructor
    · rintro rfl
      rw [← h.mem, ← hsame]
      simp [inorder]
    · intro hv
      obtain ⟨A, B, hroot⟩ := splay_root h.sorted ((h.mem value).mpr hv)
      rw [hsplay] at hroot
      cases hroot
      rfl

theorem Holds.find_spec {t : SplayTree T} (h : Holds t s) (value : T) :
    ∃ t', t.find value = some (t', decide (value ∈ s)) ∧ Holds t' s ∧
      (value ∈ s → t'.rootValue = some value) := by
  unfold find
  split
  · rename_i hnull
    rw [isNull_iff] at hnull
    have hempty := h.empty hnull
    exact ⟨t, by simp [hempty], h, fun hv => absurd hv (hempty value)⟩
  · rename_i hnull
    rw [isNull_iff] at hnull
    obtain ⟨a, l, r, hsplay, hholds, hmem⟩ := h.splay_spec value hnull
    refine ⟨⟨.node a l r, t.size⟩, by simp [hsplay, hmem], hholds, ?_⟩
    intro hv
    rw [rootValue, hmem.mpr hv]

theorem Holds.findValue_spec {t : SplayTree T} (h : Holds t s) (value : T) :
    ∃ t', t.findValue value = some (t', if value ∈ s then some value else none) ∧ Holds t' s := by
  unfold findValue
  split
  · rename_i hnull
    rw [isNull_iff] at hnull
    have hempty := h.empty hnull
    exact ⟨t, by simp [hempty], h⟩
  · rename_i hnull
    rw [isNull_iff] at hnull
    obtain ⟨a, l, r, hsplay, hholds, hmem⟩ := h.splay_spec value hnull
    refine ⟨⟨.node a l r, t.size⟩, ?_, hholds⟩
    by_cases hv : value ∈ s
    · obtain rfl := hmem.mpr hv
      simp [hsplay, hv]
    · simp [hsplay, hv, hmem]

/-- The right child that `remove` writes over is null. -/
theorem Holds.remove_spec {t : SplayTree T} (h : Holds t s) (value : T) :
    ∃ t', t.remove value = some t' ∧ Holds t' (s.erase value) := by
  unfold remove
  split
  · rename_i hnull
    rw [isNull_iff] at hnull
    exact ⟨t, rfl, by rwa [Finset.erase_eq_of_notMem (h.empty hnull value)]⟩
  · rename_i hnull
    rw [isNull_iff] at hnull
    obtain ⟨a, l, r, hsplay, hholds, hmem⟩ := h.splay_spec value hnull
    simp only [hsplay, Option.bind_eq_bind, Option.bind_some]
    split
    · rename_i hroot
      subst hroot
      have hv : a ∈ s := hmem.mp rfl
      -- without the root the values are those of its two subtrees
      have hdrops : Drops a ((node a l r).inorder id) (l.inorder id ++ r.inorder id) :=
        Drops.here hholds.sorted
      have hjoin (t' : SplayTree T) (hkeys : t'.inorder = l.inorder id ++ r.inorder id)
          (hsize : t'.size = t.size - 1) : Holds t' (s.erase a) := by
        refine ⟨hkeys ▸ hdrops.sorted, ?_, by rw [hsize, Finset.card_erase_of_mem hv, h.size]⟩
        intro k
        rw [hkeys, hdrops.mem, Finset.mem_erase, ← hholds.mem]
        rfl
      split
      · rename_i hl
        rw [isNull_iff] at hl
        subst hl
        exact ⟨_, rfl, hjoin _ rfl rfl⟩
      · split
        · rename_i hr
          rw [isNull_iff] at hr
          subst hr
          exact ⟨_, rfl, hjoin _ (List.append_nil _).symm rfl⟩
        · rename_i hl hr
          rw [isNull_iff] at hl
          obtain ⟨_, _, hla, _⟩ := inOrder_node.mp hholds.sorted
          obtain ⟨newRoot, hsplay', hkeys⟩ := splay_inorder a l
          have hmax : newRoot.right = .nil := splay_max hla hsplay'
          rw [hsplay', Option.bind_some]
          cases newRoot with
          | nil =>
            cases l with
            | nil => exact absurd rfl hl
            | node b A B => simp at hkeys
          | node b A B =>
            obtain rfl : B = .nil := hmax
            refine ⟨_, rfl, hjoin _ ?_ rfl⟩
            rw [← hkeys]
            simp [inorder]
    · rename_i hroot
      have hv : value ∉ s := fun hv => hroot (hmem.mpr hv)
      exact ⟨_, rfl, by rwa [Finset.erase_eq_of_notMem hv]⟩

theorem apply_spec (t : SplayTree T) (s : Finset T) (op : Op T) (h : Holds t s) :
    ∃ t', apply t op = some (t', (effect s op).2) ∧ Holds t' (effect s op).1 := by
  cases op with
  | insert value =>
    obtain ⟨t', hins, hholds, _⟩ := h.insert_spec value
    exact ⟨t', by simp [apply, hins, effect], hholds⟩
  | remove value =>
    obtain ⟨t', hrem, hholds⟩ := h.remove_spec value
    exact ⟨t', by simp [apply, hrem, effect], hholds⟩
  | find value =>
    obtain ⟨t', hfind, hholds, _⟩ := h.find_spec value
    exact ⟨t', by simp [apply, hfind, effect], hholds⟩
  | findValue value =>
    obtain ⟨t', hfind, hholds⟩ := h.findValue_spec value
    exact ⟨t', by simp [apply, hfind, effect], hholds⟩

/-- Every run answers like the set, and leaves the tree in order with the values
of the set; a value inserted or found is at the root, and a removal takes only
its value. -/
theorem run_splay_set (ops : List (Op T)) :
    ∃ t, Run.exec apply create ops = some (t, (Run.execModel effect ∅ ops).2) ∧
      t.inorder.Pairwise (· < ·) ∧
      (∀ k, k ∈ t.inorder ↔ k ∈ (Run.execModel effect ∅ ops).1) ∧
      t.size = (Run.execModel effect ∅ ops).1.card ∧
      (∀ k, ∃ t', t.insert k = some t' ∧ t'.rootValue = some k) ∧
      (∀ k ∈ t.inorder, ∃ t', t.find k = some (t', true) ∧ t'.rootValue = some k) ∧
      ∀ k, ∃ t', t.remove k = some t' ∧ ∀ j, j ∈ t'.inorder ↔ j ≠ k ∧ j ∈ t.inorder := by
  obtain ⟨t, hrun, h⟩ := Run.exec_follows apply_spec ops create_holds
  refine ⟨t, hrun, h.sorted, h.mem, h.size, ?_, ?_, ?_⟩
  · intro k
    obtain ⟨t', hins, _, hroot⟩ := h.insert_spec k
    exact ⟨t', hins, hroot⟩
  · intro k hk
    obtain ⟨t', hfind, _, hroot⟩ := h.find_spec k
    have hk' := (h.mem k).mp hk
    exact ⟨t', by simpa [hk'] using hfind, hroot hk'⟩
  · intro k
    obtain ⟨t', hrem, hholds⟩ := h.remove_spec k
    refine ⟨t', hrem, ?_⟩
    intro j
    rw [hholds.mem, Finset.mem_erase, h.mem]

end Runs
end Cppforge.Balanced.SplayTree
