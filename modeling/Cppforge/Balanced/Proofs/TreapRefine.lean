import Cppforge.Balanced.SearchTrees
import Cppforge.Lib.SearchTree
import Cppforge.Lib.Run
import Mathlib.Data.Finset.Card
import Mathlib.Data.Finset.Image
import Mathlib.Data.Int.ConditionallyCompleteOrder
import Mathlib.Order.ConditionallyCompleteLattice.Basic
import Mathlib.Tactic.Tauto

namespace Cppforge.Balanced.Treap
open BinaryTree SortedKeys

variable {T : Type} {value : T} {a x : Node T} {l r t t' : BinaryTree (Node T)} {gen : Random}

theorem verifyHeap_of_maxHeap (h : MaxHeap Node.priority t) : verifyHeap t = true := by
  induction t with
  | nil => rfl
  | node a l r ihl ihr =>
    obtain ⟨hla, hra, hl, hr⟩ := h
    simp only [verifyHeap, Bool.and_eq_true, ihl hl, ihr hr, and_true]
    constructor
    · cases l with
      | nil => rfl
      | node b A B => simpa [priority] using hla b (by simp)
    · cases r with
      | nil => rfl
      | node b A B => simpa [priority] using hra b (by simp)

section Operations
variable [LinearOrder T]

/-- `t'` is `t` with the node `x`. -/
structure Inserted (x : Node T) (t t' : BinaryTree (Node T)) : Prop where
  keys : Adds x.data (t.inorder Node.data) (t'.inorder Node.data)
  nodes (y : Node T) : y ∈ t'.inorder id ↔ y = x ∨ y ∈ t.inorder id
  heap : MaxHeap Node.priority t'

theorem Inserted.ne_nil (h : Inserted x t t') : t' ≠ .nil := by
  rintro rfl
  cases (h.nodes x).mpr (.inl rfl)

/-- Only the new node can be at the top of its subtree and above the parent `a`. -/
theorem Inserted.others_le {b y : Node T} {A B : BinaryTree (Node T)}
    (h : Inserted x t (.node b A B)) (ht : ∀ y ∈ t.inorder id, y.priority ≤ a.priority)
    (hlt : a.priority < b.priority) (hy : y ∈ (node b A B).inorder id) (hne : y.data ≠ b.data) :
    y.priority ≤ a.priority := by
  obtain rfl : b = x := by
    rcases (h.nodes b).mp (by simp) with hb | hb
    · exact hb
    · exact absurd (ht b hb) (not_le.mpr hlt)
  rcases (h.nodes y).mp hy with rfl | hold
  · exact absurd rfl hne
  · exact ht y hold

/-- The rotation after an insertion on the left. -/
theorem Inserted.raise_left {l' : BinaryTree (Node T)} (h : Inserted x l l')
    (ho : InOrder (· < ·) Node.data (.node a l r)) (hh : MaxHeap Node.priority (.node a l r))
    (hx : x.data < a.data) :
    ∃ t' p, priority l' = some p ∧
      (if a.priority < p then rotateRight (.node a l' r) else some (.node a l' r)) = some t' ∧
      Inserted x (.node a l r) t' := by
  obtain ⟨hla, hra, _, hr⟩ := hh
  have hkeys : Adds x.data ((node a l r).inorder Node.data) ((node a l' r).inorder Node.data) :=
    h.keys.left ho hx
  have hnodes (y : Node T) : y ∈ (node a l' r).inorder id ↔ y = x ∨ y ∈ (node a l r).inorder id := by
    simp only [inorder_node, List.mem_append, h.nodes, or_assoc]
  cases l' with
  | nil => exact absurd rfl h.ne_nil
  | node b A B =>
    by_cases hlt : a.priority < b.priority
    · refine ⟨.node b A (.node a B r), b.priority, rfl, by simp [hlt, rotateRight], ?_, ?_, ?_⟩
      · simpa using hkeys
      · simpa using hnodes
      · obtain ⟨hbA, hbB, hA, hB⟩ := h.heap
        obtain ⟨hol', _, _, _⟩ := inOrder_node.mp hkeys.sorted
        have haB : ∀ y ∈ B.inorder id, y.priority ≤ a.priority := by
          intro y hy
          obtain ⟨hmem, hgt⟩ := (entry_right hol').mp hy
          exact h.others_le hla hlt hmem hgt.ne'
        refine ⟨hbA, ?_, hA, haB, hra, hB, hr⟩
        intro y hy
        simp only [inorder_node, List.mem_append, List.mem_cons] at hy
        rcases hy with hy | rfl | hy
        · exact hbB y hy
        · exact hlt.le
        · exact (hra y hy).trans hlt.le
    · refine ⟨.node a (.node b A B) r, b.priority, rfl, by simp [hlt], hkeys, hnodes, ?_⟩
      exact ⟨fun y hy => (h.heap.le_root hy).trans (not_lt.mp hlt), hra, h.heap, hr⟩

theorem Inserted.raise_right {r' : BinaryTree (Node T)} (h : Inserted x r r')
    (ho : InOrder (· < ·) Node.data (.node a l r)) (hh : MaxHeap Node.priority (.node a l r))
    (hx : a.data < x.data) :
    ∃ t' p, priority r' = some p ∧
      (if a.priority < p then rotateLeft (.node a l r') else some (.node a l r')) = some t' ∧
      Inserted x (.node a l r) t' := by
  obtain ⟨hla, hra, hl, _⟩ := hh
  have hkeys : Adds x.data ((node a l r).inorder Node.data) ((node a l r').inorder Node.data) :=
    h.keys.right ho hx
  have hnodes (y : Node T) : y ∈ (node a l r').inorder id ↔ y = x ∨ y ∈ (node a l r).inorder id := by
    simp only [inorder_node, List.mem_append, List.mem_cons, h.nodes]
    tauto
  cases r' with
  | nil => exact absurd rfl h.ne_nil
  | node b A B =>
    by_cases hlt : a.priority < b.priority
    · refine ⟨.node b (.node a l A) B, b.priority, rfl, by simp [hlt, rotateLeft], ?_, ?_, ?_⟩
      · simpa using hkeys
      · simpa using hnodes
      · obtain ⟨hbA, hbB, hA, hB⟩ := h.heap
        obtain ⟨_, hor', _, _⟩ := inOrder_node.mp hkeys.sorted
        have haA : ∀ y ∈ A.inorder id, y.priority ≤ a.priority := by
          intro y hy
          obtain ⟨hmem, hgt⟩ := (entry_left hor').mp hy
          exact h.others_le hra hlt hmem hgt.ne
        refine ⟨?_, hbB, ⟨hla, haA, hl, hA⟩, hB⟩
        intro y hy
        simp only [inorder_node, List.mem_append, List.mem_cons] at hy
        rcases hy with hy | rfl | hy
        · exact (hla y hy).trans hlt.le
        · exact hlt.le
        · exact hbA y hy
    · refine ⟨.node a l (.node b A B), b.priority, rfl, by simp [hlt], hkeys, hnodes, ?_⟩
      exact ⟨hla, fun y hy => (h.heap.le_root hy).trans (not_lt.mp hlt), hl, h.heap⟩

/-- A new value draws a priority. -/
theorem insertImpl_new (gen : Random) (ho : InOrder (· < ·) Node.data t) (hh : MaxHeap Node.priority t)
    (hv : value ∉ t.inorder Node.data) (size : Nat) :
    ∃ t', insertImpl value t size gen = some (t', size + 1, gen.priority.2) ∧
      Inserted ⟨value, gen.priority.1⟩ t t' := by
  induction t with
  | nil => exact ⟨_, rfl, Adds.empty value, by simp [Random.priority], by simp, by simp, trivial, trivial⟩
  | node a l r ihl ihr =>
    obtain ⟨hl, hr, _, _⟩ := inOrder_node.mp ho
    unfold insertImpl
    split
    · rename_i hlt
      obtain ⟨l', hins, hl'⟩ := ihl hl hh.2.2.1 (by rwa [← mem_left ho hlt])
      obtain ⟨t', p, hp, hnode, ht'⟩ := hl'.raise_left ho hh hlt
      refine ⟨t', ?_, ht'⟩
      simp only [hins, hp, hnode, Option.bind_eq_bind, Option.bind_some]
      rfl
    · rename_i hlt
      split
      · rename_i hgt
        obtain ⟨r', hins, hr'⟩ := ihr hr hh.2.2.2 (by rwa [← mem_right ho hgt])
        obtain ⟨t', p, hp, hnode, ht'⟩ := hr'.raise_right ho hh hgt
        refine ⟨t', ?_, ht'⟩
        simp only [hins, hp, hnode, Option.bind_eq_bind, Option.bind_some]
        rfl
      · rename_i hgt
        obtain rfl : value = a.data := le_antisymm (not_lt.mp hgt) (not_lt.mp hlt)
        exact absurd (by simp) hv

/-- A value that is there changes nothing. -/
theorem insertImpl_present (gen : Random) (ho : InOrder (· < ·) Node.data t) (hh : MaxHeap Node.priority t)
    (hv : value ∈ t.inorder Node.data) (size : Nat) :
    insertImpl value t size gen = some (t, size, gen) := by
  induction t with
  | nil => cases hv
  | node a l r ihl ihr =>
    obtain ⟨hl, hr, _, _⟩ := inOrder_node.mp ho
    obtain ⟨hla, hra, hhl, hhr⟩ := hh
    unfold insertImpl
    split
    · rename_i hlt
      have hvl := (mem_left ho hlt).mp hv
      rw [ihl hl hhl hvl]
      cases l with
      | nil => cases hvl
      | node b A B =>
        have hle : ¬ a.priority < b.priority := not_lt.mpr (hla b (by simp))
        simp [priority, hle]
    · rename_i hlt
      split
      · rename_i hgt
        have hvr := (mem_right ho hgt).mp hv
        rw [ihr hr hhr hvr]
        cases r with
        | nil => cases hvr
        | node b A B =>
          have hle : ¬ a.priority < b.priority := not_lt.mpr (hra b (by simp))
          simp [priority, hle]
      · rfl

/-- A subtree with other keys keeps its nodes. -/
theorem filter_other (h : ∀ k ∈ t.inorder Node.data, k ≠ value) :
    (t.inorder id).filter (·.data ≠ value) = t.inorder id := by
  refine List.filter_eq_self.mpr ?_
  intro x hx
  simpa using h _ (key_mem Node.data hx)

/-- A value on one side of the root is taken out of the subtree there. -/
theorem filter_left (ho : InOrder (· < ·) Node.data (.node a l r)) (hlt : value < a.data) :
    ((node a l r).inorder id).filter (·.data ≠ value) =
      (l.inorder id).filter (·.data ≠ value) ++ a :: r.inorder id := by
  obtain ⟨_, _, _, har⟩ := inOrder_node.mp ho
  have hkeep := filter_other fun k hk => (hlt.trans (har k hk)).ne'
  simp only [inorder_node, List.filter_append, List.filter_cons, hkeep]
  simp [hlt.ne']

theorem filter_right (ho : InOrder (· < ·) Node.data (.node a l r)) (hgt : a.data < value) :
    ((node a l r).inorder id).filter (·.data ≠ value) =
      l.inorder id ++ a :: (r.inorder id).filter (·.data ≠ value) := by
  obtain ⟨_, _, hla, _⟩ := inOrder_node.mp ho
  have hkeep := filter_other fun k hk => ((hla k hk).trans hgt).ne
  simp only [inorder_node, List.filter_append, List.filter_cons, hkeep]
  simp [hgt.ne]

/-- What is left without the root's value is below the root. -/
theorem mem_left_over {y : Node T}
    (hy : y ∈ ((node a l r).inorder id).filter (·.data ≠ a.data)) :
    y ∈ l.inorder id ∨ y ∈ r.inorder id := by
  obtain ⟨hmem, hne⟩ := List.mem_filter.mp hy
  rw [inorder_node, List.mem_append, List.mem_cons] at hmem
  rcases hmem with hmem | rfl | hmem
  · exact .inl hmem
  · simp at hne
  · exact .inr hmem

theorem removeImpl_spec (value : T) (ho : InOrder (· < ·) Node.data t) (hh : MaxHeap Node.priority t)
    (size : Nat) :
    ∃ t', removeImpl value t size =
        some (t', if value ∈ t.inorder Node.data then size - 1 else size) ∧
      t'.inorder id = (t.inorder id).filter (·.data ≠ value) ∧ MaxHeap Node.priority t' := by
  fun_induction removeImpl value t size with
  | case1 size => exact ⟨.nil, by simp, rfl, trivial⟩
  | case2 a l r size hlt ih =>
    obtain ⟨hl, _, _, _⟩ := inOrder_node.mp ho
    obtain ⟨hla, hra, hhl, hhr⟩ := hh
    obtain ⟨l', hrem, hnodes, hhl'⟩ := ih hl hhl
    refine ⟨.node a l' r, by simp only [hrem, mem_left ho hlt]; rfl, ?_, ?_, hra, hhl', hhr⟩
    · rw [filter_left ho hlt, inorder_node, hnodes]
      rfl
    · intro y hy
      rw [hnodes] at hy
      exact hla y (List.mem_of_mem_filter hy)
  | case3 a l r size _ hgt ih =>
    obtain ⟨_, hr, _, _⟩ := inOrder_node.mp ho
    obtain ⟨hla, hra, hhl, hhr⟩ := hh
    obtain ⟨r', hrem, hnodes, hhr'⟩ := ih hr hhr
    refine ⟨.node a l r', by simp only [hrem, mem_right ho hgt]; rfl, ?_, hla, ?_, hhl, hhr'⟩
    · rw [filter_right ho hgt, inorder_node, hnodes]
      rfl
    · intro y hy
      rw [hnodes] at hy
      exact hra y (List.mem_of_mem_filter hy)
  | case4 a l r size hlt hgt hnull =>
    rw [Bool.and_eq_true, isNull_iff, isNull_iff] at hnull
    obtain ⟨rfl, rfl⟩ := hnull
    obtain rfl : value = a.data := le_antisymm (not_lt.mp hgt) (not_lt.mp hlt)
    exact ⟨.nil, by simp, by simp, trivial⟩
  | case5 a l r size hlt hgt _ hnull =>
    rw [isNull_iff] at hnull
    subst hnull
    obtain rfl : value = a.data := le_antisymm (not_lt.mp hgt) (not_lt.mp hlt)
    obtain ⟨_, _, _, har⟩ := inOrder_node.mp ho
    refine ⟨r, by simp, ?_, hh.2.2.2⟩
    rw [← filter_other fun k hk => (har k hk).ne']
    simp
  | case6 a l r size hlt hgt _ _ hnull =>
    rw [isNull_iff] at hnull
    subst hnull
    obtain rfl : value = a.data := le_antisymm (not_lt.mp hgt) (not_lt.mp hlt)
    obtain ⟨_, _, hla, _⟩ := inOrder_node.mp ho
    refine ⟨l, by simp, ?_, hh.2.2.1⟩
    rw [← filter_other fun k hk => (hla k hk).ne]
    simp
  | case7 a l r size hlt hgt _ hl hr ih₂ ih₁ =>
    rw [isNull_iff] at hl hr
    obtain rfl : value = a.data := le_antisymm (not_lt.mp hgt) (not_lt.mp hlt)
    cases l with
    | nil => exact absurd rfl hl
    | node b A B =>
      cases r with
      | nil => exact absurd rfl hr
      | node c C D =>
        obtain ⟨hla, hra, hhl, hhr⟩ := hh
        simp only [priority, Option.bind_eq_bind, Option.bind_some]
        split
        · rename_i hpr
          have horot : InOrder (· < ·) Node.data (.node b A (.node a B (.node c C D))) := by
            simpa [InOrder] using ho
          obtain ⟨_, ho', _, hbr⟩ := inOrder_node.mp horot
          have hba : b.data < a.data := hbr a.data (by simp)
          have hB : ∀ y ∈ B.inorder id, y.priority ≤ a.priority :=
            fun y hy => hla y (by simp [hy])
          obtain ⟨r', hrem, hnodes, hr'⟩ :=
            ih₂ b A (.node a B (.node c C D)) rfl ho' ⟨hB, hra, hhl.2.2.2, hhr⟩
          refine ⟨.node b A r', ?_, ?_, hhl.1, ?_, hhl.2.2.1, hr'⟩
          · simp only [rotateRight, rotateRight_node, hrem]
            simp
          · rw [inorder_node, hnodes]
            simpa using (filter_right horot hba).symm
          · intro y hy
            rw [hnodes] at hy
            rcases mem_left_over hy with hmem | hmem
            · exact hhl.2.1 y hmem
            · exact (hhr.le_root hmem).trans hpr.le
        · rename_i hpr
          have horot : InOrder (· < ·) Node.data (.node c (.node a (.node b A B) C) D) := by
            simpa [InOrder] using ho
          obtain ⟨ho', _, hlc, _⟩ := inOrder_node.mp horot
          have hac : a.data < c.data := hlc a.data (by simp)
          have hC : ∀ y ∈ C.inorder id, y.priority ≤ a.priority :=
            fun y hy => hra y (by simp [hy])
          obtain ⟨l', hrem, hnodes, hl'⟩ :=
            ih₁ c (.node a (.node b A B) C) D rfl ho' ⟨hla, hC, hhl, hhr.2.2.1⟩
          refine ⟨.node c l' D, ?_, ?_, ?_, hhr.2.1, hl', hhr.2.2.2⟩
          · simp only [rotateLeft, rotateLeft_node, hrem]
            simp
          · rw [inorder_node, hnodes]
            simpa using (filter_left horot hac).symm
          · intro y hy
            rw [hnodes] at hy
            rcases mem_left_over hy with hmem | hmem
            · exact (hhl.le_root hmem).trans (not_lt.mp hpr)
            · exact hhr.1 y hmem

end Operations

section Runs
variable [LinearOrder T] {s : Finset (Node T)}

/-- A treap that is the set `s` of values with their priorities. -/
structure Holds (t : Treap T) (s : Finset (Node T)) : Prop where
  sorted : t.inorder.Pairwise (· < ·)
  heap : MaxHeap Node.priority t.root
  mem (n : Node T) : n ∈ t.root.inorder id ↔ n ∈ s
  size : t.size = s.card

theorem create_holds : Holds (create : Treap T) ∅ :=
  ⟨List.Pairwise.nil, trivial, by simp [create], rfl⟩

theorem Holds.mem_inorder {t : Treap T} (h : Holds t s) (k : T) :
    k ∈ t.inorder ↔ ∃ n ∈ s, n.data = k := by
  constructor
  · intro hk
    obtain ⟨n, hn, hdata⟩ := exists_mem hk
    exact ⟨n, (h.mem n).mp hn, hdata⟩
  · rintro ⟨n, hn, rfl⟩
    exact key_mem Node.data ((h.mem n).mpr hn)

theorem Holds.insert_spec {t : Treap T} (h : Holds t s) (gen : Random) (value : T) :
    ∃ t', t.insert gen value = some (t', (assign (s, gen) (.insert value)).2) ∧
      Holds t' (assign (s, gen) (.insert value)).1 := by
  have hmem := h.mem_inorder value
  by_cases hv : value ∈ t.inorder
  · have hins := insertImpl_present gen h.sorted h.heap hv t.size
    have hs := hmem.mp hv
    exact ⟨t, by simp [insert, hins, assign, hs], by simpa [assign, hs] using h⟩
  · obtain ⟨root, hins, hroot⟩ := insertImpl_new gen h.sorted h.heap hv t.size
    have hs : ¬ ∃ n ∈ s, n.data = value := hv ∘ hmem.mpr
    have hnew : ⟨value, gen.priority.1⟩ ∉ s := fun hn => hs ⟨_, hn, rfl⟩
    refine ⟨⟨root, t.size + 1⟩, by simp [insert, hins, assign, hs], ?_⟩
    simp only [assign, hs, if_false]
    refine ⟨hroot.keys.sorted, hroot.heap, ?_, ?_⟩
    · intro n
      rw [Finset.mem_insert, ← h.mem]
      exact hroot.nodes n
    · rw [Finset.card_insert_of_notMem hnew, h.size]

/-- A value has one priority. -/
theorem Holds.unique {t : Treap T} (h : Holds t s) {m n : Node T} (hm : m ∈ s) (hn : n ∈ s)
    (hmn : m.data = n.data) : m = n := by
  have hmap : (t.root.inorder id).map Node.data = t.inorder := map_inorder Node.data t.root
  have hnodup : ((t.root.inorder id).map Node.data).Nodup := by
    rw [hmap]
    exact h.sorted.imp ne_of_lt
  exact List.inj_on_of_nodup_map hnodup ((h.mem m).mpr hm) ((h.mem n).mpr hn) hmn

theorem Holds.remove_spec {t : Treap T} (h : Holds t s) (value : T) :
    ∃ t', t.remove value = some t' ∧ Holds t' (s.filter (·.data ≠ value)) := by
  obtain ⟨root, hrem, hnodes, hheap⟩ := removeImpl_spec value h.sorted h.heap t.size
  have hmap (t : BinaryTree (Node T)) : (t.inorder id).map Node.data = t.inorder Node.data :=
    map_inorder Node.data t
  refine ⟨⟨root, _⟩, by simp only [remove, hrem]; rfl, ?_, hheap, ?_, ?_⟩
  · rw [inorder, ← hmap, hnodes]
    refine List.Pairwise.sublist (List.filter_sublist.map _) ?_
    rw [hmap]
    exact h.sorted
  · intro n
    rw [hnodes, Finset.mem_filter, ← h.mem]
    simp
  · have hmem : value ∈ t.root.inorder Node.data ↔ ∃ n ∈ s, n.data = value := h.mem_inorder value
    by_cases hv : value ∈ t.root.inorder Node.data
    · obtain ⟨n, hn, rfl⟩ := hmem.mp hv
      have herase : s.filter (·.data ≠ n.data) = s.erase n := by
        ext m
        rw [Finset.mem_filter, Finset.mem_erase, and_comm, and_congr_left_iff]
        intro hm
        exact not_congr ⟨fun hmn => h.unique hm hn hmn, congrArg Node.data⟩
      rw [herase, Finset.card_erase_of_mem hn, ← h.size, if_pos hv]
    · have hsame : s.filter (·.data ≠ value) = s := by
        refine Finset.filter_true_of_mem ?_
        intro n hn hdata
        exact hv (hmem.mpr ⟨n, hn, hdata⟩)
      rw [hsame, ← h.size, if_neg hv]

theorem apply_spec (t : Treap T × Random) (s : Finset (Node T) × Random) (op : Op T)
    (h : Holds t.1 s.1 ∧ t.2 = s.2) :
    ∃ t', apply t op = some t' ∧ Holds t'.1 (assign s op).1 ∧ t'.2 = (assign s op).2 := by
  obtain ⟨t, gen⟩ := t
  obtain ⟨s, gen'⟩ := s
  obtain ⟨h, rfl : gen = gen'⟩ := h
  cases op with
  | insert value =>
    obtain ⟨t', hins, ht'⟩ := h.insert_spec gen value
    exact ⟨(t', _), hins, ht', rfl⟩
  | remove value =>
    obtain ⟨t', hrem, ht'⟩ := h.remove_spec value
    exact ⟨(t', gen), by simp [apply, hrem], ht', rfl⟩

/-- The values with a priority are those inserted and not since removed. -/
theorem image_assign (s : Finset (Node T) × Random) (op : Op T) :
    (assign s op).1.image Node.data = effect (s.1.image Node.data) op := by
  obtain ⟨s, gen⟩ := s
  cases op with
  | insert value =>
    simp only [assign, effect]
    split
    · rename_i hs
      exact (Finset.insert_eq_of_mem (Finset.mem_image.mpr hs)).symm
    · exact Finset.image_insert Node.data ⟨value, gen.priority.1⟩ s
  | remove value =>
    ext k
    simp only [assign, effect, Finset.mem_image, Finset.mem_filter, Finset.mem_erase]
    constructor
    · rintro ⟨n, ⟨hn, hne⟩, rfl⟩
      exact ⟨hne, n, hn, rfl⟩
    · rintro ⟨hne, n, hn, rfl⟩
      exact ⟨n, ⟨hn, hne⟩, rfl⟩

theorem image_assigned (stream : Nat → Int) (ops : List (Op T)) :
    (assigned stream ops).image Node.data = contents ops := by
  have hfold (s : Finset (Node T) × Random) :
      (ops.foldl assign s).1.image Node.data = ops.foldl effect (s.1.image Node.data) := by
    induction ops generalizing s with
    | nil => rfl
    | cons op ops ih => rw [List.foldl_cons, List.foldl_cons, ih, image_assign]
  exact hfold (∅, ⟨stream, 0⟩)

theorem run_holds (stream : Nat → Int) (ops : List (Op T)) :
    ∃ t gen, run stream ops = some (t, gen) ∧ Holds t (assigned stream ops) := by
  obtain ⟨t, hrun, h, _⟩ := Run.follows apply_spec ops
    (s := (create, ⟨stream, 0⟩)) (m := (∅, ⟨stream, 0⟩)) ⟨create_holds, rfl⟩
  exact ⟨t.1, t.2, hrun, h⟩

/-- After any run the treap is the set of the values inserted and not since
removed, in order and a heap. Another run that ends with the same distinct
priorities of the same values ends with the same tree. -/
theorem run_treap_set (stream : Nat → Int) (ops : List (Op T)) :
    ∃ t gen, run stream ops = some (t, gen) ∧ t.inorder.Pairwise (· < ·) ∧
      verifyHeap t.root = true ∧ (∀ k, k ∈ t.inorder ↔ k ∈ contents ops) ∧
      t.size = (contents ops).card ∧
      ∀ stream' ops' t' gen', run stream' ops' = some (t', gen') →
        assigned stream ops = assigned stream' ops' →
        (∀ m ∈ assigned stream ops, ∀ n ∈ assigned stream ops, m.priority = n.priority → m = n) →
        t.root = t'.root := by
  obtain ⟨t, gen, hrun, h⟩ := run_holds stream ops
  refine ⟨t, gen, hrun, h.sorted, verifyHeap_of_maxHeap h.heap, ?_, ?_, ?_⟩
  · intro k
    rw [← image_assigned stream, Finset.mem_image, h.mem_inorder]
  · rw [h.size, ← image_assigned stream]
    exact (Finset.card_image_of_injOn fun m hm n hn hmn => h.unique hm hn hmn).symm
  · intro stream' ops' t' gen' hrun' hsame hdistinct
    obtain ⟨t'', gen'', hrun'', h'⟩ := run_holds stream' ops'
    obtain ⟨rfl, rfl⟩ := Prod.mk.inj (Option.some.inj (hrun'.symm.trans hrun''))
    refine h.heap.unique h'.heap h.sorted h'.sorted ?_ ?_
    · intro n
      rw [h.mem, h'.mem, hsame]
    · intro m hm n hn
      exact hdistinct m ((h.mem m).mp hm) n ((h.mem n).mp hn)

/-- Two values in either order, each with its own priority. -/
theorem run_treap_set_swapped : ∃ (t t' : Treap Nat) (gen gen' : Random),
    run (fun n => n) [.insert 1, .insert 2] = some (t, gen) ∧
      run (fun n => 1 - n) [.insert 2, .insert 1] = some (t', gen') ∧ t.root = t'.root := by
  obtain ⟨t, gen, hrun, _, _, _, _, hunique⟩ := run_treap_set (fun n => n) [.insert 1, .insert 2]
  obtain ⟨t', gen', hrun', _⟩ := run_treap_set (fun n => 1 - n) [.insert 2, .insert 1]
  exact ⟨t, t', gen, gen', hrun, hrun',
    hunique _ _ t' gen' hrun' (by decide) (by decide)⟩

end Runs

end Cppforge.Balanced.Treap
