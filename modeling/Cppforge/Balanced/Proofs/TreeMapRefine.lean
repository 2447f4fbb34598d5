import Cppforge.Balanced.Proofs.AVLRefine
import Cppforge.Balanced.TreeMap

namespace Cppforge.Balanced.TreeMap
open BinaryTree AVLTree

variable {K V : Type} {t t' l r : TreeNode (Entry K V)} {c : Cell (Entry K V)} {e : Entry K V}
  {key : K}

section Keys

def keyCell (c : Cell (Entry K V)) : Cell K := ⟨c.data.key, c.height⟩

@[simp] theorem data_keyCell (c : Cell (Entry K V)) : (keyCell c).data = c.data.key := rfl

/-- The tree of the keys. -/
def keys (t : TreeNode (Entry K V)) : TreeNode K := t.map keyCell

@[simp] theorem keys_nil : keys (.nil : TreeNode (Entry K V)) = .nil := rfl

@[simp] theorem keys_node : keys (.node c l r) = .node (keyCell c) (keys l) (keys r) := rfl

@[simp] theorem height_keys : (keys t).height = t.height := by
  induction t with
  | nil => rfl
  | node c l r ihl ihr => simp [BinaryTree.height, ihl, ihr]

@[simp] theorem getHeight_keys : AVLTree.getHeight (keys t) = AVLTree.getHeight t := by
  cases t <;> rfl

@[simp] theorem getBalance_keys : AVLTree.getBalance (keys t) = AVLTree.getBalance t := by
  cases t with
  | nil => rfl
  | node c l r => exact congrArg₂ (· - ·) getHeight_keys getHeight_keys

@[simp] theorem isNull_keys : (keys t).isNull = t.isNull := by
  cases t <;> rfl

theorem updated_keys : updated (keyCell c) (keys l) (keys r) = keyCell (updated c l r) := by
  simp [updated, keyCell]

theorem findMin_keys : (keys t).findMin = t.findMin.map keyCell := by
  induction t with
  | nil => rfl
  | node c l r ihl _ =>
    cases l with
    | nil => rfl
    | node x A B => exact ihl

theorem inorder_keys : (keys t).inorder Cell.data = t.inorder fun c => c.data.key := by
  induction t with
  | nil => rfl
  | node c l r ihl ihr => simp [ihl, ihr, keyCell]

theorem valid_keys : Avl.Valid updated (keys t) ↔ Avl.Valid updated t := by
  induction t with
  | nil => exact iff_of_true Avl.valid_nil Avl.valid_nil
  | node c l r ihl ihr =>
    have hstamp : updated (keyCell c) (keys l) (keys r) = keyCell c ↔ updated c l r = c := by
      rw [updated_keys]
      cases c
      simp [keyCell, updated]
    simp only [keys_node, Avl.valid_node, hstamp, height_keys, ihl, ihr]

theorem rotateRight_keys : (AVLTree.rotateRight t).map keys = AVLTree.rotateRight (keys t) := by
  match t with
  | .nil => rfl
  | .node c .nil r => rfl
  | .node c (.node x A B) r =>
    simp [AVLTree.rotateRight, Avl.restamp, ← updated_keys]

theorem rotateLeft_keys : (AVLTree.rotateLeft t).map keys = AVLTree.rotateLeft (keys t) := by
  match t with
  | .nil => rfl
  | .node c l .nil => rfl
  | .node c l (.node y A B) =>
    simp [AVLTree.rotateLeft, Avl.restamp, ← updated_keys]

/-- One rotation of a child and one of the node. -/
theorem rotateRight_left_keys :
    ((AVLTree.rotateLeft l).bind fun l => AVLTree.rotateRight (.node c l r)).map keys =
      (AVLTree.rotateLeft (keys l)).bind fun l =>
        AVLTree.rotateRight (.node (keyCell c) l (keys r)) := by
  rw [← rotateLeft_keys, Option.map_bind, Option.bind_map]
  exact congrArg _ (funext fun _ => rotateRight_keys)

theorem rotateLeft_right_keys :
    ((AVLTree.rotateRight r).bind fun r => AVLTree.rotateLeft (.node c l r)).map keys =
      (AVLTree.rotateRight (keys r)).bind fun r =>
        AVLTree.rotateLeft (.node (keyCell c) (keys l) r) := by
  rw [← rotateRight_keys, Option.map_bind, Option.bind_map]
  exact congrArg _ (funext fun _ => rotateLeft_keys)

theorem balance_node_keys :
    getBalance (.node (keyCell c) (keys l) (keys r)) = getBalance (.node c l r) := by
  rw [← keys_node, getBalance_keys]

theorem postRemove_keys : (AVLTree.postRemove t).map keys = AVLTree.postRemove (keys t) := by
  cases t with
  | nil => rfl
  | node c l r =>
    have hl : Avl.getHeight Cell.height (keys l) = Avl.getHeight Cell.height l := getHeight_keys
    have hr : Avl.getHeight Cell.height (keys r) = Avl.getHeight Cell.height r := getHeight_keys
    have hbl : Avl.getBalance Cell.height (keys l) = Avl.getBalance Cell.height l :=
      getBalance_keys
    have hbr : Avl.getBalance Cell.height (keys r) = Avl.getBalance Cell.height r :=
      getBalance_keys
    simp only [AVLTree.postRemove, keys_node, Avl.rebalance, updated_keys, hl, hr, hbl, hbr,
      apply_ite (Option.map keys)]
    refine if_congr Iff.rfl ?_ (if_congr Iff.rfl ?_ rfl)
    · exact if_congr Iff.rfl rotateRight_left_keys rotateRight_keys
    · exact if_congr Iff.rfl rotateLeft_right_keys rotateLeft_keys

variable [LinearOrder K]

theorem postInsert_keys : (postInsert t e).map keys = AVLTree.postInsert (keys t) e.key := by
  cases t with
  | nil => rfl
  | node c l r =>
    simp only [postInsert, keys_node, AVLTree.postInsert, updated_keys, balance_node_keys,
      apply_ite (Option.map keys)]
    generalize updated c l r = d
    refine if_congr Iff.rfl ?_ (if_congr Iff.rfl ?_ rfl)
    · cases l with
      | nil => rfl
      | node x A B =>
        simp only [keys_node, data_keyCell, apply_ite (Option.map keys)]
        exact if_congr Iff.rfl rotateRight_keys (if_congr Iff.rfl rotateRight_left_keys rfl)
    · cases r with
      | nil => rfl
      | node y A B =>
        simp only [keys_node, data_keyCell, apply_ite (Option.map keys)]
        exact if_congr Iff.rfl rotateLeft_keys (if_congr Iff.rfl rotateLeft_right_keys rfl)

/-- On the keys an insertion is one into the set of the keys. -/
theorem insertImpl_keys :
    (insertImpl e t).map keys = BSTBase.insertImpl AVLTree.postInsert e.key (keys t) := by
  induction t with
  | nil => rfl
  | node c l r ihl ihr =>
    simp only [insertImpl, keys_node, BSTBase.insertImpl, data_keyCell, ← ihl, ← ihr,
      apply_ite (Option.map keys), Option.bind_eq_bind, Option.map_bind, Option.bind_map]
    refine if_congr Iff.rfl ?_ (if_congr Iff.rfl ?_ rfl)
    · exact congrArg _ (funext fun _ => postInsert_keys)
    · exact congrArg _ (funext fun _ => postInsert_keys)

theorem removeImpl_keys :
    (removeImpl key t).map keys = BSTBase.removeImpl AVLTree.postRemove key (keys t) := by
  induction t generalizing key with
  | nil => rfl
  | node c l r ihl ihr =>
    simp only [removeImpl, keys_node, BSTBase.removeImpl, data_keyCell, isNull_keys, findMin_keys,
      ← ihl, ← ihr, apply_ite (Option.map keys), Option.bind_eq_bind, Option.map_bind,
      Option.bind_map]
    refine if_congr Iff.rfl ?_ (if_congr Iff.rfl ?_ (if_congr Iff.rfl rfl (if_congr Iff.rfl rfl
      (if_congr Iff.rfl rfl ?_))))
    · exact congrArg _ (funext fun _ => postRemove_keys)
    · exact congrArg _ (funext fun _ => postRemove_keys)
    · refine congrArg _ (funext fun successor => ?_)
      rw [Function.comp_apply, Option.map_bind]
      exact congrArg _ (funext fun _ => postRemove_keys)

end Keys

section Entries

/-- The entries from left to right. -/
def entries (t : TreeNode (Entry K V)) : List (Entry K V) := t.inorder Cell.data

@[simp] theorem entries_nil : entries (.nil : TreeNode (Entry K V)) = [] := rfl

@[simp] theorem entries_node : entries (.node c l r) = entries l ++ c.data :: entries r := rfl

theorem keys_entries : (keys t).inorder Cell.data = (entries t).map Entry.key :=
  inorder_keys.trans (map_inorder _ t).symm

theorem toVector_eq (a : TreeMap K V) :
    a.toVector = (entries a.root).map fun e => (e.key, e.value) :=
  (map_inorder (fun e : Entry K V => (e.key, e.value)) a.root).symm

theorem entries_rotateRight (h : AVLTree.rotateRight t = some t') : entries t' = entries t :=
  Avl.inorder_rotateRight data_updated h

theorem entries_rotateLeft (h : AVLTree.rotateLeft t = some t') : entries t' = entries t :=
  Avl.inorder_rotateLeft data_updated h

variable [LinearOrder K]

theorem entries_postInsert (h : postInsert t e = some t') : entries t' = entries t := by
  cases t with
  | nil => cases h
  | node c l r =>
    simp only [postInsert] at h
    split at h
    · cases l with
      | nil => cases h
      | node x A B =>
        simp only at h
        split at h
        · exact entries_rotateRight h
        · split at h
          · obtain ⟨l', hl', h⟩ := Option.bind_eq_some_iff.mp h
            rw [entries_rotateRight h, entries_node, entries_node, entries_rotateLeft hl']
            rfl
          · rw [← Option.some.inj h]
            rfl
    · split at h
      · cases r with
        | nil => cases h
        | node y A B =>
          simp only at h
          split at h
          · exact entries_rotateLeft h
          · split at h
            · obtain ⟨r', hr', h⟩ := Option.bind_eq_some_iff.mp h
              rw [entries_rotateLeft h, entries_node, entries_node, entries_rotateRight hr']
              rfl
            · rw [← Option.some.inj h]
              rfl
      · rw [← Option.some.inj h]
        rfl

/-- An insertion brings no other entry than the inserted one. -/
theorem mem_insertImpl (h : insertImpl e t = some t') {x : Entry K V} (hx : x ∈ entries t') :
    x = e ∨ x ∈ entries t := by
  induction t generalizing t' with
  | nil =>
    rw [← Option.some.inj h] at hx
    simpa using hx
  | node c l r ihl ihr =>
    unfold insertImpl at h
    split at h
    · obtain ⟨l', hins, h⟩ := Option.bind_eq_some_iff.mp h
      rw [entries_postInsert h, entries_node, List.mem_append] at hx
      rw [entries_node, List.mem_append]
      rcases hx with hx | hx
      · exact (ihl hins hx).imp_right .inl
      · exact .inr (.inr hx)
    · split at h
      · obtain ⟨r', hins, h⟩ := Option.bind_eq_some_iff.mp h
        rw [entries_postInsert h, entries_node, List.mem_append, List.mem_cons] at hx
        rw [entries_node, List.mem_append, List.mem_cons]
        rcases hx with hx | hx | hx
        · exact .inr (.inl hx)
        · exact .inr (.inr (.inl hx))
        · exact (ihr hins hx).imp_right fun hr => .inr (.inr hr)
      · rw [← Option.some.inj h] at hx
        exact .inr hx

theorem mem_removeImpl (h : removeImpl key t = some t') {x : Entry K V} (hx : x ∈ entries t') :
    x ∈ entries t := by
  induction t generalizing key t' with
  | nil =>
    rw [← Option.some.inj h] at hx
    exact hx
  | node c l r ihl ihr =>
    rw [entries_node, List.mem_append, List.mem_cons]
    unfold removeImpl at h
    split at h
    · obtain ⟨l', hrem, h⟩ := Option.bind_eq_some_iff.mp h
      have heq : entries t' = entries (.node c l' r) := inorder_postRemove h
      rw [heq, entries_node, List.mem_append, List.mem_cons] at hx
      exact hx.imp_left (ihl hrem)
    · split at h
      · obtain ⟨r', hrem, h⟩ := Option.bind_eq_some_iff.mp h
        have heq : entries t' = entries (.node c l r') := inorder_postRemove h
        rw [heq, entries_node, List.mem_append, List.mem_cons] at hx
        exact hx.imp_right fun hx => hx.imp_right (ihr hrem)
      · split at h
        · rw [← Option.some.inj h] at hx
          cases hx
        · split at h
          · rw [← Option.some.inj h] at hx
            exact .inr (.inr hx)
          · split at h
            · rw [← Option.some.inj h] at hx
              exact .inl hx
            · rename_i hnull
              rw [isNull_iff] at hnull
              obtain ⟨s, rest, hmin, hrest⟩ := exists_findMin Cell.data hnull
              rw [hmin, Option.bind_eq_bind, Option.bind_some] at h
              obtain ⟨r', hrem, h⟩ := Option.bind_eq_some_iff.mp h
              have heq : entries t' = entries (.node { c with data := s.data } l r') :=
                inorder_postRemove h
              rw [heq, entries_node, List.mem_append, List.mem_cons] at hx
              rcases hx with hx | rfl | hx
              · exact .inl hx
              · refine .inr (.inr ?_)
                rw [entries, hrest]
                exact List.mem_cons_self
              · exact .inr (.inr (ihr hrem hx))

/-- The write through the reference changes the value of one key. -/
theorem modify_spec (use : V → V) (h : findNode t key = some c)
    (ho : ((entries t).map Entry.key).Pairwise (· < ·)) :
    ∃ t', modify key use t = some t' ∧ keys t' = keys t ∧
      ∀ x ∈ entries t', x = ⟨key, use c.data.value⟩ ∨ x ∈ entries t ∧ x.key ≠ key := by
  induction t with
  | nil => cases h
  | node a l r ihl ihr =>
    rw [entries_node, List.map_append, List.map_cons, SortedKeys.pairwise_mid] at ho
    obtain ⟨hl, hr, hla, har⟩ := ho
    unfold findNode at h ihl ihr
    unfold BinaryTree.findNode at h
    split at h
    · rename_i heq
      obtain rfl := Option.some.inj h
      refine ⟨.node { a with data := { a.data with value := use a.data.value } } l r,
        if_pos heq, rfl, ?_⟩
      intro x hx
      rw [entries_node, List.mem_append, List.mem_cons] at hx
      rcases hx with hx | rfl | hx
      · refine .inr ⟨by simp [hx], ?_⟩
        exact heq ▸ (hla _ (List.mem_map_of_mem hx)).ne
      · exact .inl (by rw [heq])
      · refine .inr ⟨by simp [hx], ?_⟩
        exact heq ▸ (har _ (List.mem_map_of_mem hx)).ne'
    · rename_i hne
      split at h
      · rename_i hlt
        obtain ⟨l', hmod, hkeys, hmem⟩ := ihl h hl
        refine ⟨.node a l' r, by simp [modify, hne, hlt, hmod], by simp [hkeys], ?_⟩
        intro x hx
        rw [entries_node, List.mem_append, List.mem_cons] at hx
        rcases hx with hx | rfl | hx
        · exact (hmem x hx).imp_right fun hx => ⟨by simp [hx.1], hx.2⟩
        · exact .inr ⟨by simp, hlt.ne'⟩
        · exact .inr ⟨by simp [hx], (hlt.trans (har _ (List.mem_map_of_mem hx))).ne'⟩
      · rename_i hlt
        have hgt := lt_of_le_of_ne (not_lt.mp hlt) (Ne.symm hne)
        obtain ⟨r', hmod, hkeys, hmem⟩ := ihr h hr
        refine ⟨.node a l r', by simp [modify, hne, hlt, hmod], by simp [hkeys], ?_⟩
        intro x hx
        rw [entries_node, List.mem_append, List.mem_cons] at hx
        rcases hx with hx | rfl | hx
        · exact .inr ⟨by simp [hx], ((hla _ (List.mem_map_of_mem hx)).trans hgt).ne⟩
        · exact .inr ⟨by simp, hgt.ne⟩
        · exact (hmem x hx).imp_right fun hx => ⟨by simp [hx.1], hx.2⟩

end Entries

section Clones

theorem entries_cloneNode : entries (cloneNode t) = entries t := by
  induction t with
  | nil => rfl
  | node c l r ihl ihr => simp [cloneNode, ihl, ihr]

/-- The stored heights of a clone are right for a single node only. -/
theorem valid_cloneNode (h : t.numNodes ≤ 1) : Avl.Valid updated (cloneNode t) := by
  match t with
  | .nil => exact Avl.valid_nil
  | .node c .nil .nil =>
    exact Avl.valid_node.mpr ⟨rfl, Nat.zero_le _, Nat.zero_le _, Avl.valid_nil, Avl.valid_nil⟩
  | .node c (.node _ _ _) _ =>
    simp only [numNodes] at h
    omega
  | .node c .nil (.node _ _ _) => simp [numNodes] at h

theorem not_heightsTrue_cloneNode (h : ¬ t.numNodes ≤ 1) : ¬ HeightsTrue (cloneNode t) := by
  intro hall
  match t with
  | .nil => simp [numNodes] at h
  | .node c .nil .nil => simp [numNodes] at h
  | .node c (.node _ _ _) _ =>
    have hone := hall.1
    simp [cloneNode, BinaryTree.height] at hone
    omega
  | .node c .nil (.node _ _ _) =>
    have hone := hall.1
    simp [cloneNode, BinaryTree.height] at hone
    omega

end Clones

section Runs
variable {X : Type} [DecidableEq X] [LinearOrder K] {m : K → Option V} {a : TreeMap K V} {v : V}

/-- The map's tree is valid and its entries are the model's pairs. -/
structure Holds (a : TreeMap K V) (m : K → Option V) : Prop where
  valid : Avl.Valid updated a.root
  sorted : ((entries a.root).map Entry.key).Pairwise (· < ·)
  value : ∀ e ∈ entries a.root, m e.key = some e.value
  mem : ∀ key, key ∈ (entries a.root).map Entry.key ↔ (m key).isSome = true
  size : a.mapSize = (entries a.root).length

/-- The claimed state: true heights, balance, and the pairs in the order of their keys. -/
structure Shows (a : TreeMap K V) (m : K → Option V) : Prop where
  heights : HeightsTrue a.root
  balanced : Avl.Balanced a.root
  sorted : (a.toVector.map Prod.fst).Pairwise (· < ·)
  mem : ∀ key value, (key, value) ∈ a.toVector ↔ m key = some value
  size : a.mapSize = a.toVector.length
  findValue : ∀ key, a.findValue key = m key

theorem holds_create : Holds (create : TreeMap K V) fun _ => none :=
  ⟨Avl.valid_nil, List.Pairwise.nil, by simp [create], by simp [create], rfl⟩

theorem Holds.findNode (h : Holds a m) (key : K) :
    (findNode a.root key).map (fun c => c.data.value) = m key := by
  have hkeys : InOrder (· < ·) (fun c : Cell (Entry K V) => c.data.key) a.root := by
    rw [InOrder, ← inorder_keys, keys_entries]
    exact h.sorted
  have hiff := @isSome_findNode _ _ _ _ _ key hkeys
  rw [← inorder_keys, keys_entries, h.mem] at hiff
  cases hfind : TreeMap.findNode a.root key with
  | none =>
    have hnone : ¬ (m key).isSome = true := by
      rw [← hiff, ← TreeMap.findNode, hfind]
      exact Bool.false_ne_true
    exact (Option.not_isSome_iff_eq_none.mp hnone).symm
  | some c =>
    have hc := h.value c.data (mem_findNode Cell.data hfind)
    rw [findNode_some hfind] at hc
    exact hc.symm

theorem Holds.contains (h : Holds a m) (key : K) : a.contains key = (m key).isSome := by
  rw [TreeMap.contains, ← h.findNode, Option.isSome_map]

theorem Holds.shows (h : Holds a m) : Shows a m := by
  refine ⟨Avl.Valid.heightsTrue h.valid.exact, h.valid.balanced, ?_, ?_, ?_, h.findNode⟩
  · rw [toVector_eq, List.map_map]
    exact h.sorted
  · intro key value
    rw [toVector_eq, List.mem_map]
    constructor
    · rintro ⟨e, he, heq⟩
      rw [Prod.mk.injEq] at heq
      rw [← heq.1, ← heq.2]
      exact h.value e he
    · intro hm
      obtain ⟨e, he, rfl⟩ := List.mem_map.mp ((h.mem key).mpr (by simp [hm]))
      have hv := (h.value e he).symm.trans hm
      exact ⟨e, he, by rw [Option.some.inj hv]⟩
  · rw [toVector_eq, List.length_map]
    exact h.size

theorem Holds.insertEntry (h : Holds a m) (e : Entry K V) (hnew : m e.key = none) :
    ∃ a', a.insertEntry e = some a' ∧ Holds a' (Function.update m e.key (some e.value)) := by
  obtain ⟨ks, hins, hvalid, _⟩ := insertImpl_valid e.key (valid_keys.mpr h.valid)
  rw [← insertImpl_keys] at hins
  obtain ⟨root, hroot, rfl⟩ := Option.map_eq_some_iff.mp hins
  have hsorted : InOrder (· < ·) Cell.data (keys a.root) := by
    rw [InOrder, keys_entries]
    exact h.sorted
  have hadds := BSTBase.insertImpl_adds (fun _ _ => inorder_postInsert) hsorted
    (insertImpl_keys.symm.trans hins)
  rw [keys_entries, keys_entries] at hadds
  have hnot : e.key ∉ (entries a.root).map Entry.key := by
    rw [h.mem, hnew]
    simp
  refine ⟨⟨root, a.mapSize + 1⟩, by simp [TreeMap.insertEntry, hroot],
    valid_keys.mp hvalid, hadds.sorted, ?_, ?_, ?_⟩
  · intro x hx
    rcases mem_insertImpl hroot hx with rfl | hx
    · simp
    · have hne : x.key ≠ e.key := fun heq => hnot (heq ▸ List.mem_map_of_mem hx)
      rw [Function.update_of_ne hne]
      exact h.value x hx
  · intro key
    rw [hadds.mem, h.mem]
    by_cases hkey : key = e.key
    · simp [hkey]
    · simp [hkey]
  · have hlen := hadds.length h.sorted hnot
    rw [List.length_map, List.length_map] at hlen
    rw [hlen, h.size]

theorem Holds.erase (h : Holds a m) (hkey : (m key).isSome = true) :
    ∃ root, removeImpl key a.root = some root ∧
      Holds ⟨root, a.mapSize - 1⟩ (Function.update m key none) := by
  obtain ⟨ks, hrem, hvalid, _⟩ := removeImpl_valid key (valid_keys.mpr h.valid)
  rw [← removeImpl_keys] at hrem
  obtain ⟨root, hroot, rfl⟩ := Option.map_eq_some_iff.mp hrem
  have hsorted : InOrder (· < ·) Cell.data (keys a.root) := by
    rw [InOrder, keys_entries]
    exact h.sorted
  have hdrops := BSTBase.removeImpl_drops (fun _ _ => inorder_postRemove) hsorted
    (removeImpl_keys.symm.trans hrem)
  rw [keys_entries, keys_entries] at hdrops
  refine ⟨root, hroot, valid_keys.mp hvalid, hdrops.sorted, ?_, ?_, ?_⟩
  · intro x hx
    have hne := ((hdrops.mem x.key).mp (List.mem_map_of_mem hx)).1
    rw [Function.update_of_ne hne]
    exact h.value x (mem_removeImpl hroot hx)
  · intro k
    rw [hdrops.mem, h.mem]
    by_cases hk : k = key
    · simp [hk]
    · simp [hk]
  · have hlen := hdrops.length h.sorted ((h.mem key).mpr hkey)
    rw [List.length_map, List.length_map] at hlen
    change a.mapSize - 1 = (entries root).length
    rw [h.size, ← hlen, Nat.add_sub_cancel]

theorem Holds.modify (h : Holds a m) (use : V → V) (hkey : m key = some v) :
    ∃ root, modify key use a.root = some root ∧
      Holds { a with root } (Function.update m key (some (use v))) := by
  have hfind := h.findNode key
  rw [hkey, Option.map_eq_some_iff] at hfind
  obtain ⟨c, hc, rfl⟩ := hfind
  obtain ⟨root, hmod, hkeys, hmem⟩ := modify_spec use hc h.sorted
  have hsame : (entries root).map Entry.key = (entries a.root).map Entry.key := by
    rw [← keys_entries, hkeys, keys_entries]
  refine ⟨root, hmod, valid_keys.mp (hkeys ▸ valid_keys.mpr h.valid), hsame ▸ h.sorted, ?_, ?_, ?_⟩
  · intro x hx
    rcases hmem x hx with rfl | ⟨hx, hne⟩
    · simp
    · rw [Function.update_of_ne hne]
      exact h.value x hx
  · intro k
    rw [hsame, h.mem]
    by_cases hk : k = key
    · simp [hk, hkey]
    · simp [hk]
  · have hlen := congrArg List.length hsame
    rw [List.length_map, List.length_map] at hlen
    exact h.size.trans hlen.symm

theorem Holds.clear : Holds a.clear fun _ => none := holds_create

/-- A map of at most one entry is copied with true heights. -/
theorem Holds.copy (h : Holds a m) (hsmall : a.mapSize ≤ 1) : Holds a.copy m := by
  have hentries : entries a.copy.root = entries a.root := entries_cloneNode
  refine ⟨valid_cloneNode ?_, hentries ▸ h.sorted, hentries ▸ h.value, hentries ▸ h.mem,
    hentries ▸ h.size⟩
  have hlen : (entries a.root).length = a.root.numNodes := length_inorder a.root
  rw [← hlen, ← h.size]
  exact hsmall

theorem Holds.copy_lost (h : Holds a m) (hlarge : ¬ a.mapSize ≤ 1) : ¬ Shows a.copy m := by
  intro hall
  refine not_heightsTrue_cloneNode ?_ hall.heights
  have hlen : (entries a.root).length = a.root.numNodes := length_inorder a.root
  rwa [← hlen, ← h.size]

variable [Inhabited V]

/-- The same statements on functions. -/
def spec (m : X → K → Option V) : Op X K V → (X → K → Option V) × Answer V
  | .insert x key value =>
    if (m x key).isSome then (m, .flag false)
    else (Function.update m x (Function.update (m x) key (some value)), .flag true)
  | .erase x key =>
    (Function.update m x (Function.update (m x) key none), .flag (m x key).isSome)
  | .index x key use =>
    let value := (m x key).getD default
    (Function.update m x (Function.update (m x) key (some (use value))), .value value)
  | .clear x => (Function.update m x fun _ => none, .done)
  | .copyConstruct x y => (Function.update m x (m y), .done)
  | .copyAssign x y => (Function.update m x (m y), .done)

/-- No map of several entries is copied. -/
def CopiesFew (s : X → TreeMap K V) : Op X K V → Prop
  | .copyConstruct _ y => (s y).mapSize ≤ 1
  | .copyAssign x y => x = y ∨ (s y).mapSize ≤ 1
  | _ => True

def ShowsAll (s : X → TreeMap K V) (m : X → K → Option V) : Prop := ∀ x, Shows (s x) (m x)

theorem Holds.index (h : Holds a m) (key : K) (use : V → V) :
    ∃ a', a.index key use = some (a', (m key).getD default) ∧
      Holds a' (Function.update m key (some (use ((m key).getD default)))) := by
  have hensure : ∃ a₁, a.ensure key = some a₁ ∧
      Holds a₁ (Function.update m key (some ((m key).getD default))) := by
    rw [ensure, h.contains]
    cases hkey : m key with
    | none => simpa [hkey] using h.insertEntry ⟨key, default⟩ hkey
    | some v =>
      refine ⟨a, by simp, ?_⟩
      rw [Option.getD_some, Function.update_eq_self_iff.mpr hkey.symm]
      exact h
  obtain ⟨a₁, ha₁, h₁⟩ := hensure
  obtain ⟨root, hroot, h₂⟩ := h₁.modify use (Function.update_self ..)
  refine ⟨{ a₁ with root }, ?_, by simpa using h₂⟩
  have hvalue : a₁.findValue key = _ := h₁.findNode key
  simp [TreeMap.index, ha₁, hvalue, hroot]

theorem step_follows (s : X → TreeMap K V) (m : X → K → Option V) (op : Op X K V)
    (h : ∀ x, Holds (s x) (m x)) (hop : CopiesFew s op) :
    ∃ s', step s op = some (s', (spec m op).2) ∧ ∀ x, Holds (s' x) ((spec m op).1 x) := by
  cases op with
  | insert x key value =>
    cases hkey : m x key with
    | none =>
      obtain ⟨a, ha, hadd⟩ := (h x).insertEntry ⟨key, value⟩ hkey
      exact ⟨Function.update s x a, by simp [step, TreeMap.insert, (h x).contains, hkey, ha, spec],
        by simpa [spec, hkey] using Run.each_update h hadd x⟩
    | some v =>
      exact ⟨s, by simp [step, TreeMap.insert, (h x).contains, hkey, spec],
        by simpa [spec, hkey] using h⟩
  | erase x key =>
    by_cases hkey : (m x key).isSome = true
    · obtain ⟨root, hroot, hdrop⟩ := (h x).erase hkey
      exact ⟨_, by simp [step, TreeMap.erase, (h x).contains, hkey, hroot, spec],
        Run.each_update h hdrop x⟩
    · have hnone : Function.update (m x) key none = m x :=
        Function.update_eq_self_iff.mpr (Option.not_isSome_iff_eq_none.mp hkey).symm
      refine ⟨s, by simp [step, TreeMap.erase, (h x).contains, hkey, spec], ?_⟩
      simpa [spec, hnone] using h
  | index x key use =>
    obtain ⟨a, ha, hmod⟩ := (h x).index key use
    exact ⟨_, by simp [step, ha, spec], Run.each_update h hmod x⟩
  | clear x => exact ⟨_, rfl, Run.each_update h Holds.clear x⟩
  | copyConstruct x y => exact ⟨_, rfl, Run.each_update h ((h y).copy hop) x⟩
  | copyAssign x y =>
    by_cases hxy : x = y
    · subst hxy
      exact ⟨s, by simp [step, spec], by simpa [spec] using h⟩
    · have hcopy := (h y).copy (hop.resolve_left hxy)
      exact ⟨_, by simp [step, hxy, assign, swap, spec], Run.each_update h hcopy x⟩

theorem step_lost (s : X → TreeMap K V) (m : X → K → Option V) (op : Op X K V)
    (h : ∀ x, Holds (s x) (m x)) (hop : ¬ CopiesFew s op) (s' : X → TreeMap K V)
    (hstep : step s op = some (s', (spec m op).2)) : ¬ ShowsAll s' (spec m op).1 := by
  intro hall
  have hlost : ∀ x y, ¬ (s y).mapSize ≤ 1 →
      some (Function.update s x (s y).copy, (Answer.done : Answer V)) = some (s', .done) →
      (∀ z, Shows (s' z) (Function.update m x (m y) z)) → False := by
    intro x y hlarge heq hshows
    obtain rfl := (Prod.mk.inj (Option.some.inj heq)).1
    exact (h y).copy_lost hlarge (by simpa using hshows x)
  cases op with
  | copyConstruct x y => exact hlost x y hop hstep hall
  | copyAssign x y =>
    rw [CopiesFew, not_or] at hop
    rw [step, if_neg hop.1] at hstep
    exact hlost x y hop.2 hstep hall
  | _ => exact hop trivial

/-- The variables of a program show their maps after every statement exactly if no
statement copies a map of several entries. -/
theorem run_maps_iff (ops : List (Op X K V)) :
    Run.Refines step spec ShowsAll (fun _ : X => (create : TreeMap K V)) (fun _ _ => none) ops ↔
      Run.Meets step CopiesFew (fun _ : X => (create : TreeMap K V)) ops :=
  Run.refines_iff (fun _ _ h x => (h x).shows) step_follows step_lost ops fun _ => holds_create

/-- The copy of a map of four entries is unbalanced after one of them is erased. -/
theorem erase_after_copy :
    let ops : List (Op Bool Nat Nat) := [.insert false 3 0, .insert false 2 0, .insert false 4 0,
      .insert false 1 0, .copyConstruct true false, .erase true 4]
    (Run.exec step (fun _ => create) ops).map (fun last => (last.1 true).root) =
        some (.node ⟨⟨3, 0⟩, 2⟩ (.node ⟨⟨2, 0⟩, 1⟩ (.node ⟨⟨1, 0⟩, 1⟩ .nil .nil) .nil) .nil) ∧
      ¬ Run.Refines step spec ShowsAll (fun _ => create) (fun _ _ => none) ops := by
  intro ops
  have hrun : (Run.exec step (fun _ => create) ops).map (fun last => (last.1 true).root) =
      some (.node ⟨⟨3, 0⟩, 2⟩ (.node ⟨⟨2, 0⟩, 1⟩ (.node ⟨⟨1, 0⟩, 1⟩ .nil .nil) .nil) .nil) := by
    rfl
  refine ⟨hrun, ?_⟩
  intro hall
  obtain ⟨s', hsome, hshows⟩ := hall ops (List.prefix_refl ops)
  rw [hsome, Option.map_some, Option.some.injEq] at hrun
  have hbalanced := (hshows true).balanced
  rw [hrun] at hbalanced
  exact absurd hbalanced.1 (by decide)

end Runs

end Cppforge.Balanced.TreeMap
