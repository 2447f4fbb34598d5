import Cppforge.Multiway.Proofs.BPlusRemove
import Cppforge.Multiway.Proofs.BTreeRefine

namespace Cppforge.Multiway.BPlusTree
open Ordered KTree

variable {K V : Type} (comp : K → K → Bool) (order : Nat)

/-- What one call does to the sorted map: the value of a key that is there already is
overwritten. -/
def effect (l : List (K × V)) : Op K V → List (K × V)
  | .insert key value => insertPair comp key value l
  | .remove key => erase (place comp key) l

/-- The pairs the calls leave, in key order. -/
def bindings (ops : List (Op K V)) : List (K × V) := ops.foldl (effect comp) []

/-- The value of the last insertion of a key equivalent to `k`, unless it was removed since. -/
def bound (ops : List (Op K V)) (k : K) : Option V :=
  ops.foldl (fun value op =>
    match op with
    | .insert key v => if cut comp k key = .eq then some v else value
    | .remove key => if cut comp k key = .eq then none else value) none

def contents (t : BPlusTree K V) : List (K × V) := t.leaves.flatMap Leaf.entries

/-- The call splits no full node below the root at the key it inserts, and `size_`
can count the key if it is new. -/
def harmless (t : BPlusTree K V) : Op K V → Bool
  | .insert key _ =>
    (decide (t.size < 2 ^ 31 - 1) || (lookup (place comp key) t.contents).isSome) &&
      t.root.all (fun root => avoids comp order key (root.depth - 1) root)
  | .remove _ => true

def harmlessRun (t : BPlusTree K V) : List (Op K V) → Bool
  | [] => true
  | op :: ops => harmless comp order t op &&
      (apply comp order t op).all (fun t' => harmlessRun t' ops)

/-- The structure of a tree: occupancy, equal depth, and a leaf list of all its leaves. -/
structure Framed (t : BPlusTree K V) : Prop where
  root : ∀ root ∈ t.root, (∃ h, layout.Shape order h root) ∧ 1 ≤ layout.count root
  head : t.head = (t.leaves.map Leaf.addr).head?
  listed : Listed t.store (t.leaves.map Leaf.addr)

/-- The order of its items, and what `size_` counts. -/
structure Sound (t : BPlusTree K V) : Prop where
  ascending : ∀ root ∈ t.root, Ascending (itemLt comp) (layout.flat root)
  size : t.size = t.contents.length
  small : t.contents.length < 2 ^ 31

theorem framed_empty : Framed order (empty : BPlusTree K V) := by
  refine ⟨?_, rfl, by simp [leaves, empty], by simp [leaves, empty], trivial⟩
  intro root h
  cases h

theorem sound_empty : Sound comp (empty : BPlusTree K V) := by
  refine ⟨?_, rfl, by simp [contents, leaves, empty]⟩
  intro root h
  cases h

variable {comp order}

theorem contents_root {t : BPlusTree K V} {root : Node K V} (hr : t.root = some root) :
    t.contents = pairs root := by
  simp [contents, leaves, hr, pairs]

theorem addrs_root {t : BPlusTree K V} {root : Node K V} (hr : t.root = some root) :
    t.leaves.map Leaf.addr = addrs root := by
  simp [leaves, hr, addrs]

/-- The pairs of a sound tree are in strictly increasing key order. -/
theorem Sound.sorted {t : BPlusTree K V} (hs : Sound comp t) (hf : Framed order t) :
    t.contents.Pairwise (fun a b => comp a.1 b.1 = true) := by
  cases hr : t.root with
  | none => simp [contents, leaves, hr]
  | some root =>
    obtain ⟨⟨h, hshape⟩, _⟩ := hf.root root hr
    rw [contents_root hr]
    exact pairs_ascending hshape (hs.ascending root hr)

/-- The leaf list is the tree from left to right. -/
theorem inorder_eq {t : BPlusTree K V} (hf : Framed order t) : t.inorder = some t.contents := by
  obtain ⟨hd, _, hl⟩ := hf.listed
  rw [inorder, hf.head]
  exact inorderLeaves_eq hd (List.nil_append _).symm hl le_rfl

section Map

theorem lookup_effect (hc : StrictWeak comp) (l : List (K × V)) (op : Op K V) (k : K) :
    (lookup (place comp k) (effect comp l op)).map Prod.snd = (match op with
      | .insert key v =>
        if cut comp k key = .eq then some v else (lookup (place comp k) l).map Prod.snd
      | .remove key =>
        if cut comp k key = .eq then none else (lookup (place comp k) l).map Prod.snd) := by
  cases op with
  | insert key v =>
    exact lookup_upsert_key Prod.fst hc k (fun e => (e.1, v)) l Prod.snd
      (show (key, v).1 = key from rfl) (fun _ => rfl) (fun _ => rfl)
  | remove key =>
    have hkey := lookup_erase_key Prod.fst hc key k l
    refine (congrArg (Option.map Prod.snd) hkey).trans ?_
    by_cases hk : cut comp k key = .eq
    · simp [hk]
    · simp only [hk, if_false]
      rfl

theorem lookup_bindings (hc : StrictWeak comp) (ops : List (Op K V)) (k : K) :
    (lookup (place comp k) (bindings comp ops)).map Prod.snd = bound comp ops k := by
  have hfold : ∀ (ops : List (Op K V)) (l : List (K × V)) (value : Option V),
      (lookup (place comp k) l).map Prod.snd = value →
      (lookup (place comp k) (ops.foldl (effect comp) l)).map Prod.snd =
        ops.foldl (fun value op =>
          match op with
          | .insert key v => if cut comp k key = .eq then some v else value
          | .remove key => if cut comp k key = .eq then none else value) value := by
    intro ops
    induction ops with
    | nil =>
      intro l value h
      exact h
    | cons op ops ih =>
      intro l value h
      simp only [List.foldl_cons]
      apply ih
      rw [lookup_effect hc]
      cases op <;> simp only [h]
  exact hfold ops [] none rfl

theorem isSome_bindings (hc : StrictWeak comp) (ops : List (Op K V)) (k : K) :
    (lookup (place comp k) (bindings comp ops)).isSome = (bound comp ops k).isSome := by
  rw [← lookup_bindings hc, Option.isSome_map]

end Map

section Root
variable {h : Nat} {root : Node K V}

/-- A full root is split below a new one; nothing there depends on the key. -/
theorem growRoot_spec (comp : K → K → Bool) (ho : 2 ≤ order) (hs : layout.Shape order h root)
    (hpos : 1 ≤ layout.count root) (s : Store) :
    ∃ h' root' s', growRoot order s root = some (root', s') ∧ layout.Shape order h' root' ∧
      layout.count root' < 2 * order - 1 ∧ 1 ≤ layout.count root' ∧
      Relinks s s' (addrs root) (addrs root') ∧ s'.size = s.size ∧ pairs root' = pairs root ∧
      (∀ key, avoids comp order key h root = true → avoids comp order key h' root' = true) ∧
      (StrictWeak comp → Ascending (itemLt comp) (layout.flat root) →
        Ascending (itemLt comp) (layout.flat root')) := by
  cases hfull : isFull order root with
  | false =>
    refine ⟨h, root, s, by simp [growRoot, hfull], hs, ?_, hpos, Relinks.refl _ _, rfl, rfl,
      fun _ hav => hav, fun _ ha => ha⟩
    have hle := hs.count_le
    have hne : layout.count root ≠ 2 * order - 1 := by
      intro he
      rw [isFull_iff.mpr he] at hfull
      cases hfull
    omega
  | true =>
    have hcount := isFull_iff.mp hfull
    have p : layout.Parts order h [] [] [] root [] :=
      ⟨rfl, rfl, by simp, ⟨by omega, hs⟩, by simp⟩
    obtain ⟨l, m, r, s', hsplit, hh⟩ := splitChild_spec comp ho p hcount s
    have hsplit' : splitChild order s [] [root] 0 = some ([m], [l, r], s') := hsplit
    have hp := p.split m hh.left hh.right
    have hnot : ∀ key, ∀ c : Node K V, layout.count c < 2 * order - 1 →
        promotes comp order key c = false := by
      intro key c hc
      have hne : isFull order c = false := by
        rw [isFull, count_eq]
        simp only [beq_eq_false_iff_ne]
        omega
      rw [promotes, hne]
      rfl
    refine ⟨h + 1, .internal [m] [l, r], s', by simp [growRoot, hfull, hsplit'],
      hp.shape (by simp only [List.nil_append, List.length_singleton]; omega), ?_, by simp, ?_,
      hh.size, ?_, ?_, ?_⟩
    · simp only [count_internal, List.length_singleton]
      omega
    · simpa using hh.links
    · simp [hh.pairs]
    · intro key hav
      obtain ⟨hl, hr⟩ := hh.calm key hav
      simp [avoids, hnot key l hh.leftRoom, hnot key r hh.rightRoom, hl, hr]
    · intro hc ha
      have := hh.order hc [] [] (by simpa using ha)
      simpa [View.flat, View.flatFrom] using this

/-- The leaf that a key is routed to, among all leaves: those before it hold smaller keys only, and
those after it greater ones. -/
theorem findLeaf_leaves (comp : K → K → Bool) (key : K) (hs : layout.Shape order h root) :
    ∃ P leaf S, findLeaf comp key (h + 1) root = some leaf ∧ root.leaves = P ++ leaf :: S ∧
      (StrictWeak comp → Ascending (itemLt comp) (layout.flat root) →
        (∀ e ∈ P.flatMap Leaf.entries, place comp key e = .lt) ∧
          ∀ e ∈ S.flatMap Leaf.entries, place comp key e = .gt) := by
  induction h generalizing root with
  | zero =>
    cases root with
    | internal keys children => cases hs
    | leaf l =>
      refine ⟨[], l, [], rfl, by simp [KTree.Node.leaves], ?_⟩
      intro _ _
      constructor <;> simp
  | succ h ih =>
    cases root with
    | leaf l => cases hs
    | internal keys children =>
      obtain ⟨K1, K2, C1, c, C2, hkeys, hchildren, hidx, p, hsides⟩ := open_node comp hs key
      obtain ⟨P, leaf, S, hfind, hleaves, hat⟩ := ih p.child.2
      have hget : children[childIdx comp keys key]? = some c := by
        rw [← hidx, hchildren]
        exact Splice.getElem?_mid p.left
      refine ⟨KTree.Node.leavesFrom C1 ++ P, leaf, S ++ KTree.Node.leavesFrom C2,
        by simp [findLeaf, hget, hfind], ?_, ?_⟩
      · simp [KTree.Node.leaves, hchildren, KTree.Node.leavesFrom_append, KTree.Node.leavesFrom,
          hleaves]
      · intro hc ha
        have hs₀ := hsides hc ha
        rw [hkeys, hchildren, p.flat] at ha
        obtain ⟨hbefore, hafter⟩ := hat hc ha.mid
        refine ⟨?_, ?_⟩
        · intro e he
          rw [List.flatMap_append] at he
          rcases List.mem_append.mp he with he | he
          · exact place_before p hs₀ e he
          · exact hbefore e he
        · intro e he
          rw [List.flatMap_append] at he
          rcases List.mem_append.mp he with he | he
          · exact hafter e he
          · exact place_after p hs₀ e he

theorem findLeaf_spec (comp : K → K → Bool) (key : K) (hs : layout.Shape order h root) :
    ∃ leaf, findLeaf comp key (h + 1) root = some leaf ∧
      (StrictWeak comp → Ascending (itemLt comp) (layout.flat root) →
        entryAt comp leaf.entries key = lookup (place comp key) (pairs root)) := by
  obtain ⟨P, leaf, S, hfind, hleaves, hat⟩ := findLeaf_leaves comp key hs
  refine ⟨leaf, hfind, ?_⟩
  intro hc ha
  obtain ⟨hbefore, hafter⟩ := hat hc ha
  have hsorted := pairs_ascending hs ha
  rw [pairs, hleaves, List.flatMap_append, List.flatMap_cons] at hsorted ⊢
  have hleaf := (List.pairwise_append.mp (List.pairwise_append.mp hsorted).2.1).1
  rw [(entryAt_cases hc key hleaf).1, lookup_append, lookup_append,
    lookup_eq_none _ (ne_eq_of_lt hbefore), lookup_eq_none _ (ne_eq_of_gt hafter)]
  simp

end Root

section Calls
variable {t : BPlusTree K V}

theorem find_spec (hc : StrictWeak comp) (hf : Framed order t) (hs : Sound comp t) (k : K) :
    t.find comp k = some ((lookup (place comp k) t.contents).map Prod.snd) := by
  cases hr : t.root with
  | none => simp [find, contents, leaves, hr, lookup]
  | some root =>
    obtain ⟨⟨h, hshape⟩, _⟩ := hf.root root hr
    obtain ⟨leaf, hfind, hat⟩ := findLeaf_spec comp k hshape
    rw [contents_root hr, ← hat hc (hs.ascending root hr)]
    simp [find, hr, hshape.depth, hfind]

/-- A tree with another root, whose leaf list starts where the old one did. -/
theorem Framed.of_relinks (hf : Framed order t) {root root' : Node K V} {h : Nat} {s' : Store}
    (hr : t.root = some root) (hs : layout.Shape order h root') (hpos : 1 ≤ layout.count root')
    (hl : Relinks t.store s' (addrs root) (addrs root')) :
    Framed order ⟨some root', t.head, s'⟩ := by
  have hleaves : (leaves ⟨some root', t.head, s'⟩).map Leaf.addr = addrs root' := addrs_root rfl
  refine ⟨?_, ?_, ?_⟩
  · intro x hx
    cases hx
    exact ⟨⟨h, hs⟩, hpos⟩
  · rw [hleaves, hl.1, ← addrs_root hr]
    exact hf.head
  · rw [hleaves]
    have hold := hf.listed
    rw [addrs_root hr] at hold
    have := hl.2 [] [] (by simpa using hold)
    simpa using this

theorem insert_spec (comp : K → K → Bool) (ho : 2 ≤ order) (hfit : 2 * order < 2 ^ 31)
    (hf : Framed order t) (key : K) (value : V) :
    ∃ t', t.insert comp order key value = some t' ∧ Framed order t' ∧
      (StrictWeak comp → Sound comp t → harmless comp order t (.insert key value) = true →
        Sound comp t' ∧ t'.contents = insertPair comp key value t.contents) := by
  cases hr : t.root with
  | none =>
    refine ⟨⟨some (.leaf ⟨t.store.fresh, [(key, value)]⟩), some t.store.fresh,
      t.store.alloc.setSize (t.store.size + 1)⟩, by rw [insert, hr]; exact if_pos hfit, ⟨?_, rfl, ?_⟩, ?_⟩
    · intro root hroot
      cases hroot
      refine ⟨⟨0, ?_⟩, by simp⟩
      simp only [shape_leaf, List.length_singleton]
      omega
    · refine ⟨by simp [leaves, KTree.Node.leaves], ?_, ?_⟩
      · simp [leaves, KTree.Node.leaves, Store.setSize, Store.alloc]
      · simp [leaves, KTree.Node.leaves, Store.setSize, Store.alloc, Chain.Linked]
    · intro _ hs _
      have hz : t.store.size = 0 := by
        have := hs.size
        simpa [size, contents, leaves, hr] using this
      refine ⟨⟨?_, ?_, ?_⟩, ?_⟩
      · intro root hroot
        cases hroot
        simp [Ascending]
      · simp only [size, Store.setSize, hz, contents, leaves, KTree.Node.leaves]
        rfl
      · simp [contents, leaves, KTree.Node.leaves]
      · simp [contents, leaves, hr, KTree.Node.leaves, insertPair, upsert]
  | some root =>
    obtain ⟨⟨h, hshape⟩, hpos⟩ := hf.root root hr
    obtain ⟨h', root₁, s₁, hgrow, hshape₁, hroom, hpos₁, hlinks₁, hsize₁, hpairs₁, hcalm, hasc₁⟩ :=
      growRoot_spec comp ho hshape hpos t.store
    obtain ⟨node, s₂, hins, hg, hat⟩ := insertNonFull_spec comp ho key value s₁ hshape₁ hroom
    have hcount := hg.count
    have hrun : t.insert comp order key value = some ⟨some node, t.head, s₂⟩ := by
      simp [insert, hr, hgrow, hshape₁.depth, hins]
    refine ⟨_, hrun, hf.of_relinks hr hg.shape (by omega) (hlinks₁.trans hg.links), ?_⟩
    intro hc hs hop
    simp only [harmless, Bool.and_eq_true, Bool.or_eq_true, decide_eq_true_eq] at hop
    obtain ⟨hsmall, hav⟩ := hop
    rw [hr, Option.all_some, hshape.depth, Nat.add_sub_cancel] at hav
    have ha₁ := hasc₁ hc (hs.ascending root hr)
    obtain ⟨ha₂, hpairs, hsize⟩ := hat hc (hcalm key hav) [] [] (by simpa using ha₁) (by simp)
      (by simp)
    rw [hpairs₁, ← contents_root hr] at hpairs hsize
    have hnew : contents ⟨some node, t.head, s₂⟩ = insertPair comp key value t.contents := by
      rw [← hpairs]
      exact contents_root rfl
    have hlen : (insertPair comp key value t.contents).length =
        if (lookup (place comp key) t.contents).isSome then t.contents.length
        else t.contents.length + 1 :=
      length_upsert Prod.fst hc key _ _ (hs.sorted hf)
    have hbound := hs.small
    have hold := hs.size
    refine ⟨⟨?_, ?_, ?_⟩, hnew⟩
    · intro x hx
      cases hx
      simpa using ha₂
    · rw [hnew, hlen]
      simp only [size] at hold hsmall ⊢
      rw [hsize, sizeAfterInsert, hsize₁, hold]
      cases hfound : (lookup (place comp key) t.contents).isSome with
      | true => rfl
      | false =>
        simp only [hfound, Bool.false_eq_true, or_false, if_false] at hsmall ⊢
        rw [BTree.toInt32_eq (by omega) (by omega)]
        omega
    · rw [hnew, hlen]
      simp only [size] at hold hsmall
      cases hfound : (lookup (place comp key) t.contents).isSome with
      | true => exact hbound
      | false =>
        simp only [hfound, Bool.false_eq_true, or_false, if_false] at hsmall ⊢
        omega

theorem shrink_spec (comp : K → K → Bool) (ho : 2 ≤ order) {h : Nat} {node : Node K V} (s : Store)
    (hs : layout.Shape order h node) (hl : Listed s (addrs node)) :
    Framed order ⟨(shrink (addrs node).head? node).1, (shrink (addrs node).head? node).2, s⟩ ∧
      contents ⟨(shrink (addrs node).head? node).1, (shrink (addrs node).head? node).2, s⟩ =
        pairs node ∧
      (Ascending (itemLt comp) (layout.flat node) →
        ∀ root ∈ (shrink (addrs node).head? node).1,
          Ascending (itemLt comp) (layout.flat root)) := by
  -- a root that stays, whose leaf list is the one given
  have hkeep : ∀ {h : Nat} {node : Node K V}, layout.Shape order h node → 1 ≤ layout.count node →
      Listed s (addrs node) → Framed order ⟨some node, (addrs node).head?, s⟩ := by
    intro h node hs hpos hl
    refine ⟨?_, ?_, ?_⟩
    · intro x hx
      cases hx
      exact ⟨⟨h, hs⟩, hpos⟩
    · rw [addrs_root rfl]
    · rw [addrs_root rfl]
      exact hl
  rcases hs.cases with ⟨⟨addr, entries⟩, rfl, rfl, _⟩ | ⟨h, keys, children, rfl, rfl, _, hlen, hkids⟩
  · cases entries with
    | nil =>
      refine ⟨⟨?_, rfl, List.nodup_nil, ?_, trivial⟩, rfl, ?_⟩
      · intro root hr
        cases hr
      · intro a ha
        cases ha
      · intro _ root hr
        cases hr
    | cons e entries =>
      refine ⟨hkeep hs (by simp) hl, contents_root rfl, ?_⟩
      intro ha root hr
      cases hr
      exact ha
  · cases keys with
    | nil =>
      obtain ⟨c, rfl⟩ := List.length_eq_one_iff.mp hlen
      have haddrs : addrs (.internal ([] : List K) [c]) = addrs c := by simp
      obtain ⟨hcount, hshape⟩ := hkids c List.mem_cons_self
      rw [haddrs] at hl ⊢
      refine ⟨hkeep hshape (by omega) hl, ?_, ?_⟩
      · rw [pairs_internal, pairsFrom_cons, pairsFrom_nil, List.append_nil]
        exact contents_root rfl
      · intro ha root hr
        cases hr
        simpa [View.flat, View.flatFrom] using ha
    | cons k keys =>
      refine ⟨hkeep hs (by simp) hl, contents_root rfl, ?_⟩
      intro ha root hr
      cases hr
      exact ha

/-- What a removal does to the items and to `size_`, whatever `size_` is. -/
theorem remove_items (comp : K → K → Bool) (ho : 2 ≤ order) (hf : Framed order t) (key : K) :
    ∃ t' found, t.remove comp order key = some (t', found) ∧ Framed order t' ∧
      (StrictWeak comp → (∀ root ∈ t.root, Ascending (itemLt comp) (layout.flat root)) →
        (∀ root ∈ t'.root, Ascending (itemLt comp) (layout.flat root)) ∧
        t'.contents = erase (place comp key) t.contents ∧
        t'.size = sizeAfterRemove comp key t.contents t.size ∧
        found = (lookup (place comp key) t.contents).isSome) := by
  cases hr : t.root with
  | none =>
    refine ⟨t, false, by simp [remove, hr], hf, ?_⟩
    intro _ ha
    have hnil : t.contents = [] := by simp [contents, leaves, hr]
    rw [← hr] at ha
    exact ⟨ha, by simp [hnil, erase], by simp [hnil, sizeAfterRemove, lookup],
      by simp [hnil, lookup]⟩
  | some root =>
    obtain ⟨⟨h, hshape⟩, hpos⟩ := hf.root root hr
    obtain ⟨node, s', hrem, ht, hat⟩ := removeRecursive_spec comp ho key t.store hshape hpos
    have hlisted : Listed s' (addrs node) := by
      have hold := hf.listed
      rw [addrs_root hr] at hold
      have := ht.links.2 [] [] (by simpa using hold)
      simpa using this
    have hhead : t.head = (addrs node).head? := by
      rw [ht.links.1, ← addrs_root hr]
      exact hf.head
    obtain ⟨hframed, hcontents, hasc⟩ := shrink_spec comp ho s' ht.shape hlisted
    rw [← hhead] at hframed hcontents hasc
    refine ⟨⟨(shrink t.head node).1, (shrink t.head node).2, s'⟩, t.store.size != s'.size, ?_,
      hframed, ?_⟩
    · simp [remove, hr, hshape.depth, hrem]
    · intro hc hroot
      obtain ⟨ha, hpairs, hsize⟩ := hat hc [] [] (by simpa using hroot root rfl)
      rw [← contents_root hr] at hpairs hsize
      rw [hpairs] at hcontents
      refine ⟨hasc (by simpa using ha), hcontents, hsize, ?_⟩
      rw [hsize, sizeAfterRemove]
      cases (lookup (place comp key) t.contents).isSome with
      | true =>
        rw [if_pos rfl, bne_iff_ne]
        exact (BTree.toInt32_pred_ne _).symm
      | false => simp

theorem remove_spec (comp : K → K → Bool) (ho : 2 ≤ order) (hf : Framed order t) (key : K) :
    ∃ t' found, t.remove comp order key = some (t', found) ∧ Framed order t' ∧
      (StrictWeak comp → Sound comp t → Sound comp t' ∧
        t'.contents = erase (place comp key) t.contents ∧
        found = (lookup (place comp key) t.contents).isSome) := by
  obtain ⟨t', found, hrem, hf', hat⟩ := remove_items comp ho hf key
  refine ⟨t', found, hrem, hf', ?_⟩
  intro hc hs
  obtain ⟨hasc, hcontents, hsize, hfound⟩ := hat hc hs.ascending
  have hlen : t.contents.length = if (lookup (place comp key) t.contents).isSome
      then (erase (place comp key) t.contents).length + 1
      else (erase (place comp key) t.contents).length :=
    length_erase Prod.fst hc key (hs.sorted hf)
  have hold := hs.size
  have hsmall := hs.small
  refine ⟨⟨hasc, ?_, ?_⟩, hcontents, hfound⟩
  · rw [hcontents, hsize, sizeAfterRemove, hold]
    cases hat : (lookup (place comp key) t.contents).isSome with
    | true =>
      simp only [hat, if_true] at hlen ⊢
      rw [BTree.toInt32_eq (by omega) (by omega)]
      omega
    | false =>
      simp only [hat, Bool.false_eq_true, if_false] at hlen ⊢
      omega
  · rw [hcontents]
    split at hlen <;> omega

end Calls

theorem apply_spec (comp : K → K → Bool) (ho : 2 ≤ order) (hfit : 2 * order < 2 ^ 31)
    {t : BPlusTree K V} (hf : Framed order t) (op : Op K V) :
    ∃ t', apply comp order t op = some t' ∧ Framed order t' ∧
      (StrictWeak comp → Sound comp t → harmless comp order t op = true →
        Sound comp t' ∧ t'.contents = effect comp t.contents op) := by
  cases op with
  | insert key value => exact insert_spec comp ho hfit hf key value
  | remove key =>
    obtain ⟨t', found, hrem, hf', hat⟩ := remove_spec comp ho hf key
    refine ⟨t', by simp [apply, hrem], hf', ?_⟩
    intro hc hs _
    exact ⟨(hat hc hs).1, (hat hc hs).2.1⟩

theorem run_spec (hc : StrictWeak comp) (ho : 2 ≤ order) (hfit : 2 * order < 2 ^ 31)
    {t : BPlusTree K V} (hf : Framed order t) (hs : Sound comp t) (ops : List (Op K V))
    (hops : harmlessRun comp order t ops = true) :
    ∃ t', run comp order t ops = some t' ∧ Framed order t' ∧ Sound comp t' ∧
      t'.contents = ops.foldl (effect comp) t.contents := by
  induction ops generalizing t with
  | nil => exact ⟨t, rfl, hf, hs, rfl⟩
  | cons op ops ih =>
    simp only [harmlessRun, Bool.and_eq_true] at hops
    obtain ⟨t₁, happly, hf₁, hat⟩ := apply_spec comp ho hfit hf op
    obtain ⟨hs₁, hcontents₁⟩ := hat hc hs hops.1
    rw [happly, Option.all_some] at hops
    obtain ⟨t', hrun, hf', hs', hcontents'⟩ := ih hf₁ hs₁ hops.2
    refine ⟨t', ?_, hf', hs', ?_⟩
    · simp only [run, List.foldlM_cons, happly, Option.bind_eq_bind, Option.bind_some]
      exact hrun
    · rw [hcontents', hcontents₁, List.foldl_cons]

/-- The tree is the sorted map of the calls made so far, as long as none of them
splits a node at the key it inserts. -/
theorem run_refines_map (hc : StrictWeak comp) (ho : 2 ≤ order) (hfit : 2 * order < 2 ^ 31)
    (ops : List (Op K V)) (hops : harmlessRun comp order empty ops = true) :
    ∃ t, run comp order empty ops = some t ∧ t.inorder = some (bindings comp ops) ∧
      (bindings comp ops).Pairwise (fun a b => comp a.1 b.1 = true) ∧
      t.size = (bindings comp ops).length ∧
      (∀ k, (lookup (place comp k) (bindings comp ops)).map Prod.snd = bound comp ops k) ∧
      (∀ k, t.find comp k = some (bound comp ops k)) ∧
      (∀ k, t.contains comp k = some (bound comp ops k).isSome) ∧
      ∀ k, ∃ t', t.remove comp order k = some (t', (bound comp ops k).isSome) ∧
        t'.inorder = some (bindings comp (ops ++ [.remove k])) := by
  obtain ⟨t, hrun, hf, hs, hcontents⟩ :=
    run_spec hc ho hfit (framed_empty order) (sound_empty comp) ops hops
  have hpairs : t.contents = bindings comp ops := hcontents
  have hfind : ∀ k, t.find comp k = some (bound comp ops k) := by
    intro k
    rw [find_spec hc hf hs, hpairs, lookup_bindings hc]
  refine ⟨t, hrun, ?_, ?_, ?_, lookup_bindings hc ops, hfind, ?_, ?_⟩
  · rw [inorder_eq hf, hpairs]
  · rw [← hpairs]
    exact hs.sorted hf
  · rw [← hpairs]
    exact hs.size
  · intro k
    rw [contains, hfind, Option.map_some]
  · intro k
    obtain ⟨t', found, hrem, hf', hat⟩ := remove_spec comp ho hf k
    obtain ⟨_, hcontents', hfound⟩ := hat hc hs
    rw [hpairs, isSome_bindings hc] at hfound
    refine ⟨t', by rw [hrem, hfound], ?_⟩
    rw [inorder_eq hf', hcontents', hpairs, bindings, bindings, List.foldl_append]
    rfl

section Runs

/-- Three leaves, a value overwritten, a key that is a router removed and inserted again. -/
def rewritten : List (Op Int Int) :=
  [.insert 1 10, .insert 2 20, .insert 3 30, .insert 4 40, .insert 5 50, .insert 6 60,
    .insert 2 21, .remove 3, .insert 3 31]

theorem run_refines_map_rewritten :
    ∃ t, run BTree.less 2 empty rewritten = some t ∧
      t.inorder = some (bindings BTree.less rewritten) ∧
      (bindings BTree.less rewritten).Pairwise (fun a b => BTree.less a.1 b.1 = true) ∧
      t.size = (bindings BTree.less rewritten).length ∧
      (∀ k, (lookup (place BTree.less k) (bindings BTree.less rewritten)).map Prod.snd =
        bound BTree.less rewritten k) ∧
      (∀ k, t.find BTree.less k = some (bound BTree.less rewritten k)) ∧
      (∀ k, t.contains BTree.less k = some (bound BTree.less rewritten k).isSome) ∧
      ∀ k, ∃ t', t.remove BTree.less 2 k = some (t', (bound BTree.less rewritten k).isSome) ∧
        t'.inorder = some (bindings BTree.less (rewritten ++ [.remove k])) :=
  run_refines_map BTree.less_strictWeak (by decide) (by decide) rewritten (by decide +kernel)

/-- The leaf `[3, 4, 5]` is full when 5 comes again: the split makes 5 a routing key
and the insertion goes left of it, where the pair with key 5 is not. -/
theorem reinserted_router : ¬ ∃ t, run BTree.less 2 empty
    [.insert 1 10, .insert 2 20, .insert 3 30, .insert 4 40, .insert 5 50, .insert 5 51] = some t ∧
      t.size = 5 ∧ t.find BTree.less 5 = some (some 51) := by
  intro ⟨t, hrun, hsize, _⟩
  have hsix : (run BTree.less 2 empty [.insert 1 10, .insert 2 20, .insert 3 30, .insert 4 40,
      .insert 5 50, .insert 5 51]).map size = some 6 := by
    decide +kernel
  rw [hrun, Option.map_some, Option.some.injEq] at hsix
  omega

end Runs

end Cppforge.Multiway.BPlusTree
