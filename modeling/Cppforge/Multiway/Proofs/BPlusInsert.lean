import Cppforge.Multiway.Proofs.BPlusLeaves
import Mathlib.Data.List.TakeWhile

namespace Cppforge.Multiway.BPlusTree
open Ordered KTree

variable {K V : Type} {comp : K → K → Bool} {order : Nat}

section Leaf
variable {entries A B : List (K × V)} {e : K × V} {key : K}

theorem equivalent_iff {a : K} : equivalent comp a key = true ↔ cut comp key a = .eq := by
  rw [cut_eq_eq]
  simp [equivalent]

theorem equivalent_false {a : K} : equivalent comp a key = false ↔ cut comp key a ≠ .eq := by
  rw [← Bool.not_eq_true, equivalent_iff]

theorem replaceValue_hit (value : V) (hA : ∀ x ∈ A, place comp key x = .lt)
    (he : place comp key e = .eq) :
    replaceValue comp (A ++ e :: B) key value = some (A ++ (e.1, value) :: B) := by
  have hfind : (A ++ e :: B).findIdx? (fun x => equivalent comp x.1 key) = some A.length := by
    rw [List.findIdx?_append]
    have hnone : A.findIdx? (fun x => equivalent comp x.1 key) = none := by
      rw [List.findIdx?_eq_none_iff]
      intro x hx
      rw [equivalent_false]
      exact ne_eq_of_lt hA x hx
    have hhit : equivalent comp e.1 key = true := equivalent_iff.mpr he
    simp [hnone, List.findIdx?_cons, hhit]
  simp only [replaceValue, hfind, Option.bind_eq_bind, Option.bind_some, Option.pure_def]
  rw [List.modify_eq_set_getElem?]
  simp

theorem replaceValue_gap (value : V) (h : ∀ x ∈ entries, place comp key x ≠ .eq) :
    replaceValue comp entries key value = none := by
  have hnone : entries.findIdx? (fun x => equivalent comp x.1 key) = none := by
    rw [List.findIdx?_eq_none_iff]
    intro x hx
    rw [equivalent_false]
    exact h x hx
  simp [replaceValue, hnone]

/-- The scan from the back stops at the first key that is not greater. -/
theorem insertEntry_gap (hc : StrictWeak comp) (value : V) (hA : ∀ x ∈ A, place comp key x = .lt)
    (hB : ∀ x ∈ B, place comp key x = .gt) :
    insertEntry comp (A ++ B) key value = A ++ (key, value) :: B := by
  have hscan : (A ++ B).reverse.takeWhile (fun e => comp key e.1) = B.reverse := by
    rw [List.reverse_append, List.takeWhile_append_of_pos]
    · have hstop : A.reverse.takeWhile (fun e => comp key e.1) = [] := by
        rw [List.takeWhile_eq_nil_iff]
        intro hpos hlt
        have hmem : A.reverse.get ⟨0, hpos⟩ ∈ A := List.mem_reverse.mp (List.get_mem _ _)
        have hless := cut_eq_lt.mp (hA _ hmem)
        rw [hc.asymm hless] at hlt
        cases hlt
      rw [hstop, List.append_nil]
    · intro x hx
      exact (cut_eq_gt hc).mp (hB x (List.mem_reverse.mp hx))
  rw [insertEntry, hscan]
  simp only [List.length_reverse, List.length_append, Nat.add_sub_cancel]
  exact Splice.insertIdx_mid rfl

end Leaf

/-- The routing keys of a node around the index the search stops at. -/
theorem childIdx_cases (comp : K → K → Bool) (keys : List K) (key : K) :
    ∃ K1 K2, keys = K1 ++ K2 ∧ K1.length = childIdx comp keys key ∧
      (∀ k ∈ K1, comp key k = false) ∧ ∀ k ∈ K2.head?, comp key k = true := by
  refine ⟨keys.takeWhile (fun k => !comp key k), keys.dropWhile (fun k => !comp key k),
    List.takeWhile_append_dropWhile.symm, rfl, ?_, ?_⟩
  · intro k hk
    have := List.mem_takeWhile_imp (p := fun k => !comp key k) hk
    simpa using this
  · intro k hk
    have := List.head?_dropWhile_not (fun k => !comp key k) keys
    rw [Option.mem_def.mp hk] at this
    simpa using this

/-- The descent of a key through an internal node, and how it divides the layout. -/
theorem open_node (comp : K → K → Bool) {h : Nat} {keys : List K} {children : List (Node K V)}
    (hs : layout.Shape order (h + 1) (.internal keys children)) (key : K) :
    ∃ K1 K2 C1 c C2, keys = K1 ++ K2 ∧ children = C1 ++ c :: C2 ∧
      K1.length = childIdx comp keys key ∧ layout.Parts order h K1 K2 C1 c C2 ∧
      (StrictWeak comp → Ascending (itemLt comp) (layout.flat (.internal keys children)) →
        layout.Sides (itemLt comp) (.entry key) K1 K2 C1 C2) := by
  obtain ⟨K1, K2, hkeys, hidx, hle, hgt⟩ := childIdx_cases comp keys key
  obtain ⟨C1, c, C2, hchildren, p⟩ := View.Parts.of_shape hs hkeys
  refine ⟨K1, K2, C1, c, C2, hkeys, hchildren, hidx, p, ?_⟩
  intro hc ha
  rw [hkeys, hchildren, p.flat] at ha
  refine View.Sides.of_keys (itemLt_strictWeak hc) p.left ha ?_ ?_
  · intro k hk
    exact cut_router_lt.mpr (hle k hk)
  · intro k hk
    exact (cut_router_gt hc).mpr (hgt k hk)

section Split
variable {h : Nat} {K1 K2 : List K} {C1 C2 : List (Node K V)} {c : Node K V}

/-- The routing key a split of the node would promote. -/
def promoted (order : Nat) : Node K V → Option K
  | .leaf l => l.entries[order]?.map Prod.fst
  | .internal keys _ => keys[order - 1]?

/-- A split of this node would promote a routing key equivalent to the given one. -/
def promotes (comp : K → K → Bool) (order : Nat) (key : K) (node : Node K V) : Bool :=
  isFull order node && (promoted order node).any (fun k => equivalent comp k key)

/-- No node below this one is full and about to promote the given key. -/
def avoids (comp : K → K → Bool) (order : Nat) (key : K) : Nat → Node K V → Bool
  | h + 1, .internal _ children =>
    children.all (fun c => !promotes comp order key c && avoids comp order key h c)
  | _, _ => true

/-- What a split leaves of a full node: halves around the promoted key. -/
structure Halved (comp : K → K → Bool) (order h : Nat) (s s' : Store) (c l : Node K V) (m : K)
    (r : Node K V) : Prop where
  left : layout.Fit order h l
  right : layout.Fit order h r
  leftRoom : layout.count l < 2 * order - 1
  rightRoom : layout.count r < 2 * order - 1
  key : promoted order c = some m
  calm : ∀ key, avoids comp order key h c = true →
    avoids comp order key h l = true ∧ avoids comp order key h r = true
  size : s'.size = s.size
  pairs : pairs l ++ pairs r = pairs c
  links : Relinks s s' (addrs c) (addrs l ++ addrs r)
  order : StrictWeak comp → ∀ X Y, Ascending (itemLt comp) (X ++ layout.flat c ++ Y) →
    Ascending (itemLt comp) (X ++ (layout.flat l ++ .router m :: layout.flat r) ++ Y)

theorem fit_leaf {l : Leaf K V} : layout.Fit order 0 (.leaf l) ↔
    order ≤ l.entries.length + 1 ∧ l.entries.length ≤ 2 * order - 1 := by
  rw [View.Fit, count_leaf, shape_leaf]

/-- The routing key of an entry fits in right in front of it. -/
theorem ascending_router (hw : StrictWeak comp) {P Q : List (Item K)} {a b : K}
    (h : Ascending (itemLt comp) (P ++ .entry a :: .entry b :: Q)) :
    Ascending (itemLt comp) (P ++ .entry a :: .router b :: .entry b :: Q) := by
  have hab : comp a b = true :=
    (List.pairwise_cons.mp (List.pairwise_append.mp h).2.1).1 _ List.mem_cons_self
  exact h.insert_between (itemLt_strictWeak hw) hab (by simp [itemLt, hw.irrefl])

theorem leafHalves_spec (comp : K → K → Bool) (ho : 2 ≤ order) (s : Store) {l : Leaf K V}
    (hfull : l.entries.length = 2 * order - 1) :
    ∃ left m right, leafHalves order s.fresh (.leaf l) = some (left, m, right) ∧
      Halved comp order 0 s (s.alloc.linkAfter l.addr s.fresh) (.leaf l) left m right := by
  obtain ⟨addr, entries⟩ := l
  change entries.length = _ at hfull
  obtain ⟨A, b, B, rfl, hA⟩ := Splice.pick (l := entries) (i := order) (by omega)
  rw [List.length_append, List.length_cons] at hfull
  have htake : (A ++ b :: B).take order = A := List.take_left' hA
  have hdrop : (A ++ b :: B).drop order = b :: B := List.drop_left' hA
  refine ⟨.leaf ⟨addr, A⟩, b.1, .leaf ⟨s.fresh, b :: B⟩, ?_, ?_, ?_, ?_, ?_, ?_,
    fun _ _ => ⟨rfl, rfl⟩, rfl, ?_, ?_, ?_⟩
  · simp [leafHalves, Splice.getElem?_mid hA, htake, hdrop]
  · rw [fit_leaf]
    dsimp only
    omega
  · rw [fit_leaf, List.length_cons]
    omega
  · simp only [count_leaf]
    omega
  · simp only [count_leaf, List.length_cons]
    omega
  · simp [promoted, Splice.getElem?_mid hA]
  · simp
  · exact relinks_split s addr
  · intro hc X Y ha
    -- the promoted key stands between the last pair of the left half and its own pair
    rcases List.eq_nil_or_concat A with hnil | ⟨A', a, hA'⟩
    · rw [hnil] at hA
      simp at hA
      omega
    · rw [List.concat_eq_append] at hA'
      subst A
      have hseq : Ascending (itemLt comp) ((X ++ A'.map (fun e => Item.entry e.1)) ++
          .entry a.1 :: .entry b.1 :: (B.map (fun e => Item.entry e.1) ++ Y)) := by
        simpa using ha
      simpa using ascending_router hc hseq

theorem internalHalves_spec (comp : K → K → Bool) (ho : 2 ≤ order) (s : Store) {ks : List K} {cs : List (Node K V)}
    (hs : layout.Shape order (h + 1) (.internal ks cs)) (hfull : ks.length = 2 * order - 1) :
    ∃ left m right, internalHalves order (.internal ks cs) = some (left, m, right) ∧
      Halved comp order (h + 1) s s (.internal ks cs) left m right := by
  obtain ⟨A, m, B, hm, htake, hdrop, hA, hB, hflat, hcs, hsl, hsr⟩ :=
    View.halves_internal (by omega) hs hfull
  refine ⟨.internal A (cs.take order), m, .internal B ((cs.drop order).take order), ?_,
    ⟨?_, hsl⟩, ⟨?_, hsr⟩, ?_, ?_, hm, ?_, rfl, ?_, ?_, ?_⟩
  · simp [internalHalves, hm, htake, hdrop]
  · rw [count_internal]
    omega
  · rw [count_internal]
    omega
  · rw [count_internal]
    omega
  · rw [count_internal]
    omega
  · intro key hav
    simp only [avoids, List.all_eq_true] at hav ⊢
    constructor
    · intro x hx
      exact hav x (List.mem_of_mem_take hx)
    · intro x hx
      exact hav x (List.mem_of_mem_drop (List.mem_of_mem_take hx))
  · simp only [pairs_internal]
    conv => rhs; rw [hcs]
    rw [pairsFrom_append]
  · have hlinks := Relinks.refl s (addrsFrom cs)
    conv at hlinks => rhs; rw [hcs, addrsFrom_append]
    exact hlinks
  · intro _ X Y ha
    simp only [View.flat] at ha ⊢
    rw [hflat] at ha
    exact ha

/-- A full child split in its parent. -/
theorem splitChild_spec (comp : K → K → Bool) (ho : 2 ≤ order) (p : layout.Parts order h K1 K2 C1 c C2)
    (hfull : layout.count c = 2 * order - 1) (s : Store) :
    ∃ l m r s', splitChild order s (K1 ++ K2) (C1 ++ c :: C2) K1.length =
        some (K1 ++ m :: K2, C1 ++ l :: r :: C2, s') ∧ Halved comp order h s s' c l m r := by
  rcases p.child.2.cases with ⟨l, rfl, rfl, _⟩ | ⟨h, ks, cs, rfl, rfl, _⟩
  · rw [count_leaf] at hfull
    obtain ⟨left, m, right, hrun, hh⟩ := leafHalves_spec comp ho s hfull
    have hsplit : splitAt (leafHalves order s.fresh) (K1 ++ K2) (C1 ++ .leaf l :: C2) K1.length =
        some (K1 ++ m :: K2, C1 ++ left :: right :: C2) := splitAt_eq rfl p.left hrun
    refine ⟨left, m, right, _, ?_, hh⟩
    simp [splitChild, splitLeaf, Splice.getElem?_mid p.left, Node.isLeaf, hsplit]
  · obtain ⟨left, m, right, hrun, hh⟩ :=
      internalHalves_spec comp ho s p.child.2 hfull
    have hsplit : splitInternal order (K1 ++ K2) (C1 ++ .internal ks cs :: C2) K1.length =
        some (K1 ++ m :: K2, C1 ++ left :: right :: C2) := splitAt_eq rfl p.left hrun
    refine ⟨left, m, right, s, ?_, hh⟩
    simp [splitChild, Splice.getElem?_mid p.left, Node.isLeaf, hsplit]

end Split

/-- What keeping a node's contents means while its children are rearranged around
the one the descent goes to. -/
structure Rearranged (comp : K → K → Bool) (order h : Nat) (s s' : Store) (K1 K2 : List K)
    (C1 : List (Node K V)) (c : Node K V) (C2 : List (Node K V)) (K1' K2' : List K)
    (C1' : List (Node K V)) (c' : Node K V) (C2' : List (Node K V)) : Prop extends
    layout.Parts order h K1' K2' C1' c' C2' where
  size : s'.size = s.size
  pairs : pairsFrom (C1' ++ c' :: C2') = pairsFrom (C1 ++ c :: C2)
  links : Relinks s s' (addrsFrom (C1 ++ c :: C2)) (addrsFrom (C1' ++ c' :: C2'))
  order : StrictWeak comp → ∀ X Y, Ascending (itemLt comp)
      (X ++ (layout.before K1 C1 ++ layout.flat c ++ layout.after K2 C2) ++ Y) →
    Ascending (itemLt comp)
      (X ++ (layout.before K1' C1' ++ layout.flat c' ++ layout.after K2' C2') ++ Y)

section Room
variable {h : Nat} {K1 K2 : List K} {C1 C2 : List (Node K V)} {c : Node K V}

theorem Rearranged.refl (p : layout.Parts order h K1 K2 C1 c C2) (s : Store) :
    Rearranged comp order h s s K1 K2 C1 c C2 K1 K2 C1 c C2 :=
  ⟨p, rfl, rfl, Relinks.refl _ _, fun _ _ _ ha => ha⟩

theorem isFull_iff {node : Node K V} :
    isFull order node = true ↔ layout.count node = 2 * order - 1 := by
  rw [isFull, beq_iff_eq, count_eq]

/-- A full child is split before the descent, which goes on in the half the key
belongs to unless the key is the promoted one. -/
theorem makeRoom_spec (comp : K → K → Bool) (ho : 2 ≤ order) (p : layout.Parts order h K1 K2 C1 c C2)
    (hroom : (K1 ++ K2).length < 2 * order - 1) (key : K) (s : Store) :
    ∃ K1' K2' C1' c' C2' s', makeRoom comp order s (K1 ++ K2) (C1 ++ c :: C2) K1.length key =
        some (K1' ++ K2', C1' ++ c' :: C2', K1'.length, s') ∧
      Rearranged comp order h s s' K1 K2 C1 c C2 K1' K2' C1' c' C2' ∧
      layout.count c' < 2 * order - 1 ∧ (K1' ++ K2').length ≤ 2 * order - 1 ∧
      (K1 ++ K2).length ≤ (K1' ++ K2').length ∧
      (avoids comp order key h c = true → avoids comp order key h c' = true) ∧
      (StrictWeak comp →
        Ascending (itemLt comp) (layout.before K1 C1 ++ layout.flat c ++ layout.after K2 C2) →
        promotes comp order key c = false → layout.Sides (itemLt comp) (.entry key) K1 K2 C1 C2 →
        layout.Sides (itemLt comp) (.entry key) K1' K2' C1' C2') := by
  cases hfull : isFull order c with
  | false =>
    refine ⟨K1, K2, C1, c, C2, s, ?_, Rearranged.refl p s, ?_, by omega, by omega, fun h => h,
      fun _ _ _ hs => hs⟩
    · simp [makeRoom, Splice.getElem?_mid p.left, hfull]
    · have hle := p.child.2.count_le
      have hne : layout.count c ≠ 2 * order - 1 := by
        intro he
        rw [isFull_iff.mpr he] at hfull
        cases hfull
      omega
  | true =>
    obtain ⟨l, m, r, s', hsplit, hh⟩ :=
      splitChild_spec comp ho p (isFull_iff.mp hfull) s
    have hmake : makeRoom comp order s (K1 ++ K2) (C1 ++ c :: C2) K1.length key =
        some (K1 ++ m :: K2, C1 ++ l :: r :: C2,
          if comp m key then K1.length + 1 else K1.length, s') := by
      simp [makeRoom, Splice.getElem?_mid p.left, hfull, hsplit]
    have hpairs : pairsFrom (C1 ++ l :: r :: C2) = pairsFrom (C1 ++ c :: C2) := by
      simp [← hh.pairs]
    have hlinks : Relinks s s' (addrsFrom (C1 ++ c :: C2)) (addrsFrom (C1 ++ l :: r :: C2)) := by
      simpa using hh.links.frame (addrsFrom C1) (addrsFrom C2)
    have hord : StrictWeak comp → ∀ X Y, Ascending (itemLt comp)
        (X ++ (layout.before K1 C1 ++ layout.flat c ++ layout.after K2 C2) ++ Y) →
        Ascending (itemLt comp) (X ++ (layout.before K1 C1 ++
          (layout.flat l ++ .router m :: layout.flat r) ++ layout.after K2 C2) ++ Y) := by
      intro hc X Y ha
      have := hh.order hc (X ++ layout.before K1 C1) (layout.after K2 C2 ++ Y) (by simpa using ha)
      simpa using this
    have hmid : StrictWeak comp →
        Ascending (itemLt comp) (layout.before K1 C1 ++ layout.flat c ++ layout.after K2 C2) →
        Ascending (itemLt comp) (layout.flat l ++ .router m :: layout.flat r) := by
      intro hc ha
      exact (hh.order hc (layout.before K1 C1) (layout.after K2 C2) ha).mid
    have hp := p.split m hh.left hh.right
    have hlen : (K1 ++ m :: K2).length = (K1 ++ K2).length + 1 := by simp; omega
    cases hmk : comp m key with
    | true =>
      have happ : K1 ++ [m] ++ K2 = K1 ++ m :: K2 := by simp
      have hbefore := layout.before_snoc m l p.left
      refine ⟨K1 ++ [m], K2, C1 ++ [l], r, C2, s', by simp [hmake, hmk],
        ⟨hp.step_right, hh.size, by simpa using hpairs, by simpa using hlinks, ?_⟩,
        hh.rightRoom, ?_, ?_, fun hav => (hh.calm key hav).2, ?_⟩
      · intro hc X Y ha
        simpa [hbefore] using hord hc X Y ha
      · rw [happ]
        omega
      · rw [happ]
        omega
      · intro hc ha _ hs
        have hw := itemLt_strictWeak hc
        have hhalves := hmid hc ha
        have hmlt : itemLt comp (.router m) (.entry key) = true := by simp [itemLt, hc.asymm hmk]
        refine hs.push_front p.left ?_
        intro e he
        rcases List.mem_append.mp he with he | he
        · have hem := (List.pairwise_append.mp hhalves).2.2 e he _ List.mem_cons_self
          exact cut_eq_lt.mpr (hw.trans hem hmlt)
        · rw [List.mem_singleton.mp he]
          exact cut_eq_lt.mpr hmlt
    | false =>
      refine ⟨K1, m :: K2, C1, l, r :: C2, s', by simp [hmake, hmk],
        ⟨hp, hh.size, hpairs, hlinks, ?_⟩, hh.leftRoom, by omega, by omega,
        fun hav => (hh.calm key hav).1, ?_⟩
      · intro hc X Y ha
        simpa [View.after] using hord hc X Y ha
      · intro hc ha hprom hs
        have hw := itemLt_strictWeak hc
        have hhalves := hmid hc ha
        have hkm : comp key m = true := by
          rw [promotes, hfull, hh.key] at hprom
          simp only [Bool.true_and, Option.any_some, equivalent, hmk, Bool.not_false,
            Bool.not_eq_false'] at hprom
          exact hprom
        refine hs.push_back ?_
        intro e he
        rcases List.mem_cons.mp he with rfl | he
        · exact (cut_router_gt hc).mpr hkm
        · have hme := (List.pairwise_cons.mp (List.pairwise_append.mp hhalves).2.1).1 e he
          have hlt : itemLt comp (.entry key) (.router m) = true := hkm
          exact (cut_eq_gt hw).mpr (hw.trans hlt hme)

end Room

/-- An insertion in the pairs of a subtree: an equivalent key keeps its place and
gets the value. -/
def insertPair (comp : K → K → Bool) (key : K) (value : V) (l : List (K × V)) : List (K × V) :=
  upsert (place comp key) (fun e => (e.1, value)) (key, value) l

/-- The size an insertion leaves: one more unless the key was there. -/
def sizeAfterInsert (comp : K → K → Bool) (key : K) (l : List (K × V)) (size : Int) : Int :=
  if (lookup (place comp key) l).isSome then size else BTree.toInt32 (size + 1)

/-- What an insertion below a node keeps of the tree's structure. -/
structure Grown (order h : Nat) (s s' : Store) (node node' : Node K V) : Prop where
  shape : layout.Shape order h node'
  count : layout.count node ≤ layout.count node'
  links : Relinks s s' (addrs node) (addrs node')

/-- What it does to the contents, between the items `X` and `Y` around the subtree. -/
def InsertsAt (comp : K → K → Bool) (key : K) (value : V) (s s' : Store) (node node' : Node K V) :
    Prop :=
  ∀ X Y, Ascending (itemLt comp) (X ++ layout.flat node ++ Y) →
    (∀ x ∈ X, cut (itemLt comp) (.entry key) x = .lt) →
    (∀ y ∈ Y, cut (itemLt comp) (.entry key) y = .gt) →
    Ascending (itemLt comp) (X ++ layout.flat node' ++ Y) ∧
      pairs node' = insertPair comp key value (pairs node) ∧
      s'.size = sizeAfterInsert comp key (pairs node) s.size

theorem insertNonFull_leaf (hc : StrictWeak comp) (key : K) (value : V) (l : Leaf K V) (s : Store)
    (fuel : Nat) : ∀ node' s',
    insertNonFull comp order key value (fuel + 1) (.leaf l) s = some (node', s') →
      InsertsAt comp key value s s' (.leaf l) node' := by
  intro node' s' hrun X Y ha hX hY
  obtain ⟨addr, entries⟩ := l
  simp only [layout_leaf] at ha
  have hsorted : entries.Pairwise (fun a b => comp a.1 b.1 = true) := List.pairwise_map.mp ha.mid
  rcases exists_place hc key hsorted with ⟨A, e, B, rfl, hA, he, hB⟩ | ⟨A, B, rfl, hA, hB⟩
  · rw [insertNonFull, replaceValue_hit value hA he] at hrun
    simp only [Option.some.injEq, Prod.mk.injEq] at hrun
    obtain ⟨rfl, rfl⟩ := hrun
    refine ⟨by simpa using ha, ?_, ?_⟩
    · rw [pairs_leaf, pairs_leaf, insertPair, upsert_hit hA he]
    · simp [sizeAfterInsert, lookup_hit (ne_eq_of_lt hA) he]
  · have hgap : ∀ x ∈ A ++ B, place comp key x ≠ .eq := by
      intro x hx
      rcases List.mem_append.mp hx with hx | hx
      · exact ne_eq_of_lt hA x hx
      · exact ne_eq_of_gt hB x hx
    rw [insertNonFull, replaceValue_gap value hgap] at hrun
    simp only [insertEntry_gap hc value hA hB, Option.some.injEq, Prod.mk.injEq] at hrun
    obtain ⟨rfl, rfl⟩ := hrun
    refine ⟨?_, ?_, ?_⟩
    · have hseq : Ascending (itemLt comp) ((X ++ A.map (fun e => Item.entry e.1)) ++
          (B.map (fun e => Item.entry e.1) ++ Y)) := by simpa using ha
      have hins := hseq.insert_cut (z := Item.entry key) (itemLt_strictWeak hc) ?_ ?_
      · simpa using hins
      · intro x hx
        rcases List.mem_append.mp hx with hx | hx
        · exact hX x hx
        · obtain ⟨e, he, rfl⟩ := List.mem_map.mp hx
          exact hA e he
      · intro x hx
        rcases List.mem_append.mp hx with hx | hx
        · obtain ⟨e, he, rfl⟩ := List.mem_map.mp hx
          exact hB e he
        · exact hY x hx
    · rw [pairs_leaf, pairs_leaf, insertPair, upsert_gap hA hB]
    · simp [sizeAfterInsert, lookup_gap hA hB, Store.setSize]

theorem insertNonFull_spec (comp : K → K → Bool) (ho : 2 ≤ order) (key : K) (value : V) {h : Nat}
    {node : Node K V} (s : Store) (hs : layout.Shape order h node) (hroom : layout.count node < 2 * order - 1) :
    ∃ node' s', insertNonFull comp order key value (h + 1) node s = some (node', s') ∧
      Grown order h s s' node node' ∧
      (StrictWeak comp → avoids comp order key h node = true →
        InsertsAt comp key value s s' node node') := by
  induction h generalizing node s with
  | zero =>
    cases node with
    | internal keys children => cases hs
    | leaf l =>
      rw [count_leaf] at hroom
      cases hr : replaceValue comp l.entries key value with
      | some entries =>
        have hrun : insertNonFull comp order key value 1 (.leaf l) s =
            some (.leaf ⟨l.addr, entries⟩, s) := by simp [insertNonFull, hr]
        have hlen : entries.length = l.entries.length := by
          simp only [replaceValue, Option.bind_eq_bind, Option.bind_eq_some_iff, Option.pure_def,
            Option.some.injEq] at hr
          obtain ⟨i, _, rfl⟩ := hr
          simp
        refine ⟨_, _, hrun, ⟨?_, ?_, Relinks.refl _ _⟩,
          fun hc _ => insertNonFull_leaf hc key value l s 0 _ _ hrun⟩
        · simp only [shape_leaf]
          omega
        · simp only [count_leaf]
          omega
      | none =>
        have hrun : insertNonFull comp order key value 1 (.leaf l) s =
            some (.leaf ⟨l.addr, insertEntry comp l.entries key value⟩,
              s.setSize (s.size + 1)) := by simp [insertNonFull, hr]
        have hlen : (insertEntry comp l.entries key value).length = l.entries.length + 1 := by
          rw [insertEntry, List.length_insertIdx_of_le_length (Nat.sub_le _ _)]
        refine ⟨_, _, hrun, ⟨?_, ?_, relinks_setSize s _ _⟩,
          fun hc _ => insertNonFull_leaf hc key value l s 0 _ _ hrun⟩
        · simp only [shape_leaf]
          omega
        · simp only [count_leaf]
          omega
  | succ h ih =>
    cases node with
    | leaf l => cases hs
    | internal keys children =>
      obtain ⟨K1, K2, C1, c, C2, hkeys, hchildren, hidx, p, hsides⟩ :=
        open_node comp hs key
      rw [count_internal, hkeys] at hroom
      obtain ⟨K1', K2', C1', c', C2', s₁, hmake, hre, hroom', hlen, hgrow, hcalm, hturn⟩ :=
        makeRoom_spec comp ho p hroom key s
      obtain ⟨c'', s₂, hins, hg, hat⟩ := ih s₁ hre.child.2 hroom'
      have hmin := hre.child.1
      have hcount := hg.count
      have hp := hre.toParts.put (show layout.Fit order h c'' from ⟨by omega, hg.shape⟩)
      have hrun : insertNonFull comp order key value (h + 1 + 1) (.internal keys children) s =
          some (.internal (K1' ++ K2') (C1' ++ c'' :: C2'), s₂) := by
        have hmake' : makeRoom comp order s keys children (childIdx comp keys key) key =
            some (K1' ++ K2', C1' ++ c' :: C2', K1'.length, s₁) := by
          rw [← hidx, hkeys, hchildren]
          exact hmake
        simp [insertNonFull, hmake', Splice.getElem?_mid hre.left, hins, Splice.set_mid hre.left]
      refine ⟨_, _, hrun, ⟨hp.shape hlen, ?_, ?_⟩, ?_⟩
      · rw [count_internal, count_internal, hkeys]
        exact hgrow
      · rw [addrs_internal, addrs_internal, hchildren]
        exact hre.links.trans (by simpa using hg.links.frame (addrsFrom C1') (addrsFrom C2'))
      · intro hc hav X Y ha hX hY
        have hmem : c ∈ children := by simp [hchildren]
        simp only [avoids, List.all_eq_true, Bool.and_eq_true, Bool.not_eq_true'] at hav
        obtain ⟨hprom, havc⟩ := hav c hmem
        have hs₀ := hsides hc ha.mid
        rw [hkeys, hchildren, p.flat] at ha
        have hs₁ := hturn hc ha.mid hprom hs₀
        have ha₁ := hre.order hc X Y ha
        obtain ⟨ha₂, hpairs, hsize⟩ := hat hc (hcalm havc) (X ++ layout.before K1' C1')
          (layout.after K2' C2' ++ Y) (by simpa using ha₁)
          (List.forall_mem_append.mpr ⟨hX, hs₁.below⟩) (List.forall_mem_append.mpr ⟨hs₁.above, hY⟩)
        have hfront := place_before hre.toParts hs₁
        have hback := place_after hre.toParts hs₁
        have hcontents : pairsFrom children = pairsFrom C1' ++ pairs c' ++ pairsFrom C2' := by
          rw [hchildren, ← hre.pairs]
          simp
        refine ⟨?_, ?_, ?_⟩
        · rw [hp.flat]
          simpa using ha₂
        · rw [pairs_internal, pairs_internal, hcontents, insertPair, upsert_append_right _ _ hback,
            upsert_append_left _ _ hfront, ← insertPair, ← hpairs]
          simp
        · rw [hsize, hre.size, pairs_internal, hcontents, sizeAfterInsert, sizeAfterInsert,
            lookup_append, lookup_append, lookup_eq_none _ (ne_eq_of_lt hfront),
            lookup_eq_none _ (ne_eq_of_gt hback)]
          simp

end Cppforge.Multiway.BPlusTree
