import Cppforge.Multiway.Proofs.BTreeInsert

namespace Cppforge.Multiway.BTree
open Ordered KTree

variable {T : Type} {comp : T → T → Bool} {order : Nat}

/-- A rotation moves one key across and leaves the traversal alone. -/
theorem rotateRight_spec {h : Nat} {s c : Node T} (k : T) (hs : traversal.Shape order h s)
    (hc : traversal.Shape order h c) (hlend : 1 ≤ traversal.count s)
    (hroom : traversal.count c < 2 * order - 1) :
    ∃ s' up c', rotateRight k s c = some (s', up, c') ∧
      traversal.flat s' ++ up :: traversal.flat c' = traversal.flat s ++ k :: traversal.flat c ∧
      (∀ e ∈ traversal.flat s' ++ [up], e ∈ traversal.flat s) ∧
      traversal.count s' + 1 = traversal.count s ∧ traversal.count c' = traversal.count c + 1 ∧
      traversal.Shape order h s' ∧ traversal.Shape order h c' := by
  rcases hs.cases with ⟨sk, rfl, rfl, hslen⟩ | ⟨h, sk, sc, rfl, rfl, _, hsc, _⟩
  · obtain ⟨ck, _, rfl, _⟩ | ⟨_, _, _, h0, _⟩ := hc.cases
    · rw [count_leaf] at hlend hroom
      rcases List.eq_nil_or_concat sk with rfl | ⟨sk', up, rfl⟩
      · simp at hlend
      · rw [List.concat_eq_append] at hs ⊢
        rw [shape_leaf, List.length_append, List.length_singleton] at hs
        refine ⟨.leaf sk', up, .leaf (k :: ck), by simp [rotateRight], by simp, by simp, by simp,
          by simp, ?_, ?_⟩
        · rw [shape_leaf]
          omega
        · rw [shape_leaf, List.length_cons]
          omega
    · cases h0
  · obtain ⟨_, h0, _⟩ | ⟨_, ck, cc, h1, rfl, _⟩ := hc.cases
    · cases h0
    · cases h1
      rw [count_internal] at hlend hroom
      rcases List.eq_nil_or_concat sk with rfl | ⟨sk', up, rfl⟩
      · simp at hlend
      · rcases List.eq_nil_or_concat sc with rfl | ⟨sc', moved, rfl⟩
        · simp at hsc
        · rw [List.concat_eq_append, List.concat_eq_append] at hs ⊢
          obtain ⟨hfs, hfc, hss, hsc'⟩ := View.rotateRight_internal k hs hc hroom
          simp only [traversal_sep] at hfs hfc
          refine ⟨.internal sk' sc', up, .internal (k :: ck) (moved :: cc), by simp [rotateRight],
            ?_, ?_, by simp, by simp, hss, hsc'⟩
          · simp only [View.flat, hfs, hfc]
            simp
          · intro e he
            simp only [View.flat, hfs]
            rw [List.mem_append, List.mem_singleton] at he
            rw [List.mem_append, List.mem_cons]
            rcases he with he | he
            · exact .inl he
            · exact .inr (.inl he)

theorem rotateLeft_spec {h : Nat} {c s : Node T} (k : T) (hc : traversal.Shape order h c)
    (hs : traversal.Shape order h s) (hlend : 1 ≤ traversal.count s)
    (hroom : traversal.count c < 2 * order - 1) :
    ∃ c' up s', rotateLeft k c s = some (c', up, s') ∧
      traversal.flat c' ++ up :: traversal.flat s' = traversal.flat c ++ k :: traversal.flat s ∧
      (∀ e ∈ up :: traversal.flat s', e ∈ traversal.flat s) ∧
      traversal.count s' + 1 = traversal.count s ∧ traversal.count c' = traversal.count c + 1 ∧
      traversal.Shape order h c' ∧ traversal.Shape order h s' := by
  rcases hc.cases with ⟨ck, rfl, rfl, _⟩ | ⟨h, ck, cc, rfl, rfl, _⟩
  · obtain ⟨sk, _, rfl, hslen⟩ | ⟨_, _, _, h0, _⟩ := hs.cases
    · rw [count_leaf] at hlend hroom
      cases sk with
      | nil => simp at hlend
      | cons up sk =>
        rw [shape_leaf, List.length_cons] at hs
        refine ⟨.leaf (ck ++ [k]), up, .leaf sk, rfl, by simp, by simp, by simp, by simp, ?_, ?_⟩
        · rw [shape_leaf, List.length_append, List.length_singleton]
          omega
        · rw [shape_leaf]
          omega
    · cases h0
  · obtain ⟨_, h0, _⟩ | ⟨_, sk, sc, h1, rfl, _, hsc, _⟩ := hs.cases
    · cases h0
    · cases h1
      rw [count_internal] at hlend hroom
      cases sk with
      | nil => simp at hlend
      | cons up sk =>
        cases sc with
        | nil => simp at hsc
        | cons moved sc =>
          obtain ⟨hfc, hfs, hsc', hss⟩ := View.rotateLeft_internal k hc hs hroom
          simp only [traversal_sep] at hfs hfc
          refine ⟨.internal (ck ++ [k]) (cc ++ [moved]), up, .internal sk sc, rfl, ?_, ?_, by simp,
            by simp, hsc', hss⟩
          · simp only [View.flat, hfs, hfc]
            simp
          · intro e he
            simp only [View.flat, hfs]
            exact List.mem_append_right _ he

theorem join_spec {h : Nat} {l r : Node T} (k : T) (hl : traversal.Shape order h l)
    (hr : traversal.Shape order h r)
    (hroom : traversal.count l + traversal.count r + 1 ≤ 2 * order - 1) :
    ∃ m, join k l r = some m ∧ traversal.flat m = traversal.flat l ++ k :: traversal.flat r ∧
      traversal.count m = traversal.count l + traversal.count r + 1 ∧
      traversal.Shape order h m := by
  rcases hl.cases with ⟨lk, rfl, rfl, _⟩ | ⟨h, lk, lc, rfl, rfl, _⟩
  · obtain ⟨rk, _, rfl, _⟩ | ⟨_, _, _, h0, _⟩ := hr.cases
    · rw [count_leaf, count_leaf] at hroom
      refine ⟨.leaf (lk ++ k :: rk), rfl, rfl, ?_, ?_⟩
      · simp only [count_leaf, List.length_append, List.length_cons]
        omega
      · rw [shape_leaf, List.length_append, List.length_cons]
        omega
    · cases h0
  · obtain ⟨_, h0, _⟩ | ⟨_, rk, rc, h1, rfl, _⟩ := hr.cases
    · cases h0
    · cases h1
      rw [count_internal, count_internal] at hroom
      obtain ⟨hflat, hs⟩ := View.join_internal k hl hr hroom
      refine ⟨.internal (lk ++ k :: rk) (lc ++ rc), rfl, hflat, ?_, hs⟩
      simp only [count_internal, List.length_append, List.length_cons]
      omega

theorem getPredecessor_spec (ho : 2 ≤ order) {h : Nat} {node : Node T}
    (hs : traversal.Shape order h node) (hpos : 1 ≤ traversal.count node) :
    ∃ p A, getPredecessor (h + 1) node = some p ∧ traversal.flat node = A ++ [p] := by
  induction h generalizing node with
  | zero =>
    cases node with
    | internal keys children => cases hs
    | leaf keys =>
      rw [count_leaf] at hpos
      rcases List.eq_nil_or_concat keys with rfl | ⟨A, p, rfl⟩
      · simp at hpos
      · exact ⟨p, A, by simp [getPredecessor], by simp⟩
  | succ h ih =>
    cases node with
    | leaf keys => cases hs
    | internal keys children =>
      obtain ⟨C, c, C', hchildren, p⟩ := View.Parts.of_shape hs (List.append_nil keys).symm
      have hC' : C' = [] := List.length_eq_zero_iff.mp p.right
      subst C'
      have hmin := p.child.1
      obtain ⟨k, A, hk, hA⟩ := ih p.child.2 (by omega)
      refine ⟨k, traversal.before keys C ++ A, ?_, ?_⟩
      · have hget : children[keys.length]? = some c := by
          rw [hchildren]
          exact Splice.getElem?_mid p.left
        simp only [getPredecessor, hget]
        exact hk
      · rw [View.flat, hchildren, traversal.flatFrom_last c p.left, hA]
        simp

theorem getSuccessor_spec (ho : 2 ≤ order) {h : Nat} {node : Node T}
    (hs : traversal.Shape order h node) (hpos : 1 ≤ traversal.count node) :
    ∃ p B, getSuccessor (h + 1) node = some p ∧ traversal.flat node = p :: B := by
  induction h generalizing node with
  | zero =>
    cases node with
    | internal keys children => cases hs
    | leaf keys =>
      cases keys with
      | nil => simp at hpos
      | cons p B => exact ⟨p, B, rfl, rfl⟩
  | succ h ih =>
    cases node with
    | leaf keys => cases hs
    | internal keys children =>
      obtain ⟨_, hlen, hkids⟩ := hs
      cases children with
      | nil => cases hlen
      | cons c C =>
        obtain ⟨hcount, hshape⟩ := hkids c List.mem_cons_self
        obtain ⟨p, B, hp, hB⟩ := ih hshape (by omega)
        refine ⟨p, B ++ traversal.after keys C, ?_, ?_⟩
        · simp only [getSuccessor, List.getElem?_cons_zero]
          exact hp
        · rw [View.flat, traversal.flatFrom_cons c (by simpa using hlen), hB]
          simp

section Fill
variable {h : Nat} {key : T} {L K1 K2 : List T} {C1 C2 : List (Node T)} {c : Node T}

/-- What every way of filling child `idx` of a node with `n` keys achieves: the
child the descent then goes to, back by one if `idx` is past the end, has a key
to spare. -/
def Filled (comp : T → T → Bool) (order h : Nat) (key : T) (L : List T) (n idx : Nat)
    (r : Option (List T × List (Node T))) : Prop :=
  ∃ K1 K2 C1 c C2, r = some (K1 ++ K2, C1 ++ c :: C2) ∧
    (if (K1 ++ K2).length < idx then (K1 ++ K2).length else idx) = K1.length ∧
    Opened comp order h key L K1 K2 C1 c C2 ∧ order ≤ traversal.count c ∧
    (K1 ++ K2).length ≤ n ∧ n ≤ (K1 ++ K2).length + 1

theorem landing_same {A B : List T} {idx : Nat} (h : A.length = idx) :
    (if (A ++ B).length < idx then (A ++ B).length else idx) = A.length := by
  rw [if_neg (by rw [List.length_append]; omega), h]

theorem borrowFromPrev_spec {K : List T} {k : T} {C : List (Node T)} {s : Node T}
    (o : Opened comp order h key L (K ++ [k]) K2 (C ++ [s]) c C2) (ho : 2 ≤ order)
    (hc : traversal.count c = order - 1) (hs : order ≤ traversal.count s) :
    Filled comp order h key L ((K ++ [k]) ++ K2).length (K ++ [k]).length
      (borrowFromPrev ((K ++ [k]) ++ K2) ((C ++ [s]) ++ c :: C2) (K ++ [k]).length) := by
  have hC : C.length = K.length := by simpa using o.left
  have p := o.toParts.step_left
  obtain ⟨hsides, hbelow⟩ := o.toSides.pop_front hC
  obtain ⟨s', up, c', hrot, hflat, hsub, hs', hc', hss, hsc⟩ := rotateRight_spec k
    p.child.2 o.child.2 (by omega) (by omega)
  have hlt : ∀ e ∈ traversal.flat s' ++ [traversal.sep up], cut comp key e = .lt := by
    intro e he
    exact hbelow e (List.mem_append_left _ (hsub e he))
  refine ⟨K ++ [up], K2, C ++ [s'], c', C2, ?_, landing_same (by simp),
    ⟨(p.put_pair up ⟨by omega, hss⟩ ⟨by omega, hsc⟩).step_right, hsides.push_front hC hlt, ?_⟩,
    by omega, by simp, by simp⟩
  · have hrun : borrowFromPrev (K ++ k :: K2) (C ++ s :: c :: C2) (K.length + 1) =
        some (K ++ up :: K2, C ++ s' :: c' :: C2) := onPair_eq rfl hC hrot
    simpa using hrun
  · have hframe := congrArg (fun l => traversal.before K C ++ l ++ traversal.after K2 C2) hflat
    rw [← o.seq, traversal.before_snoc up s' hC, traversal.before_snoc k s hC]
    simpa using hframe

theorem borrowFromNext_spec {K : List T} {k : T} {C : List (Node T)} {s : Node T}
    (o : Opened comp order h key L K1 (k :: K) C1 c (s :: C)) (ho : 2 ≤ order)
    (hc : traversal.count c = order - 1) (hs : order ≤ traversal.count s) :
    Filled comp order h key L (K1 ++ k :: K).length K1.length
      (borrowFromNext (K1 ++ k :: K) (C1 ++ c :: s :: C) K1.length) := by
  obtain ⟨hsides, habove⟩ := o.toSides.pop_back
  obtain ⟨c', up, s', hrot, hflat, hsub, hs', hc', hsc, hss⟩ := rotateLeft_spec k
    o.child.2 (o.back s List.mem_cons_self).2 (by omega) (by omega)
  have hgt : ∀ e ∈ traversal.sep up :: traversal.flat s', cut comp key e = .gt := by
    intro e he
    exact habove e (List.mem_cons_of_mem _ (hsub e he))
  refine ⟨K1, up :: K, C1, c', s' :: C, onPair_eq rfl o.left hrot, landing_same rfl,
    ⟨o.toParts.put_pair up ⟨by omega, hsc⟩ ⟨by omega, hss⟩, hsides.push_back hgt, ?_⟩,
    by omega, by simp, by simp⟩
  have hframe := congrArg (fun l => traversal.before K1 C1 ++ l ++ traversal.after K C) hflat
  rw [← o.seq]
  simpa [View.after] using hframe

theorem merge_next_spec {K : List T} {k : T} {C : List (Node T)} {r : Node T}
    (o : Opened comp order h key L K1 (k :: K) C1 c (r :: C)) (ho : 2 ≤ order)
    (hc : traversal.count c = order - 1) (hr : traversal.count r < order) :
    Filled comp order h key L (K1 ++ k :: K).length K1.length
      (merge (K1 ++ k :: K) (C1 ++ c :: r :: C) K1.length) := by
  have hfit := o.back r List.mem_cons_self
  obtain ⟨m, hj, hflat, hm, hsm⟩ := join_spec k o.child.2 hfit.2 (by omega)
  have hmin := hfit.1
  refine ⟨K1, K, C1, m, C, joinPair_eq rfl o.left hj, landing_same rfl,
    ⟨o.toParts.join_next ⟨by omega, hsm⟩, o.toSides.pop_back.1, ?_⟩, by omega, by simp,
    by simp; omega⟩
  rw [← o.seq, hflat]
  simp [View.after]

theorem merge_prev_spec {K : List T} {k : T} {C : List (Node T)} {l : Node T}
    (o : Opened comp order h key L (K ++ [k]) K2 (C ++ [l]) c C2) (ho : 2 ≤ order)
    (hc : traversal.count c = order - 1) (hl : traversal.count l < order) (hlast : K2 = []) :
    Filled comp order h key L ((K ++ [k]) ++ K2).length (K ++ [k]).length
      (merge ((K ++ [k]) ++ K2) ((C ++ [l]) ++ c :: C2) K.length) := by
  have hC : C.length = K.length := by simpa using o.left
  have p := o.toParts.step_left
  have hmin := p.child.1
  obtain ⟨m, hj, hflat, hm, hsm⟩ := join_spec k p.child.2 o.child.2 (by omega)
  refine ⟨K, K2, C, m, C2, ?_, by simp [hlast], ⟨p.join_next ⟨by omega, hsm⟩,
    (o.toSides.pop_front hC).1, ?_⟩, by omega, by simp, by simp; omega⟩
  · have hrun : merge (K ++ k :: K2) (C ++ l :: c :: C2) K.length = some (K ++ K2, C ++ m :: C2) :=
      joinPair_eq rfl hC hj
    simpa using hrun
  · rw [← o.seq, traversal.before_snoc k l hC, hflat]
    simp

theorem canLend_prev {K : List T} {k : T} {C : List (Node T)} {s : Node T}
    (hC : C.length = K.length) : canLend order ((C ++ [s]) ++ c :: C2) ((K ++ [k]).length - 1) =
      decide (order ≤ traversal.count s) := by
  have hget : ((C ++ [s]) ++ c :: C2)[(K ++ [k]).length - 1]? = some s := by
    rw [List.append_assoc]
    exact Splice.getElem?_mid (by simp [hC])
  rw [canLend, hget]

theorem canLend_next {C : List (Node T)} {s : Node T} (hC : C1.length = K1.length) :
    canLend order (C1 ++ c :: s :: C) (K1.length + 1) = decide (order ≤ traversal.count s) := by
  rw [canLend, getElem?_next hC]

/-- A child with too few keys gets one from a neighbour or is merged with one. -/
theorem fill_spec (o : Opened comp order h key L K1 K2 C1 c C2) (ho : 2 ≤ order)
    (hpos : 1 ≤ (K1 ++ K2).length) (hc : traversal.count c = order - 1) :
    Filled comp order h key L (K1 ++ K2).length K1.length
      (fill order (K1 ++ K2) (C1 ++ c :: C2) K1.length) := by
  unfold fill
  split
  · rename_i hcond
    rw [Bool.and_eq_true, decide_eq_true_eq] at hcond
    obtain ⟨K, k, C, s, rfl, rfl, hC⟩ := o.toParts.prev_cases (List.length_pos_iff.mp hcond.1)
    rw [canLend_prev hC, decide_eq_true_eq] at hcond
    exact borrowFromPrev_spec o ho hc hcond.2
  · rename_i hnolend
    split
    · rename_i hcond
      rw [Bool.and_eq_true, decide_eq_true_eq] at hcond
      have hK2 : K2 ≠ [] := by
        intro hnil
        rw [hnil] at hcond
        simp at hcond
      obtain ⟨k, K, s, C, rfl, rfl⟩ := o.toParts.next_cases hK2
      rw [canLend_next o.left, decide_eq_true_eq] at hcond
      exact borrowFromNext_spec o ho hc hcond.2
    · rename_i hnolend'
      split
      · rename_i hlt
        have hK2 : K2 ≠ [] := by
          intro hnil
          rw [hnil] at hlt
          simp at hlt
        obtain ⟨k, K, r, C, rfl, rfl⟩ := o.toParts.next_cases hK2
        rw [canLend_next o.left, Bool.and_eq_true, decide_eq_true_eq, decide_eq_true_eq] at hnolend'
        exact merge_next_spec o ho hc (Nat.lt_of_not_le (fun hle => hnolend' ⟨hlt, hle⟩))
      · rename_i hge
        have hK2 : K2 = [] := by
          rw [List.length_append] at hge
          exact List.length_eq_zero_iff.mp (by omega)
        have hK1 : K1 ≠ [] := by
          intro hnil
          rw [hnil, hK2] at hpos
          simp at hpos
        obtain ⟨K, k, C, l, rfl, rfl, hC⟩ := o.toParts.prev_cases hK1
        have hidx : (K ++ [k]).length - 1 = K.length := by simp
        rw [canLend_prev hC, Bool.and_eq_true, decide_eq_true_eq, decide_eq_true_eq] at hnolend
        rw [hidx]
        exact merge_prev_spec o ho hc (Nat.lt_of_not_le (fun hle => hnolend ⟨by simp, hle⟩)) hK2

/-- The node is ready for the descent, with the child's surplus in hand. -/
theorem prepare_spec (o : Opened comp order h key L K1 K2 C1 c C2) (ho : 2 ≤ order)
    (hpos : 1 ≤ (K1 ++ K2).length) :
    ∃ K1' K2' C1' c' C2', prepare order (K1 ++ K2) (C1 ++ c :: C2) K1.length =
        some (K1' ++ K2', C1' ++ c' :: C2', K1'.length) ∧
      Opened comp order h key L K1' K2' C1' c' C2' ∧ order ≤ traversal.count c' ∧
      (K1' ++ K2').length ≤ (K1 ++ K2).length ∧
      (K1 ++ K2).length ≤ (K1' ++ K2').length + 1 := by
  have hget : (C1 ++ c :: C2)[K1.length]? = some c := Splice.getElem?_mid o.left
  have hmin := o.child.1
  by_cases hc : traversal.count c = order - 1
  · obtain ⟨K1', K2', C1', c', C2', hfill, hi, o', hc', hle, hge⟩ := fill_spec o ho hpos hc
    refine ⟨K1', K2', C1', c', C2', ?_, o', hc', hle, hge⟩
    simp only [prepare, hget, hc, if_true, hfill, Option.bind_eq_bind, Option.bind_some, hi,
      Option.pure_def]
  · refine ⟨K1, K2, C1, c, C2, ?_, o, by omega, le_rfl, by omega⟩
    have hi : ¬ (K1 ++ K2).length < K1.length := by
      rw [List.length_append]
      omega
    simp only [prepare, hget, hc, if_false, Option.bind_eq_bind, Option.bind_some, hi,
      Option.pure_def]

end Fill

/-- The size a removal leaves: one less if the key was there. -/
def sizeAfterRemove (comp : T → T → Bool) (key : T) (l : List T) (size : Int) : Int :=
  if (lookup (cut comp key) l).isSome then toInt32 (size - 1) else size

/-- What a removal below a node comes to. -/
def Removed (comp : T → T → Bool) (order h : Nat) (key : T) (node : Node T) (size : Int)
    (r : Option (Node T × Int)) : Prop :=
  ∃ node', r = some (node', sizeAfterRemove comp key (traversal.flat node) size) ∧
    traversal.Shape order h node' ∧
    traversal.flat node' = erase (cut comp key) (traversal.flat node) ∧
    traversal.count node ≤ traversal.count node' + 1

theorem removed_leaf (hc : StrictWeak comp) {keys : List T} (ha : Ascending comp keys)
    (hs : traversal.Shape order 0 (.leaf keys)) (key : T) (fuel : Nat) (size : Int) :
    Removed comp order 0 key (.leaf keys) size
      (removeFromNode comp order (fuel + 1) (.leaf keys) key size) := by
  rcases leaf_cases hc ha key with ⟨hat, K1, k, K2, hkeys, hidx, hlt, hk, hgt⟩ |
    ⟨hat, K1, K2, hkeys, _, hlt, hgt⟩
  · have hfound : lookup (cut comp key) keys = some k := by
      rw [hkeys, lookup_hit (ne_eq_of_lt hlt) hk]
    have herase : keys.eraseIdx (findKey comp keys key) = K1 ++ K2 := by
      rw [← hidx, hkeys, Splice.eraseIdx_mid rfl]
    have hlen : keys.length = (K1 ++ K2).length + 1 := by
      rw [hkeys]
      simp
      omega
    refine ⟨.leaf (K1 ++ K2), ?_, ?_, ?_, ?_⟩
    · simp [removeFromNode, hat, herase, sizeAfterRemove, hfound]
    · rw [shape_leaf] at hs ⊢
      omega
    · rw [traversal_leaf, traversal_leaf, hkeys, erase_hit (ne_eq_of_lt hlt) hk
        (ne_eq_of_gt hgt)]
    · rw [count_leaf, count_leaf]
      omega
  · have hno : ∀ e ∈ keys, cut comp key e ≠ .eq := by
      intro e he
      rw [hkeys] at he
      rcases List.mem_append.mp he with he | he
      · exact ne_eq_of_lt hlt e he
      · exact ne_eq_of_gt hgt e he
    refine ⟨.leaf keys, ?_, hs, ?_, by omega⟩
    · simp [removeFromNode, hat, sizeAfterRemove, lookup_eq_none keys hno]
    · rw [traversal_leaf, erase_eq_self keys hno]

section Descent
variable {h : Nat} {key : T} {K1 K2 : List T} {C1 C2 : List (Node T)} {node c c' : Node T}
  {size : Int}

/-- The removal from the child, put back into the node. -/
theorem Removed.close (o : Opened comp order h key (traversal.flat node) K1 K2 C1 c C2)
    (hlen : (K1 ++ K2).length ≤ 2 * order - 1)
    (hcount : traversal.count node ≤ (K1 ++ K2).length + 1) (hmin : order ≤ traversal.count c)
    {r : Option (Node T × Int)} (hr : Removed comp order h key c size r) :
    Removed comp order (h + 1) key node size
      (r.map (fun p => (.internal (K1 ++ K2) (C1 ++ p.1 :: C2), p.2))) := by
  obtain ⟨c', rfl, hs', hflat', hcount'⟩ := hr
  obtain ⟨hshape, hflat⟩ := o.close hlen (show traversal.Fit order h c' from ⟨by omega, hs'⟩)
  refine ⟨_, ?_, hshape, ?_, hcount⟩
  · rw [sizeAfterRemove, sizeAfterRemove, o.lookup_eq]
    rfl
  · rw [hflat, hflat', o.erase_eq]

end Descent

namespace Found
variable {h : Nat} {key : T} {K1 K2 : List T} {k : T} {C1 C2 : List (Node T)} {l r : Node T}

/-- A found key and its neighbours replaced. -/
theorem close {L : List T} (f : Found comp order h key L K1 k K2 C1 l r C2) (k' : T)
    {l' r' : Node T} (hlen : (K1 ++ k :: K2).length ≤ 2 * order - 1)
    (hl : traversal.Fit order h l') (hr : traversal.Fit order h r') :
    traversal.Shape order (h + 1) (.internal (K1 ++ k' :: K2) (C1 ++ l' :: r' :: C2)) ∧
      traversal.flat (.internal (K1 ++ k' :: K2) (C1 ++ l' :: r' :: C2)) =
        (traversal.before K1 C1 ++ traversal.flat l') ++
          k' :: (traversal.flat r' ++ traversal.after K2 C2) := by
  have p := f.toParts.put_pair k' hl hr
  refine ⟨p.shape (by simpa using hlen), ?_⟩
  rw [p.flat]
  simp [View.after]

theorem erase_eq (hc : StrictWeak comp) {L : List T}
    (f : Found comp order h key L K1 k K2 C1 l r C2) (hL : Ascending comp L) :
    erase (cut comp key) L = (traversal.before K1 C1 ++ traversal.flat l) ++
      (traversal.flat r ++ traversal.after K2 C2) := by
  have hlt := f.below hc hL
  have hgt := f.above hc hL
  rw [← f.seq, erase_hit (ne_eq_of_lt hlt) f.here
    (ne_eq_of_gt hgt)]

theorem lookup_eq (hc : StrictWeak comp) {L : List T}
    (f : Found comp order h key L K1 k K2 C1 l r C2) (hL : Ascending comp L) :
    lookup (cut comp key) L = some k := by
  have hlt := f.below hc hL
  rw [← f.seq, lookup_hit (ne_eq_of_lt hlt) f.here]

theorem ascending_left {L : List T} (f : Found comp order h key L K1 k K2 C1 l r C2)
    (hL : Ascending comp L) : Ascending comp (traversal.flat l) := by
  rw [← f.seq] at hL
  exact (List.pairwise_append.mp (List.pairwise_append.mp hL).1).2.1

theorem ascending_right {L : List T} (f : Found comp order h key L K1 k K2 C1 l r C2)
    (hL : Ascending comp L) : Ascending comp (traversal.flat r) := by
  rw [← f.seq] at hL
  exact (List.pairwise_append.mp (List.pairwise_cons.mp (List.pairwise_append.mp hL).2.1).2).1

/-- The neighbours of a found key joined around it: the descent follows the key. -/
theorem opened (hc : StrictWeak comp) {L : List T}
    (f : Found comp order h key L K1 k K2 C1 l r C2) (hL : Ascending comp L) {m : Node T}
    (hm : traversal.flat m = traversal.flat l ++ k :: traversal.flat r)
    (hfit : traversal.Fit order h m) : Opened comp order h key L K1 K2 C1 m C2 := by
  refine ⟨f.toParts.join_next hfit, ⟨?_, ?_⟩, ?_⟩
  · intro e he
    exact f.below hc hL e (List.mem_append_left _ he)
  · intro e he
    exact f.above hc hL e (List.mem_append_right _ he)
  · rw [← f.seq, hm]
    simp

end Found

/-- The last key of an ascending sequence removed. -/
theorem erase_last (hc : StrictWeak comp) {A : List T} {p : T} (h : Ascending comp (A ++ [p])) :
    erase (cut comp p) (A ++ [p]) = A := by
  have hlt := (List.pairwise_append.mp h).2.2
  have hA : ∀ e ∈ A, cut comp p e = .lt := by
    intro e he
    exact cut_eq_lt.mpr (hlt e he p List.mem_cons_self)
  rw [erase_hit (ne_eq_of_lt hA) (cut_self hc) (by simp), List.append_nil]

theorem erase_first (hc : StrictWeak comp) {B : List T} {p : T} (h : Ascending comp (p :: B)) :
    erase (cut comp p) (p :: B) = B := by
  have hgt := (List.pairwise_cons.mp h).1
  have hB : ∀ e ∈ B, cut comp p e = .gt := by
    intro e he
    exact (cut_eq_gt hc).mpr (hgt e he)
  have hhit := erase_hit (A := []) (by simp) (cut_self hc) (ne_eq_of_gt hB)
  simpa using hhit

theorem lookup_self (hc : StrictWeak comp) {l : List T} {p : T} (hp : p ∈ l) :
    (lookup (cut comp p) l).isSome = true := by
  rw [lookup, List.find?_isSome]
  exact ⟨p, hp, by simp [cut_self hc]⟩

section Replace
variable {h : Nat} {key : T} {K1 K2 : List T} {k : T} {C1 C2 : List (Node T)} {node l r : Node T}
  {size : Int}

/-- A found key gives way to the last key of the subtree in front of it. -/
theorem Removed.replace_pred (hc : StrictWeak comp)
    (f : Found comp order h key (traversal.flat node) K1 k K2 C1 l r C2)
    (ha : Ascending comp (traversal.flat node)) (hlen : (K1 ++ k :: K2).length ≤ 2 * order - 1)
    (hcount : traversal.count node = (K1 ++ k :: K2).length)
    (hmin : order ≤ traversal.count l) {p : T} {A : List T} (hA : traversal.flat l = A ++ [p])
    {o : Option (Node T × Int)} (hr : Removed comp order h p l size o) :
    Removed comp order (h + 1) key node size
      (o.map (fun q => (.internal (K1 ++ p :: K2) (C1 ++ q.1 :: r :: C2), q.2))) := by
  obtain ⟨l', rfl, hs', hflat', hcount'⟩ := hr
  have hal : Ascending comp (traversal.flat l) := f.ascending_left ha
  obtain ⟨hshape, hflat⟩ := f.close p hlen ⟨by omega, hs'⟩ (f.back r List.mem_cons_self)
  refine ⟨_, ?_, hshape, ?_, ?_⟩
  · have hfound := lookup_self hc (show p ∈ traversal.flat l by rw [hA]; simp)
    simp [sizeAfterRemove, hfound, f.lookup_eq hc ha]
  · rw [hA] at hal
    rw [hflat, hflat', hA, erase_last hc hal, f.erase_eq hc ha, hA]
    simp
  · simp only [count_internal, List.length_append, List.length_cons] at hcount ⊢
    omega

/-- A found key gives way to the first key of the subtree behind it. -/
theorem Removed.replace_succ (hc : StrictWeak comp)
    (f : Found comp order h key (traversal.flat node) K1 k K2 C1 l r C2)
    (ha : Ascending comp (traversal.flat node)) (hlen : (K1 ++ k :: K2).length ≤ 2 * order - 1)
    (hcount : traversal.count node = (K1 ++ k :: K2).length)
    (hmin : order ≤ traversal.count r) {p : T} {B : List T} (hB : traversal.flat r = p :: B)
    {o : Option (Node T × Int)} (hr : Removed comp order h p r size o) :
    Removed comp order (h + 1) key node size
      (o.map (fun q => (.internal (K1 ++ p :: K2) (C1 ++ l :: q.1 :: C2), q.2))) := by
  obtain ⟨r', rfl, hs', hflat', hcount'⟩ := hr
  have har : Ascending comp (traversal.flat r) := f.ascending_right ha
  obtain ⟨hshape, hflat⟩ := f.close p hlen f.child ⟨by omega, hs'⟩
  refine ⟨_, ?_, hshape, ?_, ?_⟩
  · have hfound := lookup_self hc (show p ∈ traversal.flat r by rw [hB]; simp)
    simp [sizeAfterRemove, hfound, f.lookup_eq hc ha]
  · rw [hB] at har
    rw [hflat, hflat', hB, erase_first hc har, f.erase_eq hc ha, hB]
    simp
  · simp only [count_internal, List.length_append, List.length_cons] at hcount ⊢
    omega

end Replace

section Step

/-- One level of `removeFromNode`, over the calls it makes for the children. -/
def removeStep (comp : T → T → Bool) (order : Nat)
    (recur : Node T → T → Int → Option (Node T × Int)) (fuel : Nat) :
    Node T → T → Int → Option (Node T × Int)
  | .leaf keys, key, size =>
    let idx := findKey comp keys key
    if isAt comp keys idx key then some (.leaf (keys.eraseIdx idx), toInt32 (size - 1))
    else some (.leaf keys, size)
  | .internal keys children, key, size => do
    let idx := findKey comp keys key
    if isAt comp keys idx key then
      let child ← children[idx]?
      if order ≤ Node.count child then
        let pred ← getPredecessor fuel child
        let (child, size) ← recur child pred size
        return (.internal (keys.set idx pred) (children.set idx child), size)
      else
        let next ← children[idx + 1]?
        if order ≤ Node.count next then
          let succ ← getSuccessor fuel next
          let (next, size) ← recur next succ size
          return (.internal (keys.set idx succ) (children.set (idx + 1) next), size)
        else
          let (keys, children) ← merge keys children idx
          let child ← children[idx]?
          let (child, size) ← recur child key size
          return (.internal keys (children.set idx child), size)
    else
      let (keys, children, idx) ← prepare order keys children idx
      let child ← children[idx]?
      let (child, size) ← recur child key size
      return (.internal keys (children.set idx child), size)

theorem removeFromNode_succ (comp : T → T → Bool) (order fuel : Nat) (node : Node T) (key : T)
    (size : Int) : removeFromNode comp order (fuel + 1) node key size =
      removeStep comp order (removeFromNode comp order fuel) fuel node key size := by
  cases node <;> rfl

/-- Below an internal node a removal goes on with one call, for a child that can spare a key, and
what comes of it comes of the node. -/
theorem removeStep_spec (hc : StrictWeak comp) (ho : 2 ≤ order) {h : Nat} {keys : List T}
    {children : List (Node T)} (key : T) (size : Int)
    (hs : traversal.Shape order (h + 1) (.internal keys children))
    (ha : Ascending comp (traversal.flat (.internal keys children))) (hpos : 1 ≤ keys.length) :
    ∃ child key', ∃ wrap : Node T → Node T, traversal.Shape order h child ∧
      Ascending comp (traversal.flat child) ∧ order ≤ traversal.count child ∧
      (∀ recur, removeStep comp order recur (h + 1) (.internal keys children) key size =
        (recur child key' size).map (fun p => (wrap p.1, p.2))) ∧
      ∀ r, Removed comp order h key' child size r → Removed comp order (h + 1) key
        (.internal keys children) size (r.map (fun p => (wrap p.1, p.2))) := by
  have hlen := hs.1
  rcases open_node hc hs ha key with ⟨hat, K1, k, K2, C1, l, r, C2, hkeys, hchildren, hidx, f⟩ |
    ⟨hat, K1, K2, C1, c, C2, hkeys, hchildren, hidx, o⟩
  · rw [hkeys] at hlen
    have hcount : traversal.count (.internal keys children) = (K1 ++ k :: K2).length := by
      rw [count_internal, hkeys]
    have hl := f.child
    have hr := f.back r List.mem_cons_self
    have hlmin := hl.1
    have hrmin := hr.1
    have hgetl : children[findKey comp keys key]? = some l := by
      rw [← hidx, hchildren]
      exact Splice.getElem?_mid f.left
    have hkids : ∀ x y : Node T, C1 ++ x :: y :: C2 = (C1 ++ [x]) ++ y :: C2 := by simp
    have hgetr : children[findKey comp keys key + 1]? = some r := by
      rw [← hidx, hchildren, hkids]
      exact Splice.getElem?_mid (by simp [f.left])
    have hsetk : ∀ p, keys.set (findKey comp keys key) p = K1 ++ p :: K2 := by
      intro p
      rw [← hidx, hkeys]
      exact Splice.set_mid rfl
    by_cases hlend : order ≤ traversal.count l
    · obtain ⟨p, A, hp, hA⟩ := getPredecessor_spec ho hl.2 (by omega)
      have hset : ∀ x, children.set (findKey comp keys key) x = C1 ++ x :: r :: C2 := by
        intro x
        rw [← hidx, hchildren]
        exact Splice.set_mid f.left
      refine ⟨l, p, fun q => .internal (K1 ++ p :: K2) (C1 ++ q :: r :: C2), hl.2,
        f.ascending_left ha, hlend, ?_, ?_⟩
      · intro recur
        simp only [removeStep, hat, if_true, hgetl, hlend, hp, hsetk, hset, Option.bind_eq_bind,
          Option.bind_some]
        cases recur l p size <;> rfl
      · intro q hq
        exact Removed.replace_pred hc f ha hlen hcount hlend hA hq
    · by_cases hlend' : order ≤ traversal.count r
      · obtain ⟨p, B, hp, hB⟩ := getSuccessor_spec ho hr.2 (by omega)
        have hset : ∀ x, children.set (findKey comp keys key + 1) x = C1 ++ l :: x :: C2 := by
          intro x
          rw [← hidx, hchildren, hkids, Splice.set_mid (by simp [f.left]), hkids]
        refine ⟨r, p, fun q => .internal (K1 ++ p :: K2) (C1 ++ l :: q :: C2), hr.2,
          f.ascending_right ha, hlend', ?_, ?_⟩
        · intro recur
          simp only [removeStep, hat, if_true, hgetl, hlend, if_false, hgetr, hlend', hp, hsetk,
            hset, Option.bind_eq_bind, Option.bind_some]
          cases recur r p size <;> rfl
        · intro q hq
          exact Removed.replace_succ hc f ha hlen hcount hlend' hB hq
      · obtain ⟨m, hj, hm, hmcount, hsm⟩ := join_spec k hl.2 hr.2 (by omega)
        have o := f.opened hc ha hm ⟨by omega, hsm⟩
        have hshrink : (K1 ++ k :: K2).length = (K1 ++ K2).length + 1 := by simp; omega
        have hmerge : merge keys children (findKey comp keys key) =
            some (K1 ++ K2, C1 ++ m :: C2) := by
          rw [← hidx, hkeys, hchildren]
          exact joinPair_eq rfl f.left hj
        refine ⟨m, key, fun q => .internal (K1 ++ K2) (C1 ++ q :: C2), hsm, o.ascending ha,
          by omega, ?_, ?_⟩
        · intro recur
          simp only [removeStep, hat, if_true, hgetl, hlend, if_false, hgetr, hlend', hmerge,
            Option.bind_eq_bind, Option.bind_some]
          rw [← hidx]
          simp only [Splice.getElem?_mid f.left, Splice.set_mid f.left, Option.bind_some]
          cases recur m key size <;> rfl
        · intro q hq
          exact Removed.close o (by omega) (by omega) (by omega) hq
  · rw [hkeys] at hpos hlen
    obtain ⟨K1', K2', C1', c', C2', hprep, o', hmin, hle, hge⟩ := prepare_spec o ho hpos
    have hprep' : prepare order keys children (findKey comp keys key) =
        some (K1' ++ K2', C1' ++ c' :: C2', K1'.length) := by
      rw [← hidx, hkeys, hchildren]
      exact hprep
    refine ⟨c', key, fun q => .internal (K1' ++ K2') (C1' ++ q :: C2'), o'.child.2,
      o'.ascending ha, hmin, ?_, ?_⟩
    · intro recur
      simp only [removeStep, hat, Bool.false_eq_true, if_false, hprep', Option.bind_eq_bind,
        Option.bind_some, Splice.getElem?_mid o'.left, Splice.set_mid o'.left]
      cases recur c' key size <;> rfl
    · intro q hq
      exact Removed.close o' (by omega) (by rw [count_internal, hkeys]; exact hge) hmin hq

theorem removeFromNode_spec (hc : StrictWeak comp) (ho : 2 ≤ order) {h : Nat} {node : Node T}
    (key : T) (size : Int) (hs : traversal.Shape order h node)
    (ha : Ascending comp (traversal.flat node)) (hpos : 1 ≤ traversal.count node) :
    Removed comp order h key node size (removeFromNode comp order (h + 1) node key size) := by
  induction h generalizing node key size with
  | zero =>
    cases node with
    | internal keys children => cases hs
    | leaf keys => exact removed_leaf hc ha hs key 0 size
  | succ h ih =>
    cases node with
    | leaf keys => cases hs
    | internal keys children =>
      rw [count_internal] at hpos
      obtain ⟨child, key', wrap, hshape, hasc, hmin, hrun, hout⟩ :=
        removeStep_spec hc ho key size hs ha hpos
      rw [removeFromNode_succ, hrun]
      exact hout _ (ih key' size hshape hasc (by omega))

/-- `removeFromNode` with each call for a child refused where the child has fewer than `order`
keys. -/
def removeGuarded (comp : T → T → Bool) (order : Nat) : Nat → Node T → T → Int →
    Option (Node T × Int)
  | 0, _, _, _ => none
  | fuel + 1, node, key, size =>
    removeStep comp order (fun child key size =>
      if order ≤ child.count then removeGuarded comp order fuel child key size else none)
      fuel node key size

/-- No call is refused. -/
theorem removeGuarded_eq (hc : StrictWeak comp) (ho : 2 ≤ order) {h : Nat} {node : Node T}
    (key : T) (size : Int) (hs : traversal.Shape order h node)
    (ha : Ascending comp (traversal.flat node)) (hpos : 1 ≤ traversal.count node) :
    removeGuarded comp order (h + 1) node key size =
      removeFromNode comp order (h + 1) node key size := by
  induction h generalizing node key size with
  | zero =>
    cases node with
    | internal keys children => cases hs
    | leaf keys => rfl
  | succ h ih =>
    cases node with
    | leaf keys => cases hs
    | internal keys children =>
      rw [count_internal] at hpos
      obtain ⟨child, key', wrap, hshape, hasc, hmin, hrun, _⟩ :=
        removeStep_spec hc ho key size hs ha hpos
      rw [removeFromNode_succ, removeGuarded, hrun, hrun, if_pos hmin,
        ih key' size hshape hasc (by omega)]

end Step

end Cppforge.Multiway.BTree
