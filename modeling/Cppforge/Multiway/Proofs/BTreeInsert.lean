import Cppforge.Multiway.BTree
import Mathlib.Data.List.TakeWhile

namespace Cppforge.Multiway.BTree
open Ordered KTree

variable {T : Type} {comp : T → T → Bool} {order : Nat}

@[simp] theorem traversal_sep (k : T) : traversal.sep k = k := rfl

@[simp] theorem traversal_leaf (keys : List T) : traversal.flat (.leaf keys) = keys := rfl

@[simp] theorem count_leaf (keys : List T) : traversal.count (.leaf keys) = keys.length := rfl

@[simp] theorem count_internal (keys : List T) (children : List (Node T)) :
    traversal.count (.internal keys children) = keys.length := rfl

@[simp] theorem shape_leaf (keys : List T) :
    traversal.Shape order 0 (.leaf keys) ↔ keys.length ≤ 2 * order - 1 := Iff.rfl

/-- An internal node taken apart at the child a key leads to: `L` is its traversal. -/
structure Opened (comp : T → T → Bool) (order h : Nat) (key : T) (L : List T) (K1 K2 : List T)
    (C1 : List (Node T)) (c : Node T) (C2 : List (Node T)) : Prop extends
    traversal.Parts order h K1 K2 C1 c C2, traversal.Sides comp key K1 K2 C1 C2 where
  seq : traversal.before K1 C1 ++ traversal.flat c ++ traversal.after K2 C2 = L

namespace Opened
variable {h : Nat} {key : T} {L K1 K2 : List T} {C1 C2 : List (Node T)} {c : Node T}

theorem upsert_eq (o : Opened comp order h key L K1 K2 C1 c C2) :
    upsert (cut comp key) id key L = traversal.before K1 C1 ++
      upsert (cut comp key) id key (traversal.flat c) ++ traversal.after K2 C2 := by
  rw [← o.seq, upsert_append_right _ _ o.above, upsert_append_left _ _ o.below]

theorem erase_eq (o : Opened comp order h key L K1 K2 C1 c C2) :
    erase (cut comp key) L = traversal.before K1 C1 ++
      erase (cut comp key) (traversal.flat c) ++ traversal.after K2 C2 := by
  rw [← o.seq, erase_append, erase_append,
    erase_eq_self (traversal.before K1 C1) (fun e he => by rw [o.below e he]; simp),
    erase_eq_self (traversal.after K2 C2) (fun e he => by rw [o.above e he]; simp)]

theorem lookup_eq (o : Opened comp order h key L K1 K2 C1 c C2) :
    lookup (cut comp key) L = lookup (cut comp key) (traversal.flat c) := by
  rw [← o.seq, lookup_append, lookup_append,
    lookup_eq_none (traversal.before K1 C1) (fun e he => by rw [o.below e he]; simp),
    lookup_eq_none (traversal.after K2 C2) (fun e he => by rw [o.above e he]; simp)]
  cases lookup (cut comp key) (traversal.flat c) <;> rfl

theorem ascending (o : Opened comp order h key L K1 K2 C1 c C2) (hL : Ascending comp L) :
    Ascending comp (traversal.flat c) := by
  rw [← o.seq] at hL
  exact (List.pairwise_append.mp (List.pairwise_append.mp hL).1).2.1

/-- The node with another child of the same height. -/
theorem close (o : Opened comp order h key L K1 K2 C1 c C2) {c' : Node T}
    (hlen : (K1 ++ K2).length ≤ 2 * order - 1) (hc : traversal.Fit order h c') :
    traversal.Shape order (h + 1) (.internal (K1 ++ K2) (C1 ++ c' :: C2)) ∧
      traversal.flat (.internal (K1 ++ K2) (C1 ++ c' :: C2)) =
        traversal.before K1 C1 ++ traversal.flat c' ++ traversal.after K2 C2 := by
  have p := o.toParts.put hc
  exact ⟨p.shape hlen, p.flat⟩

end Opened

theorem isAt_mid {K1 K2 : List T} {k key : T} {i : Nat} (h : K1.length = i) :
    isAt comp (K1 ++ k :: K2) i key = (cut comp key k == .eq) := by
  rw [isAt, Splice.getElem?_mid h]
  cases h1 : comp k key <;> cases h2 : comp key k <;> simp [cut, h1, h2]

/-- The keys of a node around the index the search stops at. -/
theorem findKey_cases (comp : T → T → Bool) (keys : List T) (key : T) :
    ∃ K1 K2, keys = K1 ++ K2 ∧ K1.length = findKey comp keys key ∧
      (∀ k ∈ K1, cut comp key k = .lt) ∧
      ((isAt comp keys (findKey comp keys key) key = true ∧
          ∃ k K2', K2 = k :: K2' ∧ cut comp key k = .eq) ∨
        (isAt comp keys (findKey comp keys key) key = false ∧
          (K2 = [] ∨ ∃ k K2', K2 = k :: K2' ∧ cut comp key k = .gt))) := by
  obtain ⟨K1, K2, hkeys, hlen, hbelow, hstop⟩ : ∃ K1 K2, keys = K1 ++ K2 ∧
      K1.length = findKey comp keys key ∧ (∀ k ∈ K1, comp k key = true) ∧
      (∀ k ∈ K2.head?, comp k key = false) := by
    refine ⟨keys.takeWhile (fun k => comp k key), keys.dropWhile (fun k => comp k key),
      List.takeWhile_append_dropWhile.symm, rfl, ?_, ?_⟩
    · intro k hk
      exact List.mem_takeWhile_imp (p := fun k => comp k key) hk
    · intro k hk
      have := List.head?_dropWhile_not (fun k => comp k key) keys
      rw [Option.mem_def.mp hk] at this
      simpa using this
  refine ⟨K1, K2, hkeys, hlen, fun k hk => cut_eq_lt.mpr (hbelow k hk), ?_⟩
  cases K2 with
  | nil =>
    refine .inr ⟨?_, .inl rfl⟩
    rw [isAt, ← hlen, hkeys, List.append_nil, List.getElem?_length]
  | cons k K2 =>
    have hk : comp k key = false := hstop k rfl
    cases hlt : comp key k with
    | true =>
      have hcut : cut comp key k = .gt := by simp [cut, hk, hlt]
      refine .inr ⟨?_, .inr ⟨k, K2, rfl, hcut⟩⟩
      rw [hkeys] at hlen ⊢
      rw [isAt_mid hlen, hcut]
      rfl
    | false =>
      have hcut : cut comp key k = .eq := by simp [cut, hk, hlt]
      refine .inl ⟨?_, k, K2, rfl, hcut⟩
      rw [hkeys] at hlen ⊢
      rw [isAt_mid hlen, hcut]
      rfl

/-- An internal node taken apart at a key equivalent to the one searched. -/
structure Found (comp : T → T → Bool) (order h : Nat) (key : T) (L : List T) (K1 : List T) (k : T)
    (K2 : List T) (C1 : List (Node T)) (l r : Node T) (C2 : List (Node T)) : Prop extends
    traversal.Parts order h K1 (k :: K2) C1 l (r :: C2) where
  seq : (traversal.before K1 C1 ++ traversal.flat l) ++
    k :: (traversal.flat r ++ traversal.after K2 C2) = L
  here : cut comp key k = .eq

theorem open_node (hc : StrictWeak comp) {h : Nat} {keys : List T} {children : List (Node T)}
    (hs : traversal.Shape order (h + 1) (.internal keys children))
    (ha : Ascending comp (traversal.flat (.internal keys children))) (key : T) :
    (isAt comp keys (findKey comp keys key) key = true ∧
      ∃ K1 k K2 C1 l r C2, keys = K1 ++ k :: K2 ∧ children = C1 ++ l :: r :: C2 ∧
        K1.length = findKey comp keys key ∧
        Found comp order h key (traversal.flat (.internal keys children)) K1 k K2 C1 l r C2) ∨
    (isAt comp keys (findKey comp keys key) key = false ∧
      ∃ K1 K2 C1 c C2, keys = K1 ++ K2 ∧ children = C1 ++ c :: C2 ∧
        K1.length = findKey comp keys key ∧
        Opened comp order h key (traversal.flat (.internal keys children)) K1 K2 C1 c C2) := by
  obtain ⟨K1, K2, hkeys, hidx, hbelow, hcase⟩ := findKey_cases comp keys key
  obtain ⟨C1, c, C2, hchildren, p⟩ := View.Parts.of_shape hs hkeys
  have hflat : traversal.flat (.internal keys children) =
      traversal.before K1 C1 ++ traversal.flat c ++ traversal.after K2 C2 := by
    rw [hkeys, hchildren]
    exact p.flat
  rw [hflat] at ha ⊢
  rcases hcase with ⟨hat, k, K2', rfl, hk⟩ | ⟨hat, hK2⟩
  · obtain ⟨_, _, r, C2', hK, rfl⟩ := p.next_cases (by simp)
    cases hK
    refine .inl ⟨hat, K1, k, K2', C1, c, r, C2', hkeys, hchildren, hidx, p, ?_, hk⟩
    simp [View.after]
  · have hgt : ∀ k ∈ K2.head?, cut comp key k = .gt := by
      rcases hK2 with rfl | ⟨k, K2', rfl, hk⟩
      · simp
      · simpa using hk
    exact .inr ⟨hat, K1, K2, C1, c, C2, hkeys, hchildren, hidx, p,
      View.Sides.of_keys hc p.left ha hbelow hgt, rfl⟩

namespace Found
variable {h : Nat} {key : T} {L K1 K2 : List T} {k : T} {C1 C2 : List (Node T)} {l r : Node T}

theorem below (hc : StrictWeak comp) (f : Found comp order h key L K1 k K2 C1 l r C2)
    (hL : Ascending comp L) :
    ∀ e ∈ traversal.before K1 C1 ++ traversal.flat l, cut comp key e = .lt := by
  rw [← f.seq] at hL
  refine below_of_le hc (fun e he => (List.pairwise_append.mp hL).2.2 e he k List.mem_cons_self) ?_
  exact (cut_eq_eq.mp f.here).2

theorem above (hc : StrictWeak comp) (f : Found comp order h key L K1 k K2 C1 l r C2)
    (hL : Ascending comp L) :
    ∀ e ∈ traversal.flat r ++ traversal.after K2 C2, cut comp key e = .gt := by
  rw [← f.seq] at hL
  refine above_of_le hc (List.pairwise_cons.mp (List.pairwise_append.mp hL).2.1).1 ?_
  exact (cut_eq_eq.mp f.here).1

end Found

theorem splitFull_spec (ho : 2 ≤ order) {h : Nat} {c : Node T} (hs : traversal.Shape order h c)
    (hfull : traversal.count c = 2 * order - 1) :
    ∃ m l r, c.keys[order - 1]? = some m ∧ halves order c = (l, r) ∧
      traversal.flat c = traversal.flat l ++ m :: traversal.flat r ∧
      traversal.count l = order - 1 ∧ traversal.count r = order - 1 ∧
      traversal.Shape order h l ∧ traversal.Shape order h r := by
  rcases hs.cases with ⟨keys, rfl, rfl, _⟩ | ⟨h, keys, children, rfl, rfl, _⟩
  · have hlen : keys.length = 2 * order - 1 := hfull
    obtain ⟨A, m, B, rfl, hA⟩ := Splice.pick (l := keys) (i := order - 1) (by omega)
    have hB : B.length = order - 1 := by
      rw [List.length_append, List.length_cons] at hlen
      omega
    have htake : (A ++ m :: B).take (order - 1) = A := List.take_left' hA
    have hdrop : ((A ++ m :: B).drop order).take (order - 1) = B := by
      rw [Splice.drop_mid (by omega), List.take_of_length_le (by omega)]
    refine ⟨m, .leaf A, .leaf B, Splice.getElem?_mid hA, by simp only [halves, htake, hdrop],
      rfl, hA, hB, ?_, ?_⟩
    · change A.length ≤ _
      omega
    · change B.length ≤ _
      omega
  · obtain ⟨A, m, B, hm, htake, hdrop, hA, hB, hflat, _, hsl, hsr⟩ :=
      View.halves_internal (by omega) hs hfull
    exact ⟨m, .internal A (children.take order), .internal B ((children.drop order).take order), hm,
      by simp only [halves, htake, hdrop], hflat, hA, hB, hsl, hsr⟩

section Avoids
variable (comp : T → T → Bool) (order : Nat) (key : T)

/-- A split of this node would promote a key equivalent to the given one. -/
def promotes (node : Node T) : Bool := isFull order node && isAt comp node.keys (order - 1) key

/-- No node below this one is full with the given key as its median. -/
def avoids : Nat → Node T → Bool
  | h + 1, .internal _ children =>
    children.all (fun c => !promotes comp order key c && avoids h c)
  | _, _ => true

end Avoids

theorem avoids_halves {h : Nat} {c l r : Node T} {key : T} (hl : halves order c = (l, r))
    (ha : avoids comp order key h c = true) :
    avoids comp order key h l = true ∧ avoids comp order key h r = true := by
  cases h with
  | zero => exact ⟨by cases l <;> rfl, by cases r <;> rfl⟩
  | succ h =>
    cases c with
    | leaf keys =>
      simp only [halves, Prod.mk.injEq] at hl
      obtain ⟨rfl, rfl⟩ := hl
      exact ⟨rfl, rfl⟩
    | internal keys children =>
      simp only [halves, Prod.mk.injEq] at hl
      obtain ⟨rfl, rfl⟩ := hl
      simp only [avoids, List.all_eq_true] at ha ⊢
      constructor
      · intro x hx
        exact ha x (List.mem_of_mem_take hx)
      · intro x hx
        exact ha x (List.mem_of_mem_drop (List.mem_of_mem_take hx))

theorem isFull_iff {node : Node T} :
    isFull order node = true ↔ traversal.count node = 2 * order - 1 := by
  rw [isFull, beq_iff_eq]

/-- Splitting the child in the way leaves the traversal alone, and the descent
goes on in the half the key belongs to. -/
theorem makeRoom_spec (hc : StrictWeak comp) (ho : 2 ≤ order) {h : Nat} {key : T}
    {L K1 K2 : List T} {C1 C2 : List (Node T)} {c : Node T}
    (o : Opened comp order h key L K1 K2 C1 c C2) (hL : Ascending comp L)
    (hroom : (K1 ++ K2).length < 2 * order - 1) (hp : promotes comp order key c = false)
    (ha : avoids comp order key h c = true) :
    ∃ K1' K2' C1' c' C2', makeRoom comp order (K1 ++ K2) (C1 ++ c :: C2) K1.length key =
        some (K1' ++ K2', C1' ++ c' :: C2', K1'.length) ∧
      Opened comp order h key L K1' K2' C1' c' C2' ∧ traversal.count c' < 2 * order - 1 ∧
      (K1' ++ K2').length ≤ 2 * order - 1 ∧ (K1 ++ K2).length ≤ (K1' ++ K2').length ∧
      avoids comp order key h c' = true := by
  cases hfull : isFull order c with
  | false =>
    refine ⟨K1, K2, C1, c, C2, ?_, o, ?_, by omega, by omega, ha⟩
    · simp [makeRoom, Splice.getElem?_mid o.left, hfull]
    · have hle := o.child.2.count_le
      have hne : traversal.count c ≠ 2 * order - 1 := by
        intro he
        rw [isFull_iff.mpr he] at hfull
        cases hfull
      omega
  | true =>
    obtain ⟨m, l, r, hm, hhalves, hflat, hl, hr, hsl, hsr⟩ :=
      splitFull_spec ho o.child.2 (isFull_iff.mp hfull)
    obtain ⟨hal, har⟩ := avoids_halves hhalves ha
    have hne : cut comp key m ≠ .eq := by
      intro he
      have hat : isAt comp c.keys (order - 1) key = true := by
        obtain ⟨he1, he2⟩ := cut_eq_eq.mp he
        simp [isAt, hm, he1, he2]
      rw [promotes, hfull, hat] at hp
      cases hp
    have hsplit : splitChild order (K1 ++ K2) (C1 ++ c :: C2) K1.length =
        some (K1 ++ m :: K2, C1 ++ l :: r :: C2) :=
      splitAt_eq rfl o.left (by simp [splitFull, hm, hhalves])
    have hmake : makeRoom comp order (K1 ++ K2) (C1 ++ c :: C2) K1.length key =
        some (K1 ++ m :: K2, C1 ++ l :: r :: C2,
          if comp m key then K1.length + 1 else K1.length) := by
      simp [makeRoom, Splice.getElem?_mid o.left, hfull, hsplit]
    have p := o.toParts.split m (l := l) (r := r) ⟨by omega, hsl⟩ ⟨by omega, hsr⟩
    have hac := o.ascending hL
    rw [hflat] at hac
    have hseq := o.seq
    rw [hflat] at hseq
    have hlen : (K1 ++ m :: K2).length = (K1 ++ K2).length + 1 := by simp; omega
    cases hmk : comp m key with
    | true =>
      -- the upper half: the lower half and the median join what lies in front
      have hlt : ∀ e ∈ traversal.flat l ++ [traversal.sep m], cut comp key e = .lt := by
        intro e he
        rcases List.mem_append.mp he with he | he
        · have hem := (List.pairwise_append.mp hac).2.2 e he m List.mem_cons_self
          exact cut_eq_lt.mpr (hc.trans hem hmk)
        · rw [List.mem_singleton.mp he]
          exact cut_eq_lt.mpr hmk
      have happ : K1 ++ [m] ++ K2 = K1 ++ m :: K2 := by simp
      refine ⟨K1 ++ [m], K2, C1 ++ [l], r, C2, by simp [hmake, hmk],
        ⟨p.step_right, o.toSides.push_front o.left hlt, ?_⟩, by omega, ?_, ?_, har⟩
      · rw [traversal.before_snoc m l o.left, ← hseq]
        simp
      · rw [happ]
        omega
      · rw [happ]
        omega
    | false =>
      have hkm : comp key m = true := by
        cases hkm : comp key m with
        | true => rfl
        | false => exact absurd (cut_eq_eq.mpr ⟨hmk, hkm⟩) hne
      have hgt : ∀ e ∈ traversal.sep m :: traversal.flat r, cut comp key e = .gt := by
        intro e he
        rcases List.mem_cons.mp he with rfl | he
        · exact (cut_eq_gt hc).mpr hkm
        · have hme := (List.pairwise_cons.mp (List.pairwise_append.mp hac).2.1).1 e he
          exact (cut_eq_gt hc).mpr (hc.trans hkm hme)
      refine ⟨K1, m :: K2, C1, l, r :: C2, by simp [hmake, hmk], ⟨p, o.toSides.push_back hgt, ?_⟩,
        by omega, by omega, by omega, hal⟩
      rw [← hseq]
      simp [View.after]

/-- A leaf around the index the search stops at. -/
theorem leaf_cases (hc : StrictWeak comp) {keys : List T} (ha : Ascending comp keys) (key : T) :
    (isAt comp keys (findKey comp keys key) key = true ∧
      ∃ K1 k K2, keys = K1 ++ k :: K2 ∧ K1.length = findKey comp keys key ∧
        (∀ e ∈ K1, cut comp key e = .lt) ∧ cut comp key k = .eq ∧
        ∀ e ∈ K2, cut comp key e = .gt) ∨
    (isAt comp keys (findKey comp keys key) key = false ∧
      ∃ K1 K2, keys = K1 ++ K2 ∧ K1.length = findKey comp keys key ∧
        (∀ e ∈ K1, cut comp key e = .lt) ∧ ∀ e ∈ K2, cut comp key e = .gt) := by
  obtain ⟨K1, K2, hkeys, hidx, hbelow, hcase⟩ := findKey_cases comp keys key
  rw [hkeys] at ha
  rcases hcase with ⟨hat, k, K2', rfl, hk⟩ | ⟨hat, hK2⟩
  · refine .inl ⟨hat, K1, k, K2', hkeys, hidx, hbelow, hk, ?_⟩
    exact above_of_le hc (List.pairwise_cons.mp (List.pairwise_append.mp ha).2.1).1
      (cut_eq_eq.mp hk).1
  · refine .inr ⟨hat, K1, K2, hkeys, hidx, hbelow, ?_⟩
    rcases hK2 with rfl | ⟨k, K2', rfl, hk⟩
    · simp
    · intro e he
      rcases List.mem_cons.mp he with rfl | he
      · exact hk
      · have hke := (List.pairwise_cons.mp (List.pairwise_append.mp ha).2.1).1 e he
        exact (cut_eq_gt hc).mpr (hc.trans ((cut_eq_gt hc).mp hk) hke)

/-- The size an insertion leaves: one more unless the key was there. -/
def sizeAfterInsert (comp : T → T → Bool) (key : T) (l : List T) (size : Int) : Int :=
  if (lookup (cut comp key) l).isSome then size else toInt32 (size + 1)

theorem insertNonFull_spec (hc : StrictWeak comp) (ho : 2 ≤ order) {key : T} {h : Nat}
    {node : Node T} (size : Int) (hs : traversal.Shape order h node)
    (ha : Ascending comp (traversal.flat node))
    (hroom : traversal.count node < 2 * order - 1) (hav : avoids comp order key h node = true) :
    ∃ node', insertNonFull comp order key (h + 1) node size =
        some (node', sizeAfterInsert comp key (traversal.flat node) size) ∧
      traversal.Shape order h node' ∧
      traversal.flat node' = upsert (cut comp key) id key (traversal.flat node) ∧
      traversal.count node ≤ traversal.count node' := by
  induction h generalizing node with
  | zero =>
    cases node with
    | internal keys children => cases hs
    | leaf keys =>
      simp only [traversal_leaf] at ha ⊢
      rcases leaf_cases hc ha key with ⟨hat, K1, k, K2, hkeys, _, hlt, hk, _⟩ |
        ⟨hat, K1, K2, hkeys, hidx, hlt, hgt⟩
      · refine ⟨.leaf keys, ?_, hs, ?_, le_rfl⟩
        · have hfound := lookup_hit (B := K2) (ne_eq_of_lt hlt) hk
          rw [← hkeys] at hfound
          simp [insertNonFull, hat, sizeAfterInsert, hfound]
        · rw [traversal_leaf, hkeys, upsert_hit hlt hk]
          rfl
      · have hnone : lookup (cut comp key) keys = none := by
          rw [hkeys, lookup_append, lookup_eq_none K1 (ne_eq_of_lt hlt),
            lookup_eq_none K2 (ne_eq_of_gt hgt)]
          rfl
        have hins : keys.insertIdx (findKey comp keys key) key = K1 ++ key :: K2 := by
          rw [← hidx, hkeys, Splice.insertIdx_mid rfl]
        have hlen : (K1 ++ key :: K2).length = keys.length + 1 := by
          rw [hkeys]
          simp
          omega
        refine ⟨.leaf (K1 ++ key :: K2), ?_, ?_, ?_, ?_⟩
        · simp [insertNonFull, hat, sizeAfterInsert, hnone, hins]
        · rw [count_leaf] at hroom
          rw [shape_leaf, hlen]
          omega
        · rw [traversal_leaf, hkeys, upsert_gap hlt hgt]
        · rw [count_leaf, count_leaf, hlen]
          omega
  | succ h ih =>
    cases node with
    | leaf keys => cases hs
    | internal keys children =>
      rcases open_node hc hs ha key with ⟨hat, K1, k, K2, C1, l, r, C2, _, _, _, f⟩ |
        ⟨hat, K1, K2, C1, c, C2, hkeys, hchildren, hidx, o⟩
      · have hlt := f.below hc ha
        refine ⟨.internal keys children, ?_, hs, ?_, le_rfl⟩
        · have hfound := lookup_hit (B := traversal.flat r ++ traversal.after K2 C2)
            (ne_eq_of_lt hlt) f.here
          rw [f.seq] at hfound
          simp [insertNonFull, hat, sizeAfterInsert, hfound]
        · rw [← f.seq, upsert_hit hlt f.here]
          rfl
      · have hmem : c ∈ children := by simp [hchildren]
        simp only [avoids, List.all_eq_true, Bool.and_eq_true, Bool.not_eq_true'] at hav
        obtain ⟨hp, hac⟩ := hav c hmem
        rw [count_internal, hkeys] at hroom
        obtain ⟨K1', K2', C1', c', C2', hmake, o', hc', hlen', hgrow, hav'⟩ :=
          makeRoom_spec hc ho o ha hroom hp hac
        obtain ⟨c'', hins, hs'', hflat'', hcount''⟩ := ih o'.child.2 (o'.ascending ha) hc' hav'
        have hmin := o'.child.1
        obtain ⟨hshape, hinorder⟩ := o'.close hlen' (show traversal.Fit order h c'' from ⟨by omega, hs''⟩)
        refine ⟨.internal (K1' ++ K2') (C1' ++ c'' :: C2'), ?_, hshape, ?_, ?_⟩
        · have hset : (C1' ++ c' :: C2').set K1'.length c'' = C1' ++ c'' :: C2' :=
            Splice.set_mid o'.left
          have hrun : makeRoom comp order keys children (findKey comp keys key) key =
              some (K1' ++ K2', C1' ++ c' :: C2', K1'.length) := by
            rw [← hidx, hkeys, hchildren]
            exact hmake
          have hsize : sizeAfterInsert comp key (traversal.flat c') size =
              sizeAfterInsert comp key (traversal.flat (.internal keys children)) size := by
            rw [sizeAfterInsert, sizeAfterInsert, o'.lookup_eq]
          rw [hsize] at hins
          simp [insertNonFull, hat, hrun, Splice.getElem?_mid o'.left, hins, hset]
        · rw [hinorder, hflat'', o'.upsert_eq]
        · rw [count_internal, count_internal, hkeys]
          exact hgrow

theorem containsFrom_spec (hc : StrictWeak comp) {key : T} {h : Nat} {node : Node T}
    (hs : traversal.Shape order h node) (ha : Ascending comp (traversal.flat node)) :
    containsFrom comp key (h + 1) node =
      some (lookup (cut comp key) (traversal.flat node)).isSome := by
  induction h generalizing node with
  | zero =>
    cases node with
    | internal keys children => cases hs
    | leaf keys =>
      simp only [traversal_leaf, containsFrom, Option.some.injEq] at ha ⊢
      rcases leaf_cases hc ha key with ⟨hat, K1, k, K2, hkeys, _, hlt, hk, _⟩ |
        ⟨hat, K1, K2, hkeys, _, hlt, hgt⟩
      · rw [hat, hkeys, lookup_hit (ne_eq_of_lt hlt) hk]
        rfl
      · rw [hat, hkeys, lookup_append, lookup_eq_none K1 (ne_eq_of_lt hlt),
          lookup_eq_none K2 (ne_eq_of_gt hgt)]
        rfl
  | succ h ih =>
    cases node with
    | leaf keys => cases hs
    | internal keys children =>
      simp only [containsFrom]
      rcases open_node hc hs ha key with ⟨hat, K1, k, K2, C1, l, r, C2, _, _, _, f⟩ |
        ⟨hat, K1, K2, C1, c, C2, hkeys, hchildren, hidx, o⟩
      · rw [if_pos hat, ← f.seq, lookup_hit (ne_eq_of_lt (f.below hc ha)) f.here]
        rfl
      · have hget : children[findKey comp keys key]? = some c := by
          rw [← hidx, hchildren]
          exact Splice.getElem?_mid o.left
        simp only [hat, Bool.false_eq_true, if_false, hget]
        rw [o.lookup_eq]
        exact ih o.child.2 (o.ascending ha)

end Cppforge.Multiway.BTree
