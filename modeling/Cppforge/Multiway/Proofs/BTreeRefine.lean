import Cppforge.Multiway.Proofs.BTreeRemove

namespace Cppforge.Multiway.BTree
open Ordered KTree

variable {T : Type} (comp : T → T → Bool) (order : Nat)

/-- What one call does to the sorted set: a key that is there already stays as it is. -/
def effect (l : List T) : Op T → List T
  | .insert key => upsert (cut comp key) id key l
  | .remove key => erase (cut comp key) l

/-- The keys inserted and not since removed, in order. -/
def contents (ops : List (Op T)) : List T := ops.foldl (effect comp) []

/-- Did the last call about a key equivalent to `k` insert it? -/
def present (ops : List (Op T)) (k : T) : Bool :=
  ops.foldl (fun b op =>
    match op with
    | .insert key => b || cut comp k key == .eq
    | .remove key => b && cut comp k key != .eq) false

/-- The call splits no full node below the root around the key it inserts, and
`size_` can count the key if it is new. -/
def harmless (t : BTree T) : Op T → Bool
  | .insert key =>
    (decide (t.size < 2 ^ 31 - 1) || (lookup (cut comp key) t.inorder).isSome) &&
      t.root.all (fun root => avoids comp order key (root.computeHeight - 1) root)
  | .remove _ => true

def harmlessRun (t : BTree T) : List (Op T) → Bool
  | [] => true
  | op :: ops => harmless comp order t op &&
      (apply comp order t op).all (fun t' => harmlessRun t' ops)

/-- A well-formed tree. -/
structure Inv (t : BTree T) : Prop where
  root : ∀ root ∈ t.root, (∃ h, traversal.Shape order h root) ∧ 1 ≤ traversal.count root
  ascending : Ascending comp t.inorder
  size : t.size = t.inorder.length
  small : t.inorder.length < 2 ^ 31

theorem inv_empty : Inv comp order (empty : BTree T) := by
  refine ⟨?_, List.Pairwise.nil, rfl, by simp [inorder, empty]⟩
  intro root h
  cases h

variable {comp order}

section Sets

theorem ascending_upsert (hc : StrictWeak comp) {l : List T} (ha : Ascending comp l) (key : T) :
    Ascending comp (upsert (cut comp key) id key l) :=
  upsert_pairwise hc id id key rfl (fun _ => rfl) l ha

/-- Whether a key is in the sorted set is decided by the last call about it. -/
theorem lookup_effect (hc : StrictWeak comp) (l : List T) (op : Op T) (k : T) :
    (lookup (cut comp k) (effect comp l op)).isSome = (match op with
      | .insert key => (lookup (cut comp k) l).isSome || cut comp k key == .eq
      | .remove key => (lookup (cut comp k) l).isSome && cut comp k key != .eq) := by
  cases op with
  | insert key =>
    have hkey := lookup_upsert_key id hc k id l (fun _ => ()) (show id key = key from rfl)
      (fun _ => rfl) (fun _ => rfl)
    have hsome := congrArg Option.isSome hkey
    rw [Option.isSome_map, apply_ite Option.isSome, Option.isSome_map] at hsome
    refine hsome.trans ?_
    by_cases hk : cut comp k key = .eq <;> simp [hk]
  | remove key =>
    have hkey := lookup_erase_key id hc key k l
    refine (congrArg Option.isSome hkey).trans ?_
    by_cases hk : cut comp k key = .eq <;> simp [hk]

theorem lookup_contents (hc : StrictWeak comp) (ops : List (Op T)) (k : T) :
    (lookup (cut comp k) (contents comp ops)).isSome = present comp ops k := by
  have hfold : ∀ (ops : List (Op T)) (l : List T) (b : Bool),
      (lookup (cut comp k) l).isSome = b →
      (lookup (cut comp k) (ops.foldl (effect comp) l)).isSome = ops.foldl (fun b op =>
        match op with
        | .insert key => b || cut comp k key == .eq
        | .remove key => b && cut comp k key != .eq) b := by
    intro ops
    induction ops with
    | nil =>
      intro l b h
      exact h
    | cons op ops ih =>
      intro l b h
      simp only [List.foldl_cons]
      apply ih
      rw [lookup_effect hc]
      cases op <;> simp only [h]
  exact hfold ops [] false rfl

end Sets

theorem growRoot_spec (ho : 2 ≤ order) {h : Nat} {root : Node T} (hs : traversal.Shape order h root)
    (hpos : 1 ≤ traversal.count root) (key : T) (hav : avoids comp order key h root = true) :
    ∃ h' root', growRoot order root = some root' ∧ traversal.Shape order h' root' ∧
      traversal.flat root' = traversal.flat root ∧ traversal.count root' < 2 * order - 1 ∧ 1 ≤ traversal.count root' ∧
      avoids comp order key h' root' = true := by
  cases hfull : isFull order root with
  | false =>
    refine ⟨h, root, by simp [growRoot, hfull], hs, rfl, ?_, hpos, hav⟩
    have hle := hs.count_le
    have hne : traversal.count root ≠ 2 * order - 1 := by
      intro he
      rw [isFull_iff.mpr he] at hfull
      cases hfull
    omega
  | true =>
    obtain ⟨m, l, r, hm, hhalves, hflat, hl, hr, hsl, hsr⟩ :=
      splitFull_spec ho hs (isFull_iff.mp hfull)
    obtain ⟨hal, har⟩ := avoids_halves hhalves hav
    have hnot : ∀ c : Node T, traversal.count c = order - 1 → promotes comp order key c = false := by
      intro c hc
      have hne : isFull order c = false := by
        rw [isFull, Node.count, hc]
        simp
        omega
      rw [promotes, hne]
      rfl
    refine ⟨h + 1, .internal [m] [l, r], ?_, ⟨?_, rfl, ?_⟩, ?_, ?_, ?_, ?_⟩
    · simp [growRoot, hfull, splitChild, splitAt, splitFull, hm, hhalves]
    · simp only [List.length_singleton]
      omega
    · intro c hc
      simp only [List.mem_cons, List.not_mem_nil, or_false] at hc
      rcases hc with rfl | rfl
      · exact ⟨by omega, hsl⟩
      · exact ⟨by omega, hsr⟩
    · simp [View.flat, View.flatFrom, hflat]
    · simp only [count_internal, List.length_singleton]
      omega
    · simp
    · simp [avoids, hnot l hl, hnot r hr, hal, har]

theorem toInt32_eq {n : Int} (h0 : 0 ≤ n) (h : n < 2 ^ 31) : toInt32 n = n := by
  rw [toInt32]
  exact Int.bmod_eq_of_le (by omega) (by omega)

/-- One less is another number, wrapped or not. -/
theorem toInt32_pred_ne (n : Int) : toInt32 (n - 1) ≠ n := by
  rw [toInt32, Int.bmod_def]
  split <;> omega

theorem height_eq {h : Nat} {node : Node T} (hs : traversal.Shape order h node) :
    node.computeHeight = h + 1 := hs.depth

theorem contains_spec (hc : StrictWeak comp) {t : BTree T} (hi : Inv comp order t) (k : T) :
    t.contains comp k = some (lookup (cut comp k) t.inorder).isSome := by
  cases hr : t.root with
  | none => simp [contains, inorder, hr, lookup]
  | some root =>
    obtain ⟨⟨h, hs⟩, _⟩ := hi.root root hr
    have ha := hi.ascending
    simp only [inorder, contains, hr, height_eq hs] at ha ⊢
    exact containsFrom_spec hc hs ha

theorem insert_spec (hc : StrictWeak comp) (ho : 2 ≤ order) (hfit : 2 * order < 2 ^ 31)
    {t : BTree T} (hi : Inv comp order t) {key : T}
    (hop : harmless comp order t (.insert key) = true) :
    ∃ t', t.insert comp order key = some t' ∧ Inv comp order t' ∧
      t'.inorder = upsert (cut comp key) id key t.inorder := by
  have hlen : (upsert (cut comp key) id key t.inorder).length =
      if (lookup (cut comp key) t.inorder).isSome then t.inorder.length
      else t.inorder.length + 1 := length_upsert id hc key id key hi.ascending
  have hasc := ascending_upsert hc hi.ascending key
  simp only [harmless, Bool.and_eq_true, Bool.or_eq_true, decide_eq_true_eq] at hop
  obtain ⟨hsize, hav⟩ := hop
  -- the count after the call, in range because of the first half of the condition
  have hcount : sizeAfterInsert comp key t.inorder t.size =
      (upsert (cut comp key) id key t.inorder).length ∧
      (upsert (cut comp key) id key t.inorder).length < 2 ^ 31 := by
    have hsmall := hi.small
    rw [hi.size] at hsize
    rw [sizeAfterInsert, hlen, hi.size]
    cases hfound : (lookup (cut comp key) t.inorder).isSome with
    | true => exact ⟨rfl, hsmall⟩
    | false =>
      simp only [hfound, Bool.false_eq_true, or_false, if_false] at hsize ⊢
      rw [toInt32_eq (by omega) (by omega)]
      exact ⟨by omega, by omega⟩
  cases hr : t.root with
  | none =>
    refine ⟨⟨some (.leaf [key]), toInt32 (t.size + 1)⟩, by rw [insert, hr]; exact if_pos hfit, ?_, ?_⟩
    · have hz : t.size = 0 := by simp [hi.size, inorder, hr]
      refine ⟨?_, by simp [inorder, Ascending], ?_, by simp [inorder]⟩
      · intro root hroot
        cases hroot
        refine ⟨⟨0, ?_⟩, by simp⟩
        rw [shape_leaf, List.length_singleton]
        omega
      · simp only [inorder, traversal_leaf, hz]
        rfl
    · simp [inorder, hr, upsert]
  | some root =>
    obtain ⟨⟨h, hs⟩, hpos⟩ := hi.root root hr
    rw [hr, Option.all_some, height_eq hs, Nat.add_sub_cancel] at hav
    obtain ⟨h', root', hgrow, hs', hflat', hroom, hpos', hav'⟩ := growRoot_spec ho hs hpos key hav
    have hflat : traversal.flat root' = t.inorder := by simp [hflat', inorder, hr]
    have ha : Ascending comp (traversal.flat root') := by
      rw [hflat]
      exact hi.ascending
    obtain ⟨node, hins, hsn, hflatn, hcountn⟩ := insertNonFull_spec hc ho t.size hs' ha hroom hav'
    rw [hflat] at hins hflatn
    refine ⟨⟨some node, sizeAfterInsert comp key t.inorder t.size⟩, ?_, ⟨?_, ?_, ?_, ?_⟩, hflatn⟩
    · simp only [insert, hr, hgrow, Option.bind_eq_bind, Option.bind_some, height_eq hs', hins]
      rfl
    · intro root₁ hroot
      cases hroot
      exact ⟨⟨h', hsn⟩, by omega⟩
    · simp only [inorder, hflatn]
      exact hasc
    · simp only [inorder, hflatn]
      exact hcount.1
    · simp only [inorder, hflatn]
      exact hcount.2

theorem shrink_spec (ho : 2 ≤ order) {h : Nat} {root : Node T} (hs : traversal.Shape order h root) :
    (∀ root' ∈ shrink root, (∃ h, traversal.Shape order h root') ∧ 1 ≤ traversal.count root') ∧
      inorder ⟨shrink root, 0⟩ = traversal.flat root := by
  cases root with
  | leaf keys =>
    cases keys with
    | nil =>
      refine ⟨?_, rfl⟩
      intro root' hr
      cases hr
    | cons k keys =>
      refine ⟨?_, rfl⟩
      intro root' hr
      cases hr
      exact ⟨⟨h, hs⟩, by simp⟩
  | internal keys children =>
    cases h with
    | zero => cases hs
    | succ h =>
      cases keys with
      | nil =>
        obtain ⟨_, hlen, hkids⟩ := hs
        obtain ⟨c, rfl⟩ := List.length_eq_one_iff.mp hlen
        refine ⟨?_, by simp [shrink, inorder, View.flat, View.flatFrom]⟩
        intro root' hr
        cases hr
        obtain ⟨hcount, hshape⟩ := hkids c List.mem_cons_self
        exact ⟨⟨h, hshape⟩, by omega⟩
      | cons k keys =>
        refine ⟨?_, rfl⟩
        intro root' hr
        cases hr
        exact ⟨⟨h + 1, hs⟩, by simp⟩

/-- What a removal does to the keys and to `size_`, whatever `size_` is. -/
theorem remove_keys (hc : StrictWeak comp) (ho : 2 ≤ order) {t : BTree T}
    (hroot : ∀ root ∈ t.root, (∃ h, traversal.Shape order h root) ∧ 1 ≤ traversal.count root)
    (hasc : Ascending comp t.inorder) (key : T) :
    ∃ t', t.remove comp order key = some (t', (lookup (cut comp key) t.inorder).isSome) ∧
      (∀ root ∈ t'.root, (∃ h, traversal.Shape order h root) ∧ 1 ≤ traversal.count root) ∧
      t'.inorder = erase (cut comp key) t.inorder ∧
      t'.size = sizeAfterRemove comp key t.inorder t.size := by
  cases hr : t.root with
  | none =>
    have hnil : t.inorder = [] := by simp [inorder, hr]
    exact ⟨t, by simp [remove, hr, hnil, lookup], hroot, by simp [hnil, erase],
      by simp [hnil, sizeAfterRemove, lookup]⟩
  | some root =>
    obtain ⟨⟨h, hs⟩, hpos⟩ := hroot root hr
    have hflat : traversal.flat root = t.inorder := by simp [inorder, hr]
    have ha : Ascending comp (traversal.flat root) := by
      rw [hflat]
      exact hasc
    obtain ⟨node, hrem, hsn, hflatn, _⟩ := removeFromNode_spec hc ho key t.size hs ha hpos
    rw [hflat] at hrem hflatn
    obtain ⟨hroot', hshrink⟩ := shrink_spec ho hsn
    have hfound : (t.size != sizeAfterRemove comp key t.inorder t.size) =
        (lookup (cut comp key) t.inorder).isSome := by
      rw [sizeAfterRemove]
      cases (lookup (cut comp key) t.inorder).isSome with
      | true =>
        rw [if_pos rfl, bne_iff_ne]
        exact (toInt32_pred_ne _).symm
      | false => simp
    refine ⟨⟨shrink node, sizeAfterRemove comp key t.inorder t.size⟩, ?_, hroot', ?_, rfl⟩
    · simp only [remove, hr, height_eq hs, hrem, Option.bind_eq_bind, Option.bind_some, hfound]
      rfl
    · rw [← hflatn, ← hshrink]
      rfl

theorem remove_spec (hc : StrictWeak comp) (ho : 2 ≤ order) {t : BTree T}
    (hi : Inv comp order t) (key : T) :
    ∃ t', t.remove comp order key = some (t', (lookup (cut comp key) t.inorder).isSome) ∧
      Inv comp order t' ∧ t'.inorder = erase (cut comp key) t.inorder := by
  obtain ⟨t', hrem, hroot, hout, hsize⟩ := remove_keys hc ho hi.root hi.ascending key
  have hlen : t.inorder.length = if (lookup (cut comp key) t.inorder).isSome
      then (erase (cut comp key) t.inorder).length + 1
      else (erase (cut comp key) t.inorder).length := length_erase id hc key hi.ascending
  have hsmall := hi.small
  have hold := hi.size
  refine ⟨t', hrem, ⟨hroot, ?_, ?_, ?_⟩, hout⟩
  · rw [hout]
    exact erase_pairwise id hi.ascending
  · rw [hout, hsize, sizeAfterRemove, hold]
    cases hfound : (lookup (cut comp key) t.inorder).isSome with
    | true =>
      simp only [hfound, if_true] at hlen ⊢
      rw [toInt32_eq (by omega) (by omega)]
      omega
    | false =>
      simp only [hfound, Bool.false_eq_true, if_false] at hlen ⊢
      omega
  · rw [hout]
    split at hlen <;> omega

theorem apply_spec (hc : StrictWeak comp) (ho : 2 ≤ order) (hfit : 2 * order < 2 ^ 31)
    {t : BTree T} (hi : Inv comp order t) {op : Op T} (hop : harmless comp order t op = true) :
    ∃ t', apply comp order t op = some t' ∧ Inv comp order t' ∧
      t'.inorder = effect comp t.inorder op := by
  cases op with
  | insert key => exact insert_spec hc ho hfit hi hop
  | remove key =>
    obtain ⟨t', hrem, hi', hflat⟩ := remove_spec hc ho hi key
    exact ⟨t', by simp [apply, hrem], hi', hflat⟩

theorem run_spec (hc : StrictWeak comp) (ho : 2 ≤ order) (hfit : 2 * order < 2 ^ 31)
    {t : BTree T} (hi : Inv comp order t) (ops : List (Op T))
    (hops : harmlessRun comp order t ops = true) :
    ∃ t', run comp order t ops = some t' ∧ Inv comp order t' ∧
      t'.inorder = ops.foldl (effect comp) t.inorder := by
  induction ops generalizing t with
  | nil => exact ⟨t, rfl, hi, rfl⟩
  | cons op ops ih =>
    simp only [harmlessRun, Bool.and_eq_true] at hops
    obtain ⟨t₁, happly, hi₁, hflat₁⟩ := apply_spec hc ho hfit hi hops.1
    rw [happly, Option.all_some] at hops
    obtain ⟨t', hrun, hi', hflat'⟩ := ih hi₁ hops.2
    refine ⟨t', ?_, hi', ?_⟩
    · simp only [run, List.foldlM_cons, happly, Option.bind_eq_bind, Option.bind_some]
      exact hrun
    · rw [hflat', hflat₁, List.foldl_cons]

/-- The tree is the sorted set of the calls made so far, as long as none of them
splits a node around the key it inserts. -/
theorem run_refines_set (hc : StrictWeak comp) (ho : 2 ≤ order) (hfit : 2 * order < 2 ^ 31)
    (ops : List (Op T)) (hops : harmlessRun comp order empty ops = true) :
    ∃ t, run comp order empty ops = some t ∧ t.inorder = contents comp ops ∧
      Ascending comp t.inorder ∧ t.size = t.inorder.length ∧
      (∀ k, t.contains comp k = some (present comp ops k)) ∧
      (∀ k, (∃ e ∈ t.inorder, cut comp k e = .eq) ↔ present comp ops k = true) ∧
      ∀ k, ∃ t', t.remove comp order k = some (t', present comp ops k) ∧
        t'.inorder = contents comp (ops ++ [.remove k]) := by
  obtain ⟨t, hrun, hi, hflat⟩ := run_spec hc ho hfit (inv_empty comp order) ops hops
  have hpresent : ∀ k, (lookup (cut comp k) t.inorder).isSome = present comp ops k := by
    intro k
    rw [hflat]
    exact lookup_contents hc ops k
  refine ⟨t, hrun, hflat, hi.ascending, hi.size, ?_, ?_, ?_⟩
  · intro k
    rw [contains_spec hc hi, hpresent]
  · intro k
    rw [← hpresent, lookup, List.find?_isSome]
    simp
  · intro k
    obtain ⟨t', hrem, _, hflat'⟩ := remove_spec hc ho hi k
    rw [hpresent] at hrem
    refine ⟨t', hrem, ?_⟩
    rw [hflat', hflat, contents, List.foldl_append]
    rfl

section Runs

def less (a b : Int) : Bool := decide (a < b)

theorem less_strictWeak : StrictWeak less := by
  refine ⟨?_, ?_, ?_⟩
  · intro a
    simp [less]
  · intro a b c hab hbc
    simp only [less, decide_eq_true_eq] at hab hbc ⊢
    omega
  · intro a c b hac
    simp only [less, decide_eq_true_eq] at hac ⊢
    omega

/-- Two levels, a key inserted again in a leaf and in the root, and the root's
key removed. -/
def reinserted : List (Op Int) :=
  [.insert 1, .insert 2, .insert 3, .insert 4, .insert 4, .insert 2, .remove 2, .insert 5]

theorem run_refines_set_reinserted :
    ∃ t, run less 2 empty reinserted = some t ∧ t.inorder = contents less reinserted ∧
      Ascending less t.inorder ∧ t.size = t.inorder.length ∧
      (∀ k, t.contains less k = some (present less reinserted k)) ∧
      (∀ k, (∃ e ∈ t.inorder, cut less k e = .eq) ↔ present less reinserted k = true) ∧
      ∀ k, ∃ t', t.remove less 2 k = some (t', present less reinserted k) ∧
        t'.inorder = contents less (reinserted ++ [.remove k]) :=
  run_refines_set less_strictWeak (by decide) (by decide) reinserted (by decide +kernel)

/-- The leaf `[3, 4, 5]` is full when 4 comes again: the split moves the 4 into
the root, which was searched before, and a second 4 goes below it. -/
theorem reinserted_median : ¬ ∃ t,
    run less 2 empty [.insert 1, .insert 2, .insert 3, .insert 4, .insert 5, .insert 4] = some t ∧
      Ascending less t.inorder := by
  intro ⟨t, hrun, hasc⟩
  have htwice : (run less 2 empty [.insert 1, .insert 2, .insert 3, .insert 4, .insert 5,
      .insert 4]).map inorder = some [1, 2, 3, 4, 4, 5] := by
    decide +kernel
  rw [hrun, Option.map_some, Option.some.injEq] at htwice
  rw [htwice] at hasc
  exact absurd hasc (by unfold Ascending; decide)

end Runs

section WellFormed
variable {t : BTree T}

/-- Equal leaf depth, occupancy, and keys that increase strictly. -/
structure WellFormed (comp : T → T → Bool) (order : Nat) (t : BTree T) : Prop where
  root : ∀ root ∈ t.root, (∃ h, traversal.Shape order h root) ∧ 1 ≤ traversal.count root
  ascending : Ascending comp t.inorder

/-- `remove` with each call for a child refused where the child has fewer than `order` keys. -/
def removeStrictly (comp : T → T → Bool) (order : Nat) (t : BTree T) (key : T) :
    Option (BTree T × Bool) :=
  match t.root with
  | none => some (t, false)
  | some root => do
    let (root, size) ← removeGuarded comp order root.computeHeight root key t.size
    return (⟨shrink root, size⟩, t.size != size)

theorem removeStrictly_eq (hc : StrictWeak comp) (ho : 2 ≤ order) (hw : WellFormed comp order t)
    (key : T) : t.removeStrictly comp order key = t.remove comp order key := by
  cases hr : t.root with
  | none => rw [removeStrictly, remove, hr]
  | some root =>
    obtain ⟨⟨h, hs⟩, hpos⟩ := hw.root root hr
    have ha : Ascending comp (traversal.flat root) := by
      have hasc := hw.ascending
      rwa [inorder, hr] at hasc
    simp only [removeStrictly, remove, hr, height_eq hs, removeGuarded_eq hc ho key t.size hs ha hpos]

def equivalent (comp : T → T → Bool) (a b : T) : Bool := !comp a b && !comp b a

theorem equivalent_iff {key a : T} : equivalent comp a key = true ↔ cut comp key a = .eq := by
  rw [cut_eq_eq]
  simp [equivalent]

theorem erase_eq_filter (key : T) (l : List T) :
    erase (cut comp key) l = l.filter (fun k => !equivalent comp k key) := by
  refine List.filter_congr (fun k _ => ?_)
  rw [Bool.eq_iff_iff, bne_iff_ne, Bool.not_eq_true', ← Bool.not_eq_true, Ne, equivalent_iff]

theorem isSome_lookup (key : T) (l : List T) :
    (lookup (cut comp key) l).isSome = l.any (fun k => equivalent comp k key) := by
  rw [lookup, Bool.eq_iff_iff, List.find?_isSome, List.any_eq_true]
  simp only [equivalent_iff, beq_iff_eq]

/-- A removal keeps the tree well formed, takes the key out and counts it, and descends only into
children that can spare a key. -/
theorem remove_guarded (hc : StrictWeak comp) (ho : 2 ≤ order) (hw : WellFormed comp order t)
    (hsize : -2 ^ 31 < t.size ∧ t.size < 2 ^ 31) (key : T) :
    ∃ t' found, t.remove comp order key = some (t', found) ∧ WellFormed comp order t' ∧
      t'.inorder = t.inorder.filter (fun k => !equivalent comp k key) ∧
      found = t.inorder.any (fun k => equivalent comp k key) ∧
      t'.size = t.size - (if found then 1 else 0) ∧
      t.removeStrictly comp order key = some (t', found) := by
  obtain ⟨t', hrem, hroot, hout, hcount⟩ := remove_keys hc ho hw.root hw.ascending key
  have hasc : Ascending comp t'.inorder := by
    rw [hout]
    exact erase_pairwise id hw.ascending
  refine ⟨t', _, hrem, ⟨hroot, hasc⟩, ?_, isSome_lookup key _, ?_, ?_⟩
  · rw [hout, erase_eq_filter]
  · rw [hcount, sizeAfterRemove]
    cases (lookup (cut comp key) t.inorder).isSome with
    | true =>
      simp only [if_true]
      rw [toInt32]
      exact Int.bmod_eq_of_le (by omega) (by omega)
    | false => simp
  · rw [removeStrictly_eq hc ho hw, hrem]

/-- Seven keys in four nodes, and the removal of a key of the root. -/
theorem remove_guarded_root : ∃ t : BTree Int,
    run less 2 empty [.insert 1, .insert 2, .insert 3, .insert 4, .insert 5, .insert 6, .insert 7] =
      some t ∧
    ∃ t' found, t.remove less 2 4 = some (t', found) ∧ WellFormed less 2 t' ∧
      t'.inorder = t.inorder.filter (fun k => !equivalent less k 4) ∧
      found = t.inorder.any (fun k => equivalent less k 4) ∧
      t'.size = t.size - (if found then 1 else 0) ∧
      t.removeStrictly less 2 4 = some (t', found) := by
  obtain ⟨t, hrun, hi, _⟩ := run_spec less_strictWeak (by decide) (by decide) (inv_empty less 2)
    [.insert 1, .insert 2, .insert 3, .insert 4, .insert 5, .insert 6, .insert 7] (by decide +kernel)
  have hsize := hi.size
  have hsmall := hi.small
  exact ⟨t, hrun, remove_guarded less_strictWeak (by decide) ⟨hi.root, hi.ascending⟩
    ⟨by omega, by omega⟩ 4⟩

end WellFormed

end Cppforge.Multiway.BTree
