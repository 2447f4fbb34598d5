import Cppforge.Multiway.Proofs.BPlusRefine

namespace Cppforge.Multiway.BPlusTree
open Ordered KTree

variable {K V : Type} {order : Nat}

def Op.isRemove : Op K V → Bool
  | .insert .. => false
  | .remove _ => true

/-- The whole structure: equal leaf depth, occupancy and child counts, the leaf list,
and searches that stay inside the nodes. -/
def Structured (comp : K → K → Bool) (order : Nat) (t : BPlusTree K V) : Prop :=
  Framed order t ∧ ∀ key, (t.find comp key).isSome = true

theorem Framed.structured {t : BPlusTree K V} (hf : Framed order t) (comp : K → K → Bool) :
    Structured comp order t := by
  refine ⟨hf, ?_⟩
  intro key
  cases hr : t.root with
  | none => simp [find, hr]
  | some root =>
    obtain ⟨⟨h, hshape⟩, _⟩ := hf.root root hr
    obtain ⟨leaf, hfind, _⟩ := findLeaf_spec comp key hshape
    simp [find, hr, hshape.depth, hfind]

theorem run_framed (comp : K → K → Bool) (ho : 2 ≤ order) (hfit : 2 * order < 2 ^ 31)
    {t : BPlusTree K V} (hf : Framed order t) (ops : List (Op K V)) :
    ∃ t', run comp order t ops = some t' ∧ Framed order t' := by
  induction ops generalizing t with
  | nil => exact ⟨t, rfl, hf⟩
  | cons op ops ih =>
    obtain ⟨t₁, happly, hf₁, _⟩ := apply_spec comp ho hfit hf op
    obtain ⟨t', hrun, hf'⟩ := ih hf₁
    refine ⟨t', ?_, hf'⟩
    simp only [run, List.foldlM_cons, happly, Option.bind_eq_bind, Option.bind_some]
    exact hrun

/-- Removals leave the empty tree alone; an insertion allocates the first node. -/
theorem run_empty_cases (comp : K → K → Bool) (hfit : ¬ 2 * order < 2 ^ 31) (ops : List (Op K V)) :
    run comp order empty ops = if ops.all Op.isRemove then some empty else none := by
  induction ops with
  | nil => rfl
  | cons op ops ih =>
    cases op with
    | insert key value =>
      simp only [run, List.foldlM_cons, apply, insert, empty, hfit, if_false]
      rfl
    | remove key => exact ih

/-- Every run keeps the structure, unless `2 * Order` overflows: then the first
insertion fails. -/
theorem run_structured_iff (comp : K → K → Bool) (ho : 2 ≤ order) (ops : List (Op K V)) :
    (∃ t, run comp order empty ops = some t ∧ Structured comp order t) ↔
      2 * order < 2 ^ 31 ∨ ops.all Op.isRemove = true := by
  constructor
  · intro ⟨t, hrun, _⟩
    by_cases hfit : 2 * order < 2 ^ 31
    · exact .inl hfit
    · right
      rw [run_empty_cases comp hfit] at hrun
      by_contra hall
      rw [if_neg hall] at hrun
      cases hrun
  · intro h
    by_cases hfit : 2 * order < 2 ^ 31
    · obtain ⟨t, hrun, hf⟩ := run_framed comp ho hfit (framed_empty order) ops
      exact ⟨t, hrun, hf.structured comp⟩
    · refine ⟨empty, ?_, (framed_empty order).structured comp⟩
      rw [run_empty_cases comp hfit, if_pos (h.resolve_left hfit)]

theorem run_structured_reinserted :
    ∃ t, run BTree.less 2 empty [.insert 1 10, .insert 2 20, .insert 3 30, .insert 4 40,
      .insert 5 50, .insert 5 51, .remove 1, .remove 7] = some t ∧ Structured BTree.less 2 t :=
  (run_structured_iff BTree.less (by decide) _).mpr (.inl (by decide))

/-- `reserve(2 * Order)` of the first node, with `Order` = 2^30. -/
theorem first_node_overflows :
    ¬ ∃ t, run BTree.less (2 ^ 30) empty [.insert 1 10] = some t ∧
      Structured BTree.less (2 ^ 30) t := by
  intro ⟨t, hrun, _⟩
  rw [run_empty_cases _ (by decide)] at hrun
  cases hrun

end Cppforge.Multiway.BPlusTree

namespace Cppforge.Multiway.BPlusTree
open Ordered KTree

variable {K V : Type} {comp : K → K → Bool} {order : Nat} {t : BPlusTree K V}

/-- Equal leaf depth, occupancy, a leaf list of all leaves from `head_`, and the items in order: leaf
keys increase strictly, and a routing key is above the keys of the subtree before it and not above
those of the subtree after it. -/
structure WellFormed (comp : K → K → Bool) (order : Nat) (t : BPlusTree K V) : Prop extends
    Framed order t where
  ordered : ∀ root ∈ t.root, Ascending (itemLt comp) (layout.flat root)

theorem WellFormed.sorted (hw : WellFormed comp order t) :
    t.contents.Pairwise (fun a b => comp a.1 b.1 = true) := by
  cases hr : t.root with
  | none => simp [contents, leaves, hr]
  | some root =>
    obtain ⟨⟨h, hshape⟩, _⟩ := hw.root root hr
    rw [contents_root hr]
    exact pairs_ascending hshape (hw.ordered root hr)

section Removal

theorem erase_eq_filter (key : K) (l : List (K × V)) :
    erase (place comp key) l = l.filter (fun e => !equivalent comp e.1 key) := by
  refine List.filter_congr (fun e _ => ?_)
  rw [Bool.eq_iff_iff, bne_iff_ne, Bool.not_eq_true', equivalent_false]
  rfl

theorem isSome_lookup (key : K) (l : List (K × V)) :
    (lookup (place comp key) l).isSome = l.any (fun e => equivalent comp e.1 key) := by
  rw [lookup, Bool.eq_iff_iff, List.find?_isSome, List.any_eq_true]
  simp only [equivalent_iff, beq_iff_eq]
  rfl

/-- A removal keeps the tree well formed and takes the key out. -/
theorem remove_wellFormed (hc : StrictWeak comp) (ho : 2 ≤ order) (hw : WellFormed comp order t)
    (key : K) :
    ∃ l t' found, t.inorder = some l ∧ t.remove comp order key = some (t', found) ∧
      WellFormed comp order t' ∧
      t'.inorder = some (l.filter (fun e => !equivalent comp e.1 key)) ∧
      found = l.any (fun e => equivalent comp e.1 key) := by
  obtain ⟨t', found, hrem, hf', hat⟩ := remove_items comp ho hw.toFramed key
  obtain ⟨hasc, hcontents, _, hfound⟩ := hat hc hw.ordered
  refine ⟨t.contents, t', found, inorder_eq hw.toFramed, hrem, ⟨hf', hasc⟩, ?_, ?_⟩
  · rw [inorder_eq hf', hcontents, erase_eq_filter]
  · rw [hfound, isSome_lookup]

end Removal

section Scan

theorem scanLeaf_eq (stop : K) (entries : List (K × V)) :
    scanLeaf comp stop entries =
      (entries.takeWhile (fun e => comp e.1 stop), entries.any (fun e => !comp e.1 stop)) := by
  induction entries with
  | nil => rfl
  | cons e entries ih =>
    rw [scanLeaf, ih]
    cases he : comp e.1 stop <;> simp [he]

/-- The walk from a leaf collects the pairs from an index on, up to the first key that is not below
`stop`. -/
theorem scanLeaves_eq {leaves P S : List (Leaf K V)} {leaf : Leaf K V}
    {prev next : Nat → Option Nat} {p : Option Nat} (hd : (leaves.map Leaf.addr).Nodup)
    (hsplit : leaves = P ++ leaf :: S)
    (hl : Chain.Linked prev next p ((leaf :: S).map Leaf.addr) none) (stop : K) {fuel : Nat}
    (hf : S.length < fuel) (pos : Nat) :
    scanLeaves comp leaves next stop fuel (some leaf.addr) pos =
      some ((leaf.entries.drop pos ++ S.flatMap Leaf.entries).takeWhile
        (fun e => comp e.1 stop)) := by
  induction S generalizing P leaf p fuel pos with
  | nil =>
    obtain ⟨fuel, rfl⟩ : ∃ n, fuel = n + 1 := ⟨fuel - 1, by omega⟩
    obtain ⟨_, hnext, _⟩ := hl
    have hfind := find_addr hd (show leaf ∈ leaves by simp [hsplit])
    have hover : scanLeaves comp leaves next stop fuel none 0 = some [] := by cases fuel <;> rfl
    simp only [scanLeaves, hfind, Option.bind_eq_bind, Option.bind_some, scanLeaf_eq, hnext]
    simp [hover]
  | cons l S ih =>
    obtain ⟨fuel, rfl⟩ : ∃ n, fuel = n + 1 := ⟨fuel - 1, by omega⟩
    obtain ⟨_, hnext, hrest⟩ := hl
    have hfind := find_addr hd (show leaf ∈ leaves by simp [hsplit])
    have hwalk := ih (show leaves = (P ++ [leaf]) ++ l :: S by simp [hsplit]) hrest
      (Nat.lt_of_succ_lt_succ hf) 0
    rw [List.drop_zero, ← List.flatMap_cons] at hwalk
    simp only [scanLeaves, hfind, Option.bind_eq_bind, Option.bind_some, scanLeaf_eq, hnext,
      List.map_cons, List.head?_cons, Option.some_or, hwalk]
    by_cases hover : (leaf.entries.drop pos).any (fun e => !comp e.1 stop) = true
    · rw [if_pos hover, List.takeWhile_append, if_neg]
      · rfl
      · intro hlen
        have hself := (List.takeWhile_prefix _).eq_of_length hlen
        obtain ⟨e, he, hpast⟩ := List.any_eq_true.mp hover
        simp [List.takeWhile_eq_self_iff.mp hself e he] at hpast
    · have hall : ∀ e ∈ leaf.entries.drop pos, comp e.1 stop = true := by
        simpa using hover
      rw [if_neg hover, List.takeWhile_append_of_pos hall, List.takeWhile_eq_self_iff.mpr hall]
      rfl

theorem drop_findKey (entries : List (K × V)) (key : K) :
    entries.drop (findKey comp entries key) = entries.dropWhile (fun e => comp e.1 key) := by
  have hparts := List.takeWhile_append_dropWhile (p := fun e => comp e.1 key) (l := entries)
  have hdrop := congrArg (List.drop (findKey comp entries key)) hparts
  rw [findKey, List.drop_left] at hdrop
  exact hdrop.symm

/-- A range scan finds the pairs of the tree with keys in the range, in order. -/
theorem rangeScan_wellFormed (hc : StrictWeak comp) (hw : WellFormed comp order t)
    (start stop : K) :
    ∃ l, t.inorder = some l ∧ l.Pairwise (fun a b => comp a.1 b.1 = true) ∧
      t.rangeScan comp start stop =
        some (l.filter (fun e => !comp e.1 start && comp e.1 stop)) := by
  refine ⟨t.contents, inorder_eq hw.toFramed, hw.sorted, ?_⟩
  cases hr : t.root with
  | none => simp [rangeScan, hr, contents, leaves]
  | some root =>
    obtain ⟨⟨h, hshape⟩, _⟩ := hw.root root hr
    obtain ⟨P, leaf, S, hfind, hleaves, hat⟩ := findLeaf_leaves comp start hshape
    obtain ⟨hbefore, hafter⟩ := hat hc (hw.ordered root hr)
    have hall : t.leaves = P ++ leaf :: S := by rw [leaves, hr, ← hleaves]
    have hsorted := hw.sorted
    have hcontents : t.contents = P.flatMap Leaf.entries ++
        (leaf.entries ++ S.flatMap Leaf.entries) := by
      rw [contents, hall, List.flatMap_append, List.flatMap_cons]
    -- what is not below `start` begins in the leaf it is routed to
    have hfrom : t.contents.filter (fun e => !comp e.1 start) =
        leaf.entries.drop (findKey comp leaf.entries start) ++ S.flatMap Leaf.entries := by
      have hleaf : leaf.entries.drop (findKey comp leaf.entries start) =
          leaf.entries.filter (fun e => !comp e.1 start) := by
        rw [hcontents] at hsorted
        have hin := (List.pairwise_append.mp (List.pairwise_append.mp hsorted).2.1).1
        rw [← (while_lt Prod.fst hc start hin).2, drop_findKey]
      have hnone : (P.flatMap Leaf.entries).filter (fun e => !comp e.1 start) = [] := by
        refine List.filter_eq_nil_iff.mpr (fun e he => ?_)
        simp [cut_eq_lt.mp (hbefore e he)]
      have hevery : (S.flatMap Leaf.entries).filter (fun e => !comp e.1 start) =
          S.flatMap Leaf.entries := by
        refine List.filter_eq_self.mpr (fun e he => ?_)
        simp [hc.asymm ((cut_eq_gt hc).mp (hafter e he))]
      rw [hcontents, List.filter_append, List.filter_append, hnone, hevery, hleaf, List.nil_append]
    have hwalk : scanLeaves comp t.leaves t.store.next stop t.leaves.length (some leaf.addr)
        (findKey comp leaf.entries start) = some ((t.contents.filter
          (fun e => !comp e.1 start)).takeWhile (fun e => comp e.1 stop)) := by
      obtain ⟨hd, _, hlinked⟩ := hw.listed
      rw [hall, List.map_append, Chain.linked_append] at hlinked
      rw [hfrom]
      refine scanLeaves_eq hd hall hlinked.2 stop ?_ _
      rw [hall, List.length_append, List.length_cons]
      omega
    have hrange := (while_lt Prod.fst hc stop (hsorted.filter (fun e => !comp e.1 start))).1
    simp only [rangeScan, hr, hshape.depth, hfind, Option.bind_eq_bind, Option.bind_some, hwalk,
      hrange, List.filter_filter, Bool.and_comm]

end Scan

section Grown

/-- Seven keys in three leaves below a root. -/
def grown : List (Op Int Int) :=
  [.insert 1 10, .insert 2 20, .insert 3 30, .insert 4 40, .insert 5 50, .insert 6 60, .insert 7 70]

theorem run_wellFormed (hc : StrictWeak comp) (ho : 2 ≤ order) (hfit : 2 * order < 2 ^ 31)
    (ops : List (Op K V)) (hops : harmlessRun comp order empty ops = true) :
    ∃ t, run comp order empty ops = some t ∧ WellFormed comp order t := by
  obtain ⟨t, hrun, hf, hs, _⟩ :=
    run_spec hc ho hfit (framed_empty order) (sound_empty comp) ops hops
  exact ⟨t, hrun, hf, hs.ascending⟩

theorem grown_wellFormed :
    ∃ t, run BTree.less 2 empty grown = some t ∧ WellFormed BTree.less 2 t :=
  run_wellFormed BTree.less_strictWeak (by decide) (by decide) grown (by decide +kernel)

theorem remove_wellFormed_grown : ∃ t, run BTree.less 2 empty grown = some t ∧
    ∃ l t' found, t.inorder = some l ∧ t.remove BTree.less 2 4 = some (t', found) ∧
      WellFormed BTree.less 2 t' ∧
      t'.inorder = some (l.filter (fun e => !equivalent BTree.less e.1 4)) ∧
      found = l.any (fun e => equivalent BTree.less e.1 4) := by
  obtain ⟨t, hrun, hw⟩ := grown_wellFormed
  exact ⟨t, hrun, remove_wellFormed BTree.less_strictWeak (by decide) hw 4⟩

theorem rangeScan_wellFormed_grown : ∃ t, run BTree.less 2 empty grown = some t ∧
    ∃ l, t.inorder = some l ∧ l.Pairwise (fun a b => BTree.less a.1 b.1 = true) ∧
      t.rangeScan BTree.less 2 6 =
        some (l.filter (fun e => !BTree.less e.1 2 && BTree.less e.1 6)) := by
  obtain ⟨t, hrun, hw⟩ := grown_wellFormed
  exact ⟨t, hrun, rangeScan_wellFormed BTree.less_strictWeak hw 2 6⟩

end Grown

end Cppforge.Multiway.BPlusTree
