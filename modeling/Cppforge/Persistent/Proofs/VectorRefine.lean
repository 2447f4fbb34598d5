import Cppforge.Persistent.PersistentVector
import Cppforge.Lib.Splice
import Mathlib.Algebra.Group.Nat.Defs

namespace Cppforge.Persistent.PersistentVector

variable {T : Type} {d i idx : Nat} {node root leaf : Node T} {xs ys : List T} {x : T}

section Shelf

theorem branchSize_eq : branchSize = 32 := rfl

/-- The slots of a node whose children stand side by side, each with what it holds. -/
def shelf (ks : List (Node T × List T)) : List (Option (Node T)) :=
  slots (ks.map fun k => some k.1)

variable {A B ks : List (Node T × List T)} {k : Node T × List T}

theorem shelf_get : (shelf (A ++ k :: B))[A.length]? = some (some k.1) := by
  rw [shelf, slots, List.getElem?_append_left (by simp), List.getElem?_map, Splice.getElem?_mid rfl]
  rfl

theorem shelf_null (hlt : ks.length < 32) : (shelf ks)[ks.length]? = some none := by
  rw [shelf, slots, List.getElem?_append_right (by simp), List.getElem?_replicate]
  exact if_pos (by simp only [List.length_map, branchSize_eq]; omega)

/-- Copying children copies their slots. -/
theorem shelf_copy (hi : i ≤ ks.length) : slots ((shelf ks).take i) = shelf (ks.take i) := by
  rw [shelf, shelf, slots.eq_def (ks.map _), List.take_append_of_le_length (by simpa using hi),
    List.map_take]

theorem shelf_set (c : Node T) (ys : List T) :
    (shelf (A ++ k :: B)).set A.length (some c) = shelf (A ++ (c, ys) :: B) := by
  rw [shelf, slots, List.set_append_left _ _ (by simp), List.map_append, List.map_cons,
    Splice.set_mid (by simp), shelf, slots, List.map_append, List.map_cons]
  simp

/-- The first free slot is filled. -/
theorem shelf_next (hlt : ks.length < 32) (c : Node T) (ys : List T) :
    (shelf ks).set ks.length (some c) = shelf (ks ++ [(c, ys)]) := by
  have hfree : branchSize - ks.length = branchSize - (ks.length + 1) + 1 := by
    simp only [branchSize_eq]
    omega
  rw [shelf, slots, List.set_append_right _ _ (by simp), List.length_map, Nat.sub_self, hfree,
    List.replicate_succ, List.set_cons_zero]
  simp [shelf, slots]

end Shelf

section Digits

/-- The child at a level is a digit to the base 32. -/
theorem childIndex_eq (idx d : Nat) : childIndex idx (5 * d) = idx / 32 ^ d % 32 := by
  rw [childIndex, show branchMask = 2 ^ 5 - 1 from rfl, Nat.and_two_pow_sub_one_eq_mod,
    Nat.shiftRight_eq_div_pow, Nat.pow_mul]

theorem and_mask (idx : Nat) : idx &&& branchMask = idx % 32 := by
  rw [show branchMask = 2 ^ 5 - 1 from rfl, Nat.and_two_pow_sub_one_eq_mod]

/-- The digit of what is left below a higher level. -/
theorem digit_eq (idx d : Nat) : idx / 32 ^ d % 32 = idx % 32 ^ (d + 1) / 32 ^ d := by
  rw [Nat.pow_succ, Nat.mod_mul_right_div_self]

theorem mod_mod_lower (idx d : Nat) : idx % 32 ^ (d + 1) % 32 ^ d = idx % 32 ^ d :=
  Nat.mod_mod_of_dvd idx (Nat.pow_dvd_pow 32 (Nat.le_succ d))

theorem level_sub (d : Nat) : 5 * (d + 1) - branchBits = 5 * d := by
  simp only [branchBits]
  omega

end Digits

section Packed

/-- A tree of the given depth that holds a sequence: its leaves are full and its children stand
side by side from the first slot on, all of them full but the last. -/
def Packed : Nat → Node T → List T → Prop
  | 0, node, xs => node = .leaf xs ∧ xs.length = 32
  | d + 1, node, xs => ∃ ks : List (Node T × List T),
      node = .internal ks.length (shelf ks) ∧ ks.length ≤ 32 ∧
      (∀ k ∈ ks, Packed d k.1 k.2) ∧ Blocks.Cut (32 ^ (d + 1)) Prod.snd ks ∧
      xs = ks.flatMap Prod.snd

theorem Packed.length_le (hp : Packed d node xs) : xs.length ≤ 32 ^ (d + 1) := by
  cases d with
  | zero => exact Nat.le_of_eq hp.2
  | succ d =>
    obtain ⟨ks, _, hle, _, hcut, rfl⟩ := hp
    calc (ks.flatMap Prod.snd).length ≤ ks.length * 32 ^ (d + 1) := hcut.length_le
      _ ≤ 32 * 32 ^ (d + 1) := Nat.mul_le_mul_right _ hle
      _ = 32 ^ (d + 2) := by rw [Nat.pow_succ _ (d + 1), Nat.mul_comm]

theorem Packed.length_pos (hp : Packed d node xs) : 0 < xs.length := by
  cases d with
  | zero => rw [hp.2]; omega
  | succ d =>
    obtain ⟨ks, _, _, _, hcut, rfl⟩ := hp
    exact hcut.length_pos

/-- Leaves hold 32 elements each. -/
theorem Packed.dvd_length (hp : Packed d node xs) : 32 ∣ xs.length := by
  induction d generalizing node xs with
  | zero => exact hp.2 ▸ Nat.dvd_refl 32
  | succ d ih =>
    obtain ⟨ks, _, _, hkids, ⟨init, last, rfl, hfull, _, _⟩, rfl⟩ := hp
    rw [Blocks.length_snoc hfull]
    have hblock : 32 ∣ 32 ^ (d + 1) := Nat.dvd_mul_left 32 (32 ^ d)
    exact Nat.dvd_add (Nat.dvd_mul_left_of_dvd hblock _) (ih (hkids last (by simp)))

/-- Where an index leads in a tree. -/
theorem Packed.child (hp : Packed (d + 1) node xs) (hi : idx % 32 ^ (d + 2) < xs.length) :
    ∃ (A B : List (Node T × List T)) (k : Node T × List T),
      node = .internal (A ++ k :: B).length (shelf (A ++ k :: B)) ∧
      (A ++ k :: B).length ≤ 32 ∧ (∀ j ∈ A ++ k :: B, Packed d j.1 j.2) ∧
      Blocks.Cut (32 ^ (d + 1)) Prod.snd (A ++ k :: B) ∧
      xs = (A ++ k :: B).flatMap Prod.snd ∧ childIndex idx (5 * (d + 1)) = A.length ∧
      (A.flatMap Prod.snd).length + idx % 32 ^ (d + 1) = idx % 32 ^ (d + 2) ∧
      idx % 32 ^ (d + 1) < k.2.length := by
  obtain ⟨ks, hnode, hle, hkids, hcut, rfl⟩ := hp
  obtain ⟨A, k, B, rfl, hA, hAlen, hlt⟩ := hcut.locate hi
  rw [mod_mod_lower] at hlt
  refine ⟨A, B, k, hnode, hle, hkids, hcut, rfl, ?_, ?_, hlt⟩
  · rw [childIndex_eq, digit_eq, hA]
  · rw [hAlen, ← mod_mod_lower idx (d + 1), Nat.div_add_mod']

end Packed

section Reading

/-- `doGet` finds the element that the digits of the index name. -/
theorem doGet_spec (hp : Packed d node xs) (hi : idx % 32 ^ (d + 1) < xs.length) :
    doGet node (5 * d) idx = xs[idx % 32 ^ (d + 1)]? := by
  induction d generalizing node xs with
  | zero =>
    obtain ⟨rfl, _⟩ := hp
    rw [Nat.zero_add, Nat.pow_one, doGet, if_neg (by omega)]
    simp only [and_mask]
  | succ d ih =>
    obtain ⟨A, B, k, rfl, _, hkids, _, rfl, hidx, hoff, hlt⟩ := hp.child hi
    rw [doGet, if_pos (by omega)]
    simp only [hidx, shelf_get, level_sub]
    rw [ih (hkids k (by simp)) hlt, ← hoff, Blocks.getElem?_block rfl hlt]

end Reading

section Changes

theorem doUpdate_child {count level : Nat} {children : List (Option (Node T))} {child : Node T}
    (hlt : childIndex idx level < count)
    (hslot : children[childIndex idx level]? = some (some child)) (x : T) :
    doUpdate (.internal count children) level idx x =
      (doUpdate child (level - branchBits) idx x).map fun c =>
        .internal count ((slots (children.take count)).set (childIndex idx level) (some c)) := by
  rw [doUpdate]
  simp only [if_pos hlt]
  split
  · rename_i c hc
    obtain rfl : c = child := by simpa [hslot] using hc.symm
    cases doUpdate c (level - branchBits) idx x <;> rfl
  · rename_i hno
    exact absurd hslot (hno child)

theorem doUpdate_spec (hp : Packed d node xs) (hi : idx % 32 ^ (d + 1) < xs.length) (x : T) :
    ∃ node', doUpdate node (5 * d) idx x = some node' ∧
      Packed d node' (xs.set (idx % 32 ^ (d + 1)) x) := by
  induction d generalizing node xs with
  | zero =>
    obtain ⟨rfl, hlen⟩ := hp
    refine ⟨_, by rw [doUpdate, and_mask], ?_⟩
    rw [Nat.zero_add, Nat.pow_one]
    exact ⟨rfl, by rw [List.length_set, hlen]⟩
  | succ d ih =>
    obtain ⟨A, B, k, rfl, hle, hkids, hcut, rfl, hidx, hoff, hlt⟩ := hp.child hi
    obtain ⟨child, hchild, hpacked⟩ := ih (hkids k (by simp)) hlt
    rw [doUpdate_child (by rw [hidx]; simp) (by rw [hidx, shelf_get]), level_sub, hchild, hidx,
      shelf_copy (Nat.le_refl _), List.take_length]
    refine ⟨_, rfl, A ++ (child, k.2.set (idx % 32 ^ (d + 1)) x) :: B, ?_, by simpa using hle, ?_,
      hcut.replace (by simp), ?_⟩
    · simp only [shelf_set child (k.2.set (idx % 32 ^ (d + 1)) x)]
      simp
    · intro j hj
      simp only [List.mem_append, List.mem_cons] at hj
      obtain hj | rfl | hj := hj
      · exact hkids j (by simp [hj])
      · exact hpacked
      · exact hkids j (by simp [hj])
    · rw [← hoff]
      exact Blocks.set_block rfl hlt rfl

/-- A path to a leaf whose digits are all zero. -/
theorem newPath_spec (hlen : ys.length = 32) (hidx : idx % 32 ^ (d + 1) = 0) :
    Packed d (newPath (.leaf ys) (5 * d) idx) ys := by
  induction d with
  | zero =>
    rw [newPath, if_pos (by omega)]
    exact ⟨rfl, hlen⟩
  | succ d ih =>
    have hlow : idx % 32 ^ (d + 1) = 0 := by rw [← mod_mod_lower, hidx, Nat.zero_mod]
    have hchild : childIndex idx (5 * (d + 1)) = 0 := by
      rw [childIndex_eq, digit_eq, hidx, Nat.zero_div]
    rw [newPath, if_neg (by omega), level_sub, hchild]
    refine ⟨[(newPath (.leaf ys) (5 * d) idx, ys)], ?_, by simp, ?_, ?_, by simp⟩
    · exact congrArg (Node.internal 1) (shelf_next (show List.length [] < 32 by simp) _ ys)
    · intro j hj
      obtain rfl := List.mem_singleton.mp hj
      exact ih hlow
    · have hle : ys.length ≤ 32 ^ (d + 1) := (ih hlow).length_le
      exact ⟨[], _, rfl, by simp, by simp only [hlen]; omega, hle⟩

/-- A full tree under a new root. -/
theorem packed_elevate (hp : Packed d root xs) (hfull : xs.length = 32 ^ (d + 1)) :
    Packed (d + 1) (.internal 1 (slots [some root])) xs := by
  refine ⟨[(root, xs)], rfl, by simp, ?_, ?_, by simp⟩
  · intro j hj
    obtain rfl := List.mem_singleton.mp hj
    exact hp
  · exact ⟨[], (root, xs), rfl, by simp, hp.length_pos, Nat.le_of_eq hfull⟩

/-- The children of a node and one more, or with a longer last one. -/
theorem packed_snoc {init : List (Node T × List T)} {k : Node T × List T}
    (hle : init.length < 32) (hkids : ∀ j ∈ init, Packed d j.1 j.2)
    (hfull : ∀ j ∈ init, j.2.length = 32 ^ (d + 1)) (hk : Packed d k.1 k.2) :
    Packed (d + 1) (.internal (init.length + 1) (shelf (init ++ [k])))
      (init.flatMap Prod.snd ++ k.2) := by
  refine ⟨init ++ [k], by simp, by simp; omega, ?_, ?_, by simp⟩
  · intro j hj
    rcases List.mem_append.mp hj with hj | hj
    · exact hkids j hj
    · obtain rfl := List.mem_singleton.mp hj
      exact hk
  · exact ⟨init, k, rfl, hfull, hk.length_pos, hk.length_le⟩

/-- Full children alone. -/
theorem packed_front {init : List (Node T × List T)} (hkids : ∀ j ∈ init, Packed d j.1 j.2)
    (hfull : ∀ j ∈ init, j.2.length = 32 ^ (d + 1)) (hne : init.length ≠ 0)
    (hle : init.length ≤ 32) :
    Packed (d + 1) (.internal init.length (shelf init)) (init.flatMap Prod.snd) := by
  rcases List.eq_nil_or_concat init with rfl | ⟨front, k, rfl⟩
  · simp at hne
  · simp only [List.concat_eq_append] at hkids hfull hle ⊢
    have hk := hkids k (by simp)
    exact ⟨front ++ [k], rfl, hle, hkids, ⟨front, k, rfl, fun j hj => hfull j (by simp [hj]),
      hk.length_pos, hk.length_le⟩, rfl⟩

theorem pushLeaf_null {count : Nat} {children : List (Option (Node T))}
    (hidx : childIndex idx (5 * (d + 1)) = count) (hslot : children[count]? = some none) :
    pushLeaf (.internal count children) (5 * (d + 1)) leaf idx =
      some (.internal (count + 1)
        ((slots (children.take count)).set count (some (newPath leaf (5 * d) idx)))) := by
  rw [pushLeaf]
  simp only [hidx, ge_iff_le, Nat.le_refl, if_true, level_sub]
  split
  · rename_i hshift
    have hd : d = 0 := by
      simp only [branchBits] at hshift
      omega
    rw [hd, newPath, if_pos rfl]
  · split
    · rename_i hno
      rw [hidx, hslot] at hno
      cases hno
    · rename_i c hc
      rw [hidx, hslot] at hc
      cases hc
    · rfl

theorem pushLeaf_child {count : Nat} {children : List (Option (Node T))} {child : Node T}
    (hlt : childIndex idx (5 * (d + 2)) < count)
    (hslot : children[childIndex idx (5 * (d + 2))]? = some (some child)) :
    pushLeaf (.internal count children) (5 * (d + 2)) leaf idx =
      (pushLeaf child (5 * (d + 1)) leaf idx).map fun c => .internal count
        ((slots (children.take count)).set (childIndex idx (5 * (d + 2))) (some c)) := by
  rw [pushLeaf]
  simp only [ge_iff_le, if_neg (Nat.not_le.mpr hlt), level_sub]
  rw [if_neg (by simp only [branchBits]; omega)]
  split
  · rename_i hno
    simp [hslot] at hno
  · rename_i c hc
    obtain rfl : c = child := by simpa [hslot] using hc.symm
    cases pushLeaf c (5 * (d + 1)) leaf idx <;> rfl
  · rename_i hno
    simp [hslot] at hno

/-- Where the next leaf goes: to the first free slot if the last child is full, else into that
child. -/
theorem next_digit {b n l : Nat} (hpos : 0 < l) :
    (l = b → (n * b + l) / b = n + 1 ∧ (n * b + l) % b = 0) ∧
      (l < b → (n * b + l) / b = n ∧ (n * b + l) % b = l) := by
  constructor
  · intro heq
    have hsum : n * b + l = (n + 1) * b := by rw [heq, Nat.succ_mul]
    rw [hsum]
    exact ⟨Nat.mul_div_cancel _ (by omega), Nat.mul_mod_left _ _⟩
  · intro hlt
    rw [Nat.add_comm, Nat.add_mul_div_right _ _ (by omega), Nat.add_mul_mod_self_right,
      Nat.div_eq_of_lt hlt, Nat.mod_eq_of_lt hlt]
    exact ⟨Nat.zero_add n, rfl⟩

theorem pushLeaf_next {init : List (Node T × List T)} {last : Node T × List T}
    (hkids : ∀ k ∈ init ++ [last], Packed d k.1 k.2)
    (hfull : ∀ k ∈ init, k.2.length = 32 ^ (d + 1)) (hlast : last.2.length = 32 ^ (d + 1))
    (hlen : ys.length = 32)
    (hidx : idx % 32 ^ (d + 2) = ((init ++ [last]).flatMap Prod.snd).length) :
    ∃ root', pushLeaf (.internal (init ++ [last]).length (shelf (init ++ [last]))) (5 * (d + 1))
        (.leaf ys) idx = some root' ∧
      Packed (d + 1) root' ((init ++ [last]).flatMap Prod.snd ++ ys) := by
  have hpos := (hkids last (by simp)).length_pos
  have hdigit := (next_digit (n := init.length) hpos).1 hlast
  rw [Blocks.length_snoc hfull] at hidx
  have hcount : (init ++ [last]).length = init.length + 1 := by simp
  have hchild : childIndex idx (5 * (d + 1)) = (init ++ [last]).length := by
    rw [childIndex_eq, digit_eq, hidx, hdigit.1, hcount]
  have hroom : (init ++ [last]).length < 32 := by
    rw [← hchild, childIndex_eq]
    exact Nat.mod_lt _ (by omega)
  have hlow : idx % 32 ^ (d + 1) = 0 := by rw [← mod_mod_lower, hidx, hdigit.2]
  rw [pushLeaf_null hchild (shelf_null hroom), shelf_copy (Nat.le_refl _), List.take_length,
    shelf_next hroom _ ys]
  refine ⟨_, rfl, packed_snoc (k := (_, ys)) hroom hkids ?_ (newPath_spec hlen hlow)⟩
  intro k hk
  rcases List.mem_append.mp hk with hk | hk
  · exact hfull k hk
  · obtain rfl := List.mem_singleton.mp hk
    exact hlast

theorem pushLeaf_spec (hp : Packed (d + 1) root xs) (hlen : ys.length = 32)
    (hidx : idx % 32 ^ (d + 2) = xs.length) :
    ∃ root', pushLeaf root (5 * (d + 1)) (.leaf ys) idx = some root' ∧
      Packed (d + 1) root' (xs ++ ys) := by
  induction d generalizing root xs with
  | zero =>
    obtain ⟨ks, rfl, _, hkids, ⟨init, last, rfl, hfull, hpos, hle⟩, rfl⟩ := hp
    have hlast : last.2.length = 32 ^ 1 := (hkids last (by simp)).2
    exact pushLeaf_next hkids hfull hlast hlen hidx
  | succ d ih =>
    obtain ⟨ks, rfl, hcount, hkids, ⟨init, last, rfl, hfull, hpos, hle⟩, rfl⟩ := hp
    by_cases hlast : last.2.length = 32 ^ (d + 2)
    · exact pushLeaf_next hkids hfull hlast hlen hidx
    · have hdigit := (next_digit (n := init.length) hpos).2 (Nat.lt_of_le_of_ne hle hlast)
      rw [Blocks.length_snoc hfull] at hidx
      have hchild : childIndex idx (5 * (d + 2)) = init.length := by
        rw [childIndex_eq, digit_eq, hidx, hdigit.1]
      have hlow : idx % 32 ^ (d + 2) = last.2.length := by
        rw [← mod_mod_lower, hidx, hdigit.2]
      obtain ⟨child, hrun, hpacked⟩ := ih (hkids last (by simp)) hlow
      rw [pushLeaf_child (by rw [hchild]; simp) (by rw [hchild, shelf_get]), hrun, hchild,
        shelf_copy (Nat.le_refl _), List.take_length]
      refine ⟨_, rfl, ?_⟩
      simp only [shelf_set child (last.2 ++ ys), List.length_append, List.length_singleton,
        List.flatMap_append, List.flatMap_singleton, List.append_assoc]
      refine packed_snoc (k := (child, last.2 ++ ys)) ?_ ?_ hfull hpacked
      · simp only [List.length_append, List.length_singleton] at hcount
        omega
      · intro j hj
        exact hkids j (by simp [hj])

theorem doPopBack_child {count : Nat} {children : List (Option (Node T))} {child : Node T}
    (hslot : children[count - 1]? = some (some child)) :
    doPopBack (.internal count children) = (doPopBack child).map fun r =>
      match r with
      | (none, popped) =>
        if count - 1 = 0 then (none, popped)
        else (some (.internal (count - 1) (slots (children.take (count - 1)))), popped)
      | (some c, popped) =>
        (some (.internal count ((slots (children.take count)).set (count - 1) (some c))),
          popped) := by
  rw [doPopBack]
  split
  · rename_i c hc
    obtain rfl : c = child := by simpa [hslot] using hc.symm
    rcases doPopBack c with _ | ⟨_ | c', popped⟩
    · rfl
    · simp only [Option.bind_eq_bind, Option.bind_some, Option.map_some]
      split <;> rfl
    · rfl
  · rename_i hno
    exact absurd hslot (hno child)

/-- The last leaf comes off. -/
theorem doPopBack_spec (hp : Packed d node xs) :
    ∃ rest popped, doPopBack node = some (rest, popped) ∧ popped.length = 32 ∧
      ((rest = none ∧ xs = popped) ∨
        ∃ node' ys, rest = some node' ∧ Packed d node' ys ∧ xs = ys ++ popped) := by
  induction d generalizing node xs with
  | zero =>
    obtain ⟨rfl, hlen⟩ := hp
    exact ⟨none, xs, by rw [doPopBack], hlen, .inl ⟨rfl, rfl⟩⟩
  | succ d ih =>
    obtain ⟨ks, rfl, hcount, hkids, ⟨init, last, rfl, hfull, hpos, hle⟩, rfl⟩ := hp
    have hlen : (init ++ [last]).length - 1 = init.length := by simp
    have hinit : ∀ j ∈ init, Packed d j.1 j.2 := fun j hj => hkids j (by simp [hj])
    obtain ⟨rest, popped, hrun, hpopped, hrest⟩ := ih (hkids last (by simp))
    rw [doPopBack_child (by rw [hlen, shelf_get]), hrun, hlen]
    obtain ⟨rfl, hlast⟩ | ⟨node', ys, rfl, hpacked, hlast⟩ := hrest
    · by_cases hnil : init.length = 0
      · obtain rfl := List.length_eq_zero_iff.mp hnil
        exact ⟨none, popped, rfl, hpopped, .inl ⟨rfl, by simpa using hlast⟩⟩
      · refine ⟨some (.internal init.length (shelf init)), popped, ?_, hpopped,
          .inr ⟨_, init.flatMap Prod.snd, rfl, packed_front hinit hfull hnil ?_, by simp [hlast]⟩⟩
        · simp only [Option.map_some, if_neg hnil]
          rw [shelf_copy (by simp), List.take_left]
        · simp only [List.length_append, List.length_singleton] at hcount
          omega
    · refine ⟨some (.internal (init.length + 1) (shelf (init ++ [(node', ys)]))), popped, ?_,
        hpopped, .inr ⟨_, init.flatMap Prod.snd ++ ys, rfl, ?_, by simp [hlast]⟩⟩
      · simp only [Option.map_some]
        rw [shelf_copy (Nat.le_refl _), List.take_length, shelf_set node' ys]
        simp
      · simp only [List.length_append, List.length_singleton] at hcount
        exact packed_snoc (k := (node', ys)) (by omega) hinit hfull hpacked

end Changes

end Cppforge.Persistent.PersistentVector

namespace Cppforge.Persistent.PersistentVector

variable {T : Type} {d i : Nat} {node root : Node T} {v r : PersistentVector T}
  {xs ys ts us : List T} {x : T}

section Shape

@[simp] theorem lift_some {α : Type} (a : α) : (ExceptT.lift (some a) : Outcome α) = pure a := rfl

/-- A root, its shift and what the tree holds. -/
def Tree (root : Option (Node T)) (shift : Nat) (ts : List T) : Prop :=
  (root = none ∧ shift = 0 ∧ ts = []) ∨
    ∃ node d, root = some node ∧ shift = branchBits * (d + 1) ∧ Packed (d + 1) node ts

/-- The vector holds `xs`: full leaves in the tree, and the last 1 to 32 elements in the tail. -/
def Holds (v : PersistentVector T) (xs : List T) : Prop :=
  ∃ ts, xs = ts ++ v.tail ∧ Tree v.root v.shift ts ∧ v.size = xs.length ∧
    v.tail.length ≤ branchSize ∧ (xs ≠ [] → 1 ≤ v.tail.length)

theorem Tree.dvd_length {root : Option (Node T)} {shift : Nat} (ht : Tree root shift ts) :
    32 ∣ ts.length := by
  obtain ⟨_, _, rfl⟩ | ⟨node, d, _, _, hp⟩ := ht
  · exact Nat.dvd_zero 32
  · exact hp.dvd_length

theorem tailOffset_eq {n l : Nat} (hdvd : 32 ∣ n) (hpos : 1 ≤ l) (hle : l ≤ branchSize) :
    tailOffset (n + l) = n := by
  obtain ⟨q, rfl⟩ := hdvd
  simp only [tailOffset, branchSize_eq] at hle ⊢
  rw [if_neg (by omega)]
  omega

theorem empty_holds : Holds (empty : PersistentVector T) [] :=
  ⟨[], rfl, .inl ⟨rfl, rfl, rfl⟩, rfl, Nat.zero_le _, fun hne => absurd rfl hne⟩

theorem Holds.size_eq (hv : Holds v xs) : v.size = xs.length := by
  obtain ⟨_, _, _, hsize, _⟩ := hv
  exact hsize

theorem Holds.tail_pos (hv : Holds v xs) (hi : i < xs.length) : 1 ≤ v.tail.length := by
  obtain ⟨ts, _, _, _, _, hpos⟩ := hv
  exact hpos (List.ne_nil_of_length_pos (by omega))

/-- An index in the tail. -/
theorem tail_index {n l : Nat} (hdvd : 32 ∣ n) (hge : n ≤ i) (hlt : i < n + l)
    (hle : l ≤ branchSize) : i &&& branchMask = i - n := by
  rw [and_mask]
  rw [branchSize_eq] at hle
  omega

/-- An index in the tree. -/
theorem tree_index (hp : Packed d node ts) (hi : i < ts.length) : i % 32 ^ (d + 1) = i :=
  Nat.mod_eq_of_lt (Nat.lt_of_lt_of_le hi hp.length_le)

end Shape

section Reading

/-- What `get` gives for a list. -/
def getList (xs : List T) (i : Nat) : Except String T :=
  match xs[i]? with
  | some x => .ok x
  | none => .error "PersistentVector::get: index out of range"

theorem get_spec (hv : Holds v xs) (i : Nat) : v.get i = some (getList xs i) := by
  rw [get, hv.size_eq]
  by_cases hi : i < xs.length
  · have htail := hv.tail_pos hi
    obtain ⟨ts, rfl, ht, _, hle, _⟩ := hv
    have hdvd := ht.dvd_length
    rw [if_neg (by omega), List.length_append, tailOffset_eq hdvd htail hle]
    rw [List.length_append] at hi
    by_cases hin : i < ts.length
    · obtain ⟨_, _, rfl⟩ | ⟨node, d, hroot, hshift, hp⟩ := ht
      · simp at hin
      · have hmod := tree_index hp hin
        have hget : doGet node (5 * (d + 1)) i = ts[i]? := by
          have := doGet_spec hp (by rw [hmod]; exact hin)
          rwa [hmod] at this
        rw [if_neg (by omega), hroot, hshift, getList, List.getElem?_append_left hin]
        simp only [Option.bind_some, branchBits, hget, List.getElem?_eq_getElem hin]
        rfl
    · rw [if_pos (by omega), tail_index hdvd (by omega) hi hle, getList,
        List.getElem?_append_right (by omega), List.getElem?_eq_getElem (by omega)]
      rfl
  · rw [if_pos (by omega), getList, List.getElem?_eq_none (by omega)]
    rfl

end Reading

section Growth

theorem level_full (n k : Nat) : n >>> (5 * k) ≥ branchSize ↔ 32 ^ (k + 1) ≤ n := by
  have hpos : 0 < 32 ^ k := Nat.pow_pos (by omega)
  rw [Nat.shiftRight_eq_div_pow, Nat.pow_mul, show 2 ^ 5 = 32 from rfl, branchSize_eq, ge_iff_le,
    Nat.le_div_iff_mul_le hpos, Nat.pow_succ, Nat.mul_comm]

/-- A level is added when the tree is full. -/
theorem elevate_spec (hp : Packed (d + 1) root ts) :
    ∃ root' d', elevate ts.length root (5 * (d + 1)) = (root', 5 * (d' + 1)) ∧
      Packed (d' + 1) root' ts ∧ ts.length < 32 ^ (d' + 2) := by
  have hle := hp.length_le
  by_cases hfull : ts.length = 32 ^ (d + 2)
  · have hmore : ts.length < 32 ^ (d + 3) := by
      rw [hfull]
      exact Nat.pow_lt_pow_right (by omega) (Nat.lt_succ_self _)
    refine ⟨_, d + 1, ?_, packed_elevate hp hfull, hmore⟩
    rw [elevate, if_pos ((level_full _ _).mpr (Nat.le_of_eq hfull.symm)), elevate, if_neg]
    · rfl
    · intro hstill
      exact Nat.not_le.mpr hmore ((level_full _ (d + 2)).mp hstill)
  · have hlt := Nat.lt_of_le_of_ne hle hfull
    refine ⟨root, d, ?_, hp, hlt⟩
    rw [elevate, if_neg]
    intro hstill
    exact Nat.not_le.mpr hlt ((level_full _ (d + 1)).mp hstill)

theorem pushBack_spec (hv : Holds v xs) (x : T) :
    ∃ w, v.pushBack x = some w ∧ Holds w (xs ++ [x]) := by
  obtain ⟨ts, rfl, ht, hsize, hle, hpos⟩ := hv
  rw [pushBack]
  split
  · rename_i hroom
    refine ⟨_, rfl, ts, by simp, ht, ?_, ?_, ?_⟩
    · simp [hsize, Nat.add_assoc]
    · simpa [Nat.succ_le_iff] using hroom
    · simp
  · rename_i hfull
    have hlen : v.tail.length = 32 := by
      rw [branchSize_eq] at hfull hle
      omega
    have htake : v.tail.take branchSize = v.tail := List.take_of_length_le hle
    have hoff : tailOffset v.size = ts.length := by
      rw [hsize, List.length_append]
      exact tailOffset_eq ht.dvd_length (by omega) hle
    simp only [htake, hoff]
    obtain ⟨hroot, _, rfl⟩ | ⟨node, d, hroot, hshift, hp⟩ := ht
    · rw [hroot]
      refine ⟨_, rfl, v.tail, rfl, .inr ⟨_, 0, rfl, rfl, ?_⟩, ?_, ?_, ?_⟩
      · exact newPath_spec hlen (by simp)
      · simp [hsize]
      · simp [branchSize_eq]
      · simp
    · obtain ⟨root', d', hel, hp', hbound⟩ := elevate_spec hp
      obtain ⟨newRoot, hpush, hpacked⟩ := pushLeaf_spec hp' hlen (Nat.mod_eq_of_lt hbound)
      rw [hroot, hshift]
      simp only [branchBits, hel, hpush]
      refine ⟨_, rfl, ts ++ v.tail, rfl, .inr ⟨newRoot, d', rfl, rfl, hpacked⟩, ?_, ?_, ?_⟩
      · simp [hsize, Nat.add_assoc]
      · simp [branchSize_eq]
      · simp

end Growth

section Shrinking

theorem Packed.count_ne_zero (hp : Packed (d + 1) node xs) : Node.count node ≠ 0 := by
  obtain ⟨ks, rfl, _, _, ⟨init, last, rfl, _⟩, _⟩ := hp
  simp [Node.count]

/-- Roots with one child go, down to the level above the leaves. -/
theorem collapse_spec (hp : Packed (d + 1) node xs) :
    ∃ node' d', collapse (some node) (5 * (d + 1)) = some (some node', 5 * (d' + 1)) ∧
      Packed (d' + 1) node' xs := by
  induction d generalizing node xs with
  | zero =>
    refine ⟨node, 0, ?_, hp⟩
    obtain ⟨ks, rfl, _⟩ := hp
    rw [collapse, if_neg (by simp [branchBits])]
  | succ d ih =>
    obtain ⟨ks, rfl, hle, hkids, hcut, rfl⟩ := hp
    by_cases hone : ks.length = 1
    · obtain ⟨k, rfl⟩ := List.length_eq_one_iff.mp hone
      have hslot : (shelf [k])[0]? = some (some k.1) := rfl
      obtain ⟨node', d', hrun, hp'⟩ := ih (hkids k (by simp))
      refine ⟨node', d', ?_, by simpa using hp'⟩
      rw [collapse, if_pos ⟨hone, by simp only [branchBits]; omega⟩, hslot]
      simpa only [Option.bind_eq_bind, Option.bind_some, level_sub] using hrun
    · refine ⟨_, d + 1, ?_, ks, rfl, hle, hkids, hcut, rfl⟩
      rw [collapse, if_neg (fun h => hone h.1)]

theorem collapse_none (shift : Nat) :
    collapse (none : Option (Node T)) shift = some (none, shift) := by
  simp [collapse]

theorem popBack_spec (hv : Holds v xs) (hne : xs ≠ []) :
    ∃ w, v.popBack = some (.ok w) ∧ Holds w xs.dropLast := by
  have hsize := hv.size_eq
  have hlen := List.length_pos_iff.mpr hne
  obtain ⟨ts, rfl, ht, _, hle, hpos⟩ := hv
  have htail : v.tail ≠ [] := List.ne_nil_of_length_pos (hpos hne)
  have hdrop : (ts ++ v.tail).dropLast = ts ++ v.tail.dropLast :=
    List.dropLast_append_of_ne_nil htail
  rw [popBack, if_neg (by omega)]
  split
  · rename_i hmany
    refine ⟨_, rfl, ts, ?_, ht, ?_, ?_, ?_⟩
    · rw [hdrop, List.dropLast_eq_take]
    · simp [hsize]
    · simp only [List.length_take]
      omega
    · intro _
      simp only [List.length_take]
      omega
  · rename_i hfew
    have hone : v.tail.length = 1 := by
      have := hpos hne
      omega
    have hnil : v.tail.dropLast = [] := List.length_eq_zero_iff.mp (by simp [hone])
    rw [hdrop, hnil, List.append_nil]
    rw [List.length_append, hone] at hsize
    split
    · rename_i hlast
      obtain rfl : ts = [] := List.length_eq_zero_iff.mp (by omega)
      exact ⟨_, rfl, empty_holds⟩
    · rename_i hmore
      obtain ⟨_, _, rfl⟩ | ⟨node, d, hroot, hshift, hp⟩ := ht
      · simp at hsize
        omega
      · obtain ⟨rest, popped, hrun, hpopped, hrest⟩ := doPopBack_spec hp
        obtain ⟨rfl, rfl⟩ | ⟨node', ys, rfl, hpacked, rfl⟩ := hrest
        · refine ⟨⟨none, ts, v.size - 1, 0⟩, ?_, [], rfl, .inl ⟨rfl, rfl, rfl⟩, ?_, ?_, ?_⟩
          · simp only [hroot, Option.bind_some, hrun, lift_some, pure_bind, collapse_none]
            rfl
          · simp [hsize]
          · simp [hpopped, branchSize_eq]
          · simp [hpopped]
        · obtain ⟨node'', d', hcol, hp''⟩ := collapse_spec hpacked
          refine ⟨⟨some node'', popped, v.size - 1, 5 * (d' + 1)⟩, ?_, ys, rfl,
            .inr ⟨node'', d', rfl, rfl, hp''⟩, ?_, ?_, ?_⟩
          · simp only [hroot, hshift, branchBits, Option.bind_some, hrun, lift_some, pure_bind,
              hcol, if_neg hp''.count_ne_zero]
            rfl
          · simp [hsize]
          · simp [hpopped, branchSize_eq]
          · simp [hpopped]

end Shrinking

section Others

theorem update_spec (hv : Holds v xs) (hi : i < xs.length) (x : T) :
    ∃ w, v.update i x = some (.ok w) ∧ Holds w (xs.set i x) := by
  have hsize := hv.size_eq
  have htail := hv.tail_pos hi
  obtain ⟨ts, rfl, ht, _, hle, hpos⟩ := hv
  have hdvd := ht.dvd_length
  have hoff : tailOffset v.size = ts.length := by
    rw [hsize, List.length_append]
    exact tailOffset_eq hdvd htail hle
  rw [update, if_neg (by omega), hoff]
  rw [List.length_append] at hi
  by_cases hin : i < ts.length
  · rw [if_neg (by omega), List.set_append_left _ _ hin]
    obtain ⟨_, _, rfl⟩ | ⟨node, d, hroot, hshift, hp⟩ := ht
    · simp at hin
    · have hmod := tree_index hp hin
      obtain ⟨node', hrun, hp'⟩ := doUpdate_spec hp (by rw [hmod]; exact hin) x
      rw [hmod] at hp'
      refine ⟨{ v with root := some node' }, ?_, ts.set i x, rfl, .inr ⟨node', d, rfl, hshift, hp'⟩,
        ?_, hle, fun _ => htail⟩
      · simp only [hroot, hshift, branchBits, Option.bind_some, hrun, lift_some, pure_bind]
        rfl
      · simpa using hsize
  · rw [if_pos (by omega), tail_index hdvd (by omega) hi hle, List.set_append_right _ _ (by omega)]
    refine ⟨_, rfl, ts, rfl, ht, ?_, ?_, ?_⟩
    · simpa using hsize
    · simpa using hle
    · intro _
      simpa using htail

theorem appendFrom_spec {n : Nat} (hv : Holds v xs) (hr : Holds r ys) (hn : i + n ≤ xs.length) :
    ∃ w, v.appendFrom i r n = some (.ok w) ∧ Holds w (ys ++ (xs.drop i).take n) := by
  induction n generalizing i r ys with
  | zero => exact ⟨r, rfl, by simpa using hr⟩
  | succ n ih =>
    have hi : i < xs.length := by omega
    have hget : v.get i = pure xs[i] := by
      rw [get_spec hv, getList, List.getElem?_eq_getElem hi]
      rfl
    obtain ⟨r', hpush, hr'⟩ := pushBack_spec hr xs[i]
    obtain ⟨w, hrun, hw⟩ := ih hr' (i := i + 1) (by omega)
    refine ⟨w, ?_, ?_⟩
    · rw [appendFrom, hget]
      simp only [pure_bind, hpush, lift_some, hrun]
    · rw [List.drop_eq_getElem_cons hi, List.take_succ_cons]
      simpa using hw

theorem subVector_spec {first last : Nat} (hv : Holds v xs) (hf : first ≤ last)
    (hl : last ≤ xs.length) :
    ∃ w, v.subVector first last = some (.ok w) ∧ Holds w ((xs.drop first).take (last - first)) := by
  rw [subVector, hv.size_eq, if_neg (by omega)]
  exact appendFrom_spec hv empty_holds (by omega)

theorem concat_spec (hv : Holds v xs) (hr : Holds r ys) :
    ∃ w, v.concat r = some (.ok w) ∧ Holds w (xs ++ ys) := by
  obtain ⟨w, hrun, hw⟩ := appendFrom_spec hr hv (i := 0) (n := ys.length) (by omega)
  refine ⟨w, ?_, by simpa using hw⟩
  rw [concat, hr.size_eq, hrun]

end Others

section Expressions

/-- A vector or an exception, and the same for a list. -/
def Agrees (o : Outcome (PersistentVector T)) : Except String (List T) → Prop
  | .error msg => o = some (.error msg)
  | .ok xs => ∃ v, o = some (.ok v) ∧ Holds v xs

theorem Agrees.bind {o : Outcome (PersistentVector T)} {l : Except String (List T)}
    {f : PersistentVector T → Outcome (PersistentVector T)}
    {g : List T → Except String (List T)} (h : Agrees o l)
    (hf : ∀ v xs, Holds v xs → Agrees (f v) (g xs)) : Agrees (o >>= f) (l >>= g) := by
  cases l with
  | error msg =>
    obtain rfl : o = some (.error msg) := h
    rfl
  | ok xs =>
    obtain ⟨v, rfl, hv⟩ := h
    exact hf v xs hv

theorem eval_agrees (e : Expr T) : Agrees (eval e) (evalList e) := by
  induction e with
  | empty => exact ⟨empty, rfl, empty_holds⟩
  | pushBack e value ih =>
    refine ih.bind (fun v xs hv => ?_)
    obtain ⟨w, hrun, hw⟩ := pushBack_spec hv value
    exact ⟨w, by rw [hrun]; rfl, hw⟩
  | popBack e ih =>
    refine ih.bind (fun v xs hv => ?_)
    by_cases hne : xs = []
    · have hsize := hv.size_eq
      simp only [hne, List.isEmpty_nil, if_true]
      simp only [hne, List.length_nil] at hsize
      rw [popBack, if_pos hsize]
      rfl
    · have hempty : xs.isEmpty = false := by simpa using hne
      simp only [hempty]
      exact popBack_spec hv hne
  | update e index value ih =>
    refine ih.bind (fun v xs hv => ?_)
    by_cases hi : index < xs.length
    · rw [if_neg (by omega)]
      exact update_spec hv hi value
    · rw [if_pos (by omega), update, hv.size_eq, if_pos (by omega)]
      rfl
  | subVector e first last ih =>
    refine ih.bind (fun v xs hv => ?_)
    by_cases hr : first > last ∨ last > xs.length
    · rw [if_pos hr, subVector, hv.size_eq, if_pos hr]
      rfl
    · rw [if_neg hr]
      exact subVector_spec hv (by omega) (by omega)
  | concat e other ih ih' =>
    refine ih.bind (fun v xs hv => ih'.bind (fun r ys hr => ?_))
    exact concat_spec hv hr

/-- Every expression has the value it has on lists: the elements that `get` reads, the size, and
a tree of full leaves, all as deep as the shift says, before a tail of 1 to 32 elements. -/
theorem eval_list (e : Expr T) :
    match evalList e with
    | .error msg => eval e = some (.error msg)
    | .ok xs => ∃ v, eval e = some (.ok v) ∧ Holds v xs ∧ v.size = xs.length ∧
        ∀ i, v.get i = some (getList xs i) := by
  have hagree := eval_agrees e
  cases hl : evalList e with
  | error msg =>
    rw [hl] at hagree
    exact hagree
  | ok xs =>
    rw [hl] at hagree
    obtain ⟨v, hrun, hv⟩ := hagree
    exact ⟨v, hrun, hv, hv.size_eq, get_spec hv⟩

end Expressions

end Cppforge.Persistent.PersistentVector
