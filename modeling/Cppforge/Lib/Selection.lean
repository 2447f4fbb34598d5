import Cppforge.Lib.Ordered
import Mathlib.Data.List.Sort
import Mathlib.Algebra.Order.Group.Multiset
import Mathlib.Data.List.Perm.Basic
import Mathlib.Data.Multiset.Basic

/-! Selection by a key: sorting, partial sorting, a queue with the largest entry in
front, and the smallest `k` of a collection. -/

/-- A sorting routine, of which only that it rearranges is known. -/
structure Sorting where
  sort : {E : Type} → (E → E → Bool) → List E → List E
  perm : ∀ {E : Type} (lt : E → E → Bool) (l : List E), (sort lt l).Perm l

/-- A stable one. -/
def Sorting.insertion : Sorting where
  sort lt l := l.insertionSort fun a b => lt b a = false
  perm _ l := List.perm_insertionSort _ l

/-- A sorting routine by a key, which leaves entries with equal keys in any order. -/
structure KeySort (E R : Type) [LinearOrder R] where
  apply : (E → R) → List E → List E
  perm : ∀ key l, (apply key l).Perm l
  sorted : ∀ key l, (apply key l).Pairwise fun a b => key a ≤ key b

/-- A rearrangement that has at `n` an entry with nothing greater in front of
it and nothing smaller behind. -/
structure NthElement (E R : Type) [LinearOrder R] where
  apply : (E → R) → Nat → List E → List E
  perm : ∀ key n l, (apply key n l).Perm l
  front : ∀ key n l x, (apply key n l)[n]? = some x → ∀ y ∈ (apply key n l).take n, key y ≤ key x
  back : ∀ key n l x, (apply key n l)[n]? = some x →
    ∀ y ∈ (apply key n l).drop (n + 1), key x ≤ key y

/-- A queue whose `top` is an entry with the largest key. -/
structure PriorityQueue (E : Type) {R : Type} [LinearOrder R] (key : E → R) where
  Heap : Type
  empty : Heap
  size : Heap → Nat
  top : Heap → Option E
  push : E → Heap → Heap
  pop : Heap → Heap
  entries : Heap → Multiset E
  entries_empty : entries empty = 0
  entries_push : ∀ e h, entries (push e h) = e ::ₘ entries h
  entries_pop : ∀ e h, top h = some e → entries h = e ::ₘ entries (pop h)
  card_entries : ∀ h, (entries h).card = size h
  top_max : ∀ e h, top h = some e → ∀ x ∈ entries h, key x ≤ key e
  top_none : ∀ h, top h = none → entries h = 0

namespace NthElement
variable {E R : Type} [LinearOrder R]

private theorem sorted_split {key : E → R} {l : List E} {n : Nat} {x : E}
    (hs : l.Pairwise fun a b => key a ≤ key b) (hx : l[n]? = some x) :
    (∀ y ∈ l.take n, key y ≤ key x) ∧ ∀ y ∈ l.drop (n + 1), key x ≤ key y := by
  obtain ⟨hn, rfl⟩ := List.getElem?_eq_some_iff.mp hx
  have hl : l = l.take n ++ l[n] :: l.drop (n + 1) := by
    rw [List.getElem_cons_drop, List.take_append_drop]
  rw [hl, List.pairwise_append, List.pairwise_cons] at hs
  exact ⟨fun y hy => hs.2.2 y hy _ List.mem_cons_self, hs.2.1.1⟩

private theorem pairwise_sort (key : E → R) (l : List E) :
    (l.insertionSort fun a b => key a ≤ key b).Pairwise fun a b => key a ≤ key b := by
  have : Std.Total fun a b : E => key a ≤ key b := ⟨fun a b => le_total (key a) (key b)⟩
  have : IsTrans E fun a b => key a ≤ key b := ⟨fun _ _ _ => le_trans⟩
  exact List.pairwise_insertionSort _ l

/-- Sorting does more than is asked for. -/
def sorting : NthElement E R where
  apply key _ l := l.insertionSort fun a b => key a ≤ key b
  perm _ _ l := List.perm_insertionSort _ l
  front key _ l _ hx := (sorted_split (pairwise_sort key l) hx).1
  back key _ l _ hx := (sorted_split (pairwise_sort key l) hx).2

end NthElement

/-- A stable one. -/
def KeySort.insertion (E R : Type) [LinearOrder R] : KeySort E R where
  apply key l := l.insertionSort fun a b => key a ≤ key b
  perm _ l := List.perm_insertionSort _ l
  sorted := NthElement.pairwise_sort

namespace PriorityQueue
variable {E R : Type} [LinearOrder R] {key : E → R}

/-- A list kept in falling order. -/
def sortedList (key : E → R) : PriorityQueue E key where
  Heap := { l : List E // l.Pairwise fun a b => key b ≤ key a }
  empty := ⟨[], .nil⟩
  size h := h.1.length
  top h := h.1.head?
  push e h := ⟨h.1.orderedInsert (fun a b => key b ≤ key a) e,
    have : Std.Total fun a b : E => key b ≤ key a := ⟨fun a b => le_total (key b) (key a)⟩
    have : IsTrans E fun a b => key b ≤ key a := ⟨fun _ _ _ hab hbc => le_trans hbc hab⟩
    h.2.orderedInsert e h.1⟩
  pop h := ⟨h.1.tail, h.2.tail⟩
  entries h := ↑h.1
  entries_empty := rfl
  entries_push e h := Multiset.coe_eq_coe.mpr (List.perm_orderedInsert _ e h.1)
  entries_pop e h htop := by
    obtain ⟨l, hl⟩ := h
    cases l with
    | nil => cases htop
    | cons a l =>
      cases htop
      rfl
  card_entries h := rfl
  top_max e h htop := by
    obtain ⟨l, hl⟩ := h
    cases l with
    | nil => cases htop
    | cons a l =>
      cases htop
      intro x hx
      rcases List.mem_cons.mp (Multiset.mem_coe.mp hx) with rfl | hx
      · exact le_refl _
      · exact (List.pairwise_cons.mp hl).1 x hx
  top_none h htop := by
    obtain ⟨l, hl⟩ := h
    cases l with
    | nil => rfl
    | cons a l => cases htop

variable (Q : PriorityQueue E key)

/-- The first `n` entries in the order they come out. -/
def drain : Nat → Q.Heap → List E
  | 0, _ => []
  | n + 1, h =>
    match Q.top h with
    | none => []
    | some e => e :: drain n (Q.pop h)

theorem top_some {h : Q.Heap} (hpos : 0 < Q.size h) : ∃ e, Q.top h = some e := by
  cases htop : Q.top h with
  | none =>
    have hcard := Q.card_entries h
    rw [Q.top_none h htop, Multiset.card_zero] at hcard
    omega
  | some e => exact ⟨e, rfl⟩

theorem drain_entries (n : Nat) {h : Q.Heap} (hn : Q.size h = n) :
    (↑(Q.drain n h) : Multiset E) = Q.entries h := by
  induction n generalizing h with
  | zero =>
    rw [← Q.card_entries, Multiset.card_eq_zero] at hn
    rw [hn]
    rfl
  | succ n ih =>
    cases htop : Q.top h with
    | none =>
      rw [← Q.card_entries, Q.top_none h htop] at hn
      cases hn
    | some e =>
      have hpop : Q.entries h = e ::ₘ Q.entries (Q.pop h) := Q.entries_pop e h htop
      have hsize : Q.size (Q.pop h) = n := by
        rw [← Q.card_entries, hpop, Multiset.card_cons, Q.card_entries] at hn
        omega
      rw [hpop, drain, htop, ← Multiset.cons_coe, ih hsize]

theorem drain_sorted (n : Nat) {h : Q.Heap} (hn : Q.size h = n) :
    (Q.drain n h).Pairwise fun a b => key b ≤ key a := by
  induction n generalizing h with
  | zero => exact .nil
  | succ n ih =>
    cases htop : Q.top h with
    | none =>
      rw [drain, htop]
      exact .nil
    | some e =>
      have hpop : Q.entries h = e ::ₘ Q.entries (Q.pop h) := Q.entries_pop e h htop
      have hsize : Q.size (Q.pop h) = n := by
        rw [← Q.card_entries, hpop, Multiset.card_cons, Q.card_entries] at hn
        omega
      rw [drain, htop, List.pairwise_cons]
      refine ⟨?_, ih hsize⟩
      intro x hx
      refine Q.top_max e h htop x ?_
      rw [hpop, Multiset.mem_cons, ← Q.drain_entries n hsize]
      exact .inr hx

end PriorityQueue

section Smallest
variable {E R : Type} [LinearOrder R] {key : E → R} {k : Nat} {H V W : Multiset E} {m x : E}

/-- `H` is a choice of `k` entries of `V`, or all if there are fewer, with the
smallest keys. -/
def Smallest (key : E → R) (k : Nat) (H V : Multiset E) : Prop :=
  ∃ rest, V = H + rest ∧ H.card = min k V.card ∧ ∀ x ∈ H, ∀ y ∈ rest, key x ≤ key y

namespace Smallest

theorem zero : Smallest key k 0 0 := ⟨0, by simp, by simp, by simp⟩

theorem push (h : Smallest key k H V) (hk : H.card < k) : Smallest key k (x ::ₘ H) (x ::ₘ V) := by
  obtain ⟨rest, rfl, hcard, _⟩ := h
  rw [Multiset.card_add] at hcard
  have hrest : rest = 0 := by
    rw [← Multiset.card_eq_zero]
    omega
  subst hrest
  refine ⟨0, by simp, ?_, by simp⟩
  rw [add_zero, Multiset.card_cons]
  omega

theorem replace (h : Smallest key k (m ::ₘ H) V) (hk : k ≤ (m ::ₘ H).card)
    (hmax : ∀ y ∈ H, key y ≤ key m) (hx : key x ≤ key m) :
    Smallest key k (x ::ₘ H) (x ::ₘ V) := by
  obtain ⟨rest, rfl, hcard, hle⟩ := h
  refine ⟨m ::ₘ rest, ?_, ?_, ?_⟩
  · rw [Multiset.cons_add, Multiset.add_cons, Multiset.cons_add, Multiset.cons_swap]
  · simp only [Multiset.card_cons, Multiset.card_add] at hcard hk ⊢
    omega
  · have hm : ∀ y ∈ rest, key m ≤ key y := hle m (Multiset.mem_cons_self m H)
    intro a ha b hb
    have ham : key a ≤ key m := by
      rcases Multiset.mem_cons.mp ha with rfl | ha
      · exact hx
      · exact hmax a ha
    rcases Multiset.mem_cons.mp hb with rfl | hb
    · exact ham
    · exact ham.trans (hm b hb)

theorem keep (h : Smallest key k H V) (hk : k ≤ H.card)
    (hW : ∀ x ∈ H, ∀ y ∈ W, key x ≤ key y) : Smallest key k H (W + V) := by
  obtain ⟨rest, rfl, hcard, hle⟩ := h
  refine ⟨W + rest, by rw [add_left_comm], ?_, ?_⟩
  · simp only [Multiset.card_add] at hcard ⊢
    omega
  · intro a ha b hb
    rcases Multiset.mem_add.mp hb with hb | hb
    · exact hW a ha b hb
    · exact hle a ha b hb

theorem le (h : Smallest key k H V) : H ≤ V := by
  obtain ⟨rest, rfl, _, _⟩ := h
  exact Multiset.le_add_right H rest

/-- In order, the keys are the first `k` of all keys in order. -/
theorem map_key {l vs : List E} (h : Smallest key k ↑l ↑vs)
    (hl : l.Pairwise fun a b => key a ≤ key b) :
    l.map key = ((vs.map key).insertionSort (· ≤ ·)).take k := by
  obtain ⟨rest, hV, hcard, hle⟩ := h
  obtain ⟨rest, rfl⟩ := Quot.exists_rep rest
  have hperm : vs.Perm (l ++ rest) := Multiset.coe_eq_coe.mp hV
  have hsorted : (vs.map key).insertionSort (· ≤ ·) =
      l.map key ++ (rest.map key).insertionSort (· ≤ ·) := by
    refine List.Perm.eq_of_pairwise' (r := (· ≤ ·)) (List.pairwise_insertionSort _ _) ?_ ?_
    · rw [List.pairwise_append]
      refine ⟨List.pairwise_map.mpr hl, List.pairwise_insertionSort _ _, ?_⟩
      intro a ha b hb
      rw [List.mem_insertionSort] at hb
      obtain ⟨x, hx, rfl⟩ := List.mem_map.mp ha
      obtain ⟨y, hy, rfl⟩ := List.mem_map.mp hb
      exact hle x hx y hy
    · refine (List.perm_insertionSort _ _).trans ((hperm.map key).trans ?_)
      rw [List.map_append]
      exact (List.perm_insertionSort _ _).symm.append_left _
  have hlen : vs.length = l.length + rest.length := by
    rw [hperm.length_eq, List.length_append]
  simp only [Multiset.coe_card] at hcard
  rw [hsorted, List.take_append, List.length_map]
  by_cases hk : k ≤ l.length
  · have : k = l.length := by omega
    simp [this]
  · have : rest = [] := List.length_eq_zero_iff.mp (by omega)
    rw [this, List.map_nil, List.insertionSort_nil, List.take_nil, List.append_nil,
      List.take_of_length_le (by rw [List.length_map]; omega)]

end Smallest
end Smallest

/-! Binary heaps in a sequence: the children of `i` are `2 * i + 1` and `2 * i + 2`. -/

namespace BinaryHeap
open Ordered

section Swaps
variable {α : Type}

/-- The entries at `i` and `j` exchanged. -/
def swapped (a : Nat → Option α) (i j k : Nat) : Option α :=
  if k = i then a j else if k = j then a i else a k

variable {a : Nat → Option α} {i j k : Nat}

theorem swapped_left (a : Nat → Option α) (i j : Nat) : swapped a i j i = a j := if_pos rfl

theorem swapped_right (a : Nat → Option α) (i j : Nat) : swapped a i j j = a i := by
  unfold swapped
  split
  · rename_i h
    rw [h]
  · exact if_pos rfl

theorem swapped_other (hi : k ≠ i) (hj : k ≠ j) : swapped a i j k = a k := by
  rw [swapped, if_neg hi, if_neg hj]

theorem getElem?_swap {l : List α} {x y : α} (hi : l[i]? = some x) (hj : l[j]? = some y) (k : Nat) :
    ((l.set i y).set j x)[k]? = swapped (l[·]?) i j k := by
  have hi' := (List.getElem?_eq_some_iff.mp hi).1
  have hj' := (List.getElem?_eq_some_iff.mp hj).1
  unfold swapped
  rw [List.getElem?_set, List.getElem?_set, List.length_set]
  by_cases hki : k = i
  · subst hki
    by_cases hkj : k = j
    · subst hkj
      obtain ⟨_, hx⟩ := List.getElem?_eq_some_iff.mp hi
      simp [hi', hx]
    · simp [hj, hi', Ne.symm hkj]
  · by_cases hkj : k = j
    · subst hkj
      simp [hi, hj', hki]
    · simp [hki, hkj, Ne.symm hki, Ne.symm hkj]

theorem perm_swap {l : List α} {x y : α} (hi : l[i]? = some x) (hj : l[j]? = some y) :
    ((l.set i y).set j x).Perm l := by
  obtain ⟨hi', rfl⟩ := List.getElem?_eq_some_iff.mp hi
  obtain ⟨hj', rfl⟩ := List.getElem?_eq_some_iff.mp hj
  exact List.set_set_perm hi' hj'

end Swaps

section Order
variable {α : Type} {lt : α → α → Bool} {a : Nat → Option α} {lo i j k t : Nat}

def parent (i : Nat) : Nat := (i - 1) / 2

theorem parent_lt (h : 0 < i) : parent i < i := by
  unfold parent
  omega

/-- What is at `j` is not greater than what is at `i`. -/
def Above (lt : α → α → Bool) (a : Nat → Option α) (i j : Nat) : Prop :=
  ∀ x ∈ a i, ∀ y ∈ a j, lt x y = false

theorem above_of_some {x y : α} (hi : a i = some x) (hj : a j = some y) (h : lt x y = false) :
    Above lt a i j := by
  intro x' hx y' hy
  rw [hi] at hx
  rw [hj] at hy
  cases hx
  cases hy
  exact h

theorem above_of_none (hj : a j = none) : Above lt a i j := by
  intro x _ y hy
  rw [hj] at hy
  cases hy

theorem above_self (h : StrictWeak lt) (i : Nat) : Above lt a i i := by
  cases hi : a i with
  | none => exact above_of_none hi
  | some x => exact above_of_some hi hi (h.irrefl x)

theorem Above.trans (h : StrictWeak lt) (hij : Above lt a i j) (hjk : Above lt a j k)
    (hj : (a j).isSome) : Above lt a i k := by
  intro x hx z hz
  obtain ⟨y, hy⟩ := Option.isSome_iff_exists.mp hj
  exact h.le_trans (hjk y hy z hz) (hij x hx y hy)

theorem above_congr {b : Nat → Option α} {i' j' : Nat} (hi : b i' = a i) (hj : b j' = a j) :
    Above lt b i' j' ↔ Above lt a i j := by
  rw [Above, Above, hi, hj]

/-- Heap order below the parents from `lo` on. -/
def OrderedFrom (lt : α → α → Bool) (a : Nat → Option α) (lo : Nat) : Prop :=
  ∀ i, 0 < i → lo ≤ parent i → Above lt a (parent i) i

/-- Heap order but for the entry at `k`, which may be greater than its parent. -/
structure Rising (lt : α → α → Bool) (a : Nat → Option α) (k : Nat) : Prop where
  others : ∀ i, 0 < i → i ≠ k → Above lt a (parent i) i
  children : ∀ i, 0 < i → parent i = k → 0 < k → Above lt a (parent k) i

/-- Heap order but for the entry at `k`, which may be smaller than its children. -/
structure Sinking (lt : α → α → Bool) (a : Nat → Option α) (lo k : Nat) : Prop where
  others : ∀ i, 0 < i → lo ≤ parent i → parent i ≠ k → Above lt a (parent i) i
  children : ∀ i, 0 < i → parent i = k → 0 < k → lo ≤ parent k → Above lt a (parent k) i

theorem Rising.ordered (h : Rising lt a k) (hk : k = 0 ∨ Above lt a (parent k) k) :
    OrderedFrom lt a 0 := by
  intro i hi _
  by_cases hik : i = k
  · subst hik
    rcases hk with rfl | hk
    · exact absurd hi (Nat.lt_irrefl 0)
    · exact hk
  · exact h.others i hi hik

theorem Sinking.ordered (h : Sinking lt a lo k)
    (hk : ∀ i, 0 < i → parent i = k → Above lt a k i) : OrderedFrom lt a lo := by
  intro i hi hlo
  by_cases hik : parent i = k
  · rw [hik]
    exact hk i hi hik
  · exact h.others i hi hlo hik

/-- A new last entry may rise. -/
theorem OrderedFrom.rising (h : OrderedFrom lt a 0) (hrest : ∀ i, k < i → a i = none) :
    ∀ {b : Nat → Option α}, (∀ i, i ≠ k → b i = a i) → Rising lt b k := by
  intro b hb
  have hparent : ∀ i, 0 < i → parent i = k → b i = none := by
    intro i hi hik
    have hlt := parent_lt hi
    rw [hb i (by omega), hrest i (by omega)]
  constructor
  · intro i hi hik
    by_cases hpk : parent i = k
    · exact above_of_none (hparent i hi hpk)
    · rw [above_congr (hb _ hpk) (hb _ hik)]
      exact h i hi (Nat.zero_le _)
  · exact fun i hi hpk _ => above_of_none (hparent i hi hpk)

/-- The entry in front may sink. -/
theorem OrderedFrom.sinking (h : OrderedFrom lt a (k + 1)) : Sinking lt a k k := by
  constructor
  · intro i hi hlo hik
    exact h i hi (by omega)
  · intro i _ _ hk hlo
    have := parent_lt hk
    omega

/-- So may what replaces it, whatever is left of the others. -/
theorem OrderedFrom.replaced (h : OrderedFrom lt a 0) {b : Nat → Option α}
    (hb : ∀ i, 0 < i → b i = a i ∨ b i = none) : Sinking lt b 0 0 := by
  constructor
  · intro i hi _ hp x hx y hy
    rcases hb i hi with hbi | hbi
    · rcases hb (parent i) (Nat.pos_of_ne_zero hp) with hbp | hbp
      · rw [hbp] at hx
        rw [hbi] at hy
        exact h i hi (Nat.zero_le _) x hx y hy
      · rw [hbp] at hx
        cases hx
    · exact above_of_none hbi x hx y hy
  · intro i _ _ hk
    exact absurd hk (Nat.lt_irrefl 0)

/-- An entry greater than its parent is exchanged with it. -/
theorem Rising.swap (h : Rising lt a k) (hlt : StrictWeak lt) (hk : 0 < k) {x y : α}
    (hx : a (parent k) = some x) (hy : a k = some y) (hxy : lt x y = true) :
    Rising lt (swapped a k (parent k)) (parent k) := by
  have hpk := parent_lt hk
  have hfar : ∀ i, i ≠ k → i ≠ parent k → swapped a k (parent k) i = a i :=
    fun i => swapped_other
  constructor
  · intro i hi hip
    by_cases hik : i = k
    · subst hik
      apply above_of_some _ _ (hlt.asymm hxy)
      · rw [swapped_right, hy]
      · rw [swapped_left, hx]
    · by_cases hpik : parent i = k
      · rw [hpik, above_congr (swapped_left a k _) (hfar i hik hip)]
        exact h.children i hi hpik hk
      · by_cases hpip : parent i = parent k
        · intro z hz w hw
          rw [hpip, swapped_right, hy] at hz
          rw [hfar i hik hip] at hw
          cases hz
          have habove := h.others i hi hik
          rw [hpip] at habove
          exact hlt.le_trans (habove x hx w hw) (hlt.asymm hxy)
        · rw [above_congr (hfar _ hpik hpip) (hfar i hik hip)]
          exact h.others i hi hik
  · intro i hi hip hp
    have hpp := parent_lt hp
    have hgrand := h.others (parent k) hp (by omega)
    have htop := hfar (parent (parent k)) (by omega) (by omega)
    by_cases hik : i = k
    · subst hik
      rw [above_congr htop (swapped_left a i _)]
      exact hgrand
    · have hlast := hfar i hik (by have := parent_lt hi; omega)
      rw [above_congr htop hlast]
      refine hgrand.trans hlt ?_ (by rw [hx]; rfl)
      rw [← hip]
      exact h.others i hi hik

/-- An entry smaller than a child is exchanged with one that the others are not greater than. -/
theorem Sinking.swap (h : Sinking lt a lo k) (hlt : StrictWeak lt) (ht : 0 < t)
    (hkt : parent t = k) (hlo : lo ≤ k) {x y : α} (hx : a k = some x) (hy : a t = some y)
    (hxy : lt x y = true) (hbest : ∀ i, 0 < i → parent i = k → i ≠ t → Above lt a t i) :
    Sinking lt (swapped a k t) lo t := by
  have hkt' : k < t := hkt ▸ parent_lt ht
  have hfar : ∀ i, i ≠ k → i ≠ t → swapped a k t i = a i := fun i => swapped_other
  constructor
  · intro i hi hloi hit
    by_cases hti : i = t
    · subst hti
      apply above_of_some _ _ (hlt.asymm hxy)
      · rw [hkt, swapped_left, hy]
      · rw [swapped_right, hx]
    · by_cases hpik : parent i = k
      · have hik : i ≠ k := by
          have := parent_lt hi
          omega
        rw [hpik, above_congr (swapped_left a k t) (hfar i hik hti)]
        exact hbest i hi hpik hti
      · by_cases hik : i = k
        · subst hik
          rw [above_congr (hfar _ hpik hit) (swapped_left a i t)]
          exact h.children t ht hkt hi hloi
        · rw [above_congr (hfar _ hpik hit) (hfar i hik hti)]
          exact h.others i hi hloi hpik
  · intro i hi hit _ _
    have hlti := parent_lt hi
    rw [hkt, above_congr (swapped_left a k t) (hfar i (by omega) (by omega))]
    have habove := h.others i hi (by omega) (by omega)
    rwa [hit] at habove

/-- Nothing is greater than the entry in front. -/
theorem OrderedFrom.above (h : OrderedFrom lt a 0) (hlt : StrictWeak lt)
    (hdense : ∀ i j, i ≤ j → (a j).isSome → (a i).isSome) (i : Nat) : Above lt a 0 i := by
  induction i using Nat.strong_induction_on with
  | _ i ih =>
    rcases Nat.eq_zero_or_pos i with rfl | hi
    · exact above_self hlt 0
    · have hp := parent_lt hi
      by_cases hsome : (a i).isSome
      · exact (ih _ hp).trans hlt (h i hi (Nat.zero_le _)) (hdense _ i (Nat.le_of_lt hp) hsome)
      · apply above_of_none
        simpa using hsome

theorem parent_eq_iff (hi : 0 < i) : parent i = k ↔ i = 2 * k + 1 ∨ i = 2 * k + 2 := by
  unfold parent
  omega

end Order

end BinaryHeap
