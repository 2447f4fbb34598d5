import Mathlib.Data.List.Sort
import Mathlib.Data.List.Induction
import Mathlib.Data.List.Perm.Basic
import Mathlib.Data.Finset.Card
import Mathlib.Data.List.Nodup

/-! Entries of a list picked or erased by their indices. -/

namespace Picks
open List
variable {E : Type}

theorem filterMap_getElem?_range (l : List E) : (range l.length).filterMap (l[·]?) = l := by
  induction l using List.reverseRecOn with
  | nil => rfl
  | append_singleton l a ih =>
    have hfront : (range l.length).filterMap ((l ++ [a])[·]?) = (range l.length).filterMap (l[·]?) := by
      refine filterMap_congr fun i hi => ?_
      rw [getElem?_append_left (mem_range.mp hi)]
    rw [length_append, length_singleton, range_succ, filterMap_append, hfront, ih]
    simp

theorem length_picks {idxs : List Nat} {l : List E} (h : ∀ i ∈ idxs, i < l.length) :
    (idxs.filterMap (l[·]?)).length = idxs.length := by
  induction idxs with
  | nil => rfl
  | cons i idxs ih =>
    rw [filterMap_cons_some (getElem?_eq_getElem (h i mem_cons_self)), length_cons, length_cons,
      ih fun j hj => h j (mem_cons_of_mem _ hj)]

/-- Indices of all entries in any order, and cut in two. -/
theorem picks_perm {l : List E} {A C : List Nat} (h : (A ++ C).Perm (range l.length)) :
    (A.filterMap (l[·]?) ++ C.filterMap (l[·]?)).Perm l := by
  have hall := h.filterMap (l[·]?)
  rwa [filterMap_append, filterMap_getElem?_range] at hall

/-- Erasing from the back leaves the indices in front as they are. -/
theorem eraseIdx_foldl_perm {idxs : List Nat} (hsorted : idxs.Pairwise (· > ·)) {l : List E}
    (hbound : ∀ i ∈ idxs, i < l.length) :
    (idxs.foldl eraseIdx l ++ idxs.filterMap (l[·]?)).Perm l := by
  induction idxs generalizing l with
  | nil => simp
  | cons i idxs ih =>
    obtain ⟨hlt, hsorted⟩ := pairwise_cons.mp hsorted
    have hi : i < l.length := hbound i mem_cons_self
    have hrest : idxs.filterMap ((l.eraseIdx i)[·]?) = idxs.filterMap (l[·]?) :=
      filterMap_congr fun j hj => getElem?_eraseIdx_of_lt (hlt j hj)
    have hih := ih hsorted (l := l.eraseIdx i) fun j hj => by
      have := hlt j hj
      rw [length_eraseIdx_of_lt hi]
      omega
    rw [hrest] at hih
    rw [foldl_cons, filterMap_cons_some (getElem?_eq_getElem hi)]
    exact perm_middle.trans ((hih.cons l[i]).trans (getElem_cons_eraseIdx_perm hi))

/-- Erased largest index first, picked in any order. -/
theorem erase_picks_perm {idxs : List Nat} (hnodup : idxs.Nodup) {l : List E}
    (hbound : ∀ i ∈ idxs, i < l.length) :
    ((idxs.insertionSort (· ≥ ·)).foldl eraseIdx l ++ idxs.filterMap (l[·]?)).Perm l := by
  have hperm := perm_insertionSort (· ≥ ·) idxs
  have hsorted : (idxs.insertionSort (· ≥ ·)).Pairwise (· > ·) := by
    have hge := pairwise_insertionSort (· ≥ ·) idxs
    have hne : (idxs.insertionSort (· ≥ ·)).Nodup := hperm.nodup_iff.mpr hnodup
    exact (hge.and hne).imp fun h => lt_of_le_of_ne h.1 (Ne.symm h.2)
  refine Perm.trans ?_ (eraseIdx_foldl_perm hsorted fun i hi => hbound i (hperm.subset hi))
  exact (hperm.filterMap _).symm.append_left _

end Picks

/-! Lists without repetitions, each element where it stood first. -/

namespace Firsts

variable {α : Type} [BEq α] {xs : List α} {x : α} {n : Nat}

theorem head?_eraseDups (xs : List α) : xs.eraseDups.head? = xs.head? := by
  cases xs with
  | nil => rfl
  | cons x xs => rw [List.eraseDups_cons, List.head?_cons, List.head?_cons]

variable [LawfulBEq α]

theorem nodup_eraseDups (xs : List α) : xs.eraseDups.Nodup := by
  induction hn : xs.length using Nat.strongRecOn generalizing xs with
  | ind n ih =>
    cases xs with
    | nil => exact .nil
    | cons x xs =>
      have hlt : (xs.filter (fun b => !b == x)).length < n := by
        have hle := List.length_filter_le (fun b => !b == x) xs
        rw [List.length_cons] at hn
        omega
      rw [List.eraseDups_cons]
      refine List.nodup_cons.mpr ⟨?_, ih _ hlt _ rfl⟩
      simp [List.mem_eraseDups]

theorem length_eraseDups [DecidableEq α] (xs : List α) : xs.eraseDups.length = xs.toFinset.card := by
  rw [← List.toFinset_card_of_nodup (nodup_eraseDups xs)]
  refine congrArg Finset.card (Finset.ext (fun a => ?_))
  rw [List.mem_toFinset, List.mem_toFinset, List.mem_eraseDups]

theorem eraseDups_old (hx : x ∈ xs) : (xs ++ [x]).eraseDups = xs.eraseDups := by
  rw [List.eraseDups_append]
  simp [List.removeAll, hx]

theorem eraseDups_new (hx : x ∉ xs) : (xs ++ [x]).eraseDups = xs.eraseDups ++ [x] := by
  rw [List.eraseDups_append]
  simp [List.removeAll, hx, List.eraseDups_cons]

/-- What has been met first stays where it is. -/
theorem eraseDups_stays (xs ys : List α) : xs.eraseDups <+: (xs ++ ys).eraseDups := by
  rw [List.eraseDups_append]
  exact List.prefix_append _ _

/-- The first `n` elements are known once `n` have been met. -/
theorem take_eraseDups (ys : List α) (hn : xs.eraseDups.length = n) :
    (xs ++ ys).eraseDups.take n = xs.eraseDups := by
  rw [← hn]
  exact (List.prefix_iff_eq_take.mp (eraseDups_stays xs ys)).symm

end Firsts
