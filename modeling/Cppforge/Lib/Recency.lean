import Cppforge.Lib.KeyMap
import Cppforge.Lib.Run
import Mathlib.Data.List.Induction
import Mathlib.Data.List.Nodup

/-! Bounded caches that make room by dropping the key got or put longest ago, as lists with the
key used last in front. -/

namespace Recency

variable {K V α : Type}

inductive Op (K V : Type)
  | get (key : K)
  | put (key : K) (value : V)
  | contains (key : K)
  | remove (key : K)
  | clear

inductive Answer (V : Type)
  | value (v : Option V)
  | flag (b : Bool)
  | done
deriving DecidableEq

variable [DecidableEq K] {key : K} {value v : V} {items A B : List (K × V)} {op : Op K V}
  {ops : List (Op K V)} {capacity : Nat}

section Model

/-- The items of the other keys. -/
def drop (key : K) (items : List (K × V)) : List (K × V) :=
  items.filter fun i => decide (i.1 ≠ key)

def apply (capacity : Nat) (items : List (K × V)) : Op K V → List (K × V) × Answer V
  | .get key =>
    match items.lookup key with
    | some value => ((key, value) :: drop key items, .value (some value))
    | none => (items, .value none)
  | .put key value =>
    match items.lookup key with
    | some _ => ((key, value) :: drop key items, .done)
    | none => ((key, value) :: if items.length < capacity then items else items.dropLast, .done)
  | .contains key => (items, .flag (items.lookup key).isSome)
  | .remove key => (drop key items, .flag (items.lookup key).isSome)
  | .clear => ([], .done)

theorem lookup_mid (h : key ∉ A.map Prod.fst) :
    (A ++ (key, value) :: B).lookup key = some value := by
  induction A with
  | nil => simp
  | cons i A ih =>
    rw [List.map_cons, List.mem_cons, not_or] at h
    rw [List.cons_append, List.lookup_cons, beq_false_of_ne h.1]
    exact ih h.2

theorem lookup_absent (h : key ∉ items.map Prod.fst) : items.lookup key = none := by
  induction items with
  | nil => rfl
  | cons i items ih =>
    rw [List.map_cons, List.mem_cons, not_or] at h
    rw [List.lookup_cons, beq_false_of_ne h.1]
    exact ih h.2

theorem drop_absent (h : key ∉ items.map Prod.fst) : drop key items = items := by
  apply List.filter_eq_self.mpr
  intro i hi
  apply decide_eq_true
  intro heq
  exact h (heq ▸ List.mem_map_of_mem hi)

theorem drop_mid (hA : key ∉ A.map Prod.fst) (hB : key ∉ B.map Prod.fst) :
    drop key (A ++ (key, value) :: B) = A ++ B := by
  have hkept : drop key (A ++ (key, value) :: B) = drop key A ++ drop key B := by simp [drop]
  rw [hkept, drop_absent hA, drop_absent hB]

end Model

section Part
variable {m : K → Option V}

theorem lookup_drop (key k : K) (items : List (K × V)) :
    (drop key items).lookup k = if k = key then none else items.lookup k := by
  split
  · rename_i heq
    subst heq
    apply lookup_absent
    intro hmem
    obtain ⟨i, hi, heq⟩ := List.mem_map.mp hmem
    exact of_decide_eq_true (List.mem_filter.mp hi).2 heq
  · rename_i hne
    induction items with
    | nil => rfl
    | cons i items ih =>
      by_cases hi : i.1 = key
      · have hdrop : drop key (i :: items) = drop key items := by simp [drop, hi]
        have hk : k ≠ i.1 := fun heq => hne (heq.trans hi)
        rw [hdrop, ih, List.lookup_cons, beq_false_of_ne hk]
      · have hdrop : drop key (i :: items) = i :: drop key items := by simp [drop, hi]
        rw [hdrop, List.lookup_cons, List.lookup_cons, ih]

theorem lookup_of_dropLast (h : items.dropLast.lookup key = some value) :
    items.lookup key = some value := by
  rcases List.eq_nil_or_concat' items with rfl | ⟨kept, oldest, rfl⟩
  · exact h
  · rw [List.dropLast_concat] at h
    simp [List.lookup_append, h]

/-- The items are part of a map. -/
def Part (items : List (K × V)) (m : K → Option V) : Prop :=
  ∀ key value, items.lookup key = some value → m key = some value

theorem Part.drop (h : Part items m) (key : K) :
    Part (drop key items) (Function.update m key none) := by
  intro k w hk
  rw [lookup_drop] at hk
  split at hk
  · cases hk
  · rename_i hne
    rw [Function.update_of_ne hne]
    exact h k w hk

/-- A new item in front of items of a map that agree with it for the other keys. -/
theorem Part.cons (h : Part items m) (key : K) (value : V) :
    Part ((key, value) :: items) (Function.update m key (some value)) := by
  intro k w hk
  rw [List.lookup_cons] at hk
  by_cases heq : k = key
  · subst heq
    rw [beq_self_eq_true] at hk
    rw [Function.update_self]
    exact hk
  · rw [beq_false_of_ne heq] at hk
    rw [Function.update_of_ne heq]
    exact h k w hk

theorem Part.put (h : Part items m) (capacity : Nat) (key : K) (value : V) :
    Part (apply capacity items (.put key value)).1 (Function.update m key (some value)) := by
  cases hl : items.lookup key with
  | some v =>
    have hdrop := (h.drop key).cons key value
    rw [Function.update_idem] at hdrop
    simpa only [apply, hl] using hdrop
  | none =>
    have hroom : Part (if items.length < capacity then items else items.dropLast) m := by
      intro k w hk
      split at hk
      · exact h k w hk
      · exact h k w (lookup_of_dropLast hk)
    simpa only [apply, hl] using hroom.cons key value

theorem Part.get (h : Part items m) (capacity : Nat) (key : K) :
    Part (apply capacity items (.get key)).1 m := by
  cases hl : items.lookup key with
  | none => simpa only [apply, hl] using h
  | some v =>
    have hdrop := (h.drop key).cons key v
    have hself : Function.update m key (some v) = m := by
      rw [Function.update_eq_self_iff]
      exact (h key v hl).symm
    rw [Function.update_idem, hself] at hdrop
    simpa only [apply, hl] using hdrop

end Part

section Age

/-- The calls that count as a use of a key. -/
def uses (key : K) : Op K V → Bool
  | .get k => k = key
  | .put k _ => k = key
  | _ => false

/-- The number of calls since a key was last used. -/
def age (key : K) (ops : List (Op K V)) : Nat := ops.reverse.findIdx (uses key)

theorem age_concat (key : K) (ops : List (Op K V)) (op : Op K V) :
    age key (ops ++ [op]) = if uses key op = true then 0 else age key ops + 1 := by
  rw [age, List.reverse_append, List.reverse_singleton, List.singleton_append, List.findIdx_cons]
  cases uses key op <;> rfl

/-- The items stand in the order of their last uses. -/
def Ordered (items : List (K × V)) (ops : List (Op K V)) : Prop :=
  items.Pairwise fun i j => age i.1 ops < age j.1 ops

/-- Items that a call does not use keep their order. -/
theorem Ordered.unused (h : Ordered items ops) (hsub : A.Sublist items)
    (hnot : ∀ i ∈ A, uses i.1 op = false) : Ordered A (ops ++ [op]) := by
  apply List.Pairwise.imp_of_mem _ (h.sublist hsub)
  intro i j hi hj hlt
  simp only [age_concat, hnot i hi, hnot j hj]
  exact Nat.succ_lt_succ hlt

/-- The item that it uses comes to the front. -/
theorem Ordered.used (h : Ordered items ops) (hsub : A.Sublist items)
    (hnot : ∀ i ∈ A, uses i.1 op = false) (huse : uses key op = true) :
    Ordered ((key, value) :: A) (ops ++ [op]) := by
  refine List.pairwise_cons.mpr ⟨?_, h.unused hsub hnot⟩
  intro i hi
  simp [age_concat, hnot i hi, huse]

theorem ne_of_mem_drop {i : K × V} (h : i ∈ drop key items) : i.1 ≠ key :=
  of_decide_eq_true (List.mem_filter.mp h).2

theorem ne_of_lookup (h : items.lookup key = none) {i : K × V} (hi : i ∈ items) : i.1 ≠ key := by
  rintro rfl
  have hne := List.lookup_eq_none_iff.mp h i hi
  simp at hne

theorem apply_ordered (capacity : Nat) (op : Op K V) (h : Ordered items ops) :
    Ordered (apply capacity items op).1 (ops ++ [op]) := by
  cases op with
  | get key =>
    cases hl : items.lookup key with
    | none =>
      simp only [apply, hl]
      exact h.unused (List.Sublist.refl items) fun i hi =>
        decide_eq_false (ne_of_lookup hl hi).symm
    | some v =>
      simp only [apply, hl]
      exact h.used List.filter_sublist (fun i hi => decide_eq_false (ne_of_mem_drop hi).symm)
        (decide_eq_true rfl)
  | put key value =>
    cases hl : items.lookup key with
    | none =>
      have hsub : (if items.length < capacity then items else items.dropLast).Sublist items := by
        split
        · exact List.Sublist.refl items
        · exact List.dropLast_sublist items
      simp only [apply, hl]
      exact h.used hsub (fun i hi => decide_eq_false (ne_of_lookup hl (hsub.subset hi)).symm)
        (decide_eq_true rfl)
    | some v =>
      simp only [apply, hl]
      exact h.used List.filter_sublist (fun i hi => decide_eq_false (ne_of_mem_drop hi).symm)
        (decide_eq_true rfl)
  | contains key => exact h.unused (List.Sublist.refl items) fun _ _ => rfl
  | remove key => exact h.unused List.filter_sublist fun _ _ => rfl
  | clear => exact List.Pairwise.nil

/-- What the calls leave in an empty cache. -/
def contents (capacity : Nat) (ops : List (Op K V)) : List (K × V) :=
  (Run.execModel (apply capacity) [] ops).1

theorem contents_concat (capacity : Nat) (ops : List (Op K V)) (op : Op K V) :
    contents capacity (ops ++ [op]) = (apply capacity (contents capacity ops) op).1 := by
  rw [contents, contents]
  generalize ([] : List (K × V)) = items
  induction ops generalizing items with
  | nil => rfl
  | cons op' ops ih => exact ih (apply capacity items op').1

theorem contents_ordered (capacity : Nat) (ops : List (Op K V)) :
    Ordered (contents capacity ops) ops := by
  induction ops using List.reverseRecOn with
  | nil => exact List.Pairwise.nil
  | append_singleton ops op ih =>
    rw [contents_concat]
    exact apply_ordered capacity op ih

/-- A new key put into a full cache takes the place of the one used longest ago. -/
theorem put_evicts (h : 1 ≤ capacity) (hfull : (contents capacity ops).length = capacity)
    (hnew : (contents capacity ops).lookup key = none) :
    ∃ kept oldest, contents capacity ops = kept ++ [oldest] ∧
      (∀ i ∈ kept, age i.1 ops < age oldest.1 ops) ∧
      contents capacity (ops ++ [.put key value]) = (key, value) :: kept := by
  have hne : contents capacity ops ≠ [] := by
    apply List.ne_nil_of_length_pos
    omega
  refine ⟨(contents capacity ops).dropLast, (contents capacity ops).getLast hne,
    (List.dropLast_append_getLast hne).symm, ?_, ?_⟩
  · have hord := contents_ordered capacity ops
    rw [Ordered, ← List.dropLast_append_getLast hne, List.pairwise_append] at hord
    intro i hi
    exact hord.2.2 i hi _ (List.mem_singleton_self _)
  · rw [contents_concat]
    simp [apply, hnew, hfull]

end Age

section Index
variable {index : AList fun _ : K => α} {cells : List (α × K × V)} {C D : List (α × K × V)} {a : α}

/-- An index leads from the keys to the places of a list of cells and back. -/
structure Indexed (index : AList fun _ : K => α) (cells : List (α × K × V)) : Prop where
  lookup : ∀ key a, index.lookup key = some a ↔ ∃ value, (a, key, value) ∈ cells
  keys : (cells.map fun c => c.2.1).Nodup
  places : (cells.map Prod.fst).Nodup

theorem indexed_nil : Indexed (∅ : AList fun _ : K => α) ([] : List (α × K × V)) :=
  ⟨by simp, List.nodup_nil, List.nodup_nil⟩

theorem Indexed.absent (h : Indexed index cells) (hkey : index.lookup key = none) :
    key ∉ cells.map fun c => c.2.1 := by
  intro hmem
  obtain ⟨⟨a, k, v⟩, hc, rfl⟩ := List.mem_map.mp hmem
  have hsome := (h.lookup k a).mpr ⟨v, hc⟩
  rw [hkey] at hsome
  cases hsome

/-- The cell of a key, and what stands in front of it and behind. -/
theorem Indexed.split (h : Indexed index cells) (hkey : index.lookup key = some a) :
    ∃ C value D, cells = C ++ (a, key, value) :: D ∧ (key ∉ C.map fun c => c.2.1) ∧
      (key ∉ D.map fun c => c.2.1) ∧ a ∉ C.map Prod.fst ∧ a ∉ D.map Prod.fst := by
  obtain ⟨value, hmem⟩ := (h.lookup key a).mp hkey
  obtain ⟨C, D, rfl⟩ := List.append_of_mem hmem
  have hkeys := h.keys
  have hplaces := h.places
  rw [List.map_append, List.map_cons, List.nodup_append, List.nodup_cons] at hkeys hplaces
  exact ⟨C, value, D, rfl, fun hC => hkeys.2.2 key hC key List.mem_cons_self rfl, hkeys.2.1.1,
    fun hC => hplaces.2.2 a hC a List.mem_cons_self rfl, hplaces.2.1.1⟩

/-- The items of the cells that are not a key's. -/
theorem Indexed.items_absent (h : Indexed index cells) (hkey : index.lookup key = none) :
    key ∉ (cells.map Prod.snd).map Prod.fst := by
  rw [List.map_map]
  exact h.absent hkey

theorem Indexed.items_split (h : Indexed index cells) (hkey : index.lookup key = some a) :
    ∃ C value D, cells = C ++ (a, key, value) :: D ∧ a ∉ C.map Prod.fst ∧ a ∉ D.map Prod.fst ∧
      (cells.map Prod.snd).lookup key = some value ∧
      drop key (cells.map Prod.snd) = (C ++ D).map Prod.snd := by
  obtain ⟨C, value, D, rfl, hkC, hkD, haC, haD⟩ := h.split hkey
  have hC : key ∉ (C.map Prod.snd).map Prod.fst := by
    rw [List.map_map]
    exact hkC
  have hD : key ∉ (D.map Prod.snd).map Prod.fst := by
    rw [List.map_map]
    exact hkD
  refine ⟨C, value, D, rfl, haC, haD, ?_, ?_⟩
  · rw [List.map_append, List.map_cons, lookup_mid hC]
  · rw [List.map_append, List.map_cons, drop_mid hC hD, List.map_append]

theorem Indexed.isSome_lookup (h : Indexed index cells) (key : K) :
    ((cells.map Prod.snd).lookup key).isSome = (index.lookup key).isSome := by
  cases hkey : index.lookup key with
  | none => simp [lookup_absent (h.items_absent hkey)]
  | some a =>
    obtain ⟨_, _, _, _, _, _, hlookup, _⟩ := h.items_split hkey
    simp [hlookup]

theorem Indexed.insert (h : Indexed index cells) (hkey : index.lookup key = none)
    (ha : a ∉ cells.map Prod.fst) (value : V) :
    Indexed (index.insert key a) ((a, key, value) :: cells) := by
  refine ⟨?_, List.nodup_cons.mpr ⟨h.absent hkey, h.keys⟩, List.nodup_cons.mpr ⟨ha, h.places⟩⟩
  intro k b
  by_cases hk : k = key
  · subst hk
    have hnot : ∀ v, (b, k, v) ∉ cells := fun v hc => h.absent hkey (List.mem_map_of_mem hc)
    simp [hnot, eq_comm]
  · rw [AList.lookup_insert_ne hk, h.lookup]
    simp [hk]

theorem Indexed.erase (h : Indexed index (C ++ (a, key, value) :: D)) :
    Indexed (index.erase key) (C ++ D) := by
  have hkeys := h.keys
  have hplaces := h.places
  rw [List.map_append, List.map_cons, List.nodup_middle, ← List.map_append,
    List.nodup_cons] at hkeys hplaces
  refine ⟨?_, hkeys.2, hplaces.2⟩
  intro k b
  by_cases hk : k = key
  · subst hk
    have hnot : ∀ v, (b, k, v) ∉ C ++ D := fun v hc =>
      hkeys.1 (List.mem_map.mpr ⟨_, hc, rfl⟩)
    simp only [AList.lookup_erase, hnot, exists_false, reduceCtorEq]
  · rw [AList.lookup_erase_ne hk, h.lookup]
    simp [hk]

/-- A cell that moves to the front, with another value. -/
theorem Indexed.touch (h : Indexed index (C ++ (a, key, v) :: D)) (value : V) :
    Indexed index ((a, key, value) :: (C ++ D)) := by
  have hkeys := h.keys
  have hplaces := h.places
  rw [List.map_append, List.map_cons, List.nodup_middle, ← List.map_append] at hkeys hplaces
  refine ⟨?_, hkeys, hplaces⟩
  intro k b
  rw [h.lookup]
  by_cases hkb : b = a ∧ k = key
  · obtain ⟨rfl, rfl⟩ := hkb
    exact iff_of_true ⟨v, by simp⟩ ⟨value, List.mem_cons_self⟩
  · rw [not_and] at hkb
    have hnot : ∀ w u : V, (b, k, w) ≠ (a, key, u) := by
      intro w u heq
      simp only [Prod.mk.injEq] at heq
      exact hkb heq.1 heq.2.1
    simp [hnot]

end Index

end Recency
