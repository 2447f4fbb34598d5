import Cppforge.Lsm.Proofs.Invariant

namespace Cppforge.Lsm
open Ordered

set_option linter.unusedSectionVars false

variable {Key Value : Type} [LinearOrder Key] [Inhabited Key] [Inhabited Value]

/-- The entry of a table for a key. -/
def entryOf (k : Key) (t : SSTable Key Value) : Option (SSTableEntry Key Value) :=
  t.entries.find? (fun e => decide (e.key = k))

/-- The entry a level answers with: that of the newest table holding the key. -/
def top (tables : List (SSTable Key Value)) (k : Key) : Option (SSTableEntry Key Value) :=
  (tables.mergeSort (fun a b => decide (b.id ≤ a.id))).findSome? (entryOf k)

/-- No table with a larger id holds the entry's key. -/
def IsTop (tables : List (SSTable Key Value)) (e : SSTableEntry Key Value) : Prop :=
  ∃ t ∈ tables, e ∈ t.entries ∧ ∀ u ∈ tables, ∀ x ∈ u.entries, x.key = e.key → u.id ≤ t.id

theorem entryOf_mem {t : SSTable Key Value} {e : SSTableEntry Key Value}
    (h : entryOf k t = some e) : e ∈ t.entries ∧ e.key = k :=
  ⟨List.mem_of_find?_eq_some h, by simpa using List.find?_some h⟩

theorem entryOf_none {t : SSTable Key Value} :
    entryOf k t = none ↔ ∀ e ∈ t.entries, e.key ≠ k := by
  simp [entryOf]

/-- A strictly increasing table has at most one entry for a key. -/
theorem Sorted.unique {es : List (SSTableEntry Key Value)} (h : Sorted es) (hx : x ∈ es)
    (hy : y ∈ es) (hk : x.key = y.key) : x = y := by
  induction es with
  | nil => simp at hx
  | cons e es ih =>
    obtain ⟨he, hs⟩ := List.pairwise_cons.mp h
    rcases List.mem_cons.mp hx with hxe | hx <;> rcases List.mem_cons.mp hy with hye | hy
    · rw [hxe, hye]
    · exact absurd hk (hxe ▸ (he y hy).ne)
    · exact absurd hk (hye ▸ (he x hx).ne')
    · exact ih hs hx hy

/-- The level's answer is the entry that no newer table overrides. -/
theorem top_eq_some {tables : List (SSTable Key Value)} (hok : ∀ t ∈ tables, TableOk t)
    (hid : (tables.map SSTable.id).Nodup) {e : SSTableEntry Key Value} :
    top tables k = some e ↔ IsTop tables e ∧ e.key = k := by
  have hsorted := @List.pairwise_mergeSort _ (fun a b : SSTable Key Value => decide (b.id ≤ a.id))
    (by simpa using fun a b c h h' => Nat.le_trans h' h) (by simpa using fun a b => Nat.le_total _ _)
    tables
  have hmem : ∀ t, t ∈ tables.mergeSort (fun a b => decide (b.id ≤ a.id)) ↔ t ∈ tables := by simp
  have hforward : ∀ e, top tables k = some e → IsTop tables e ∧ e.key = k := by
    intro e h
    obtain ⟨l₁, t, l₂, hl, he, hbefore⟩ := List.findSome?_eq_some_iff.mp h
    obtain ⟨hm, hk⟩ := entryOf_mem he
    rw [hl] at hsorted hmem
    refine ⟨⟨t, (hmem t).mp (by simp), hm, ?_⟩, hk⟩
    intro u hu x hx hxk
    rcases List.mem_append.mp ((hmem u).mpr hu) with hu | hu
    · exact absurd (hxk.trans hk) (entryOf_none.mp (hbefore u hu) x hx)
    · rcases List.mem_cons.mp hu with rfl | hu
      · exact Nat.le_refl _
      · have := (List.pairwise_cons.mp (List.pairwise_append.mp hsorted).2.1).1 u hu
        simpa using this
  constructor
  · exact hforward e
  · rintro ⟨⟨t, ht, he, hmax⟩, hk⟩
    cases hf : top tables k with
    | none =>
      have := List.findSome?_eq_none_iff.mp hf t ((hmem t).mpr ht)
      exact absurd hk (entryOf_none.mp this e he)
    | some e' =>
      obtain ⟨⟨t', ht', he', hmax'⟩, hk'⟩ := hforward e' hf
      have hle := hmax t' ht' e' he' (hk'.trans hk.symm)
      have hge := hmax' t ht e he (hk.trans hk'.symm)
      have hsame := List.inj_on_of_nodup_map hid ht ht' (le_antisymm hge hle)
      subst t'
      rw [(hok t ht).2.unique he he' (hk.trans hk'.symm)]

theorem top_eq_none {tables : List (SSTable Key Value)} :
    top tables k = none ↔ ∀ t ∈ tables, ∀ e ∈ t.entries, e.key ≠ k := by
  simp [top, entryOf_none]

@[simp] theorem top_nil : top ([] : List (SSTable Key Value)) k = none := top_eq_none.mpr (by simp)

section Lookup
variable {bloom : List Key → Key → Bool} (hb : ∀ ks k, k ∈ ks → bloom ks k = true)

/-- What the source reports for a found entry. -/
def answer : Option (SSTableEntry Key Value) → LevelResult Value
  | none => .notFound
  | some e => LSMTree.report (e.value, e.tombstone)

theorem get_of_mem {t : SSTable Key Value} (h : TableOk t) {e : SSTableEntry Key Value}
    (hb : ∀ ks k, k ∈ ks → bloom ks k = true) (he : e ∈ t.entries) :
    t.get bloom e.key = some (e.value, e.tombstone) := by
  have hbloom := hb (t.entries.map SSTableEntry.key) e.key (List.mem_map.mpr ⟨e, he, rfl⟩)
  have hlow : t.lowerBound e.key = e :: (t.lowerBound e.key).tail := by
    obtain ⟨A, B, hAB⟩ := List.append_of_mem he
    have hA : ∀ x ∈ A, less x.key e.key = true := by
      intro x hx
      have hs := h.2
      rw [Sorted, hAB, List.pairwise_append] at hs
      exact less_iff.mpr (hs.2.2 x hx e List.mem_cons_self)
    unfold SSTable.lowerBound
    rw [hAB, List.dropWhile_append_of_pos hA, List.dropWhile_cons_of_neg (by simp [less])]
    rfl
  unfold SSTable.get
  rw [hbloom, h.empty_eq, less_false_iff.mpr (minKey_le h he), less_false_iff.mpr (le_maxKey h he),
    hlow]
  simp

theorem get_of_not_mem {t : SSTable Key Value} (h : ∀ e ∈ t.entries, e.key ≠ k) :
    t.get bloom k = none := by
  unfold SSTable.get
  split
  · rfl
  · split
    · rfl
    · split
      · rename_i e rest hl
        have hm : e ∈ t.entries := by
          apply (List.dropWhile_sublist (fun e => less e.key k)).subset
          rw [SSTable.lowerBound] at hl
          rw [hl]
          exact List.mem_cons_self
        simp [h e hm]
      · rfl

/-- With a filter that has no false negatives the table's lookup is exact. -/
theorem get_eq {t : SSTable Key Value} (h : TableOk t) (hb : ∀ ks k, k ∈ ks → bloom ks k = true)
    (k : Key) : t.get bloom k = (entryOf k t).map (fun e => (e.value, e.tombstone)) := by
  cases hf : entryOf k t with
  | none => exact get_of_not_mem (entryOf_none.mp hf)
  | some e =>
    obtain ⟨hm, rfl⟩ := entryOf_mem hf
    exact get_of_mem h hb hm

/-- Outside a table's range it has no entry. -/
theorem entryOf_outside {t : SSTable Key Value} (h : TableOk t)
    (ho : (less k t.minKey || less t.maxKey k) = true) : entryOf k t = none := by
  refine entryOf_none.mpr ?_
  rintro e he rfl
  simp only [Bool.or_eq_true, less_iff] at ho
  rcases ho with ho | ho
  · exact absurd (minKey_le h he) ho.not_ge
  · exact absurd (le_maxKey h he) ho.not_ge

theorem searchNewestFirst_eq {tables : List (SSTable Key Value)} (hok : ∀ t ∈ tables, TableOk t)
    (hb : ∀ ks k, k ∈ ks → bloom ks k = true) (k : Key) :
    LSMTree.searchNewestFirst bloom k tables = answer (tables.findSome? (entryOf k)) := by
  induction tables with
  | nil => rfl
  | cons t ts ih =>
    have ht := hok t List.mem_cons_self
    have ih := ih (fun u hu => hok u (List.mem_cons_of_mem _ hu))
    unfold LSMTree.searchNewestFirst
    rw [ht.empty_eq, List.findSome?_cons]
    simp only [Bool.false_eq_true, ↓reduceIte]
    split
    · rename_i ho
      rw [entryOf_outside ht ho]
      exact ih
    · rw [get_eq ht hb]
      cases entryOf k t with
      | none => exact ih
      | some e => rfl

/-- Binary search by least key lands on the table holding the key, if there is one. -/
theorem candidate_eq {tables : List (SSTable Key Value)} (hok : ∀ t ∈ tables, TableOk t)
    (hranged : tables.Pairwise Below) {t : SSTable Key Value} (ht : t ∈ tables)
    (he : e ∈ t.entries) : LSMTree.candidate tables e.key = some t := by
  obtain ⟨A, B, rfl⟩ := List.append_of_mem ht
  obtain ⟨_, htB, hA⟩ := List.pairwise_append.mp hranged
  have hbefore : ∀ u ∈ A, (!less e.key u.minKey) = true := by
    intro u hu
    obtain ⟨x, hx, hk⟩ := minKey_mem (hok u (by simp [hu]))
    have := hA u hu t List.mem_cons_self x hx e he
    simp [less, ← hk, this.le]
  have hself : (!less e.key t.minKey) = true := by
    simp [less, minKey_le (hok t ht) he]
  have hafter : B.takeWhile (fun u => !less e.key u.minKey) = [] := by
    cases B with
    | nil => rfl
    | cons b B =>
      obtain ⟨x, hx, hk⟩ := minKey_mem (hok b (by simp))
      have := (List.pairwise_cons.mp htB).1 b List.mem_cons_self e he x hx
      rw [List.takeWhile_cons_of_neg]
      simp [less, ← hk, this]
  unfold LSMTree.candidate
  rw [List.takeWhile_append_of_pos hbefore, List.takeWhile_cons, hself, hafter]
  simp

/-- A level in range order answers from its single table with the key. -/
theorem top_ranged {tables : List (SSTable Key Value)} (hok : ∀ t ∈ tables, TableOk t)
    (hid : (tables.map SSTable.id).Nodup) (hranged : tables.Pairwise Below)
    {t : SSTable Key Value} (ht : t ∈ tables) (he : e ∈ t.entries) : top tables e.key = some e := by
  refine (top_eq_some hok hid).mpr ⟨⟨t, ht, he, ?_⟩, rfl⟩
  intro u hu x hx hk
  by_cases hut : u = t
  · rw [hut]
  · have hp : tables.Pairwise Apart := hranged.imp .inl
    rcases hp.forall hu ht hut with h | h
    · exact absurd hk (h x hx e he).ne
    · exact absurd hk (h e he x hx).ne'

theorem searchLevel_eq {s : LSMTree Key Value} (h : Inv s)
    (hb : ∀ ks k, k ∈ ks → bloom ks k = true) (k : Key) (level : Nat) (hl : level < s.levels.length) :
    s.searchLevel bloom k level = answer (top (s.levels.getD level []) k) := by
  have hget : s.levels.getD level [] = s.levels[level] := by simp [hl]
  have hm : s.levels[level] ∈ s.levels := List.getElem_mem hl
  have hok := h.tables _ hm
  unfold LSMTree.searchLevel
  rw [hget]
  split
  · exact searchNewestFirst_eq (fun t ht => hok t (by simpa using ht)) hb k
  · rename_i hne
    have hranged : s.levels[level].Pairwise Below := by
      apply h.ranged
      refine List.mem_of_getElem? (i := level - 1) ?_
      rw [List.getElem?_tail, Nat.sub_add_cancel (by omega)]
      exact List.getElem?_eq_getElem hl
    dsimp only
    cases hf : top s.levels[level] k with
    | none =>
      -- whichever table the search lands on does not hold the key
      have hno := top_eq_none.mp hf
      split
      · rfl
      · rename_i t hc
        rw [get_of_not_mem (hno t (List.mem_of_getElem? hc))]
        simp [answer]
    | some e =>
      obtain ⟨⟨t, ht, he, _⟩, rfl⟩ := (top_eq_some hok (h.unique _ hm)).mp hf
      rw [candidate_eq hok hranged ht he]
      simp [get_of_mem (hok t ht) hb he, (hok t ht).empty_eq, less_false_iff.mpr (minKey_le (hok t ht) he),
        less_false_iff.mpr (le_maxKey (hok t ht) he), answer]

end Lookup

/-- The value a binding stands for, nothing when it is a deletion. -/
def live (b : Value × Bool) : Option Value := if b.2 then none else some b.1

/-- The binding the tree holds for a key, the most recent source first. -/
def view (s : LSMTree Key Value) (k : Key) : Option (Value × Bool) :=
  ((MemTable.find s.memtable k).map (fun iv => (iv.value, iv.tombstone))).or
    ((s.levels.findSome? (fun l => top l k)).map (fun e => (e.value, e.tombstone)))

theorem searchLevels_eq {s : LSMTree Key Value} {bloom : List Key → Key → Bool} (h : Inv s)
    (hb : ∀ ks k, k ∈ ks → bloom ks k = true) (k : Key) (idxs : List Nat)
    (hl : ∀ i ∈ idxs, i < s.levels.length) :
    s.searchLevels bloom k idxs =
      ((idxs.findSome? (fun i => top (s.levels.getD i []) k)).map
        (fun e => (e.value, e.tombstone))).bind live := by
  induction idxs with
  | nil => rfl
  | cons i idxs ih =>
    unfold LSMTree.searchLevels
    rw [searchLevel_eq h hb k i (hl i List.mem_cons_self), List.findSome?_cons,
      ih (fun j hj => hl j (List.mem_cons_of_mem _ hj))]
    cases top (s.levels.getD i []) k with
    | none => rfl
    | some e => cases ht : e.tombstone <;> simp [answer, LSMTree.report, live, ht]

/-- A lookup reads the most recent binding. -/
theorem get_eq_view {s : LSMTree Key Value} {bloom : List Key → Key → Bool} (h : Inv s)
    (hb : ∀ ks k, k ∈ ks → bloom ks k = true) (k : Key) :
    s.get bloom k = (view s k).bind live := by
  unfold LSMTree.get view
  rw [h.sealed]
  cases hf : MemTable.find s.memtable k with
  | some iv => cases ht : iv.tombstone <;> simp [live, ht]
  | none =>
    have hmap : (List.range s.levels.length).map (fun i => s.levels.getD i []) = s.levels := by
      apply List.ext_getElem (by simp)
      intro i h1 h2
      simp [h2]
    have hfind : (List.range s.levels.length).findSome? (fun i => top (s.levels.getD i []) k) =
        s.levels.findSome? (fun l => top l k) := by
      conv => rhs; rw [← hmap, List.findSome?_map]
      rfl
    simp only [Option.bind_none]
    rw [searchLevels_eq h hb k _ (fun i hi => List.mem_range.mp hi), hfind]
    simp

end Cppforge.Lsm
