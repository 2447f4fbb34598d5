import Cppforge.Lsm.Proofs.Merge
import Mathlib.Data.List.Chain
import Mathlib.Data.List.Pairwise

namespace Cppforge.Lsm
open Ordered

set_option linter.unusedSectionVars false

variable {Key Value : Type} [LinearOrder Key] [Inhabited Key] [Inhabited Value]

/-- A table as the tree builds them: non-empty, with strictly increasing keys. -/
def TableOk (t : SSTable Key Value) : Prop := t.entries ≠ [] ∧ Sorted t.entries

/-- Every key of the first table is below every key of the second. -/
def Below (t u : SSTable Key Value) : Prop := ∀ x ∈ t.entries, ∀ y ∈ u.entries, x.key < y.key

/-- Every id of the first level is larger than every id of the second. -/
def IdsAbove (upper lower : List (SSTable Key Value)) : Prop :=
  ∀ t ∈ upper, ∀ u ∈ lower, u.id < t.id

/-- The invariant of the tree between two calls. -/
structure Inv (s : LSMTree Key Value) : Prop where
  memSorted : s.memtable.Pairwise (fun a b => a.1 < b.1)
  sealed : s.immutableMemtable = none
  tables : ∀ l ∈ s.levels, ∀ t ∈ l, TableOk t
  ranged : ∀ l ∈ s.levels.tail, l.Pairwise Below
  unique : ∀ l ∈ s.levels, (l.map SSTable.id).Nodup
  recency : s.levels.IsChain IdsAbove
  fresh : ∀ l ∈ s.levels, ∀ t ∈ l, t.id < s.nextSSTableId

theorem minKey_le {t : SSTable Key Value} (h : TableOk t) (hx : x ∈ t.entries) :
    t.minKey ≤ x.key := by
  obtain ⟨_, hs⟩ := h
  unfold SSTable.minKey
  cases he : t.entries with
  | nil => simp [he] at hx
  | cons e es =>
    rw [he] at hx hs
    exact mem_head_le hs hx

theorem minKey_mem {t : SSTable Key Value} (h : TableOk t) : ∃ x ∈ t.entries, x.key = t.minKey := by
  unfold SSTable.minKey
  cases he : t.entries with
  | nil => exact absurd he h.1
  | cons e es => exact ⟨e, List.mem_cons_self, rfl⟩

theorem maxKey_mem {t : SSTable Key Value} (h : TableOk t) : ∃ x ∈ t.entries, x.key = t.maxKey := by
  unfold SSTable.maxKey
  refine ⟨t.entries.getLast h.1, List.getLast_mem h.1, ?_⟩
  rw [List.getLast?_eq_getLast_of_ne_nil h.1]
  rfl

theorem le_maxKey {t : SSTable Key Value} (h : TableOk t) (hx : x ∈ t.entries) :
    x.key ≤ t.maxKey := by
  obtain ⟨hne, hs⟩ := h
  have hmax : t.maxKey = (t.entries.getLast hne).key := by
    unfold SSTable.maxKey
    rw [List.getLast?_eq_getLast_of_ne_nil hne]
    rfl
  rw [hmax]
  have hsplit := List.dropLast_append_getLast hne
  rw [← hsplit] at hx
  unfold Sorted at hs
  rw [← hsplit, List.pairwise_append] at hs
  rcases List.mem_append.mp hx with hx | hx
  · exact (hs.2.2 x hx _ List.mem_cons_self).le
  · rw [List.mem_singleton.mp hx]

theorem below_iff {t u : SSTable Key Value} (ht : TableOk t) (hu : TableOk u) :
    Below t u ↔ t.maxKey < u.minKey := by
  constructor
  · intro h
    obtain ⟨x, hx, hxk⟩ := maxKey_mem ht
    obtain ⟨y, hy, hyk⟩ := minKey_mem hu
    rw [← hxk, ← hyk]
    exact h x hx y hy
  · intro h x hx y hy
    exact (le_maxKey ht hx).trans_lt (h.trans_le (minKey_le hu hy))

theorem minKey_le_maxKey {t : SSTable Key Value} (h : TableOk t) : t.minKey ≤ t.maxKey := by
  obtain ⟨x, hx, hk⟩ := maxKey_mem h
  rw [← hk]
  exact minKey_le h hx

theorem TableOk.empty_eq {t : SSTable Key Value} (h : TableOk t) : t.empty = false := by
  cases he : t.entries with
  | nil => exact absurd he h.1
  | cons e es => simp [SSTable.empty, he]

/-- Widening by a table covers both the old range and the table. -/
theorem extendRange_covers {t : SSTable Key Value} (h : TableOk t) (lo hi : Key) :
    ∃ lo' hi', LSMTree.extendRange (some (lo, hi)) t = some (lo', hi') ∧
      lo' ≤ lo ∧ hi ≤ hi' ∧ lo' ≤ t.minKey ∧ t.maxKey ≤ hi' := by
  unfold LSMTree.extendRange
  rw [h.empty_eq]
  refine ⟨_, _, rfl, ?_, ?_, ?_, ?_⟩
  all_goals
    split
    · rename_i hc
      first | exact le_rfl | exact (less_iff.mp hc).le
    · rename_i hc
      first | exact le_rfl | exact less_false_iff.mp (by simpa using hc)

/-- The range folded over the source level covers each of its tables. -/
theorem globalRange_covers {tables : List (SSTable Key Value)} (h : ∀ t ∈ tables, TableOk t)
    (hne : tables ≠ []) : ∃ lo hi, LSMTree.globalRange tables = some (lo, hi) ∧
      ∀ t ∈ tables, lo ≤ t.minKey ∧ t.maxKey ≤ hi := by
  -- the fold only widens the range it starts from
  suffices H : ∀ (ts : List (SSTable Key Value)) (lo hi : Key), (∀ t ∈ ts, TableOk t) →
      ∃ lo' hi', ts.foldl LSMTree.extendRange (some (lo, hi)) = some (lo', hi') ∧
        lo' ≤ lo ∧ hi ≤ hi' ∧ ∀ t ∈ ts, lo' ≤ t.minKey ∧ t.maxKey ≤ hi' by
    cases tables with
    | nil => exact absurd rfl hne
    | cons t ts =>
      obtain ⟨lo, hi, hf, hlo, hhi, hall⟩ :=
        H ts t.minKey t.maxKey (fun u hu => h u (List.mem_cons_of_mem _ hu))
      refine ⟨lo, hi, ?_, ?_⟩
      · unfold LSMTree.globalRange
        rw [List.foldl_cons, LSMTree.extendRange, (h t List.mem_cons_self).empty_eq]
        exact hf
      · intro u hu
        rcases List.mem_cons.mp hu with rfl | hu
        · exact ⟨hlo, hhi⟩
        · exact hall u hu
  intro ts
  induction ts with
  | nil => exact fun lo hi _ => ⟨lo, hi, rfl, le_rfl, le_rfl, by simp⟩
  | cons t ts ih =>
    intro lo hi hts
    obtain ⟨lo1, hi1, he, hlo1, hhi1, htlo, hthi⟩ :=
      extendRange_covers (hts t List.mem_cons_self) lo hi
    obtain ⟨lo2, hi2, hf, hlo2, hhi2, hall⟩ :=
      ih lo1 hi1 (fun u hu => hts u (List.mem_cons_of_mem _ hu))
    refine ⟨lo2, hi2, by rw [List.foldl_cons, he, hf], hlo2.trans hlo1, hhi1.trans hhi2, ?_⟩
    intro u hu
    rcases List.mem_cons.mp hu with rfl | hu
    · exact ⟨hlo2.trans htlo, hthi.trans hhi2⟩
    · exact hall u hu

/-- The two tables' ranges do not meet. -/
def Apart (t u : SSTable Key Value) : Prop := Below t u ∨ Below u t

instance : Std.Symm (Apart : SSTable Key Value → SSTable Key Value → Prop) :=
  ⟨fun _ _ h => h.symm⟩

/-- Tables apart from one another come out of the sort by least key in range order. -/
theorem sort_below {tables : List (SSTable Key Value)} (hok : ∀ t ∈ tables, TableOk t)
    (h : tables.Pairwise Apart) :
    (tables.mergeSort (fun a b => !LSMTree.tableLess b a)).Pairwise Below := by
  have hsorted := @List.pairwise_mergeSort _ (fun a b : SSTable Key Value => !LSMTree.tableLess b a)
    (by
      intro a b c
      unfold LSMTree.tableLess less
      cases a.empty <;> cases b.empty <;> cases c.empty <;> simp
      exact fun h h' => h.trans h')
    (by
      intro a b
      unfold LSMTree.tableLess less
      cases a.empty <;> cases b.empty <;> simp
      exact le_total _ _) tables
  have hperm := List.mergeSort_perm tables (fun a b => !LSMTree.tableLess b a)
  have hapart := (hperm.pairwise_iff (fun {a b} hab => Or.symm hab)).mpr h
  refine (hsorted.and hapart).imp_of_mem ?_
  intro a b ha hb hab
  have hoa := hok a (hperm.mem_iff.mp ha)
  have hob := hok b (hperm.mem_iff.mp hb)
  obtain ⟨hle, hlt | hlt⟩ := hab
  · exact hlt
  · simp only [LSMTree.tableLess, hoa.empty_eq, hob.empty_eq, Bool.and_self, Bool.false_eq_true,
      ↓reduceIte, Bool.not_eq_true', less_false_iff] at hle
    have := (below_iff hob hoa).mp hlt
    exact absurd ((minKey_le_maxKey hob).trans_lt this) hle.not_gt

/-- A destination table left out of a compaction lies on one side of all inputs:
the overlapping destination tables cannot reach past it. -/
theorem kept_side {src dst : List (SSTable Key Value)} {lo hi : Key} {t : SSTable Key Value}
    (hsrc : ∀ u ∈ src, TableOk u) (hdst : ∀ u ∈ dst, TableOk u) (hranged : dst.Pairwise Below)
    (hcover : ∀ u ∈ src, lo ≤ u.minKey ∧ u.maxKey ≤ hi) (ht : t ∈ dst)
    (hkept : LSMTree.overlaps lo hi t = false) :
    (∀ u ∈ src ++ dst.filter (LSMTree.overlaps lo hi), Below u t) ∨
      (∀ u ∈ src ++ dst.filter (LSMTree.overlaps lo hi), Below t u) := by
  have hok := hdst t ht
  have hapart : ∀ u ∈ dst, LSMTree.overlaps lo hi u = true → Below u t ∨ Below t u := by
    intro u hu ho
    have hne : u ≠ t := fun he => by rw [he, hkept] at ho; cases ho
    have hp : dst.Pairwise Apart := hranged.imp .inl
    exact hp.forall hu ht hne
  have hmeet : ∀ u ∈ dst, LSMTree.overlaps lo hi u = true → lo ≤ u.maxKey ∧ u.minKey ≤ hi := by
    intro u hu ho
    simpa [LSMTree.overlaps, (hdst u hu).empty_eq, less] using ho
  simp only [LSMTree.overlaps, hok.empty_eq, Bool.not_false, Bool.true_and, Bool.not_eq_false',
    Bool.or_eq_true, less_iff] at hkept
  rcases hkept with hleft | hright
  · right
    intro u hu
    rcases List.mem_append.mp hu with hu | hu
    · exact (below_iff hok (hsrc u hu)).mpr (hleft.trans_le (hcover u hu).1)
    · obtain ⟨hu, ho⟩ := List.mem_filter.mp hu
      rcases hapart u hu ho with h | h
      · have := (below_iff (hdst u hu) hok).mp h
        exact absurd ((hmeet u hu ho).1.trans_lt (this.trans_le (minKey_le_maxKey hok))) hleft.not_gt
      · exact h
  · left
    intro u hu
    rcases List.mem_append.mp hu with hu | hu
    · exact (below_iff (hsrc u hu) hok).mpr ((hcover u hu).2.trans_lt hright)
    · obtain ⟨hu, ho⟩ := List.mem_filter.mp hu
      rcases hapart u hu ho with h | h
      · exact h
      · have := (below_iff hok (hdst u hu)).mp h
        exact absurd (((minKey_le_maxKey hok).trans_lt this).trans_le (hmeet u hu ho).2) hright.not_gt

/-- The level a compaction writes, from the kept tables and the merge output. -/
def compacted (kept out : List (SSTable Key Value)) : List (SSTable Key Value) :=
  (kept ++ out).mergeSort (fun a b => !LSMTree.tableLess b a)

@[simp] theorem mem_compacted {kept out : List (SSTable Key Value)} {t : SSTable Key Value} :
    t ∈ compacted kept out ↔ t ∈ kept ∨ t ∈ out := by
  simp [compacted]

theorem Batched.tables_ok {start next : Nat} {es : List (SSTableEntry Key Value)}
    {tables : List (SSTable Key Value)} (h : Batched start es tables next) (hs : Sorted es) :
    (∀ t ∈ tables, TableOk t) ∧ tables.Pairwise Below := by
  rw [← h.contents] at hs
  obtain ⟨hin, hbetween⟩ := List.pairwise_flatMap.mp hs
  exact ⟨fun t ht => ⟨h.nonempty t ht, hin t ht⟩, hbetween⟩

theorem Batched.mem_entries {start next : Nat} {es : List (SSTableEntry Key Value)}
    {tables : List (SSTable Key Value)} (h : Batched start es tables next)
    {t : SSTable Key Value} (ht : t ∈ tables) (hx : x ∈ t.entries) : x ∈ es := by
  rw [← h.contents]
  exact List.mem_flatMap.mpr ⟨t, ht, hx⟩

theorem Batched.id_bounds {start next : Nat} {es : List (SSTableEntry Key Value)}
    {tables : List (SSTable Key Value)} (h : Batched start es tables next)
    {t : SSTable Key Value} (ht : t ∈ tables) : start ≤ t.id ∧ t.id < next := by
  have hm : t.id ∈ List.range' start tables.length := by
    rw [← h.ids]
    exact List.mem_map.mpr ⟨t, ht, rfl⟩
  rw [h.next_eq]
  simpa using hm

/-- The written level is again a run of tables in range order. -/
theorem compacted_below {src dst out : List (SSTable Key Value)} {lo hi : Key} {start next : Nat}
    {es : List (SSTableEntry Key Value)}
    (hsrc : ∀ u ∈ src, TableOk u) (hdst : ∀ u ∈ dst, TableOk u) (hranged : dst.Pairwise Below)
    (hcover : ∀ u ∈ src, lo ≤ u.minKey ∧ u.maxKey ≤ hi)
    (hout : Batched start es out next) (hs : Sorted es)
    (hfrom : ∀ e ∈ es, ∃ u ∈ src ++ dst.filter (LSMTree.overlaps lo hi), e ∈ u.entries) :
    (compacted (dst.filter (fun t => !LSMTree.overlaps lo hi t)) out).Pairwise Below := by
  obtain ⟨hok, hbelow⟩ := hout.tables_ok hs
  apply sort_below
  · intro t ht
    rcases List.mem_append.mp ht with ht | ht
    · exact hdst t (List.mem_filter.mp ht).1
    · exact hok t ht
  · refine List.pairwise_append.mpr
      ⟨(hranged.sublist List.filter_sublist).imp .inl, hbelow.imp .inl, ?_⟩
    intro t ht o ho
    obtain ⟨ht, hkept⟩ := List.mem_filter.mp ht
    rcases kept_side hsrc hdst hranged hcover ht (by simpa using hkept) with h | h
    · right
      intro x hx y hy
      obtain ⟨u, hu, hx⟩ := hfrom x (hout.mem_entries ho hx)
      exact h u hu x hx y hy
    · left
      intro x hx y hy
      obtain ⟨u, hu, hy⟩ := hfrom y (hout.mem_entries ho hy)
      exact h u hu x hx y hy

/-- What one compaction does to a tree whose tables are well formed: the source
level is emptied into the level below it. -/
theorem compactLevel_cases {s : LSMTree Key Value} {level : Nat}
    (hlevel : level + 1 < s.levels.length) (hok : ∀ l ∈ s.levels, ∀ t ∈ l, TableOk t) :
    s.compactLevel level = s ∨ ∃ A src dst B lo hi out next,
      s.levels = A ++ src :: dst :: B ∧ src ≠ [] ∧
      (∀ u ∈ src, lo ≤ u.minKey ∧ u.maxKey ≤ hi) ∧
      mergeTables s.options (src ++ dst.filter (LSMTree.overlaps lo hi)) s.nextSSTableId =
        (out, next) ∧
      s.compactLevel level = { s with
        levels := A ++ [] :: compacted (dst.filter (fun t => !LSMTree.overlaps lo hi t)) out :: B
        nextSSTableId := next } := by
  obtain ⟨A, src, dst, B, hl, rfl⟩ : ∃ A src dst B, s.levels = A ++ src :: dst :: B ∧
      A.length = level := by
    refine ⟨s.levels.take level, s.levels[level], s.levels[level + 1], s.levels.drop (level + 2),
      ?_, by rw [List.length_take]; omega⟩
    rw [List.getElem_cons_drop, List.getElem_cons_drop, List.take_append_drop]
  have hsrc : s.levels.getD A.length [] = src := by simp [hl]
  have hdst : s.levels.getD (A.length + 1) [] = dst := by simp [hl]
  by_cases hne : src = []
  · left
    unfold LSMTree.compactLevel
    simp only [hsrc, hne, List.isEmpty_nil, ↓reduceIte]
  · right
    have hm : src ∈ s.levels := by simp [hl]
    obtain ⟨lo, hi, hrange, hcover⟩ := globalRange_covers (hok src hm) hne
    obtain ⟨out, next, hmerge⟩ : ∃ out next, mergeTables s.options
        (src ++ dst.filter (LSMTree.overlaps lo hi)) s.nextSSTableId = (out, next) := ⟨_, _, rfl⟩
    refine ⟨A, src, dst, B, lo, hi, out, next, hl, hne, hcover, hmerge, ?_⟩
    have hempty : src.isEmpty = false := by simpa using hne
    unfold LSMTree.compactLevel
    simp only [hsrc, hdst, hempty, hrange, hmerge, Bool.false_eq_true, ↓reduceIte, compacted]
    congr 1
    rw [hl, List.set_append_right _ _ le_rfl, List.set_append_right _ _ (by omega)]
    simp

/-- A tree that stores nothing. -/
theorem inv_of_empty {s : LSMTree Key Value} {n : Nat} (hmem : s.memtable = [])
    (hsealed : s.immutableMemtable = none) (hlevels : s.levels = List.replicate n []) : Inv s := by
  have hnil : ∀ l ∈ s.levels, l = [] := by
    rw [hlevels]
    exact fun l hl => List.eq_of_mem_replicate hl
  refine ⟨?_, hsealed, ?_, ?_, ?_, ?_, ?_⟩
  · rw [hmem]
    exact .nil
  · intro l hl t ht
    simp [hnil l hl] at ht
  · intro l hl
    simp [hnil l (List.mem_of_mem_tail hl)]
  · intro l hl
    simp [hnil l hl]
  · rw [hlevels]
    exact List.isChain_replicate_of_rel _ (by simp [IdsAbove])
  · intro l hl t ht
    simp [hnil l hl] at ht

theorem inv_init (options : LSMTreeOptions) : Inv (LSMTree.init options : LSMTree Key Value) :=
  inv_of_empty rfl rfl rfl

/-- Adjacent levels stay in recency order when the source is emptied and the
destination keeps old tables next to fresh ones. -/
theorem recency_compact {A B : List (List (SSTable Key Value))} {src dst dst' : List (SSTable Key Value)}
    (h : (A ++ src :: dst :: B).IsChain IdsAbove)
    (hdst : ∀ t ∈ dst', t ∈ dst ∨ ∀ l ∈ B, ∀ u ∈ l, u.id < t.id) :
    (A ++ [] :: dst' :: B).IsChain IdsAbove := by
  rw [List.isChain_append] at h ⊢
  obtain ⟨hA, hrest, _⟩ := h
  refine ⟨hA, ?_, ?_⟩
  · rw [List.isChain_cons_cons] at hrest ⊢
    refine ⟨by simp [IdsAbove], ?_⟩
    have htail := hrest.2
    cases B with
    | nil => simp
    | cons b B =>
      rw [List.isChain_cons_cons] at htail ⊢
      refine ⟨?_, htail.2⟩
      intro t ht u hu
      rcases hdst t ht with h | h
      · exact htail.1 t h u hu
      · exact h b List.mem_cons_self u hu
  · intro a _ b hb
    simp only [List.head?_cons, Option.mem_some_iff] at hb
    subst b
    simp [IdsAbove]

/-- What a compaction leaves in the destination level: old tables next to fresh
ones, again in range order. -/
structure Written (s : LSMTree Key Value) (dst dst' : List (SSTable Key Value)) (next : Nat) :
    Prop where
  tables : ∀ t ∈ dst', TableOk t
  ranged : dst'.Pairwise Below
  unique : (dst'.map SSTable.id).Nodup
  origin : ∀ t ∈ dst', t ∈ dst ∨ s.nextSSTableId ≤ t.id ∧ t.id < next
  next_le : s.nextSSTableId ≤ next

theorem Inv.dst_ranged {s : LSMTree Key Value} (h : Inv s) (hl : s.levels = A ++ src :: dst :: B) :
    dst.Pairwise Below := by
  apply h.ranged
  cases A <;> simp [hl]

theorem Inv.inputs_ok {s : LSMTree Key Value} (h : Inv s) (hl : s.levels = A ++ src :: dst :: B)
    (p : SSTable Key Value → Bool) : ∀ t ∈ src ++ dst.filter p, TableOk t := by
  intro t ht
  rcases List.mem_append.mp ht with ht | ht
  · exact h.tables src (by simp [hl]) t ht
  · exact h.tables dst (by simp [hl]) t (List.mem_filter.mp ht).1

theorem written {s : LSMTree Key Value} (h : Inv s) (hl : s.levels = A ++ src :: dst :: B)
    {lo hi : Key} (hcover : ∀ u ∈ src, lo ≤ u.minKey ∧ u.maxKey ≤ hi)
    (hmerge : mergeTables s.options (src ++ dst.filter (LSMTree.overlaps lo hi)) s.nextSSTableId =
      (out, next)) :
    Written s dst (compacted (dst.filter (fun t => !LSMTree.overlaps lo hi t)) out) next := by
  obtain ⟨es, hsorted, hfrom, hbatch, _⟩ := mergeTables_batched s.options s.nextSSTableId
    (fun t ht => (h.inputs_ok hl (LSMTree.overlaps lo hi) t ht).2)
  rw [hmerge] at hbatch
  dsimp only at hbatch
  obtain ⟨houtok, _⟩ := hbatch.tables_ok hsorted
  have hdst := h.tables dst (by simp [hl])
  have hkept : ∀ t ∈ dst.filter (fun t => !LSMTree.overlaps lo hi t), t ∈ dst :=
    fun t ht => (List.mem_filter.mp ht).1
  refine ⟨?_, compacted_below (h.tables src (by simp [hl])) hdst (h.dst_ranged hl) hcover hbatch
    hsorted hfrom, ?_, ?_, ?_⟩
  · intro t ht
    rcases mem_compacted.mp ht with ht | ht
    · exact hdst t (hkept t ht)
    · exact houtok t ht
  · refine ((List.mergeSort_perm _ _).map SSTable.id).nodup_iff.mpr ?_
    rw [List.map_append, List.nodup_append]
    refine ⟨(h.unique dst (by simp [hl])).sublist (List.filter_sublist.map _), ?_, ?_⟩
    · rw [hbatch.ids]
      exact List.nodup_range'
    · intro i hi j hj
      obtain ⟨t, ht, rfl⟩ := List.mem_map.mp hi
      obtain ⟨o, ho, rfl⟩ := List.mem_map.mp hj
      have := h.fresh dst (by simp [hl]) t (hkept t ht)
      have := (hbatch.id_bounds ho).1
      omega
  · intro t ht
    rcases mem_compacted.mp ht with ht | ht
    · exact .inl (hkept t ht)
    · exact .inr (hbatch.id_bounds ht)
  · rw [hbatch.next_eq]
    omega

theorem Written.inv {s : LSMTree Key Value} (hw : Written s dst dst' next) (h : Inv s)
    (hl : s.levels = A ++ src :: dst :: B) :
    Inv { s with levels := A ++ [] :: dst' :: B, nextSSTableId := next } := by
  have hok := h.tables
  have hranged := h.ranged
  have hunique := h.unique
  have hfresh := h.fresh
  have hrec := h.recency
  rw [hl] at hok hranged hunique hfresh hrec
  simp only [List.forall_mem_append, List.forall_mem_cons] at hok hunique hfresh
  have hnew : ∀ t ∈ dst', t.id < next := by
    intro t ht
    rcases hw.origin t ht with h | h
    · exact (hfresh.2.2.1 t h).trans_le hw.next_le
    · exact h.2
  refine ⟨h.memSorted, h.sealed, ?_, ?_, ?_, ?_, ?_⟩
  · simp only [List.forall_mem_append, List.forall_mem_cons]
    exact ⟨hok.1, by simp, hw.tables, hok.2.2.2⟩
  · cases A with
    | nil =>
      simp only [List.nil_append, List.tail_cons, List.forall_mem_cons] at hranged ⊢
      exact ⟨hw.ranged, hranged.2⟩
    | cons a A =>
      simp only [List.cons_append, List.tail_cons, List.forall_mem_append,
        List.forall_mem_cons] at hranged ⊢
      exact ⟨hranged.1, .nil, hw.ranged, hranged.2.2.2⟩
  · simp only [List.forall_mem_append, List.forall_mem_cons]
    exact ⟨hunique.1, by simp, hw.unique, hunique.2.2.2⟩
  · refine recency_compact hrec ?_
    intro t ht
    rcases hw.origin t ht with h | h
    · exact .inl h
    · exact .inr (fun l hl u hu => (hfresh.2.2.2 l hl u hu).trans_le h.1)
  · simp only [List.forall_mem_append, List.forall_mem_cons]
    exact ⟨fun l hl t ht => (hfresh.1 l hl t ht).trans_le hw.next_le, by simp, hnew,
      fun l hl t ht => (hfresh.2.2.2 l hl t ht).trans_le hw.next_le⟩

theorem inv_compactLevel {s : LSMTree Key Value} {level : Nat} (h : Inv s)
    (hlevel : level + 1 < s.levels.length) : Inv (s.compactLevel level) := by
  rcases compactLevel_cases hlevel h.tables with he | ⟨A, src, dst, B, lo, hi, out, next, hl, _,
    hcover, hmerge, he⟩
  · rw [he]
    exact h
  · rw [he]
    exact (written h hl hcover hmerge).inv h hl

theorem inv_doCompact {s : LSMTree Key Value} (h : Inv s) : Inv s.doCompact := by
  unfold LSMTree.doCompact
  split
  · rename_i level hfind
    have := List.mem_range.mp (List.mem_of_find?_eq_some hfind)
    exact inv_compactLevel h (by omega)
  · exact h

/-- The tree after its MemTable went to level 0 as a table with a fresh id. -/
def flushed (s : LSMTree Key Value) (l0 : List (SSTable Key Value))
    (deeper : List (List (SSTable Key Value))) : LSMTree Key Value :=
  { s with
    memtable := []
    levels := (l0 ++ [⟨s.nextSSTableId, s.memtable.map LSMTree.toEntry⟩]) :: deeper
    nextSSTableId := s.nextSSTableId + 1 }

/-- Sealing then flushing, when no sealed MemTable is waiting. -/
theorem seal_flush_cases {s : LSMTree Key Value} (hi : s.immutableMemtable = none) :
    (s.memtable = [] ∧ s.sealMemTable.bind LSMTree.doFlush = some s) ∨
    (s.memtable ≠ [] ∧ s.levels = [] ∧ s.sealMemTable.bind LSMTree.doFlush = none) ∨
    ∃ l0 deeper, s.memtable ≠ [] ∧ s.levels = l0 :: deeper ∧
      s.sealMemTable.bind LSMTree.doFlush = some (flushed s l0 deeper) := by
  by_cases hm : s.memtable = []
  · left
    simp [LSMTree.sealMemTable, LSMTree.doFlush, hm, hi]
  · right
    cases hl : s.levels with
    | nil =>
      left
      simp [LSMTree.sealMemTable, LSMTree.doFlush, hm, hi, hl]
    | cons l0 deeper =>
      right
      refine ⟨l0, deeper, hm, rfl, ?_⟩
      simp [LSMTree.sealMemTable, LSMTree.doFlush, hm, hi, hl, flushed]

theorem flush_eq (s : LSMTree Key Value) :
    s.flush = (s.sealMemTable.bind LSMTree.doFlush).map LSMTree.doCompact := by
  unfold LSMTree.flush
  cases h : s.sealMemTable with
  | none => rfl
  | some s1 => cases h1 : s1.doFlush <;> simp [h1]

theorem maybeSealAndFlush_eq (s : LSMTree Key Value) :
    s.maybeSealAndFlush =
      if s.memtable.length < s.options.memtable_size.toNat then some s else s.flush := rfl

theorem inv_flushed {s : LSMTree Key Value} (h : Inv s) (hm : s.memtable ≠ [])
    (hl : s.levels = l0 :: deeper) : Inv (flushed s l0 deeper) := by
  have hok := h.tables
  have hranged := h.ranged
  have hunique := h.unique
  have hfresh := h.fresh
  have hrec := h.recency
  rw [hl] at hok hranged hunique hfresh hrec
  simp only [List.forall_mem_cons] at hok hunique hfresh
  have hnew : TableOk (⟨s.nextSSTableId, s.memtable.map LSMTree.toEntry⟩ : SSTable Key Value) :=
    ⟨by simpa using hm, List.pairwise_map.mpr h.memSorted⟩
  refine ⟨.nil, h.sealed, ?_, hranged, ?_, ?_, ?_⟩
  · simp only [flushed, List.forall_mem_cons, List.forall_mem_append]
    exact ⟨⟨hok.1, hnew, by simp⟩, hok.2⟩
  · simp only [flushed, List.forall_mem_cons]
    refine ⟨?_, hunique.2⟩
    rw [List.map_append, List.nodup_append]
    refine ⟨hunique.1, by simp, ?_⟩
    intro i hi j hj
    obtain ⟨t, ht, rfl⟩ := List.mem_map.mp hi
    simp only [List.map_cons, List.map_nil, List.mem_singleton] at hj
    have := hfresh.1 t ht
    omega
  · cases deeper with
    | nil => simp [flushed]
    | cons l1 deeper =>
      simp only [flushed, List.isChain_cons_cons, List.forall_mem_cons] at hrec hfresh ⊢
      refine ⟨?_, hrec.2⟩
      intro t ht u hu
      rcases List.mem_append.mp ht with ht | ht
      · exact hrec.1 t ht u hu
      · rw [List.mem_singleton.mp ht]
        exact hfresh.2.1 u hu
  · simp only [flushed, List.forall_mem_cons, List.forall_mem_append]
    exact ⟨⟨fun t ht => (hfresh.1 t ht).trans (Nat.lt_succ_self _), Nat.lt_succ_self _, by simp⟩,
      fun l hl t ht => (hfresh.2 l hl t ht).trans (Nat.lt_succ_self _)⟩

theorem inv_flush {s s' : LSMTree Key Value} (h : Inv s) (hf : s.flush = some s') : Inv s' := by
  rw [flush_eq] at hf
  rcases seal_flush_cases h.sealed with ⟨_, he⟩ | ⟨_, _, he⟩ | ⟨l0, deeper, hm, hl, he⟩ <;>
    rw [he] at hf
  · cases hf
    exact inv_doCompact h
  · cases hf
  · cases hf
    exact inv_doCompact (inv_flushed h hm hl)

theorem inv_maybeSealAndFlush {s s' : LSMTree Key Value} (h : Inv s)
    (hf : s.maybeSealAndFlush = some s') : Inv s' := by
  rw [maybeSealAndFlush_eq] at hf
  split at hf
  · cases hf
    exact h
  · exact inv_flush h hf

/-- Writing the active MemTable touches nothing else the invariant speaks of. -/
theorem inv_assign {s : LSMTree Key Value} (h : Inv s) (key : Key) (iv : InternalValue Value)
    (size : UInt64) : Inv { s with
      memtable := MemTable.assign s.memtable key iv, approximateSize := size } := by
  refine ⟨?_, h.sealed, h.tables, h.ranged, h.unique, h.recency, h.fresh⟩
  have hs : s.memtable.Pairwise (fun a b => less a.1 b.1 = true) :=
    h.memSorted.imp less_iff.mpr
  exact (upsert_pairwise less_strictWeak Prod.fst (fun e => (e.1, iv)) (key, iv)
    rfl (fun _ => rfl) _ hs).imp less_iff.mp

theorem inv_clear {s : LSMTree Key Value} : Inv s.clear :=
  inv_of_empty rfl rfl List.map_const'

/-- Every call keeps the invariant. -/
theorem inv_apply {s s' : LSMTree Key Value} (h : Inv s) (op : LSMTree.Op Key Value)
    (ha : s.apply op = some s') : Inv s' := by
  cases op with
  | put key value => exact inv_maybeSealAndFlush (inv_assign h key ⟨value, false⟩ _) ha
  | remove key =>
    unfold LSMTree.apply LSMTree.remove at ha
    cases hf : MemTable.find s.memtable key with
    | none =>
      simp only [hf] at ha
      exact inv_maybeSealAndFlush (inv_assign h key ⟨default, true⟩ s.approximateSize) ha
    | some iv =>
      simp only [hf] at ha
      exact inv_maybeSealAndFlush (inv_assign h key { iv with tombstone := true } _) ha
  | flush => exact inv_flush h ha
  | compact =>
    cases ha
    exact inv_doCompact h
  | clear =>
    cases ha
    exact inv_clear

theorem inv_run {s s' : LSMTree Key Value} (h : Inv s) (ops : List (LSMTree.Op Key Value))
    (hr : s.run ops = some s') : Inv s' := by
  induction ops generalizing s with
  | nil =>
    cases hr
    exact h
  | cons op ops ih =>
    unfold LSMTree.run at hr ih
    rw [List.foldlM_cons] at hr
    cases ha : s.apply op with
    | none => simp [ha] at hr
    | some s1 =>
      rw [ha] at hr
      exact ih (inv_apply h op ha) hr

/-- In every reachable state, for all options: tables are non-empty with strictly
increasing keys, the levels below the first are sorted by least key with disjoint
ranges, and each level's ids are above those of the next level. -/
theorem reachable_levels (options : LSMTreeOptions) (ops : List (LSMTree.Op Key Value))
    (s : LSMTree Key Value) (hr : (LSMTree.init options).run ops = some s) :
    (∀ l ∈ s.levels, ∀ t ∈ l, t.entries ≠ [] ∧ t.entries.Pairwise (fun a b => a.key < b.key)) ∧
    (∀ i l, s.levels[i + 1]? = some l →
      l.Pairwise (fun t u => t.minKey < u.minKey) ∧
      l.Pairwise (fun t u => t.maxKey < u.minKey ∨ u.maxKey < t.minKey)) ∧
    (∀ i upper lower, s.levels[i]? = some upper → s.levels[i + 1]? = some lower →
      ∀ t ∈ upper, ∀ u ∈ lower, u.id < t.id) := by
  have h := inv_run (inv_init options) ops hr
  refine ⟨fun l hl t ht => h.tables l hl t ht, ?_, ?_⟩
  · intro i l hl
    have hm : l ∈ s.levels.tail := List.mem_of_getElem? (by rw [List.getElem?_tail]; exact hl)
    have hok := h.tables l (List.mem_of_mem_tail hm)
    constructor
    · refine (h.ranged l hm).imp_of_mem ?_
      intro t u ht hu hb
      exact (minKey_le_maxKey (hok t ht)).trans_lt ((below_iff (hok t ht) (hok u hu)).mp hb)
    · refine (h.ranged l hm).imp_of_mem ?_
      intro t u ht hu hb
      exact .inl ((below_iff (hok t ht) (hok u hu)).mp hb)
  · intro i upper lower hu hl
    obtain ⟨hi, rfl⟩ := List.getElem?_eq_some_iff.mp hu
    obtain ⟨hi', rfl⟩ := List.getElem?_eq_some_iff.mp hl
    exact List.isChain_iff_getElem.mp h.recency i hi'

/-- Two one-entry MemTables flushed to level 0. -/
def twoFlushes : LSMTree Nat Nat :=
  ⟨{ memtable_size := 1 }, [], none,
    [[⟨1, [⟨2, 20, false⟩]⟩, ⟨2, [⟨1, 10, false⟩]⟩], [], [], [], []], 3, 2⟩

theorem reachable_levels_flushed :
    (LSMTree.init { memtable_size := 1 }).run [.put 2 20, .put 1 10] = some twoFlushes ∧
    ∀ l ∈ twoFlushes.levels, ∀ t ∈ l,
      t.entries ≠ [] ∧ t.entries.Pairwise (fun a b => a.key < b.key) :=
  have hr : (LSMTree.init { memtable_size := 1 }).run [.put 2 20, .put 1 10] = some twoFlushes := by
    decide +kernel
  ⟨hr, (reachable_levels _ _ _ hr).1⟩

end Cppforge.Lsm
