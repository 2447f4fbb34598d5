import Cppforge.Lsm.Proofs.Search

namespace Cppforge.Lsm
open Ordered

set_option linter.unusedSectionVars false

variable {Key Value : Type} [LinearOrder Key] [Inhabited Key] [Inhabited Value]

/-- What one call does to the binding of a key in the plain map. -/
def effect (k : Key) (value : Option Value) : LSMTree.Op Key Value → Option Value
  | .put k' v => if k' = k then some v else value
  | .remove k' => if k' = k then none else value
  | .clear => none
  | .flush | .compact => value

/-- The value of the last put of a key not followed by its removal or by a clear. -/
def lastPut (ops : List (LSMTree.Op Key Value)) (k : Key) : Option Value :=
  ops.foldl (effect k) none

/-- The number of tables in the tree. -/
def tableCount (s : LSMTree Key Value) : Nat := (s.levels.map List.length).sum

/-- Every call of the run starts from a tree whose tables, with the one a flush
may add, can be counted by an `int`. -/
def Countable (s : LSMTree Key Value) : List (LSMTree.Op Key Value) → Prop
  | [] => True
  | op :: ops => tableCount s + 1 < 2 ^ 31 ∧ ∀ s' ∈ s.apply op, Countable s' ops

instance decidableCountable : (s : LSMTree Key Value) → (ops : List (LSMTree.Op Key Value)) →
    Decidable (Countable s ops)
  | _, [] => .isTrue trivial
  | s, op :: ops =>
    have : ∀ s' : LSMTree Key Value, Decidable (Countable s' ops) :=
      fun s' => decidableCountable s' ops
    inferInstanceAs
      (Decidable (tableCount s + 1 < 2 ^ 31 ∧ ∀ s' ∈ s.apply op, Countable s' ops))

/-- The other side of that bound: from `2 ^ 31` inputs on, the scan of the merge
runs over no iterator at all and every entry is dropped. -/
theorem mergeTables_overflow (options : LSMTreeOptions) (inputs : List (SSTable Key Value))
    (nextId : Nat) (hne : ∀ t ∈ inputs, t.entries ≠ []) (hlo : 2 ^ 31 ≤ inputs.length)
    (hhi : inputs.length < 2 ^ 32) : mergeTables options inputs nextId = ([], nextId) := by
  have hfilter : inputs.filter (fun t => !t.entries.isEmpty) = inputs := by
    rw [List.filter_eq_self]
    intro t ht
    simpa using hne t ht
  have hlimit : (toInt32 inputs.length).toNat = 0 := by
    unfold toInt32
    rw [Int.bmod_def]
    omega
  have hloop : ∀ target fuel (states : List (IterState Key Value)),
      mergeLoop target 0 fuel states [] nextId = ([], nextId) := by
    intro target fuel states
    cases fuel <;> simp [mergeLoop, advanceMinKey, finishBatch]
  unfold mergeTables
  simp only [hfilter, List.length_map, hlimit, hloop, ite_self]

theorem isTop_append {upper lower : List (SSTable Key Value)} (h : IdsAbove upper lower)
    {e : SSTableEntry Key Value} : IsTop (upper ++ lower) e ↔
      IsTop upper e ∨ (∀ t ∈ upper, ∀ x ∈ t.entries, x.key ≠ e.key) ∧ IsTop lower e := by
  constructor
  · rintro ⟨t, ht, he, hmax⟩
    rcases List.mem_append.mp ht with ht | ht
    · exact .inl ⟨t, ht, he, fun u hu => hmax u (List.mem_append_left _ hu)⟩
    · refine .inr ⟨?_, t, ht, he, fun u hu => hmax u (List.mem_append_right _ hu)⟩
      intro u hu x hx hk
      have := hmax u (List.mem_append_left _ hu) x hx hk
      have := h u hu t ht
      omega
  · rintro (⟨t, ht, he, hmax⟩ | ⟨hno, t, ht, he, hmax⟩)
    · refine ⟨t, List.mem_append_left _ ht, he, ?_⟩
      intro u hu x hx hk
      rcases List.mem_append.mp hu with hu | hu
      · exact hmax u hu x hx hk
      · exact (h t ht u hu).le
    · refine ⟨t, List.mem_append_right _ ht, he, ?_⟩
      intro u hu x hx hk
      rcases List.mem_append.mp hu with hu | hu
      · exact absurd hk (hno u hu x hx)
      · exact hmax u hu x hx hk

/-- A level with the winners of two levels answers as one after the other. -/
theorem top_or {tables upper lower : List (SSTable Key Value)} (hok : ∀ t ∈ tables, TableOk t)
    (hid : (tables.map SSTable.id).Nodup) (huok : ∀ t ∈ upper, TableOk t)
    (huid : (upper.map SSTable.id).Nodup) (hlok : ∀ t ∈ lower, TableOk t)
    (hlid : (lower.map SSTable.id).Nodup) (habove : IdsAbove upper lower)
    (h : ∀ e, IsTop tables e ↔ IsTop (upper ++ lower) e) (k : Key) :
    top tables k = (top upper k).or (top lower k) := by
  apply Option.ext
  intro e
  rw [top_eq_some hok hid, h, isTop_append habove, Option.or_eq_some_iff, top_eq_some huok huid,
    top_eq_some hlok hlid, top_eq_none]
  constructor
  · rintro ⟨h | ⟨hno, h⟩, rfl⟩
    · exact .inl ⟨h, rfl⟩
    · exact .inr ⟨hno, h, rfl⟩
  · rintro (⟨h, rfl⟩ | ⟨hno, h, rfl⟩)
    · exact ⟨.inl h, rfl⟩
    · exact ⟨.inr ⟨hno, h⟩, rfl⟩

theorem isTop_iff_wins {tables : List (SSTable Key Value)} {e : SSTableEntry Key Value} :
    IsTop tables e ↔ Wins (iterStates tables) e := by
  constructor
  · rintro ⟨t, ht, he, hmax⟩
    refine ⟨_, iterStates_mem ht he, he, ?_⟩
    intro st hst x hx hk
    obtain ⟨u, hu, hid, hr⟩ := mem_iterStates hst
    rw [hid]
    exact hmax u hu x (hr ▸ hx) hk
  · rintro ⟨st, hst, he, hmax⟩
    obtain ⟨t, ht, hid, hr⟩ := mem_iterStates hst
    refine ⟨t, ht, hr ▸ he, ?_⟩
    intro u hu x hx hk
    rw [← hid]
    exact hmax _ (iterStates_mem hu hx) x hx hk

/-- In a level in range order every entry is the answer for its key. -/
theorem isTop_ranged {tables : List (SSTable Key Value)} (hok : ∀ t ∈ tables, TableOk t)
    (hid : (tables.map SSTable.id).Nodup) (hranged : tables.Pairwise Below)
    {e : SSTableEntry Key Value} : IsTop tables e ↔ ∃ t ∈ tables, e ∈ t.entries := by
  constructor
  · rintro ⟨t, ht, he, _⟩
    exact ⟨t, ht, he⟩
  · rintro ⟨t, ht, he⟩
    exact ((top_eq_some hok hid).mp (top_ranged hok hid hranged ht he)).1

/-- The winners of all source and destination tables are those of the inputs and
the entries of the kept tables, which share no key with an input. -/
theorem isTop_split {src dst : List (SSTable Key Value)} {lo hi : Key}
    (hsrc : ∀ u ∈ src, TableOk u) (hdst : ∀ u ∈ dst, TableOk u) (hranged : dst.Pairwise Below)
    (hcover : ∀ u ∈ src, lo ≤ u.minKey ∧ u.maxKey ≤ hi) {e : SSTableEntry Key Value} :
    IsTop (src ++ dst) e ↔
      (∃ t ∈ dst.filter (fun t => !LSMTree.overlaps lo hi t), e ∈ t.entries) ∨
        IsTop (src ++ dst.filter (LSMTree.overlaps lo hi)) e := by
  have hall : ∀ u ∈ src ++ dst.filter (LSMTree.overlaps lo hi), u ∈ src ++ dst := by
    intro u hu
    rcases List.mem_append.mp hu with hu | hu
    · exact List.mem_append_left _ hu
    · exact List.mem_append_right _ (List.mem_filter.mp hu).1
  -- a kept table shares no key with an input
  have hapart : ∀ t ∈ dst, LSMTree.overlaps lo hi t = false → ∀ x ∈ t.entries,
      ∀ u ∈ src ++ dst.filter (LSMTree.overlaps lo hi), ∀ y ∈ u.entries, y.key ≠ x.key := by
    intro t ht hk x hx u hu y hy
    rcases kept_side hsrc hdst hranged hcover ht hk with h | h
    · exact (h u hu y hy x hx).ne
    · exact (h u hu x hx y hy).ne'
  have hcase : ∀ u ∈ src ++ dst, u ∈ src ++ dst.filter (LSMTree.overlaps lo hi) ∨
      (u ∈ dst ∧ LSMTree.overlaps lo hi u = false) := by
    intro u hu
    rcases List.mem_append.mp hu with hu | hu
    · exact .inl (List.mem_append_left _ hu)
    · cases ho : LSMTree.overlaps lo hi u with
      | true => exact .inl (List.mem_append_right _ (List.mem_filter.mpr ⟨hu, ho⟩))
      | false => exact .inr ⟨hu, rfl⟩
  constructor
  · rintro ⟨t, ht, he, hmax⟩
    rcases hcase t ht with ht | ⟨ht, ho⟩
    · exact .inr ⟨t, ht, he, fun u hu => hmax u (hall u hu)⟩
    · exact .inl ⟨t, List.mem_filter.mpr ⟨ht, by simp [ho]⟩, he⟩
  · rintro (⟨t, ht, he⟩ | ⟨t, ht, he, hmax⟩)
    · obtain ⟨ht, ho⟩ := List.mem_filter.mp ht
      have ho : LSMTree.overlaps lo hi t = false := by simpa using ho
      refine ⟨t, List.mem_append_right _ ht, he, ?_⟩
      intro u hu x hx hk
      rcases hcase u hu with hu | ⟨hu, _⟩
      · exact absurd hk (hapart t ht ho e he u hu x hx)
      · by_cases hut : u = t
        · rw [hut]
        · have hp : dst.Pairwise Apart := hranged.imp .inl
          rcases hp.forall hu ht hut with h | h
          · exact absurd hk (h x hx e he).ne
          · exact absurd hk (h e he x hx).ne'
    · refine ⟨t, hall t ht, he, ?_⟩
      intro u hu x hx hk
      rcases hcase u hu with hu | ⟨hu, ho⟩
      · exact hmax u hu x hx hk
      · exact absurd hk.symm (hapart u hu ho x hx t ht e he)

theorem Inv.pair {s : LSMTree Key Value} (h : Inv s) (hl : s.levels = A ++ src :: dst :: B) :
    IdsAbove src dst := by
  have hrec := h.recency
  rw [hl, List.isChain_append] at hrec
  exact (List.isChain_cons_cons.mp hrec.2.1).1

theorem Inv.inputs_unique {s : LSMTree Key Value} (h : Inv s) (hl : s.levels = A ++ src :: dst :: B)
    (p : SSTable Key Value → Bool) : ((src ++ dst.filter p).map SSTable.id).Nodup := by
  rw [List.map_append, List.nodup_append]
  refine ⟨h.unique src (by simp [hl]),
    (h.unique dst (by simp [hl])).sublist (List.filter_sublist.map _), ?_⟩
  intro i hi j hj
  obtain ⟨t, ht, rfl⟩ := List.mem_map.mp hi
  obtain ⟨u, hu, rfl⟩ := List.mem_map.mp hj
  have := h.pair hl t ht u (List.mem_filter.mp hu).1
  omega

/-- The level written by a compaction answers as the source level and then the
old destination level would have. -/
theorem top_compacted {s : LSMTree Key Value} (h : Inv s) (hl : s.levels = A ++ src :: dst :: B)
    {lo hi : Key} (hcover : ∀ u ∈ src, lo ≤ u.minKey ∧ u.maxKey ≤ hi)
    (hmerge : mergeTables s.options (src ++ dst.filter (LSMTree.overlaps lo hi)) s.nextSSTableId =
      (out, next))
    (hcount : src.length + dst.length < 2 ^ 31) (k : Key) :
    top (compacted (dst.filter (fun t => !LSMTree.overlaps lo hi t)) out) k =
      (top src k).or (top dst k) := by
  have hsrc := h.tables src (by simp [hl])
  have hdst := h.tables dst (by simp [hl])
  have hranged := h.dst_ranged hl
  have hw := written h hl hcover hmerge
  obtain ⟨es, _, _, hbatch, hwins⟩ := mergeTables_batched s.options s.nextSSTableId
    (fun t ht => (h.inputs_ok hl (LSMTree.overlaps lo hi) t ht).2)
  rw [hmerge] at hbatch
  have hlen : (src ++ dst.filter (LSMTree.overlaps lo hi)).length < 2 ^ 31 := by
    have := List.length_filter_le (LSMTree.overlaps lo hi) dst
    rw [List.length_append]
    omega
  refine top_or hw.tables hw.unique hsrc (h.unique src (by simp [hl])) hdst
    (h.unique dst (by simp [hl])) (h.pair hl) ?_ k
  intro e
  rw [isTop_ranged hw.tables hw.unique hw.ranged, isTop_split hsrc hdst hranged hcover,
    isTop_iff_wins, ← hwins (h.inputs_unique hl _) hlen e, ← hbatch.contents]
  simp only [mem_compacted, List.mem_flatMap]
  constructor
  · rintro ⟨t, ht | ht, he⟩
    · exact .inl ⟨t, ht, he⟩
    · exact .inr ⟨t, ht, he⟩
  · rintro (⟨t, ht, he⟩ | ⟨t, ht, he⟩)
    · exact ⟨t, .inl ht, he⟩
    · exact ⟨t, .inr ht, he⟩

theorem view_compactLevel {s : LSMTree Key Value} {level : Nat} (h : Inv s)
    (hlevel : level + 1 < s.levels.length) (hcount : tableCount s < 2 ^ 31) (k : Key) :
    view (s.compactLevel level) k = view s k := by
  rcases compactLevel_cases hlevel h.tables with he | ⟨A, src, dst, B, lo, hi, out, next, hl, _,
    hcover, hmerge, he⟩
  · rw [he]
  · have hpair : src.length + dst.length < 2 ^ 31 := by
      simp only [tableCount, hl, List.map_append, List.map_cons, List.sum_append,
        List.sum_cons] at hcount
      omega
    rw [he]
    unfold view
    simp only [hl, List.findSome?_append, List.findSome?_cons, top_nil,
      top_compacted h hl hcover hmerge hpair]
    congr 3
    cases top src k <;> rfl

theorem view_doCompact {s : LSMTree Key Value} (h : Inv s) (hcount : tableCount s < 2 ^ 31)
    (k : Key) : view s.doCompact k = view s k := by
  unfold LSMTree.doCompact
  split
  · rename_i level hfind
    have := List.mem_range.mp (List.mem_of_find?_eq_some hfind)
    exact view_compactLevel h (by omega) hcount k
  · rfl

/-- The new level 0 table answers exactly as the MemTable it was flushed from. -/
theorem entryOf_memtable (m : MemTable Key Value) (id : Nat) (k : Key) :
    (entryOf k ⟨id, m.map LSMTree.toEntry⟩).map (fun e => (e.value, e.tombstone)) =
      (MemTable.find m k).map (fun iv => (iv.value, iv.tombstone)) := by
  have hcut : ∀ e : Key × InternalValue Value,
      (cut less k e.1 == .eq) = decide ((LSMTree.toEntry e).key = k) := by
    intro e
    rw [Bool.eq_iff_iff, beq_iff_eq, cut_eq_eq, less_false_iff, less_false_iff, decide_eq_true_eq]
    exact ⟨fun h => le_antisymm h.2 h.1, fun h => h ▸ ⟨le_rfl, le_rfl⟩⟩
  simp only [entryOf, MemTable.find, lookup, hcut, List.find?_map, Option.map_map,
    Function.comp_def, LSMTree.toEntry]

theorem view_flushed {s : LSMTree Key Value} (h : Inv s) (hm : s.memtable ≠ [])
    (hl : s.levels = l0 :: deeper) (k : Key) : view (flushed s l0 deeper) k = view s k := by
  have hi := inv_flushed h hm hl
  have hnew : ∀ t ∈ [(⟨s.nextSSTableId, s.memtable.map LSMTree.toEntry⟩ : SSTable Key Value)],
      TableOk t := by
    intro t ht
    apply hi.tables _ List.mem_cons_self
    exact List.mem_append_right _ ht
  have htop := top_or (hi.tables _ List.mem_cons_self) (hi.unique _ List.mem_cons_self) hnew
    (by simp) (h.tables l0 (by simp [hl])) (h.unique l0 (by simp [hl]))
    (by
      intro t ht u hu
      rw [List.mem_singleton.mp ht]
      exact h.fresh l0 (by simp [hl]) u hu)
    (by
      intro e
      simp only [IsTop, List.mem_append, List.mem_singleton, or_comm]) k
  have hone : top [(⟨s.nextSSTableId, s.memtable.map LSMTree.toEntry⟩ : SSTable Key Value)] k =
      entryOf k ⟨s.nextSSTableId, s.memtable.map LSMTree.toEntry⟩ := by
    simp [top, List.findSome?_cons]
    cases entryOf k _ <;> rfl
  rw [hone] at htop
  unfold view
  rw [hl, List.findSome?_cons]
  simp only [flushed, List.findSome?_cons, htop, ← entryOf_memtable s.memtable s.nextSSTableId k]
  cases entryOf k ⟨s.nextSSTableId, s.memtable.map LSMTree.toEntry⟩ with
  | none => simp [MemTable.find, lookup]
  | some e => simp [MemTable.find, lookup]

theorem levels_doCompact (s : LSMTree Key Value) : s.doCompact.levels.length = s.levels.length := by
  unfold LSMTree.doCompact
  split
  · unfold LSMTree.compactLevel
    dsimp only
    split
    · rfl
    · split <;> simp
  · rfl

/-- What a flush may change is out of reach of the view; with level 0 in place it
never accesses a level out of range. -/
theorem view_flush {s : LSMTree Key Value} (h : Inv s) (hl : s.levels ≠ [])
    (hcount : tableCount s + 1 < 2 ^ 31) :
    ∃ s', s.flush = some s' ∧ s'.levels ≠ [] ∧ ∀ k, view s' k = view s k := by
  have hlen : ∀ t : LSMTree Key Value, t.levels ≠ [] → t.doCompact.levels ≠ [] := by
    intro t ht hn
    have := levels_doCompact t
    rw [hn] at this
    exact ht (List.length_eq_zero_iff.mp this.symm)
  rcases seal_flush_cases h.sealed with ⟨_, he⟩ | ⟨_, hn, _⟩ | ⟨l0, deeper, hm, hl', he⟩
  · refine ⟨s.doCompact, by rw [flush_eq, he]; rfl, hlen s hl, ?_⟩
    exact view_doCompact h (by omega)
  · exact absurd hn hl
  · refine ⟨(flushed s l0 deeper).doCompact, by rw [flush_eq, he]; rfl, hlen _ (by simp [flushed]), ?_⟩
    intro k
    have hcount' : tableCount (flushed s l0 deeper) < 2 ^ 31 := by
      simp only [tableCount, hl', flushed, List.map_cons, List.sum_cons, List.length_append,
        List.length_singleton] at hcount ⊢
      omega
    rw [view_doCompact (inv_flushed h hm hl') hcount', view_flushed h hm hl']

theorem view_maybeSealAndFlush {s : LSMTree Key Value} (h : Inv s) (hl : s.levels ≠ [])
    (hcount : tableCount s + 1 < 2 ^ 31) :
    ∃ s', s.maybeSealAndFlush = some s' ∧ s'.levels ≠ [] ∧ ∀ k, view s' k = view s k := by
  rw [maybeSealAndFlush_eq]
  split
  · exact ⟨s, rfl, hl, fun _ => rfl⟩
  · exact view_flush h hl hcount

theorem find_assign (m : MemTable Key Value) (key k : Key) (iv : InternalValue Value) :
    MemTable.find (MemTable.assign m key iv) k = if key = k then some iv else MemTable.find m k := by
  unfold MemTable.find MemTable.assign
  split
  · rename_i hk
    subst k
    exact lookup_upsert_self m Prod.snd (cut_self less_strictWeak) (fun e he => he) (fun _ => rfl)
  · rename_i hk
    have hne : ∀ x : Key, cut less key x = .eq → cut less k x ≠ .eq := by
      intro x hx hx'
      simp only [cut_eq_eq, less_false_iff] at hx hx'
      exact hk (le_antisymm (hx.1.trans hx'.2) (hx'.1.trans hx.2))
    exact congrArg (Option.map Prod.snd) (lookup_upsert_other m
      (hne key (cut_self less_strictWeak)) (fun e he => ⟨hne e.1 he, hne e.1 he⟩))

theorem view_assign (s : LSMTree Key Value) (key k : Key) (iv : InternalValue Value)
    (size : UInt64) :
    view { s with memtable := MemTable.assign s.memtable key iv, approximateSize := size } k =
      if key = k then some (iv.value, iv.tombstone) else view s k := by
  unfold view
  dsimp only
  rw [find_assign]
  split <;> rfl

/-- One call of the tree is one call of the plain map. -/
theorem apply_refines {s : LSMTree Key Value} (h : Inv s) (hl : s.levels ≠ [])
    (hcount : tableCount s + 1 < 2 ^ 31) (op : LSMTree.Op Key Value) :
    ∃ s', s.apply op = some s' ∧ s'.levels ≠ [] ∧
      ∀ k, (view s' k).bind live = effect k ((view s k).bind live) op := by
  cases op with
  | put key value =>
    obtain ⟨s', he, hne, hv⟩ :=
      view_maybeSealAndFlush (inv_assign h key ⟨value, false⟩ _) hl hcount
    refine ⟨s', he, hne, ?_⟩
    intro k
    rw [hv k, view_assign]
    by_cases hk : key = k <;> simp [effect, live, hk]
  | remove key =>
    -- either way a tombstone is written under the key
    obtain ⟨iv, size, hiv, heq⟩ : ∃ (iv : InternalValue Value) (size : UInt64), iv.tombstone = true ∧
        s.remove key = LSMTree.maybeSealAndFlush
          { s with memtable := MemTable.assign s.memtable key iv, approximateSize := size } := by
      unfold LSMTree.remove
      cases hf : MemTable.find s.memtable key with
      | none => exact ⟨⟨default, true⟩, s.approximateSize, rfl, rfl⟩
      | some iv => exact ⟨{ iv with tombstone := true }, _, rfl, rfl⟩
    obtain ⟨s', he, hne, hv⟩ := view_maybeSealAndFlush (inv_assign h key iv size) hl hcount
    refine ⟨s', heq.trans he, hne, ?_⟩
    intro k
    rw [hv k, view_assign]
    by_cases hk : key = k <;> simp [effect, live, hk, hiv]
  | flush =>
    obtain ⟨s', he, hne, hv⟩ := view_flush h hl hcount
    exact ⟨s', he, hne, fun k => by rw [hv k]; rfl⟩
  | compact =>
    refine ⟨_, rfl, ?_, fun k => ?_⟩
    · intro hn
      have := levels_doCompact s
      rw [show s.doCompact.levels = [] from hn] at this
      exact hl (List.length_eq_zero_iff.mp this.symm)
    · rw [LSMTree.compact, view_doCompact h (by omega) k]
      rfl
  | clear =>
    refine ⟨_, rfl, by simpa [LSMTree.clear] using hl, ?_⟩
    intro k
    simp [view, LSMTree.clear, MemTable.find, lookup, effect]

/-- Whatever seals, flushes and compactions a run made, the tree reads as the plain map. -/
theorem run_refines {s : LSMTree Key Value} (h : Inv s) (hl : s.levels ≠ [])
    (ops : List (LSMTree.Op Key Value)) (hcount : Countable s ops) :
    ∃ s', s.run ops = some s' ∧ Inv s' ∧
      ∀ k, (view s' k).bind live = ops.foldl (effect k) ((view s k).bind live) := by
  induction ops generalizing s with
  | nil => exact ⟨s, rfl, h, fun _ => rfl⟩
  | cons op ops ih =>
    obtain ⟨hc, hrest⟩ := hcount
    obtain ⟨s1, ha, hl1, hv1⟩ := apply_refines h hl hc op
    obtain ⟨s', hr, hi, hv⟩ := ih (inv_apply h op ha) hl1 (hrest s1 ha)
    refine ⟨s', ?_, hi, fun k => by rw [hv k, hv1 k]; rfl⟩
    unfold LSMTree.run at hr ⊢
    rw [List.foldlM_cons, ha]
    exact hr

theorem view_init (options : LSMTreeOptions) (k : Key) :
    view (LSMTree.init options : LSMTree Key Value) k = none := by
  simp [view, LSMTree.init, MemTable.find, lookup]

/-- The tree refines a plain map over every run, for all options except the one
whose level count wraps to zero, while its tables can be counted by an `int`. -/
theorem get_lastPut (options : LSMTreeOptions) (bloom : List Key → Key → Bool)
    (hb : ∀ ks k, k ∈ ks → bloom ks k = true) (hlevels : options.max_levels ≠ 0xFFFFFFFFFFFFFFFF)
    (ops : List (LSMTree.Op Key Value)) (hcount : Countable (LSMTree.init options) ops) :
    ∃ s, (LSMTree.init options).run ops = some s ∧ ∀ k, s.get bloom k = lastPut ops k := by
  have hne : (LSMTree.init options : LSMTree Key Value).levels ≠ [] := by
    intro hnil
    apply hlevels
    have hz : (options.max_levels + 1).toNat = 0 := by
      simpa only [LSMTree.init, List.replicate_eq_nil_iff] using hnil
    have hlt := options.max_levels.toNat_lt
    rw [UInt64.toNat_add, UInt64.toNat_one] at hz
    apply UInt64.toNat_inj.mp
    change options.max_levels.toNat = 0xFFFFFFFFFFFFFFFF
    omega
  obtain ⟨s, hr, hi, hv⟩ := run_refines (inv_init options) hne ops hcount
  refine ⟨s, hr, ?_⟩
  intro k
  rw [get_eq_view hi hb, hv k, view_init]
  rfl

/-- A key written, deleted and written again, with a flush after each call and a
compaction after the last. -/
def rewritten : List (LSMTree.Op Nat Nat) := [.put 1 10, .remove 1, .put 2 20, .put 1 30]

theorem get_lastPut_rewritten :
    ∃ s, (LSMTree.init { memtable_size := 1 }).run rewritten = some s ∧
      ∀ k, s.get (fun ks k => ks.contains k) k = lastPut rewritten k :=
  get_lastPut { memtable_size := 1 } (fun ks k => ks.contains k)
    (fun _ _ h => List.contains_iff_mem.mpr h) (by decide) rewritten (by decide +kernel)

/-- With the largest level count the fresh tree has no level and the first flush
reads `levels_[0]` out of range. -/
theorem get_lastPut_wrapped : ¬ ∃ s : LSMTree Nat Nat,
    (LSMTree.init { memtable_size := 1, max_levels := 0xFFFFFFFFFFFFFFFF }).run [.put 1 10] =
      some s ∧ ∀ k, s.get (fun ks k => ks.contains k) k = lastPut [.put 1 10] k := by
  rintro ⟨s, hr, -⟩
  have hnone : (LSMTree.init { memtable_size := 1, max_levels := 0xFFFFFFFFFFFFFFFF }).run
      [LSMTree.Op.put 1 10] = (none : Option (LSMTree Nat Nat)) := by
    decide +kernel
  rw [hnone] at hr
  cases hr

/-- The inputs that the merge opens an iterator for. -/
def nonEmpty (inputs : List (SSTable Key Value)) : List (SSTable Key Value) :=
  inputs.filter (fun t => !t.entries.isEmpty)

/-- The inputs that the scan for the least key looks at: its index is an `int`. -/
def scanned (inputs : List (SSTable Key Value)) : List (SSTable Key Value) :=
  (nonEmpty inputs).take (toInt32 (nonEmpty inputs).length).toNat

/-- The newest entry of every key of the inputs, once each, in key order. -/
structure NewestOnce (inputs : List (SSTable Key Value)) (out : List (SSTableEntry Key Value)) :
    Prop where
  ascending : Sorted out
  kept : ∀ t ∈ inputs, ∀ e ∈ t.entries, ∃ w, IsTop inputs w ∧
    out.filter (fun x => decide (x.key = e.key)) = [w]
  only : ∀ x ∈ out, IsTop inputs x

/-- The iterators between two turns of the merge loop. -/
inductive Cursors (limit : Nat) (start : List (IterState Key Value)) :
    List (IterState Key Value) → Prop where
  | start : Cursors limit start start
  | turn : Cursors limit start states → advanceMinKey limit states = some (next, states') →
      Cursors limit start states'

theorem advanceMinKey_some {limit : Nat} {states states' : List (IterState Key Value)}
    {next : SSTableEntry Key Value} (h : advanceMinKey limit states = some (next, states')) :
    states' = states.map (skipKey next.key) := by
  unfold advanceMinKey at h
  split at h
  · cases h
  · simp only [Option.some.injEq, Prod.mk.injEq] at h
    obtain ⟨rfl, rfl⟩ := h
    rfl

theorem Cursors.sorted {limit : Nat} {start states : List (IterState Key Value)}
    (h : Cursors limit start states) (hs : ∀ st ∈ start, Sorted st.rest) :
    ∀ st ∈ states, Sorted st.rest := by
  induction h with
  | start => exact hs
  | turn _ hturn ih =>
    rw [advanceMinKey_some hturn]
    exact sorted_map_skip _ ih

theorem isTop_nonEmpty {inputs : List (SSTable Key Value)} {e : SSTableEntry Key Value} :
    IsTop (nonEmpty inputs) e ↔ IsTop inputs e := by
  have hmem : ∀ (t : SSTable Key Value) x, x ∈ t.entries → (t ∈ nonEmpty inputs ↔ t ∈ inputs) := by
    intro t x hx
    simp [nonEmpty, List.ne_nil_of_mem hx]
  constructor
  · rintro ⟨t, ht, he, hmax⟩
    refine ⟨t, (hmem t e he).mp ht, he, ?_⟩
    intro u hu x hx
    exact hmax u ((hmem u x hx).mpr hu) x hx
  · rintro ⟨t, ht, he, hmax⟩
    refine ⟨t, (hmem t e he).mpr ht, he, ?_⟩
    intro u hu x hx
    exact hmax u ((hmem u x hx).mp hu) x hx

theorem iterStates_scanned (inputs : List (SSTable Key Value)) :
    iterStates (scanned inputs) = scannedStates inputs := by
  have hfull : (scanned inputs).filter (fun t => !t.entries.isEmpty) = scanned inputs := by
    refine List.filter_eq_self.mpr (fun t ht => ?_)
    exact (List.mem_filter.mp (List.mem_of_mem_take ht)).2
  rw [iterStates, hfull, scanned, scannedStates, List.map_take]
  simp only [iterStates, nonEmpty, List.length_map]

section Tops
variable {inputs : List (SSTable Key Value)} (hs : ∀ t ∈ inputs, Sorted t.entries)
  (hid : (inputs.map SSTable.id).Nodup)

theorem nonEmpty_ok (hs : ∀ t ∈ inputs, Sorted t.entries) : ∀ t ∈ nonEmpty inputs, TableOk t := by
  intro t ht
  obtain ⟨ht, hne⟩ := List.mem_filter.mp ht
  exact ⟨by simpa using hne, hs t ht⟩

theorem nonEmpty_nodup (hid : (inputs.map SSTable.id).Nodup) :
    ((nonEmpty inputs).map SSTable.id).Nodup := hid.sublist (List.filter_sublist.map _)

include hs hid

theorem isTop_exists {t : SSTable Key Value} (ht : t ∈ inputs) {e : SSTableEntry Key Value}
    (he : e ∈ t.entries) : ∃ w, IsTop inputs w ∧ w.key = e.key := by
  have htne : t ∈ nonEmpty inputs := by simp [nonEmpty, ht, List.ne_nil_of_mem he]
  cases hw : top (nonEmpty inputs) e.key with
  | none => exact absurd rfl (top_eq_none.mp hw t htne e he)
  | some w =>
    obtain ⟨hw, hk⟩ := (top_eq_some (nonEmpty_ok hs) (nonEmpty_nodup hid)).mp hw
    exact ⟨w, isTop_nonEmpty.mp hw, hk⟩

theorem isTop_unique {w w' : SSTableEntry Key Value} (hw : IsTop inputs w) (hw' : IsTop inputs w')
    (hk : w.key = w'.key) : w = w' := by
  have h := (top_eq_some (nonEmpty_ok hs) (nonEmpty_nodup hid)).mpr ⟨isTop_nonEmpty.mpr hw, hk⟩
  have h' := (top_eq_some (nonEmpty_ok hs) (nonEmpty_nodup hid)).mpr ⟨isTop_nonEmpty.mpr hw', rfl⟩
  exact Option.some.inj (h.symm.trans h')

theorem newestOnce_iff {out : List (SSTableEntry Key Value)} (hout : Sorted out) :
    NewestOnce inputs out ↔ ∀ x, x ∈ out ↔ IsTop inputs x := by
  constructor
  · intro h x
    refine ⟨h.only x, ?_⟩
    intro hx
    have hx' := hx
    obtain ⟨t, ht, he, _⟩ := hx'
    obtain ⟨w, hw, hfilter⟩ := h.kept t ht x he
    have hmem : w ∈ out.filter (fun y => decide (y.key = x.key)) := by simp [hfilter]
    obtain ⟨hmem, hk⟩ := List.mem_filter.mp hmem
    rw [← isTop_unique hs hid hw hx (of_decide_eq_true hk)]
    exact hmem
  · intro h
    refine ⟨hout, ?_, fun x => (h x).mp⟩
    intro t ht e he
    obtain ⟨w, hw, hk⟩ := isTop_exists hs hid ht he
    refine ⟨w, hw, ?_⟩
    have hnodup : (out.filter (fun x => decide (x.key = e.key))).Nodup :=
      List.Nodup.filter _ (hout.imp (fun hlt => ne_of_apply_ne SSTableEntry.key hlt.ne))
    refine List.perm_singleton.mp ((List.perm_ext_iff_of_nodup hnodup (List.nodup_singleton w)).mpr ?_)
    intro x
    rw [List.mem_filter, decide_eq_true_eq, h x, List.mem_singleton]
    constructor
    · rintro ⟨hx, hxk⟩
      exact isTop_unique hs hid hx hw (hxk.trans hk.symm)
    · rintro rfl
      exact ⟨hw, hk⟩

end Tops

/-- The merge keeps the newest entry of each key, winning tombstones included, exactly when the
newest entry is also the newest among the inputs the scan looks at. -/
theorem mergeTables_newest_iff (options : LSMTreeOptions) {inputs : List (SSTable Key Value)}
    (hs : ∀ t ∈ inputs, Sorted t.entries) (hid : (inputs.map SSTable.id).Nodup) (nextId : Nat) :
    (NewestOnce inputs ((mergeTables options inputs nextId).1.flatMap SSTable.entries) ∧
      ∀ states next states',
        Cursors (toInt32 (iterStates inputs).length).toNat (iterStates inputs) states →
        advanceMinKey (toInt32 (iterStates inputs).length).toNat states = some (next, states') →
        hasValue next.key states' = false) ↔
    ∀ e, IsTop inputs e → IsTop (scanned inputs) e := by
  have hskip : ∀ limit states next states', Cursors limit (iterStates inputs) states →
      advanceMinKey limit states = some (next, states') → hasValue next.key states' = false := by
    intro limit states next states' hcur hturn
    rw [advanceMinKey_some hturn]
    exact hasValue_false _ (hcur.sorted (iterStates_sorted hs))
  obtain ⟨es, hsorted, _, hbatch, hwins⟩ := mergeTables_scanned options nextId hs
  have hemit : ∀ x, x ∈ es ↔ IsTop (scanned inputs) x := by
    intro x
    rw [hwins hid, isTop_iff_wins, iterStates_scanned]
  have hsub : (scanned inputs).Sublist inputs := (List.take_sublist _ _).trans List.filter_sublist
  rw [hbatch.contents, newestOnce_iff hs hid hsorted, and_iff_left (hskip _)]
  constructor
  · intro h e he
    exact (hemit e).mp ((h e).mpr he)
  · intro h x
    rw [hemit]
    refine ⟨?_, h x⟩
    intro hx
    obtain ⟨t, ht, he, _⟩ := id hx
    obtain ⟨w, hw, hk⟩ := isTop_exists hs hid (hsub.subset ht) he
    have hsame := isTop_unique (fun u hu => hs u (hsub.subset hu)) (hid.sublist (hsub.map _)) (h w hw)
      hx hk
    exact hsame ▸ hw

/-- Two tables that share a key, its deletion in the newer one. -/
theorem mergeTables_newest_iff_deleted :
    let inputs : List (SSTable Int Int) := [⟨7, [⟨1, 0, true⟩]⟩, ⟨3, [⟨1, 10, false⟩, ⟨2, 20, false⟩]⟩]
    (NewestOnce inputs ((mergeTables {} inputs 8).1.flatMap SSTable.entries) ∧
      ∀ states next states',
        Cursors (toInt32 (iterStates inputs).length).toNat (iterStates inputs) states →
        advanceMinKey (toInt32 (iterStates inputs).length).toNat states = some (next, states') →
        hasValue next.key states' = false) ↔
    ∀ e, IsTop inputs e → IsTop (scanned inputs) e :=
  mergeTables_newest_iff {} (by simp [Sorted]) (by simp) 8

/-- Tables with one entry each, all for one key. -/
def crowd (count : Nat) : List (SSTable Int Int) :=
  (List.range count).map (fun i => ⟨i, [⟨0, 0, false⟩]⟩)

theorem crowd_sorted {count : Nat} {t : SSTable Int Int} (ht : t ∈ crowd count) :
    Sorted t.entries := by
  obtain ⟨i, _, rfl⟩ := List.mem_map.mp ht
  exact List.pairwise_singleton _ _

theorem crowd_nodup (count : Nat) : ((crowd count).map SSTable.id).Nodup := by
  simpa [crowd, Function.comp_def] using List.nodup_range

theorem mergeTables_crowd {count : Nat} (hlo : 2 ^ 31 ≤ count) (hhi : count < 2 ^ 32) :
    ¬ NewestOnce (crowd count) ((mergeTables {} (crowd count) 0).1.flatMap SSTable.entries) := by
  intro hnewest
  rw [mergeTables_overflow _ _ _ (by simp [crowd]) (by simpa [crowd]) (by simpa [crowd])] at hnewest
  have hfirst : (⟨0, [⟨0, 0, false⟩]⟩ : SSTable Int Int) ∈ crowd count :=
    List.mem_map.mpr ⟨0, List.mem_range.mpr (by omega), rfl⟩
  obtain ⟨w, _, hw⟩ := hnewest.kept _ hfirst ⟨0, 0, false⟩ (by simp)
  simp at hw

/-- Of `2 ^ 31` such tables the merge keeps nothing. -/
theorem mergeTables_newest_lost :
    ¬ ∀ (options : LSMTreeOptions) (inputs : List (SSTable Int Int)) (nextId : Nat),
      (∀ t ∈ inputs, Sorted t.entries) → (inputs.map SSTable.id).Nodup →
      NewestOnce inputs ((mergeTables options inputs nextId).1.flatMap SSTable.entries) := by
  intro h
  exact mergeTables_crowd le_rfl (by decide)
    (h {} (crowd (2 ^ 31)) 0 (fun _ => crowd_sorted) (crowd_nodup _))

end Cppforge.Lsm
