import Cppforge.Lsm.Tree
import Mathlib.Algebra.Order.BigOperators.Group.List
import Mathlib.Algebra.Order.Group.Nat
import Mathlib.Data.List.Nodup
import Mathlib.Order.Basic

namespace Cppforge.Lsm
open Ordered

set_option linter.unusedSectionVars false

variable {Key Value : Type} [LinearOrder Key]

/-- Strictly increasing keys. -/
def Sorted (es : List (SSTableEntry Key Value)) : Prop :=
  es.Pairwise (fun a b => a.key < b.key)

/-- The order the scan for the winner follows: smaller key, then larger table id. -/
def Beats (e : SSTableEntry Key Value) (i : Nat) (c : SSTableEntry Key Value) (j : Nat) : Prop :=
  e.key < c.key ∨ (e.key = c.key ∧ j ≤ i)

/-- An entry wins among the inputs when no input with a larger id holds its key. -/
def Wins (states : List (IterState Key Value)) (e : SSTableEntry Key Value) : Prop :=
  ∃ st ∈ states, e ∈ st.rest ∧
    ∀ st' ∈ states, ∀ e' ∈ st'.rest, e'.key = e.key → st'.id ≤ st.id

/-- The entries the merge emits, without batching and without the tombstone look-ahead. -/
def emits : Nat → List (IterState Key Value) → List (SSTableEntry Key Value)
  | 0, _ => []
  | fuel + 1, states =>
    match states.foldl pickBest none with
    | none => []
    | some (e, _) => e :: emits fuel (states.map (skipKey e.key))

theorem less_iff {a b : Key} : less a b = true ↔ a < b := by simp [less]

theorem less_false_iff {a b : Key} : less a b = false ↔ b ≤ a := by simp [less]

theorem less_strictWeak : StrictWeak (less : Key → Key → Bool) where
  irrefl a := by simp [less]
  trans hab hbc := less_iff.mpr (lt_trans (less_iff.mp hab) (less_iff.mp hbc))
  split b hac := by
    rcases lt_or_ge _ b with h | h
    · exact .inl (less_iff.mpr h)
    · exact .inr (less_iff.mpr (lt_of_le_of_lt h (less_iff.mp hac)))

theorem Beats.refl (e : SSTableEntry Key Value) (i : Nat) : Beats e i e i := .inr ⟨rfl, le_rfl⟩

theorem Beats.trans {e c d : SSTableEntry Key Value} {i j k : Nat} (h : Beats e i c j)
    (h' : Beats c j d k) : Beats e i d k := by
  rcases h with h | ⟨h, hi⟩ <;> rcases h' with h' | ⟨h', hj⟩
  · exact .inl (lt_trans h h')
  · exact .inl (h' ▸ h)
  · exact .inl (h ▸ h')
  · exact .inr ⟨h.trans h', le_trans hj hi⟩

/-- One turn of the scan keeps the better of the two candidates. -/
theorem pickBest_cons {st : IterState Key Value} {cur : SSTableEntry Key Value}
    {rest : List (SSTableEntry Key Value)} (hr : st.rest = cur :: rest)
    (best : Option (SSTableEntry Key Value × Nat)) :
    ∃ e i, pickBest best st = some (e, i) ∧ Beats e i cur st.id ∧
      (∀ b j, best = some (b, j) → Beats e i b j) ∧
      (best = some (e, i) ∨ (e = cur ∧ i = st.id)) := by
  unfold pickBest
  rw [hr]
  cases best with
  | none => exact ⟨cur, st.id, rfl, .refl _ _, by simp, .inr ⟨rfl, rfl⟩⟩
  | some p =>
    obtain ⟨b, bid⟩ := p
    dsimp only
    split
    · rename_i hc
      simp only [less, Bool.or_eq_true, Bool.and_eq_true, decide_eq_true_eq] at hc
      refine ⟨cur, st.id, rfl, .refl _ _, ?_, .inr ⟨rfl, rfl⟩⟩
      intro b' j hb
      simp only [Option.some.injEq, Prod.mk.injEq] at hb
      obtain ⟨rfl, rfl⟩ := hb
      rcases hc with hc | ⟨hc, hi⟩
      · exact .inl hc
      · exact .inr ⟨hc, hi.le⟩
    · rename_i hc
      simp only [less, Bool.or_eq_true, Bool.and_eq_true, decide_eq_true_eq, not_or, not_and,
        not_lt] at hc
      refine ⟨b, bid, rfl, ?_, ?_, .inl rfl⟩
      · rcases lt_or_eq_of_le hc.1 with h | h
        · exact .inl h
        · exact .inr ⟨h, hc.2 h.symm⟩
      · intro b' j hb
        simp only [Option.some.injEq, Prod.mk.injEq] at hb
        obtain ⟨rfl, rfl⟩ := hb
        exact .refl _ _

/-- The scan finds nothing only when every iterator is at its end. -/
theorem scan_none {states : List (IterState Key Value)}
    (h : states.foldl pickBest none = none) : ∀ st ∈ states, st.rest = [] := by
  suffices H : ∀ best, states.foldl pickBest best = none →
      best = none ∧ ∀ st ∈ states, st.rest = [] from (H none h).2
  clear h
  induction states with
  | nil => simp
  | cons st states ih =>
    intro best h
    obtain ⟨hb, hs⟩ := ih _ h
    cases hr : st.rest with
    | nil =>
      unfold pickBest at hb
      rw [hr] at hb
      refine ⟨hb, ?_⟩
      intro st' hst
      rcases List.mem_cons.mp hst with rfl | hst
      · exact hr
      · exact hs st' hst
    | cons cur rest =>
      obtain ⟨e, i, he, _⟩ := pickBest_cons hr best
      rw [he] at hb
      cases hb

/-- The scan returns the head of one of the iterators, and it beats all heads. -/
theorem scan_some {states : List (IterState Key Value)} {e : SSTableEntry Key Value} {i : Nat}
    (h : states.foldl pickBest none = some (e, i)) :
    (∃ st ∈ states, st.id = i ∧ ∃ r, st.rest = e :: r) ∧
      ∀ st ∈ states, ∀ c r, st.rest = c :: r → Beats e i c st.id := by
  suffices H : ∀ best, states.foldl pickBest best = some (e, i) →
      (best = some (e, i) ∨ ∃ st ∈ states, st.id = i ∧ ∃ r, st.rest = e :: r) ∧
      (∀ c j, best = some (c, j) → Beats e i c j) ∧
      ∀ st ∈ states, ∀ c r, st.rest = c :: r → Beats e i c st.id by
    obtain ⟨h1, _, h3⟩ := H none h
    exact ⟨h1.resolve_left (by simp), h3⟩
  clear h
  induction states with
  | nil =>
    intro best h
    refine ⟨.inl h, ?_, by simp⟩
    intro c j hc
    rw [List.foldl_nil, hc] at h
    simp only [Option.some.injEq, Prod.mk.injEq] at h
    obtain ⟨rfl, rfl⟩ := h
    exact .refl _ _
  | cons st states ih =>
    intro best h
    obtain ⟨hfrom, hbest, hall⟩ := ih _ h
    cases hr : st.rest with
    | nil =>
      have hp : pickBest best st = best := by unfold pickBest; rw [hr]
      rw [hp] at hfrom hbest
      refine ⟨?_, hbest, ?_⟩
      · rcases hfrom with hb | ⟨st', hm, h'⟩
        · exact .inl hb
        · exact .inr ⟨st', List.mem_cons_of_mem _ hm, h'⟩
      · intro st' hm c r hc
        rcases List.mem_cons.mp hm with rfl | hm
        · rw [hr] at hc
          cases hc
        · exact hall st' hm c r hc
    | cons cur rest =>
      obtain ⟨b, j, hp, hcur, hprev, horigin⟩ := pickBest_cons hr best
      rw [hp] at hfrom hbest
      have hb := hbest b j rfl
      refine ⟨?_, ?_, ?_⟩
      · rcases hfrom with he | ⟨st', hm, h'⟩
        · simp only [Option.some.injEq, Prod.mk.injEq] at he
          obtain ⟨rfl, rfl⟩ := he
          rcases horigin with ho | ⟨rfl, rfl⟩
          · exact .inl ho
          · exact .inr ⟨st, List.mem_cons_self, rfl, rest, hr⟩
        · exact .inr ⟨st', List.mem_cons_of_mem _ hm, h'⟩
      · intro c k hc
        exact hb.trans (hprev c k hc)
      · intro st' hm c r hc
        rcases List.mem_cons.mp hm with rfl | hm
        · rw [hr] at hc
          obtain ⟨rfl, _⟩ := List.cons.inj hc
          exact hb.trans hcur
        · exact hall st' hm c r hc

@[simp] theorem skipKey_id (key : Key) (st : IterState Key Value) :
    (skipKey key st).id = st.id := by
  unfold skipKey
  split
  · rfl
  · split <;> rfl

theorem skipKey_sublist (key : Key) (st : IterState Key Value) :
    (skipKey key st).rest.Sublist st.rest := by
  unfold skipKey
  split
  · exact .refl _
  · rename_i e rest hr
    split
    · rw [hr]
      exact List.sublist_cons_self e rest
    · exact .refl _

theorem skipKey_sorted {st : IterState Key Value} (key : Key) (h : Sorted st.rest) :
    Sorted (skipKey key st).rest := List.Pairwise.sublist (skipKey_sublist key st) h

/-- After the step no iterator is at the key any more, sorted inputs being strict. -/
theorem skipKey_head_ne {st : IterState Key Value} {key : Key} (h : Sorted st.rest)
    (hr : (skipKey key st).rest = e :: r) : e.key ≠ key := by
  unfold skipKey at hr
  split at hr
  · rename_i hn
    rw [hn] at hr
    cases hr
  · rename_i e' rest hn
    unfold Sorted at h
    rw [hn, List.pairwise_cons] at h
    split at hr
    · rename_i hk
      simp only at hr
      have := h.1 e (by rw [hr]; exact List.mem_cons_self)
      rw [hk] at this
      exact this.ne'
    · rename_i hk
      rw [hn] at hr
      obtain ⟨rfl, _⟩ := List.cons.inj hr
      exact hk

/-- So a winning tombstone never finds a value to cancel with: it survives the merge. -/
theorem hasValue_false {states : List (IterState Key Value)} (key : Key)
    (h : ∀ st ∈ states, Sorted st.rest) : hasValue key (states.map (skipKey key)) = false := by
  apply List.any_eq_false.mpr
  intro st hst
  obtain ⟨st', hm, rfl⟩ := List.mem_map.mp hst
  cases hr : (skipKey key st').rest with
  | nil => simp
  | cons e r => simp [skipKey_head_ne (h st' hm) hr]

theorem mem_head_le {es : List (SSTableEntry Key Value)} (h : Sorted (e :: es))
    (hm : x ∈ e :: es) : e.key ≤ x.key := by
  rcases List.mem_cons.mp hm with rfl | hm
  · exact le_rfl
  · exact ((List.pairwise_cons.mp h).1 x hm).le

/-- When the key is least in a sorted input, the step removes exactly its entry. -/
theorem mem_skipKey {st : IterState Key Value} {key : Key} (h : Sorted st.rest)
    (hle : ∀ x ∈ st.rest, key ≤ x.key) :
    x ∈ (skipKey key st).rest ↔ x ∈ st.rest ∧ x.key ≠ key := by
  unfold skipKey
  split
  · rename_i hr
    simp [hr]
  · rename_i e rest hr
    rw [hr] at h hle ⊢
    have hrest : ∀ y ∈ rest, y.key ≠ key := fun y hy =>
      (lt_of_le_of_lt (hle e List.mem_cons_self) ((List.pairwise_cons.mp h).1 y hy)).ne'
    split
    · rename_i hk
      simp only [List.mem_cons]
      constructor
      · exact fun hx => ⟨.inr hx, hrest x hx⟩
      · rintro ⟨rfl | hx, hne⟩
        · exact absurd hk hne
        · exact hx
    · rename_i hk
      rw [hr]
      constructor
      · intro hx
        refine ⟨hx, ?_⟩
        rcases List.mem_cons.mp hx with rfl | hx
        · exact hk
        · exact hrest x hx
      · exact fun hx => hx.1

/-- The winner's key is least among all entries still to be merged. -/
theorem scan_least {states : List (IterState Key Value)} {e : SSTableEntry Key Value} {i : Nat}
    (hs : ∀ st ∈ states, Sorted st.rest) (h : states.foldl pickBest none = some (e, i)) :
    ∀ st ∈ states, ∀ x ∈ st.rest, e.key ≤ x.key := by
  intro st hst x hx
  have hsorted := hs st hst
  cases hr : st.rest with
  | nil => simp [hr] at hx
  | cons c r =>
    rw [hr] at hx hsorted
    have hc := mem_head_le hsorted hx
    rcases (scan_some h).2 st hst c r hr with hb | ⟨hb, _⟩
    · exact hb.le.trans hc
    · exact hb ▸ hc

theorem sorted_map_skip {states : List (IterState Key Value)} (key : Key)
    (hs : ∀ st ∈ states, Sorted st.rest) : ∀ st ∈ states.map (skipKey key), Sorted st.rest := by
  intro st hst
  obtain ⟨st', hm, rfl⟩ := List.mem_map.mp hst
  exact skipKey_sorted key (hs st' hm)

theorem emits_mem {fuel : Nat} {states : List (IterState Key Value)} {x : SSTableEntry Key Value}
    (hx : x ∈ emits fuel states) : ∃ st ∈ states, x ∈ st.rest := by
  induction fuel generalizing states with
  | zero => simp [emits] at hx
  | succ fuel ih =>
    unfold emits at hx
    split at hx
    · simp at hx
    · rename_i e i hscan
      rcases List.mem_cons.mp hx with rfl | hx
      · obtain ⟨⟨st, hst, _, r, hr⟩, _⟩ := scan_some hscan
        exact ⟨st, hst, by rw [hr]; exact List.mem_cons_self⟩
      · obtain ⟨st, hst, hx⟩ := ih hx
        obtain ⟨st', hm, rfl⟩ := List.mem_map.mp hst
        exact ⟨st', hm, (skipKey_sublist _ _).subset hx⟩

theorem emits_sorted {fuel : Nat} {states : List (IterState Key Value)}
    (hs : ∀ st ∈ states, Sorted st.rest) : Sorted (emits fuel states) := by
  induction fuel generalizing states with
  | zero => exact .nil
  | succ fuel ih =>
    unfold emits
    split
    · exact .nil
    · rename_i e i hscan
      refine List.pairwise_cons.mpr ⟨?_, ih (sorted_map_skip _ hs)⟩
      intro x hx
      obtain ⟨st, hst, hx⟩ := emits_mem hx
      obtain ⟨st', hm, rfl⟩ := List.mem_map.mp hst
      have hle := scan_least hs hscan st' hm
      obtain ⟨hx, hne⟩ := (mem_skipKey (hs st' hm) hle).mp hx
      exact lt_of_le_of_ne (hle x hx) hne.symm

/-- Taking the winner's key off every input leaves the other winners as they were. -/
theorem wins_skip {states : List (IterState Key Value)} {key : Key}
    (hs : ∀ st ∈ states, Sorted st.rest) (hle : ∀ st ∈ states, ∀ x ∈ st.rest, key ≤ x.key)
    {x : SSTableEntry Key Value} :
    Wins (states.map (skipKey key)) x ↔ Wins states x ∧ x.key ≠ key := by
  constructor
  · rintro ⟨_, hst, hx, hmax⟩
    obtain ⟨st, hm, rfl⟩ := List.mem_map.mp hst
    obtain ⟨hx, hne⟩ := (mem_skipKey (hs st hm) (hle st hm)).mp hx
    refine ⟨⟨st, hm, hx, ?_⟩, hne⟩
    intro st' hm' x' hx' hk
    have := hmax (skipKey key st') (List.mem_map.mpr ⟨st', hm', rfl⟩) x'
      ((mem_skipKey (hs st' hm') (hle st' hm')).mpr ⟨hx', hk ▸ hne⟩) hk
    simpa using this
  · rintro ⟨⟨st, hm, hx, hmax⟩, hne⟩
    refine ⟨skipKey key st, List.mem_map.mpr ⟨st, hm, rfl⟩,
      (mem_skipKey (hs st hm) (hle st hm)).mpr ⟨hx, hne⟩, ?_⟩
    intro st' hst' x' hx' hk
    obtain ⟨st'', hm', rfl⟩ := List.mem_map.mp hst'
    have := hmax st'' hm' x' ((mem_skipKey (hs st'' hm') (hle st'' hm')).mp hx').1 hk
    simpa using this

/-- Among the entries with the least key, the winner is the one the scan returns. -/
theorem wins_scan {states : List (IterState Key Value)} {e : SSTableEntry Key Value} {i : Nat}
    (hs : ∀ st ∈ states, Sorted st.rest) (hid : (states.map IterState.id).Nodup)
    (h : states.foldl pickBest none = some (e, i)) {x : SSTableEntry Key Value} :
    (Wins states x ∧ x.key = e.key) ↔ x = e := by
  obtain ⟨⟨st0, hm0, rfl, r0, hr0⟩, hbeats⟩ := scan_some h
  have hle := scan_least hs h
  -- an entry with the least key is the head of its input
  have hhead : ∀ st ∈ states, ∀ y ∈ st.rest, y.key = e.key → ∃ r, st.rest = y :: r := by
    intro st hst y hy hk
    have hsorted := hs st hst
    have hmin := hle st hst
    cases hr : st.rest with
    | nil => simp [hr] at hy
    | cons c r =>
      rw [hr] at hy hsorted hmin
      rcases List.mem_cons.mp hy with rfl | hy
      · exact ⟨r, rfl⟩
      · have hlt := (List.pairwise_cons.mp hsorted).1 y hy
        rw [hk] at hlt
        exact absurd hlt (hmin c List.mem_cons_self).not_gt
  constructor
  · rintro ⟨⟨st, hst, hx, hmax⟩, hk⟩
    obtain ⟨r, hr⟩ := hhead st hst x hx hk
    have h1 : st.id ≤ st0.id := by
      rcases hbeats st hst x r hr with hb | ⟨_, hb⟩
      · rw [hk] at hb
        exact absurd hb (lt_irrefl _)
      · exact hb
    have h2 := hmax st0 hm0 e (by rw [hr0]; exact List.mem_cons_self) hk.symm
    have he := List.inj_on_of_nodup_map hid hst hm0 (le_antisymm h1 h2)
    subst st
    exact (List.cons.inj (hr.symm.trans hr0)).1
  · rintro rfl
    refine ⟨⟨st0, hm0, by rw [hr0]; exact List.mem_cons_self, ?_⟩, rfl⟩
    intro st hst y hy hk
    obtain ⟨r, hr⟩ := hhead st hst y hy hk
    rcases hbeats st hst y r hr with hb | ⟨_, hb⟩
    · rw [hk] at hb
      exact absurd hb (lt_irrefl _)
    · exact hb

theorem skip_length_le (key : Key) (st : IterState Key Value) :
    (skipKey key st).rest.length ≤ st.rest.length := (skipKey_sublist key st).length_le

/-- Every turn of the loop consumes at least the winning entry. -/
theorem fuel_decreases {states : List (IterState Key Value)} {e : SSTableEntry Key Value} {i : Nat}
    (h : states.foldl pickBest none = some (e, i)) :
    ((states.map (skipKey e.key)).map (fun st => st.rest.length)).sum <
      (states.map (fun st => st.rest.length)).sum := by
  obtain ⟨⟨st0, hm0, _, r0, hr0⟩, _⟩ := scan_some h
  rw [List.map_map]
  apply List.sum_lt_sum (fun st => (skipKey e.key st).rest.length) (fun st => st.rest.length)
  · intro st _
    exact skip_length_le e.key st
  · refine ⟨st0, hm0, ?_⟩
    simp [skipKey, hr0]

/-- The merge emits exactly the winning entries. -/
theorem emits_wins {fuel : Nat} {states : List (IterState Key Value)}
    (hs : ∀ st ∈ states, Sorted st.rest) (hid : (states.map IterState.id).Nodup)
    (hfuel : (states.map (fun st => st.rest.length)).sum ≤ fuel)
    {x : SSTableEntry Key Value} : x ∈ emits fuel states ↔ Wins states x := by
  induction fuel generalizing states with
  | zero =>
    simp only [emits, List.not_mem_nil, false_iff]
    rintro ⟨st, hst, hx, _⟩
    have := List.single_le_sum (fun _ _ => Nat.zero_le _) _
      (List.mem_map.mpr ⟨st, hst, rfl⟩ : st.rest.length ∈ states.map (fun st => st.rest.length))
    have := List.length_pos_of_mem hx
    omega
  | succ fuel ih =>
    unfold emits
    split
    · rename_i hscan
      simp only [List.not_mem_nil, false_iff]
      rintro ⟨st, hst, hx, _⟩
      rw [scan_none hscan st hst] at hx
      simp at hx
    · rename_i e i hscan
      have hdec := fuel_decreases hscan
      rw [List.mem_cons, ih (sorted_map_skip _ hs) (by simpa [Function.comp_def] using hid) (by omega),
        wins_skip hs (scan_least hs hscan), ← wins_scan hs hid hscan]
      by_cases hk : x.key = e.key <;> simp [hk]

/-- Output tables hold the given entries in order, none is empty, and their ids
are the next ones of the counter. -/
structure Batched (start : Nat) (es : List (SSTableEntry Key Value))
    (tables : List (SSTable Key Value)) (next : Nat) : Prop where
  contents : tables.flatMap SSTable.entries = es
  ids : tables.map SSTable.id = List.range' start tables.length
  next_eq : next = start + tables.length
  nonempty : ∀ t ∈ tables, t.entries ≠ []

theorem Batched.finish (start : Nat) (batch : List (SSTableEntry Key Value)) :
    Batched start batch (finishBatch batch start).1 (finishBatch batch start).2 := by
  cases batch with
  | nil => exact ⟨rfl, rfl, rfl, by simp [finishBatch]⟩
  | cons e es => exact ⟨by simp [finishBatch], rfl, rfl, by simp [finishBatch]⟩

theorem Batched.cons {start next : Nat} {es batch : List (SSTableEntry Key Value)}
    {tables : List (SSTable Key Value)} (h : Batched (start + 1) es tables next)
    (hb : batch ≠ []) : Batched start (batch ++ es) (⟨start, batch⟩ :: tables) next := by
  refine ⟨by simp [h.contents], ?_, ?_, ?_⟩
  · simp [h.ids, List.range'_succ]
  · rw [h.next_eq]
    simp only [List.length_cons]
    omega
  · intro t ht
    rcases List.mem_cons.mp ht with rfl | ht
    · exact hb
    · exact h.nonempty t ht

/-- The loop batches what the scan emits: the tombstone look-ahead never fires on
sorted inputs, so nothing is dropped. -/
theorem mergeLoop_batched (bt : UInt64) (limit fuel : Nat) (states : List (IterState Key Value))
    (batch : List (SSTableEntry Key Value)) (start : Nat)
    (hs : ∀ st ∈ states, Sorted st.rest) :
    Batched start (batch ++ emits fuel (states.take limit))
      (mergeLoop bt limit fuel states batch start).1
      (mergeLoop bt limit fuel states batch start).2 := by
  induction fuel generalizing states batch start with
  | zero =>
    simp only [emits, List.append_nil, mergeLoop]
    exact .finish start batch
  | succ fuel ih =>
    unfold mergeLoop advanceMinKey emits
    cases hscan : (states.take limit).foldl pickBest none with
    | none =>
      simp only [List.append_nil]
      exact .finish start batch
    | some p =>
      obtain ⟨e, i⟩ := p
      have hrec := fun batch start =>
        ih (states.map (skipKey e.key)) batch start (sorted_map_skip e.key hs)
      rw [← List.map_take] at hrec
      simp only [hasValue_false e.key hs, Bool.and_false, Bool.false_eq_true, ↓reduceIte]
      split
      · have h := (hrec [] (start + 1)).cons (show batch ++ [e] ≠ [] by simp)
        simpa using h
      · simpa using hrec (batch ++ [e]) start

theorem toInt32_eq {n : Nat} (h : n < 2 ^ 31) : (toInt32 n).toNat = n := by
  have hb : toInt32 n = n := Int.bmod_eq_of_le_mul_two (by omega) (by omega)
  rw [hb]
  rfl

/-- The merge inputs as iterators at their begin. -/
def iterStates (inputs : List (SSTable Key Value)) : List (IterState Key Value) :=
  (inputs.filter (fun t => !t.entries.isEmpty)).map (fun t => ⟨t.id, t.entries⟩)

theorem mem_iterStates {inputs : List (SSTable Key Value)} {st : IterState Key Value}
    (h : st ∈ iterStates inputs) : ∃ t ∈ inputs, st.id = t.id ∧ st.rest = t.entries := by
  obtain ⟨t, ht, rfl⟩ := List.mem_map.mp h
  exact ⟨t, (List.mem_filter.mp ht).1, rfl, rfl⟩

theorem iterStates_mem {inputs : List (SSTable Key Value)} {t : SSTable Key Value}
    (h : t ∈ inputs) (hx : x ∈ t.entries) : ⟨t.id, t.entries⟩ ∈ iterStates inputs := by
  refine List.mem_map.mpr ⟨t, List.mem_filter.mpr ⟨h, ?_⟩, rfl⟩
  cases ht : t.entries with
  | nil => simp [ht] at hx
  | cons e es => rfl

theorem mergeTables_eq (options : LSMTreeOptions) (inputs : List (SSTable Key Value)) (start : Nat) :
    mergeTables options inputs start =
      mergeLoop (options.memtable_size * 2)
        (toInt32 (iterStates inputs).length).toNat
        ((iterStates inputs).map (fun st => st.rest.length)).sum (iterStates inputs) [] start := by
  unfold mergeTables
  change (if (iterStates inputs).isEmpty then _ else _) = _
  split
  · rename_i he
    rw [List.isEmpty_iff.mp he]
    rfl
  · rfl

theorem iterStates_sorted {inputs : List (SSTable Key Value)}
    (hs : ∀ t ∈ inputs, Sorted t.entries) : ∀ st ∈ iterStates inputs, Sorted st.rest := by
  intro st hst
  obtain ⟨t, ht, _, hr⟩ := mem_iterStates hst
  rw [hr]
  exact hs t ht

theorem iterStates_nodup {inputs : List (SSTable Key Value)}
    (hid : (inputs.map SSTable.id).Nodup) : ((iterStates inputs).map IterState.id).Nodup := by
  have hsub : ((inputs.filter (fun t => !t.entries.isEmpty)).map SSTable.id).Nodup :=
    List.Nodup.sublist (List.filter_sublist.map SSTable.id) hid
  simpa [iterStates, Function.comp_def] using hsub

/-- The iterators that the scan's index reaches. -/
def scannedStates (inputs : List (SSTable Key Value)) : List (IterState Key Value) :=
  (iterStates inputs).take (toInt32 (iterStates inputs).length).toNat

/-- What the merge writes, whatever the inputs: the winners among the scanned ones, in batches. -/
theorem mergeTables_scanned (options : LSMTreeOptions) {inputs : List (SSTable Key Value)}
    (start : Nat) (hs : ∀ t ∈ inputs, Sorted t.entries) :
    ∃ es, Sorted es ∧ (∀ e ∈ es, ∃ t ∈ inputs, e ∈ t.entries) ∧
      Batched start es (mergeTables options inputs start).1 (mergeTables options inputs start).2 ∧
      ((inputs.map SSTable.id).Nodup → ∀ e, e ∈ es ↔ Wins (scannedStates inputs) e) := by
  have hsorted := iterStates_sorted hs
  have hscanned : ∀ st ∈ scannedStates inputs, Sorted st.rest :=
    fun st hst => hsorted st (List.mem_of_mem_take hst)
  rw [mergeTables_eq]
  refine ⟨_, emits_sorted hscanned, ?_,
    by simpa [scannedStates] using mergeLoop_batched _ _ _ _ [] start hsorted, ?_⟩
  · intro e he
    obtain ⟨st, hst, he⟩ := emits_mem he
    obtain ⟨t, ht, _, hr⟩ := mem_iterStates (List.mem_of_mem_take hst)
    exact ⟨t, ht, hr ▸ he⟩
  · intro hid e
    refine emits_wins hscanned ?_ ?_
    · exact (iterStates_nodup hid).sublist ((List.take_sublist _ _).map _)
    · exact List.Sublist.sum_le_sum ((List.take_sublist _ _).map _) (fun _ _ => Nat.zero_le _)

/-- With fewer than `2 ^ 31` inputs the scan reaches them all. -/
theorem scannedStates_eq {inputs : List (SSTable Key Value)} (h : inputs.length < 2 ^ 31) :
    scannedStates inputs = iterStates inputs := by
  have hle : (iterStates inputs).length ≤ inputs.length := by
    simpa [iterStates] using List.length_filter_le _ inputs
  rw [scannedStates, List.take_of_length_le (by rw [toInt32_eq (by omega)])]

theorem mergeTables_batched (options : LSMTreeOptions) {inputs : List (SSTable Key Value)}
    (start : Nat) (hs : ∀ t ∈ inputs, Sorted t.entries) :
    ∃ es, Sorted es ∧ (∀ e ∈ es, ∃ t ∈ inputs, e ∈ t.entries) ∧
      Batched start es (mergeTables options inputs start).1 (mergeTables options inputs start).2 ∧
      ((inputs.map SSTable.id).Nodup → inputs.length < 2 ^ 31 →
        ∀ e, e ∈ es ↔ Wins (iterStates inputs) e) := by
  obtain ⟨es, hsorted, hfrom, hbatch, hwins⟩ := mergeTables_scanned options start hs
  refine ⟨es, hsorted, hfrom, hbatch, ?_⟩
  intro hid hlen
  rw [scannedStates_eq hlen] at hwins
  exact hwins hid

end Cppforge.Lsm
