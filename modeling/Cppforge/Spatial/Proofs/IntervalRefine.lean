import Cppforge.Spatial.Proofs.IntervalBalance
import Mathlib.Data.Prod.Lex
import Mathlib.Data.Finset.Card

namespace Cppforge.Spatial.IntervalTree
open BinaryTree Avl

variable {V D : Type} {c : Cell V D} {l r t t' : Node V D} {e : Interval V × D}

/-- What the nodes are ordered by. -/
def key (iv : Interval V) : V ×ₗ V := toLex (iv.low, iv.high)

def Cell.key (c : Cell V D) : V ×ₗ V := IntervalTree.key c.interval

theorem key_inj {iv other : Interval V} : key iv = key other ↔ iv = other := by
  cases iv
  cases other
  simp [key]

theorem entry_eq_iff : c.entry = e ↔
    c.interval.low = e.1.low ∧ c.interval.high = e.1.high ∧ c.data = e.2 := by
  rw [Cell.entry, Prod.ext_iff, ← key_inj, key, key, toLex_inj, Prod.mk.injEq, and_assoc]

/-- The keys of a tree are those of its pairs. -/
theorem keys_eq (t : Node V D) :
    t.inorder Cell.key = (t.inorder Cell.entry).map (fun e => key e.1) := by
  rw [map_inorder]
  rfl

theorem key_mem (h : e ∈ t.inorder Cell.entry) : key e.1 ∈ t.inorder Cell.key := by
  rw [keys_eq]
  exact List.mem_map_of_mem h

section Order
variable [LinearOrder V]

theorem before_iff {iv other : Interval V} : iv.before other = true ↔ key iv < key other := by
  simp [Interval.before, key, Prod.Lex.toLex_lt_toLex]

/-- The intervals do not decrease from left to right. -/
abbrev Sorted (t : Node V D) : Prop := InOrder (· ≤ ·) Cell.key t

theorem sorted_iff : Sorted t ↔
    (t.inorder Cell.entry).Pairwise (fun a b => key a.1 ≤ key b.1) := by
  rw [Sorted, InOrder, keys_eq, List.pairwise_map]

theorem entries_rebalance (h : rebalance (.node (updateStats c l r) l r) = some t') :
    t'.inorder Cell.entry = l.inorder Cell.entry ++ c.entry :: r.inorder Cell.entry :=
  inorder_rebalance (t := .node (updateStats c l r) l r) entry_updateStats h

theorem Sorted.le_root (h : Sorted (node c l r)) (he : e ∈ l.inorder Cell.entry) :
    key e.1 ≤ key c.interval :=
  (inOrder_node.mp h).2.2.1 _ (key_mem he)

theorem Sorted.root_le (h : Sorted (node c l r)) (he : e ∈ r.inorder Cell.entry) :
    key c.interval ≤ key e.1 :=
  (inOrder_node.mp h).2.2.2 _ (key_mem he)

/-- Behind the test for the left side the second test is for another pair. -/
theorem goesRight_iff (hbefore : ¬ e.1.before c.interval = true) :
    (c.interval.low < e.1.low ∨ c.interval.high < e.1.high ∨ c.data ≠ e.2) ↔ c.entry ≠ e := by
  rw [before_iff, not_lt, key, key, Prod.Lex.toLex_le_toLex] at hbefore
  rw [ne_eq, ne_eq, entry_eq_iff]
  simp only at hbefore
  constructor
  · rintro (h | h | h) ⟨hlow, hhigh, hdata⟩
    · exact h.ne hlow
    · exact h.ne hhigh
    · exact h hdata
  · intro hne
    rcases hbefore with h | ⟨hlow, hhigh⟩
    · exact .inl h
    · rcases hhigh.lt_or_eq with h | h
      · exact .inr (.inl h)
      · exact .inr (.inr (fun hdata => hne ⟨hlow, h, hdata⟩))

end Order

section Descent
variable [LinearOrder V] [DecidableEq D]

/-- The pair is on the way down that its interval takes. -/
def found (e : Interval V × D) : Node V D → Bool
  | .nil => false
  | .node c l r =>
    if c.entry = e then true
    else if e.1.before c.interval then found e l
    else found e r

/-- On the way down there is another payload with the same interval, and the pair
is on its left, where it is not looked for. -/
def mislaid (e : Interval V × D) : Node V D → Bool
  | .nil => false
  | .node c l r =>
    if c.entry = e then false
    else if e.1.before c.interval then mislaid e l
    else (decide (c.interval = e.1) && decide (e ∈ l.inorder Cell.entry)) || mislaid e r

/-- The node of the pair has two children, and its successor is mislaid on the right. -/
def heirMislaid (e : Interval V × D) : Node V D → Bool
  | .nil => false
  | .node c l r =>
    if c.entry = e then
      !l.isNull && (match r.findMin with
        | none => false
        | some s => mislaid s.entry r)
    else if e.1.before c.interval then heirMislaid e l
    else heirMislaid e r

/-- The call finds what it looks for if that is stored. -/
def Finds (t : IntervalTree V D) : Op V D → Prop
  | .insert interval data => mislaid (interval, data) t.root = false
  | .remove interval data =>
    mislaid (interval, data) t.root = false ∧ heirMislaid (interval, data) t.root = false

theorem mem_of_mislaid (h : mislaid e t = true) : e ∈ t.inorder Cell.entry := by
  induction t with
  | nil => cases h
  | node c l r ihl ihr =>
    rw [inorder_node, List.mem_append, List.mem_cons]
    unfold mislaid at h
    split at h
    · cases h
    · split at h
      · exact .inl (ihl h)
      · rw [Bool.or_eq_true, Bool.and_eq_true, decide_eq_true_eq] at h
        rcases h with ⟨_, hm⟩ | h
        · exact .inl (of_decide_eq_true hm)
        · exact .inr (.inr (ihr h))

theorem mem_of_found (h : found e t = true) : e ∈ t.inorder Cell.entry := by
  induction t with
  | nil => cases h
  | node c l r ihl ihr =>
    rw [inorder_node, List.mem_append, List.mem_cons]
    unfold found at h
    split at h
    · rename_i he
      exact .inr (.inl he.symm)
    · split at h
      · exact .inl (ihl h)
      · exact .inr (.inr (ihr h))

/-- A stored pair is found unless it is mislaid. -/
theorem found_iff (hs : Sorted t) (hd : (t.inorder Cell.entry).Nodup)
    (he : e ∈ t.inorder Cell.entry) : found e t = true ↔ mislaid e t = false := by
  induction t with
  | nil => cases he
  | node c l r ihl ihr =>
    obtain ⟨hsl, hsr, _, _⟩ := inOrder_node.mp hs
    have hle := hs.le_root (e := e)
    have hge := hs.root_le (e := e)
    rw [inorder_node, List.nodup_append, List.nodup_cons] at hd
    obtain ⟨hdl, ⟨_, hdr⟩, hdisj⟩ := hd
    rw [inorder_node, List.mem_append, List.mem_cons] at he
    unfold found mislaid
    split
    · simp
    · rename_i hne
      split
      · rename_i hbefore
        rw [before_iff] at hbefore
        refine ihl hsl hdl ?_
        rcases he with he | rfl | he
        · exact he
        · exact absurd rfl hne
        · exact absurd (hge he) (not_le.mpr hbefore)
      · rename_i hbefore
        rw [before_iff] at hbefore
        by_cases hl : e ∈ l.inorder Cell.entry
        · have hsame : c.interval = e.1 :=
            key_inj.mp (le_antisymm (not_lt.mp hbefore) (hle hl))
          have hr : e ∉ r.inorder Cell.entry := by
            intro hr
            exact hdisj e hl e (List.mem_cons_of_mem _ hr) rfl
          simp only [hsame, hl, decide_true, Bool.and_self, Bool.true_or, Bool.true_eq_false,
            iff_false]
          intro hf
          exact hr (mem_of_found hf)
        · have hr : e ∈ r.inorder Cell.entry := by
            rcases he with he | rfl | he
            · exact absurd he hl
            · exact absurd rfl hne
            · exact he
          simp only [hl, decide_false, Bool.and_false, Bool.false_or]
          exact ihr hsr hdr hr

end Descent

section Changes
variable [LinearOrder V] [DecidableEq D] {size size' : Nat}

omit [DecidableEq D] in
/-- A call below a node goes on with the child it returns, and its `size_` stands. -/
theorem descended {child : Option (Node V D × Nat)} (grown : Node V D → Node V D)
    (h : (child >>= fun x => rebalance (grown x.1) >>= fun node => pure (node, x.2)) =
      some (t', size')) :
    ∃ n, child = some (n, size') ∧ rebalance (grown n) = some t' := by
  obtain ⟨⟨n, size⟩, hchild, h⟩ := Option.bind_eq_some_iff.mp h
  obtain ⟨node, hnode, h⟩ := Option.bind_eq_some_iff.mp h
  simp only [Option.pure_def, Option.some.injEq, Prod.mk.injEq] at h
  obtain ⟨rfl, rfl⟩ := h
  exact ⟨n, hchild, hnode⟩

/-- A new pair goes to its place; a pair that is found stays as it is. -/
theorem insertImpl_spec (hs : Sorted t) (h : insertImpl e.1 e.2 t size = some (t', size')) :
    (found e t = true ∧ t'.inorder Cell.entry = t.inorder Cell.entry ∧ size' = size) ∨
      (found e t = false ∧ size' = size + 1 ∧ Sorted t' ∧
        (t'.inorder Cell.entry).Perm (e :: t.inorder Cell.entry)) := by
  induction t generalizing t' size' with
  | nil =>
    simp only [insertImpl, Option.some.injEq, Prod.mk.injEq] at h
    obtain ⟨rfl, rfl⟩ := h
    exact .inr ⟨rfl, rfl, List.pairwise_singleton _ _, List.Perm.refl _⟩
  | node c l r ihl ihr =>
    obtain ⟨hsl, hsr, hlc, hcr⟩ := inOrder_node.mp hs
    rw [insertImpl] at h
    simp only [← entry_eq_iff] at h
    unfold found
    split at h
    · rename_i he
      simp only [Option.some.injEq, Prod.mk.injEq] at h
      obtain ⟨rfl, rfl⟩ := h
      left
      simp [he]
    · rename_i he
      rw [if_neg he]
      split at h
      · rename_i hbefore
        rw [if_pos hbefore]
        obtain ⟨l', hins, hreb⟩ := descended (fun l => .node (updateStats c l r) l r) h
        rw [entries_rebalance hreb, inorder_node]
        rcases ihl hsl hins with ⟨hf, hent, hn⟩ | ⟨hf, hn, hsl', hperm⟩
        · exact .inl ⟨hf, by rw [hent], hn⟩
        · refine .inr ⟨hf, hn, ?_, hperm.append_right _⟩
          rw [sorted_iff, entries_rebalance hreb, ← inorder_node, ← sorted_iff]
          refine inOrder_node.mpr ⟨hsl', hsr, ?_, hcr⟩
          intro k hk
          rw [keys_eq, List.mem_map] at hk
          obtain ⟨x, hx, rfl⟩ := hk
          rcases List.mem_cons.mp (hperm.mem_iff.mp hx) with rfl | hx
          · exact (before_iff.mp hbefore).le
          · exact hlc _ (key_mem hx)
      · rename_i hbefore
        rw [if_neg hbefore]
        obtain ⟨r', hins, hreb⟩ := descended (fun r => .node (updateStats c l r) l r) h
        rw [entries_rebalance hreb, inorder_node]
        rcases ihr hsr hins with ⟨hf, hent, hn⟩ | ⟨hf, hn, hsr', hperm⟩
        · exact .inl ⟨hf, by rw [hent], hn⟩
        · refine .inr ⟨hf, hn, ?_, ?_⟩
          · rw [sorted_iff, entries_rebalance hreb, ← inorder_node, ← sorted_iff]
            refine inOrder_node.mpr ⟨hsl, hsr', hlc, ?_⟩
            intro k hk
            rw [keys_eq, List.mem_map] at hk
            obtain ⟨x, hx, rfl⟩ := hk
            rcases List.mem_cons.mp (hperm.mem_iff.mp hx) with rfl | hx
            · exact not_lt.mp (fun hlt => hbefore (before_iff.mpr hlt))
            · exact hcr _ (key_mem hx)
          · refine ((hperm.cons _).append_left _).trans ?_
            exact (List.perm_append_left_iff _ |>.mpr (List.Perm.swap _ _ _)).trans
              List.perm_middle

theorem mem_of_heirMislaid (h : heirMislaid e t = true) : e ∈ t.inorder Cell.entry := by
  induction t with
  | nil => cases h
  | node c l r ihl ihr =>
    rw [inorder_node, List.mem_append, List.mem_cons]
    unfold heirMislaid at h
    split at h
    · rename_i he
      exact .inr (.inl he.symm)
    · split at h
      · exact .inl (ihl h)
      · exact .inr (.inr (ihr h))

/-- The first pair has no left child. -/
theorem heirMislaid_findMin {s : Cell V D} (hd : (t.inorder Cell.entry).Nodup)
    (hmin : t.findMin = some s) : heirMislaid s.entry t = false := by
  induction t with
  | nil => rfl
  | node c l r ihl ihr =>
    rw [inorder_node, List.nodup_append, List.nodup_cons] at hd
    obtain ⟨hdl, ⟨_, _⟩, hdisj⟩ := hd
    cases l with
    | nil =>
      obtain rfl : c = s := Option.some.inj hmin
      simp [heirMislaid, isNull]
    | node b A B =>
      obtain ⟨s', rest, hmin', hrest⟩ := exists_findMin Cell.entry (t := node b A B) (by simp)
      obtain rfl : s' = s := Option.some.inj (hmin'.symm.trans hmin)
      have hs : s'.entry ∈ (node b A B).inorder Cell.entry := by
        rw [hrest]
        exact List.mem_cons_self
      unfold heirMislaid
      split
      · rename_i he
        exact absurd he.symm (hdisj _ hs c.entry List.mem_cons_self)
      · split
        · exact ihl hdl hmin
        · cases hr : heirMislaid s'.entry r with
          | false => rfl
          | true =>
            exact absurd rfl (hdisj _ hs _ (List.mem_cons_of_mem _ (mem_of_heirMislaid hr)))

/-- Without a mislaid successor the pair that is found goes, and nothing else. -/
theorem removeImpl_spec (hs : Sorted t) (hd : (t.inorder Cell.entry).Nodup)
    (h : removeImpl e.1 e.2 t size = some (t', size')) :
    (found e t = false ∧ t'.inorder Cell.entry = t.inorder Cell.entry ∧ size' = size) ∨
      (found e t = true ∧ heirMislaid e t = true ∧ size' = size) ∨
      (found e t = true ∧ heirMislaid e t = false ∧ size' = size - 1 ∧
        t'.inorder Cell.entry = (t.inorder Cell.entry).erase e) := by
  induction t generalizing e t' size' with
  | nil =>
    simp only [removeImpl, Option.some.injEq, Prod.mk.injEq] at h
    obtain ⟨rfl, rfl⟩ := h
    exact .inl ⟨rfl, rfl, rfl⟩
  | node c l r ihl ihr =>
    obtain ⟨hsl, hsr, hlc, hcr⟩ := inOrder_node.mp hs
    have hnodup := hd
    rw [inorder_node, List.nodup_append, List.nodup_cons] at hnodup
    obtain ⟨hdl, ⟨_, hdr⟩, hdisj⟩ := hnodup
    unfold found heirMislaid
    rw [removeImpl] at h
    split at h
    · rename_i hbefore
      have he : c.entry ≠ e := by
        rintro rfl
        exact lt_irrefl _ (before_iff.mp hbefore)
      rw [if_neg he, if_neg he, if_pos hbefore, if_pos hbefore]
      obtain ⟨l', hrem, hreb⟩ := descended (fun l => .node (updateStats c l r) l r) h
      rw [entries_rebalance hreb, inorder_node]
      rcases ihl hsl hdl hrem with ⟨hf, hent, hn⟩ | ⟨hf, hm, hn⟩ | ⟨hf, hm, hn, hent⟩
      · exact .inl ⟨hf, by rw [hent], hn⟩
      · exact .inr (.inl ⟨hf, hm, hn⟩)
      · exact .inr (.inr ⟨hf, hm, hn, by rw [hent, List.erase_append_left _ (mem_of_found hf)]⟩)
    · rename_i hbefore
      simp only [goesRight_iff hbefore] at h
      split at h
      · rename_i he
        rw [if_neg he, if_neg he, if_neg hbefore, if_neg hbefore]
        obtain ⟨r', hrem, hreb⟩ := descended (fun r => .node (updateStats c l r) l r) h
        rw [entries_rebalance hreb, inorder_node]
        rcases ihr hsr hdr hrem with ⟨hf, hent, hn⟩ | ⟨hf, hm, hn⟩ | ⟨hf, hm, hn, hent⟩
        · exact .inl ⟨hf, by rw [hent], hn⟩
        · exact .inr (.inl ⟨hf, hm, hn⟩)
        · have hl : e ∉ l.inorder Cell.entry := fun hl =>
            hdisj e hl e (List.mem_cons_of_mem _ (mem_of_found hf)) rfl
          refine .inr (.inr ⟨hf, hm, hn, ?_⟩)
          rw [hent, List.erase_append_right _ hl, List.erase_cons_tail (by simpa using he)]
      · rename_i he
        obtain rfl : c.entry = e := not_not.mp he
        have hl : c.entry ∉ l.inorder Cell.entry := fun hl =>
          hdisj _ hl _ List.mem_cons_self rfl
        have herase : ((node c l r).inorder Cell.entry).erase c.entry =
            l.inorder Cell.entry ++ r.inorder Cell.entry := by
          rw [inorder_node, List.erase_append_right _ hl, List.erase_cons_head]
        rw [if_pos rfl, if_pos rfl, herase]
        split at h
        · rename_i hnull
          simp only [Option.some.injEq, Prod.mk.injEq] at h
          obtain ⟨rfl, rfl⟩ := h
          refine .inr (.inr ⟨rfl, by simp [hnull], rfl, ?_⟩)
          rw [isNull_iff.mp hnull, inorder_nil, List.nil_append]
        · rename_i hleft
          split at h
          · rename_i hnull
            simp only [Option.some.injEq, Prod.mk.injEq] at h
            obtain ⟨rfl, rfl⟩ := h
            refine .inr (.inr ⟨rfl, ?_, rfl, ?_⟩)
            · rw [isNull_iff.mp hnull]
              simp [findMin]
            · rw [isNull_iff.mp hnull, inorder_nil, List.append_nil]
          · rename_i hnull
            rw [isNull_iff] at hnull
            obtain ⟨s, rest, hmin, hrest⟩ := exists_findMin Cell.entry hnull
            have hsr' : s.entry ∈ r.inorder Cell.entry := by
              rw [hrest]
              exact List.mem_cons_self
            rw [hmin, Option.bind_eq_bind, Option.bind_some] at h
            obtain ⟨r', hrem, hreb⟩ := descended (fun r => .node
              (updateStats { c with interval := s.interval, data := s.data } l r) l r) h
            have hheir : (!l.isNull && match r.findMin with
                | none => false
                | some s => mislaid s.entry r) = mislaid s.entry r := by
              simp [hmin, hleft]
            rcases ihr (e := s.entry) hsr hdr hrem with
              ⟨hf, _, hn⟩ | ⟨_, hm, _⟩ | ⟨hf, _, hn, hent⟩
            · refine .inr (.inl ⟨rfl, ?_, hn⟩)
              rw [hheir]
              have := found_iff hsr hdr hsr'
              rw [hf] at this
              simpa using this
            · rw [heirMislaid_findMin hdr hmin] at hm
              cases hm
            · refine .inr (.inr ⟨rfl, ?_, hn, ?_⟩)
              · rw [hheir]
                exact (found_iff hsr hdr hsr').mp hf
              · rw [entries_rebalance hreb, hent, hrest, List.erase_cons_head]
                rfl

end Changes

section Runs
variable [LinearOrder V]

/-- The tree stores the pairs of the set, each once. -/
structure Holds (t : IntervalTree V D) (m : Finset (Interval V × D)) : Prop where
  nodup : t.entries.Nodup
  mem (e : Interval V × D) : e ∈ t.entries ↔ e ∈ m
  size : t.size = m.card

structure Inv (t : IntervalTree V D) (m : Finset (Interval V × D)) : Prop extends Holds t m where
  valid : Valid updateStats t.root
  sorted : Sorted t.root

theorem create_inv : Inv (create : IntervalTree V D) ∅ :=
  ⟨⟨List.nodup_nil, by simp [create, entries], rfl⟩, valid_nil, inOrder_nil⟩

variable [DecidableEq D]

/-- A call on the set of pairs, and what it returns. -/
def effect (m : Finset (Interval V × D)) : Op V D → Finset (Interval V × D) × Bool
  | .insert interval data => (Insert.insert (interval, data) m, decide ((interval, data) ∉ m))
  | .remove interval data => (m.erase (interval, data), decide ((interval, data) ∈ m))

variable {t : IntervalTree V D} {m : Finset (Interval V × D)}

theorem insert_spec (h : Inv t m) (e : Interval V × D) :
    ∃ t', t.insert e.1 e.2 = some (t', !found e t.root) ∧
      (mislaid e t.root = false → found e t.root = decide (e ∈ m) ∧ Inv t' (Insert.insert e m)) := by
  obtain ⟨root, size, hins, hv, _⟩ := insertImpl_valid e.1 e.2 t.size h.valid
  have hmem := found_iff (e := e) h.sorted h.nodup
  rcases insertImpl_spec h.sorted hins with ⟨hf, hent, hn⟩ | ⟨hf, hn, hs, hperm⟩
  · have hm : e ∈ m := (h.mem e).mp (mem_of_found hf)
    refine ⟨⟨root, size⟩, by simp [insert, hins, hf, hn], fun _ => ⟨by simp [hf, hm], ?_⟩⟩
    rw [Finset.insert_eq_of_mem hm]
    refine ⟨⟨?_, ?_, ?_⟩, hv, ?_⟩
    · rw [entries, hent]
      exact h.nodup
    · intro x
      rw [entries, hent]
      exact h.mem x
    · rw [hn]
      exact h.size
    · rw [sorted_iff, hent, ← sorted_iff]
      exact h.sorted
  · refine ⟨⟨root, size⟩, by simp [insert, hins, hf, hn], ?_⟩
    intro hmis
    have hnot : e ∉ t.entries := by
      intro he
      rw [(hmem he).mpr hmis] at hf
      cases hf
    have hm : e ∉ m := fun hm => hnot ((h.mem e).mpr hm)
    refine ⟨by simp [hf, hm], ⟨hperm.nodup_iff.mpr (List.nodup_cons.mpr ⟨hnot, h.nodup⟩), ?_, ?_⟩,
      hv, hs⟩
    · intro x
      rw [Finset.mem_insert, ← h.mem, ← List.mem_cons]
      exact hperm.mem_iff
    · rw [hn, h.size, Finset.card_insert_of_notMem hm]

theorem remove_spec (h : Inv t m) (e : Interval V × D) :
    ∃ t', t.remove e.1 e.2 = some (t', found e t.root && !heirMislaid e t.root) ∧
      (mislaid e t.root = false → heirMislaid e t.root = false →
        found e t.root = decide (e ∈ m) ∧ Inv t' (m.erase e)) := by
  obtain ⟨root, size, hrem, hv, _⟩ := removeImpl_valid e.1 e.2 t.size h.valid
  have hmem := found_iff (e := e) h.sorted h.nodup
  rcases removeImpl_spec h.sorted h.nodup hrem with
    ⟨hf, hent, hn⟩ | ⟨hf, hm, hn⟩ | ⟨hf, hm, hn, hent⟩
  · refine ⟨⟨root, size⟩, by simp [remove, hrem, hf, hn], fun hmis _ => ?_⟩
    have hnot : e ∉ m := by
      intro he
      rw [(hmem ((h.mem e).mpr he)).mpr hmis] at hf
      cases hf
    rw [Finset.erase_eq_of_notMem hnot]
    refine ⟨by simp [hf, hnot], ⟨?_, ?_, ?_⟩, hv, ?_⟩
    · rw [entries, hent]
      exact h.nodup
    · intro x
      rw [entries, hent]
      exact h.mem x
    · rw [hn]
      exact h.size
    · rw [sorted_iff, hent, ← sorted_iff]
      exact h.sorted
  · exact ⟨⟨root, size⟩, by simp [remove, hrem, hm, hn], fun _ hheir => by simp [hm] at hheir⟩
  · have he : e ∈ m := (h.mem e).mp (mem_of_found hf)
    have hpos : 0 < t.size := by
      rw [h.size]
      exact Finset.card_pos.mpr ⟨e, he⟩
    refine ⟨⟨root, size⟩, by simp [remove, hrem, hf, hm, hn, Nat.sub_lt hpos], fun _ _ => ?_⟩
    refine ⟨by simp [hf, he], ⟨?_, ?_, ?_⟩, hv, ?_⟩
    · rw [entries, hent]
      exact h.nodup.erase e
    · intro x
      rw [entries, hent, Finset.mem_erase, ← h.mem]
      exact h.nodup.mem_erase_iff
    · rw [hn, h.size, Finset.card_erase_of_mem he]
    · rw [sorted_iff, hent]
      exact (sorted_iff.mp h.sorted).sublist List.erase_sublist

theorem apply_finds (t : IntervalTree V D) (m : Finset (Interval V × D)) (op : Op V D)
    (h : Inv t m) (hop : Finds t op) :
    ∃ t', apply t op = some (t', (effect m op).2) ∧ Inv t' (effect m op).1 := by
  cases op with
  | insert interval data =>
    obtain ⟨t', heq, hgood⟩ := insert_spec h (interval, data)
    obtain ⟨hf, h'⟩ := hgood hop
    rw [hf] at heq
    exact ⟨t', by simp [apply, heq, effect], h'⟩
  | remove interval data =>
    obtain ⟨t', heq, hgood⟩ := remove_spec h (interval, data)
    obtain ⟨hf, h'⟩ := hgood hop.1 hop.2
    rw [hf, hop.2] at heq
    exact ⟨t', by simp [apply, heq, effect], h'⟩

/-- A call that does not find its pair, or a successor, returns the wrong answer. -/
theorem apply_wrong (t : IntervalTree V D) (m : Finset (Interval V × D)) (op : Op V D)
    (h : Inv t m) (hop : ¬ Finds t op) (t' : IntervalTree V D) :
    apply t op ≠ some (t', (effect m op).2) := by
  have hlost : ∀ e, mislaid e t.root = true → found e t.root = false ∧ e ∈ m := by
    intro e hm
    have he := mem_of_mislaid hm
    refine ⟨?_, (h.mem e).mp he⟩
    have := found_iff h.sorted h.nodup he
    rw [hm] at this
    simpa using this
  cases op with
  | insert interval data =>
    obtain ⟨hf, hm⟩ := hlost (interval, data) (by simpa [Finds] using hop)
    obtain ⟨t₁, heq, _⟩ := insert_spec h (interval, data)
    simp [apply, heq, effect, hf, hm]
  | remove interval data =>
    obtain ⟨t₁, heq, _⟩ := remove_spec h (interval, data)
    rw [Finds, not_and_or, Bool.not_eq_false, Bool.not_eq_false] at hop
    rcases hop with hmis | hheir
    · obtain ⟨hf, hm⟩ := hlost (interval, data) hmis
      simp [apply, heq, effect, hf, hm]
    · have hm : (interval, data) ∈ m := (h.mem _).mp (mem_of_heirMislaid hheir)
      simp [apply, heq, effect, hheir, hm]

/-- A run keeps to the set of pairs exactly when no call looks for a pair that lies
on the left of another payload with its interval. -/
theorem run_finds_iff (ops : List (Op V D)) :
    Run.Refines apply effect Holds (create : IntervalTree V D) ∅ ops ↔
      Run.Meets apply Finds create ops :=
  Run.refines_iff (fun _ _ h => h.toHolds) apply_finds
    (fun t m op h hop t' hstep => absurd hstep (apply_wrong t m op h hop t')) ops create_inv

/-- The rotation at the third payload puts the first one on the left of the second,
where the fourth call does not look for it. -/
theorem inserted_twice :
    let calls : List (Op Int Nat) :=
      [.insert ⟨0, 10⟩ 1, .insert ⟨0, 10⟩ 2, .insert ⟨0, 10⟩ 3, .insert ⟨0, 10⟩ 1]
    ((Run.exec apply create calls).map Prod.snd = some [true, true, true, true]) ∧
      ¬ Run.Refines apply effect Holds create ∅ calls := by
  intro calls
  have hrun : (Run.exec apply create calls).map Prod.snd = some [true, true, true, true] := by
    decide +kernel
  refine ⟨hrun, ?_⟩
  intro hall
  obtain ⟨t', heq, _⟩ := hall calls List.prefix_rfl
  have hmodel : (Run.execModel effect (∅ : Finset (Interval Int × Nat)) calls).2 =
      [true, true, true, false] := by
    decide +kernel
  rw [heq, Option.map_some, hmodel] at hrun
  simp at hrun

end Runs

end Cppforge.Spatial.IntervalTree
