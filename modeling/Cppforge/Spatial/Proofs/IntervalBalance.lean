import Cppforge.Spatial.IntervalTree
import Cppforge.Lib.Run

namespace Cppforge.Spatial.IntervalTree
open BinaryTree Avl

variable {V D : Type} [LinearOrder V] {c : Cell V D} {l r t t' : Node V D}

section Stats

theorem stamped : Stamped Cell.height (updateStats (V := V) (D := D)) :=
  ⟨fun _ _ _ => rfl, fun _ _ _ _ _ => rfl⟩

theorem entry_updateStats (c : Cell V D) (l r : Node V D) : (updateStats c l r).entry = c.entry :=
  rfl

theorem rebalance_spec (c : Cell V D) (hl : Valid updateStats l) (hr : Valid updateStats r)
    (hlr : l.height ≤ r.height + 2) (hrl : r.height ≤ l.height + 2) :
    ∃ t', rebalance (.node (updateStats c l r) l r) = some t' ∧ Valid updateStats t' ∧
      max l.height r.height ≤ t'.height ∧ t'.height ≤ max l.height r.height + 1 ∧
      (l.height ≤ r.height + 1 → r.height ≤ l.height + 1 →
        t'.height = max l.height r.height + 1) :=
  Avl.rebalance_spec stamped c hl hr hlr hrl

/-- Every `height_` and `max_high_` is that of its subtree. -/
def StatsTrue : Node V D → Prop
  | .nil => True
  | .node c l r =>
    let highs := (BinaryTree.node c l r).inorder (fun c => c.interval.high)
    c.height = (BinaryTree.node c l r).height ∧ c.maxHigh ∈ highs ∧ (∀ h ∈ highs, h ≤ c.maxHigh) ∧
      StatsTrue l ∧ StatsTrue r

/-- The highs of a subtree and the bound they are compared with. -/
theorem raised_spec (ht : StatsTrue t) (high : V) :
    (raised high t = high ∨ raised high t ∈ t.inorder (fun c => c.interval.high)) ∧
      high ≤ raised high t ∧ ∀ h ∈ t.inorder (fun c => c.interval.high), h ≤ raised high t := by
  cases t with
  | nil => exact ⟨.inl rfl, le_rfl, by simp⟩
  | node c l r =>
    obtain ⟨_, hmem, hle, _, _⟩ := ht
    rw [raised]
    split
    · rename_i hlt
      exact ⟨.inr hmem, hlt.le, hle⟩
    · rename_i hlt
      exact ⟨.inl rfl, le_rfl, fun h hh => (hle h hh).trans (not_lt.mp hlt)⟩

theorem statsTrue (h : Exact updateStats t) : StatsTrue t := by
  induction t with
  | nil => trivial
  | node c l r ihl ihr =>
    obtain ⟨hc, hl, hr⟩ := h
    obtain ⟨hml, hcl, hlel⟩ := raised_spec (ihl hl) c.interval.high
    obtain ⟨hmr, hcr, hler⟩ := raised_spec (ihr hr) (raised c.interval.high l)
    have hmax : c.maxHigh = raised (raised c.interval.high l) r := by
      rw [← hc]
      rfl
    refine ⟨Avl.getHeight_eq stamped (t := node c l r) ⟨hc, hl, hr⟩, ?_, ?_, ihl hl, ihr hr⟩
    · rw [hmax, inorder_node, List.mem_append, List.mem_cons]
      rcases hmr with he | hm
      · rw [he]
        rcases hml with he | hm
        · exact .inr (.inl he)
        · exact .inl hm
      · exact .inr (.inr hm)
    · intro h hh
      rw [hmax]
      rw [inorder_node, List.mem_append, List.mem_cons] at hh
      rcases hh with hh | rfl | hh
      · exact (hlel h hh).trans hcr
      · exact hcl.trans hcr
      · exact hler h hh

end Stats

section Changes
variable [DecidableEq D]

theorem insertImpl_valid (interval : Interval V) (data : D) (size : Nat) (hv : Valid updateStats t) :
    ∃ t' size', insertImpl interval data t size = some (t', size') ∧ Valid updateStats t' ∧
      (t'.height = t.height ∨ t'.height = t.height + 1) := by
  induction t generalizing size with
  | nil =>
    exact ⟨_, _, rfl, valid_node.mpr ⟨rfl, by simp, by simp, valid_nil, valid_nil⟩, by simp⟩
  | node c l r ihl ihr =>
    obtain ⟨_, hlr, hrl, hl, hr⟩ := valid_node.mp hv
    rw [insertImpl, BinaryTree.height]
    split
    · exact ⟨_, _, rfl, hv, .inl rfl⟩
    · split
      · obtain ⟨l', size', hins, hl', hh⟩ := ihl size hl
        obtain ⟨t', hreb, hv', hlow, hhigh, hflat⟩ := rebalance_spec c hl' hr (by omega) (by omega)
        exact ⟨t', size', by simp [hins, hreb], hv', by omega⟩
      · obtain ⟨r', size', hins, hr', hh⟩ := ihr size hr
        obtain ⟨t', hreb, hv', hlow, hhigh, hflat⟩ := rebalance_spec c hl hr' (by omega) (by omega)
        exact ⟨t', size', by simp [hins, hreb], hv', by omega⟩

theorem removeImpl_valid (interval : Interval V) (data : D) (size : Nat) (hv : Valid updateStats t) :
    ∃ t' size', removeImpl interval data t size = some (t', size') ∧ Valid updateStats t' ∧
      (t'.height = t.height ∨ t'.height + 1 = t.height) := by
  induction t generalizing size interval data with
  | nil => exact ⟨.nil, size, rfl, valid_nil, .inl rfl⟩
  | node c l r ihl ihr =>
    obtain ⟨_, hlr, hrl, hl, hr⟩ := valid_node.mp hv
    rw [removeImpl, BinaryTree.height]
    split
    · obtain ⟨l', size', hrem, hl', hh⟩ := ihl interval data size hl
      obtain ⟨t', hreb, hv', hlow, hhigh, hflat⟩ := rebalance_spec c hl' hr (by omega) (by omega)
      exact ⟨t', size', by simp [hrem, hreb], hv', by omega⟩
    · split
      · obtain ⟨r', size', hrem, hr', hh⟩ := ihr interval data size hr
        obtain ⟨t', hreb, hv', hlow, hhigh, hflat⟩ := rebalance_spec c hl hr' (by omega) (by omega)
        exact ⟨t', size', by simp [hrem, hreb], hv', by omega⟩
      · split
        · rename_i hnull
          rw [isNull_iff] at hnull
          subst hnull
          exact ⟨r, size - 1, rfl, hr, .inr (by simp)⟩
        · split
          · rename_i hnull
            rw [isNull_iff] at hnull
            subst hnull
            exact ⟨l, size - 1, rfl, hl, .inr (by simp)⟩
          · rename_i hnull
            rw [isNull_iff] at hnull
            obtain ⟨s, _, hmin, _⟩ := exists_findMin Cell.entry hnull
            obtain ⟨r', size', hrem, hr', hh⟩ := ihr s.interval s.data size hr
            obtain ⟨t', hreb, hv', hlow, hhigh, hflat⟩ := rebalance_spec
              { c with interval := s.interval, data := s.data } hl hr' (by omega) (by omega)
            exact ⟨t', size', by simp [hmin, hrem, hreb], hv', by omega⟩

theorem apply_valid (t : IntervalTree V D) (op : Op V D) (hv : Valid updateStats t.root) :
    ∃ t' found, apply t op = some (t', found) ∧ Valid updateStats t'.root := by
  cases op with
  | insert interval data =>
    obtain ⟨root, size, hins, hv', _⟩ := insertImpl_valid interval data t.size hv
    exact ⟨⟨root, size⟩, decide (t.size < size), by simp [apply, insert, hins], hv'⟩
  | remove interval data =>
    obtain ⟨root, size, hrem, hv', _⟩ := removeImpl_valid interval data t.size hv
    exact ⟨⟨root, size⟩, decide (size < t.size), by simp [apply, remove, hrem], hv'⟩

end Changes

section Queries

/-- The payloads whose interval passes the test. -/
def matching (test : Interval V → Bool) (es : List (Interval V × D)) : List D :=
  (es.filter (fun e => test e.1)).map Prod.snd

/-- Leaving out a left subtree that ends too early loses nothing. -/
theorem queryImpl_perm {test : Interval V → Bool} {low : V}
    (htest : ∀ iv, test iv = true → low < iv.high) (ht : StatsTrue t) :
    (queryImpl test low t).Perm (matching test (t.inorder Cell.entry)) := by
  induction t with
  | nil => exact List.Perm.refl _
  | node c l r ihl ihr =>
    obtain ⟨_, _, _, hl, hr⟩ := ht
    have hleft : (if reaches low l then queryImpl test low l else []).Perm
        (matching test (l.inorder Cell.entry)) := by
      split
      · exact ihl hl
      · rename_i hlow
        have hnone : (l.inorder Cell.entry).filter (fun e => test e.1) = [] := by
          rw [List.filter_eq_nil_iff]
          intro e he hpass
          have hhigh := List.mem_map_of_mem (f := fun e : Interval V × D => e.1.high) he
          rw [map_inorder] at hhigh
          cases l with
          | nil => cases he
          | node x A B =>
            refine hlow (decide_eq_true ?_)
            exact (htest e.1 hpass).trans_le (hl.2.2.1 _ hhigh)
        rw [matching, hnone]
        exact List.Perm.refl _
    have hhere : matching test ((node c l r).inorder Cell.entry) =
        matching test (l.inorder Cell.entry) ++ (if test c.interval then [c.data] else []) ++
          matching test (r.inorder Cell.entry) := by
      rw [inorder_node]
      simp only [matching, List.filter_append, List.filter_cons, List.map_append, Cell.entry]
      split <;> simp
    rw [hhere, queryImpl]
    exact (List.perm_append_comm.trans (hleft.append_right _)).append (ihr hr)

theorem overlaps_high {iv query : Interval V} (h : iv.overlaps query = true) :
    query.low < iv.high := by
  simp only [Interval.overlaps, Bool.not_eq_true', Bool.or_eq_false_iff, decide_eq_false_iff_not,
    not_le] at h
  exact h.1

theorem contains_high {iv : Interval V} {point : V} (h : iv.contains point = true) :
    point < iv.high := by
  simp only [Interval.contains, Bool.and_eq_true, decide_eq_true_eq] at h
  exact h.2

end Queries

/-- After any run the tree is balanced, its heights and maxima are true, and the
queries find what a scan of all nodes finds. -/
theorem run_balanced [DecidableEq D] (ops : List (Op V D)) :
    ∃ t, run ops = some t ∧ Balanced t.root ∧ StatsTrue t.root ∧
      (∀ query, (t.queryOverlap query).Perm (matching (fun iv => iv.overlaps query) t.entries)) ∧
      ∀ point, (t.queryPoint point).Perm (matching (fun iv => iv.contains point) t.entries) := by
  have hstep : ∀ (t : IntervalTree V D) op, Valid updateStats t.root →
      ∃ t', (apply t op).map Prod.fst = some t' ∧ Valid updateStats t'.root := by
    intro t op hv
    obtain ⟨t', found, happly, hv'⟩ := apply_valid t op hv
    exact ⟨t', by rw [happly, Option.map_some], hv'⟩
  obtain ⟨t, hrun, hv⟩ := Run.keeps hstep ops (s := create) valid_nil
  have ht := statsTrue hv.exact
  exact ⟨t, hrun, hv.balanced, ht, fun _ => queryImpl_perm (fun _ => overlaps_high) ht,
    fun _ => queryImpl_perm (fun _ => contains_high) ht⟩

end Cppforge.Spatial.IntervalTree
