import Cppforge.Range.RangeQueries
import Cppforge.Lib.Halving
import Cppforge.Lib.Ranges
import Cppforge.Lib.Run

namespace Cppforge.Range.SegmentTree
open Halving Segments

variable {T : Type} {merge : T → T → T} {t : SegmentTree T} {xs xs' tree tree' : List T}
  {node l m r pos ql qr : Nat} {value a b : T}

/-- The nodes from one on down hold what the elements of their ranges merge to. -/
def Stored (merge : T → T → T) (xs tree : List T) (node l r : Nat) : Prop :=
  tree[node]? = merged merge (segment xs l r) ∧
    if l + 1 < r then
      Stored merge xs tree (node * 2) l (l + (r - l) / 2) ∧
      Stored merge xs tree (node * 2 + 1) (l + (r - l) / 2) r
    else True
termination_by r - l

theorem Stored.root (h : Stored merge xs tree node l r) :
    tree[node]? = merged merge (segment xs l r) := by
  rw [Stored] at h
  exact h.1

theorem Stored.halves (h : Stored merge xs tree node l r) (hmany : l + 1 < r) :
    Stored merge xs tree (node * 2) l (l + (r - l) / 2) ∧
      Stored merge xs tree (node * 2 + 1) (l + (r - l) / 2) r := by
  rw [Stored, if_pos hmany] at h
  exact h.2

theorem Stored.leaf (h : tree[node]? = merged merge (segment xs l r)) (hone : l + 1 = r) :
    Stored merge xs tree node l r := by
  rw [Stored, if_neg (by omega)]
  exact ⟨h, trivial⟩

theorem Stored.inner (h : tree[node]? = merged merge (segment xs l r))
    (hleft : Stored merge xs tree (node * 2) l (l + (r - l) / 2))
    (hright : Stored merge xs tree (node * 2 + 1) (l + (r - l) / 2) r) :
    Stored merge xs tree node l r := by
  rw [Stored]
  refine ⟨h, ?_⟩
  split
  · exact ⟨hleft, hright⟩
  · trivial

/-- Nothing but the nodes below and the elements of the range matters. -/
theorem Stored.congr (h : Stored merge xs tree node l r)
    (htree : ∀ i, Below node i → tree'[i]? = tree[i]?)
    (hxs : ∀ a b, l ≤ a → b ≤ r → segment xs' a b = segment xs a b) :
    Stored merge xs' tree' node l r := by
  induction hs : r - l using Nat.strong_induction_on generalizing node l r with
  | _ s ih =>
    have hvalue : tree'[node]? = merged merge (segment xs' l r) := by
      rw [htree node (below_self node), hxs l r le_rfl le_rfl, h.root]
    by_cases hmany : l + 1 < r
    · obtain ⟨hleft, hright⟩ := h.halves hmany
      refine .inner hvalue (ih _ (by omega) hleft ?_ ?_ rfl) (ih _ (by omega) hright ?_ ?_ rfl)
      · exact fun i hi => htree i (below_left hi)
      · exact fun a b ha hb => hxs a b ha (by omega)
      · exact fun i hi => htree i (below_right hi)
      · exact fun a b ha hb => hxs a b (by omega) hb
    · rw [Stored, if_neg hmany]
      exact ⟨hvalue, trivial⟩

theorem store_some {ys : List T} (h : node < ys.length) :
    store ys node value = some (ys.set node value) := if_pos h

/-- What a call leaves of the nodes: those below its own hold their ranges, the others are the
ones before. -/
structure Holds (merge : T → T → T) (xs tree tree' : List T) (node l r : Nat) : Prop where
  length : tree'.length = tree.length
  frame : ∀ i, ¬ Below node i → tree'[i]? = tree[i]?
  stored : Stored merge xs tree' node l r

theorem Holds.leaf (hnode : node < tree.length) (hone : l + 1 = r) (hx : xs[l]? = some value) :
    Holds merge xs tree (tree.set node value) node l r := by
  refine ⟨List.length_set, ?_, ?_⟩
  · intro i hi
    refine List.getElem?_set_ne ?_
    rintro rfl
    exact hi (below_self node)
  · refine .leaf ?_ hone
    rw [List.getElem?_set_self hnode, ← hone, segment_one hx]
    rfl

/-- Once both halves hold their ranges, `pull` makes the node hold its own. -/
theorem Holds.pull (hop : Std.Associative merge) (hnode : 0 < node) (hlt : node < tree'.length)
    (hl : l < l + (r - l) / 2) (hr : l + (r - l) / 2 < r) (hlen : r ≤ xs.length)
    (hlength : tree'.length = tree.length) (hframe : ∀ i, ¬ Below node i → tree'[i]? = tree[i]?)
    (hleft : Stored merge xs tree' (node * 2) l (l + (r - l) / 2))
    (hright : Stored merge xs tree' (node * 2 + 1) (l + (r - l) / 2) r) :
    ∃ pulled, pull merge tree' node = some pulled ∧ Holds merge xs tree pulled node l r := by
  obtain ⟨a, ha⟩ := merged_segment merge hl (hr.le.trans hlen)
  obtain ⟨b, hb⟩ := merged_segment merge hr hlen
  have hboth : merged merge (segment xs l r) = some (merge a b) := by
    rw [← segment_append hl.le hr.le, merged_append hop, ha, hb]
    rfl
  have hsame : ∀ child i, node * 2 ≤ child → Below child i →
      (tree'.set node (merge a b))[i]? = tree'[i]? := by
    intro child i hchild hi
    refine List.getElem?_set_ne ?_
    rintro rfl
    exact not_below_child hnode hchild hi
  refine ⟨tree'.set node (merge a b), ?_, ?_, ?_, .inner ?_ ?_ ?_⟩
  · rw [SegmentTree.pull, hleft.root, ha, hright.root, hb]
    exact store_some hlt
  · rw [List.length_set, hlength]
  · intro i hi
    rw [← hframe i hi]
    refine List.getElem?_set_ne ?_
    rintro rfl
    exact hi (below_self node)
  · rw [List.getElem?_set_self hlt, hboth]
  · exact hleft.congr (fun i hi => hsame _ i le_rfl hi) (fun _ _ _ _ => rfl)
  · exact hright.congr (fun i hi => hsame _ i (Nat.le_succ _) hi) (fun _ _ _ _ => rfl)

theorem buildTree_holds (hop : Std.Associative merge) (node l r : Nat) (tree : List T)
    (hnode : 0 < node) (hl : l < r) (hr : r ≤ xs.length)
    (hroom : Room tree.length node (r - l)) :
    ∃ tree', buildTree merge xs node l r tree = some tree' ∧
      Holds merge xs tree tree' node l r := by
  induction hs : r - l using Nat.strong_induction_on generalizing node l r tree with
  | _ s ih =>
    rw [buildTree]
    by_cases hone : l + 1 = r
    · have hx : xs[l]? = some xs[l] := List.getElem?_eq_getElem (by omega)
      refine ⟨_, ?_, .leaf hroom.lt hone hx⟩
      rw [if_pos hone, hx]
      exact store_some hroom.lt
    · have hsize : 2 ≤ r - l := by omega
      obtain ⟨tree₁, hbuild₁, h₁⟩ := ih ((r - l) / 2) (by omega) (node * 2) l (l + (r - l) / 2) tree
        (by omega) (by omega) (by omega)
        (by rw [Nat.add_sub_cancel_left]; exact hroom.left hsize) (Nat.add_sub_cancel_left _ _)
      obtain ⟨tree₂, hbuild₂, h₂⟩ := ih (r - l - (r - l) / 2) (by omega) (node * 2 + 1)
        (l + (r - l) / 2) r tree₁ (by omega) (by omega) hr
        (by rw [h₁.length, ← Nat.sub_sub]; exact hroom.right hsize) (Nat.sub_sub _ _ _).symm
      have hleft := h₁.stored.congr (fun i hi => h₂.frame i (below_apart hnode hi))
        (fun _ _ _ _ => rfl)
      obtain ⟨tree', hpull, h'⟩ := Holds.pull hop hnode
        (by rw [h₂.length, h₁.length]; exact hroom.lt)
        (by omega) (by omega) hr (h₂.length.trans h₁.length)
        (fun i hi => by
          rw [h₂.frame i (fun h => hi (below_right h)), h₁.frame i (fun h => hi (below_left h))])
        hleft h₂.stored
      refine ⟨tree', ?_, h'⟩
      rw [if_neg hone, if_pos (by omega)]
      simp only [hbuild₁, hbuild₂, hpull, Option.bind_eq_bind, Option.bind_some]

/-- The half without the position is as it was. -/
theorem updateTree_holds (hop : Std.Associative merge) (value : T) (hnode : 0 < node) (hl : l ≤ pos)
    (hr : pos < r) (hlen : r ≤ xs.length) (hroom : Room tree.length node (r - l))
    (h : Stored merge xs tree node l r) :
    ∃ tree', updateTree merge node l r pos value tree xs = some (tree', xs.set pos value) ∧
      Holds merge (xs.set pos value) tree tree' node l r := by
  induction hs : r - l using Nat.strong_induction_on generalizing node l r with
  | _ s ih =>
    rw [updateTree]
    by_cases hone : l + 1 = r
    · obtain rfl : l = pos := by omega
      have hx : (xs.set l value)[l]? = some value := List.getElem?_set_self (by omega)
      refine ⟨tree.set node value, ?_, .leaf hroom.lt hone hx⟩
      rw [if_pos hone, store_some hroom.lt, store_some (Nat.lt_of_lt_of_le hr hlen)]
      rfl
    · have hmany : l + 1 < r := by omega
      have hsize : 2 ≤ r - l := by omega
      have hroomLeft : Room tree.length (node * 2) (l + (r - l) / 2 - l) := by
        rw [Nat.add_sub_cancel_left]
        exact hroom.left hsize
      have hroomRight : Room tree.length (node * 2 + 1) (r - (l + (r - l) / 2)) := by
        rw [← Nat.sub_sub]
        exact hroom.right hsize
      obtain ⟨hleft, hright⟩ := h.halves hmany
      have hlen' : r ≤ (xs.set pos value).length := by rwa [List.length_set]
      rw [if_neg hone, if_pos hmany]
      by_cases hside : pos < l + (r - l) / 2
      · obtain ⟨tree₁, hupdate, h₁⟩ := ih _ (by omega) (by omega) hl hside (by omega) hroomLeft
          hleft rfl
        obtain ⟨tree', hpull, h'⟩ := Holds.pull hop hnode (by rw [h₁.length]; exact hroom.lt)
          (by omega) (by omega) hlen' h₁.length (fun i hi => h₁.frame i fun h => hi (below_left h))
          h₁.stored
          (hright.congr (fun i hi => h₁.frame i fun h => below_apart hnode h hi)
            (fun a b ha _ => segment_set (.inl (by omega))))
        refine ⟨tree', ?_, h'⟩
        simp only [hside, if_true, hupdate, hpull, Option.bind_eq_bind, Option.bind_some,
          Option.pure_def]
      · obtain ⟨tree₁, hupdate, h₁⟩ := ih _ (by omega) (Nat.succ_pos _) (not_lt.mp hside) hr hlen
          hroomRight hright rfl
        obtain ⟨tree', hpull, h'⟩ := Holds.pull hop hnode (by rw [h₁.length]; exact hroom.lt)
          (by omega) (by omega) hlen' h₁.length (fun i hi => h₁.frame i fun h => hi (below_right h))
          (hleft.congr (fun i hi => h₁.frame i (below_apart hnode hi))
            (fun a b _ hb => segment_set (.inr (by omega))))
          h₁.stored
        refine ⟨tree', ?_, h'⟩
        simp only [hside, if_false, hupdate, hpull, Option.bind_eq_bind, Option.bind_some,
          Option.pure_def]

theorem queryTree_merges (hop : Std.Associative merge) (ql qr : Nat)
    (h : Stored merge xs tree node l r) (hl : l < r) (hr : r ≤ xs.length) :
    queryTree merge tree node l r ql qr =
      some (merged merge (segment xs (max l ql) (min r qr))) := by
  induction hs : r - l using Nat.strong_induction_on generalizing node l r with
  | _ s ih =>
    rw [queryTree]
    by_cases hout : r ≤ ql ∨ qr ≤ l
    · rw [if_pos hout, segment_empty (by omega)]
      rfl
    · rw [if_neg hout]
      by_cases hin : ql ≤ l ∧ r ≤ qr
      · obtain ⟨a, ha⟩ := merged_segment merge hl hr
        rw [if_pos hin, max_eq_left hin.1, min_eq_left hin.2, h.root, ha]
        rfl
      · have hmany : l + 1 < r := by omega
        obtain ⟨hleft, hright⟩ := h.halves hmany
        rw [if_neg hin, if_pos hmany]
        simp only [ih _ (by omega) hleft (by omega) (by omega) rfl,
          ih _ (by omega) hright (by omega) hr rfl, Option.bind_eq_bind, Option.bind_some]
        have hmid : l ≤ l + (r - l) / 2 ∧ l + (r - l) / 2 ≤ r := by omega
        rw [← segment_cut (l := l) hmid.1 hmid.2, merged_append hop]
        cases merged merge (segment xs (max l ql) (min (l + (r - l) / 2) qr)) with
        | none => simp
        | some a =>
          cases merged merge (segment xs (max (l + (r - l) / 2) ql) (min r qr)) with
          | none => rfl
          | some b => rfl

/-- A tree of the elements, with four nodes for each of them. -/
structure Rep (merge : T → T → T) (t : SegmentTree T) (xs : List T) : Prop where
  data : t.data = xs
  size : t.n = xs.length
  length : t.tree.length = 4 * xs.length
  stored : 0 < xs.length → Stored merge xs t.tree 1 0 xs.length

/-- What the calls do to an array, and return or throw. -/
def spec (merge : T → T → T) (xs : List T) : Op T → List T × Except String (Option T)
  | .update pos value =>
    if pos < xs.length then (xs.set pos value, .ok none) else (xs, .error "Position out of bounds")
  | .query l r => (xs, if l < r ∧ r ≤ xs.length then .ok (merged merge (segment xs l r))
      else .error "Invalid query range")
  | .atPos pos => (xs, match xs[pos]? with
    | some x => .ok (some x)
    | none => .error "Position out of bounds")

theorem create_rep [Inhabited T] (hop : Std.Associative merge) (c : Construction T) :
    ∃ t, create merge c = some t ∧ Rep merge t c.data := by
  by_cases hn : 0 < c.data.length
  · have hlength : (List.replicate (4 * c.data.length) (default : T)).length = 4 * c.data.length :=
      List.length_replicate
    obtain ⟨tree, hbuild, h⟩ := buildTree_holds hop 1 0 _
      (List.replicate (4 * c.data.length) default)
      Nat.one_pos hn le_rfl (by rw [hlength]; exact room_root hn)
    refine ⟨⟨c.data, c.data.length, tree⟩, ?_, rfl, rfl, h.length.trans hlength, fun _ => h.stored⟩
    simp only [create, hn, if_true, hbuild, Option.bind_eq_bind, Option.bind_some, Option.pure_def]
  · refine ⟨⟨c.data, c.data.length, List.replicate (4 * c.data.length) default⟩, ?_, rfl, rfl,
      List.length_replicate, fun h => absurd h hn⟩
    simp only [create, hn, if_false, Option.bind_eq_bind, Option.bind_some, Option.pure_def]

theorem update_rep (hop : Std.Associative merge) (value : T) (h : Rep merge t xs)
    (hpos : pos < xs.length) :
    ∃ t', t.update merge pos value = some (.ok t') ∧ Rep merge t' (xs.set pos value) := by
  have hn : 0 < xs.length := by omega
  obtain ⟨tree, hupdate, h'⟩ := updateTree_holds hop value Nat.one_pos (Nat.zero_le pos) hpos
    le_rfl (by rw [h.length]; exact room_root hn) (h.stored hn)
  refine ⟨⟨xs.set pos value, t.n, tree⟩, ?_, rfl, ?_, ?_, ?_⟩
  · rw [update, if_neg (by rw [h.size]; omega), h.size, h.data, hupdate]
    rfl
  · rw [List.length_set, h.size]
  · rw [List.length_set, h'.length, h.length]
  · rw [List.length_set]
    exact fun _ => h'.stored

theorem query_rep (hop : Std.Associative merge) (h : Rep merge t xs) (hl : l < r)
    (hr : r ≤ xs.length) :
    ∃ a, merged merge (segment xs l r) = some a ∧ t.query merge l r = some (.ok a) := by
  obtain ⟨a, ha⟩ := merged_segment merge hl hr
  have hquery := queryTree_merges hop l r (h.stored (by omega)) (by omega) le_rfl
  rw [Nat.zero_max, min_eq_right hr] at hquery
  refine ⟨a, ha, ?_⟩
  rw [query, if_neg (by rw [h.size]; omega), h.size, hquery, ha]
  rfl

theorem step_rep (hop : Std.Associative merge) (h : Rep merge t xs) (op : Op T) :
    ∃ t', step merge t op = some (t', (spec merge xs op).2) ∧
      Rep merge t' (spec merge xs op).1 := by
  cases op with
  | update pos value =>
    by_cases hpos : pos < xs.length
    · obtain ⟨t', hupdate, hrep⟩ := update_rep hop value h hpos
      exact ⟨t', by simp [step, hupdate, spec, hpos], by simpa [spec, hpos] using hrep⟩
    · have hout : t.n ≤ pos := by
        rw [h.size]
        exact not_lt.mp hpos
      exact ⟨t, by simp [step, update, hout, spec, hpos], by simpa [spec, hpos] using h⟩
  | query l r =>
    refine ⟨t, ?_, h⟩
    by_cases hrange : l < r ∧ r ≤ xs.length
    · obtain ⟨a, ha, hquery⟩ := query_rep hop h hrange.1 hrange.2
      rw [step, hquery, spec, if_pos hrange, ha]
      rfl
    · have hout : r ≤ l ∨ t.n < r := by
        rw [h.size]
        omega
      rw [step, query, if_pos hout, spec, if_neg hrange]
      rfl
  | atPos pos =>
    refine ⟨t, ?_, h⟩
    rw [step, atPos, h.data, h.size, spec]
    cases hx : xs[pos]? with
    | some x =>
      obtain ⟨hpos, _⟩ := List.getElem?_eq_some_iff.mp hx
      rw [if_neg (by omega)]
      rfl
    | none =>
      rw [if_pos (List.getElem?_eq_none_iff.mp hx)]
      rfl

theorem length_spec (op : Op T) : (spec merge xs op).1.length = xs.length := by
  cases op with
  | update pos value =>
    rw [spec]
    split
    · exact List.length_set
    · rfl
  | query l r => rfl
  | atPos pos => rfl

/-- From any construction on, through any calls, no access to the tree is out of range, and each
call returns or throws as on the array: the elements of a range merged from left to right, and
the current element. -/
theorem segment_refines [Inhabited T] (hop : Std.Associative merge) (c : Construction T) :
    ∃ t, create merge c = some t ∧ ∀ ops, ∃ t', Run.exec (step merge) t ops =
      some (t', (Run.execModel (spec merge) c.data ops).2) ∧
      t'.tree.length = 4 * c.data.length := by
  obtain ⟨t, hcreate, hrep⟩ := create_rep hop c
  refine ⟨t, hcreate, ?_⟩
  intro ops
  have hstep : ∀ s m op, Rep merge s m ∧ m.length = c.data.length →
      ∃ s', step merge s op = some (s', (spec merge m op).2) ∧
        Rep merge s' (spec merge m op).1 ∧ (spec merge m op).1.length = c.data.length := by
    rintro s m op ⟨h, hlen⟩
    obtain ⟨s', hrun, hs'⟩ := step_rep hop h op
    exact ⟨s', hrun, hs', (length_spec op).trans hlen⟩
  obtain ⟨t', hrun, hrep', hlen⟩ := Run.exec_follows hstep ops ⟨hrep, rfl⟩
  exact ⟨t', hrun, by rw [hrep'.length, hlen]⟩

theorem segment_refines_append :
    ∃ t t', create (· ++ ·) (.range [[1], [2], [3]]) = some t ∧
      Run.exec (step (· ++ ·)) t [.query 0 3, .update 1 [5], .query 1 3, .atPos 3] =
        some (t', [.ok (some [1, 2, 3]), .ok none, .ok (some [5, 3]),
          .error "Position out of bounds"]) := by
  obtain ⟨t, hcreate, hruns⟩ := segment_refines (T := List Nat) ⟨List.append_assoc⟩
    (.range [[1], [2], [3]])
  obtain ⟨t', hrun, _⟩ := hruns [.query 0 3, .update 1 [5], .query 1 3, .atPos 3]
  exact ⟨t, t', hcreate, hrun⟩

end Cppforge.Range.SegmentTree
