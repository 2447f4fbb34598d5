import Cppforge.Range.RangeQueries
import Cppforge.Lib.Ranges
import Mathlib.Tactic.Ring

namespace Cppforge.Range.SparseTable
open Segments

variable {T : Type} {merge : T → T → T} {t : SparseTable T} {xs prev : List T}
  {st : List (List T)} {i k l r len half rows : Nat}

theorem bitWidth_bounds (len : Nat) (h : 0 < len) : 2 ^ (bitWidth len - 1) ≤ len ∧
    len < 2 * 2 ^ (bitWidth len - 1) := by
  have hne : len ≠ 0 := by omega
  rw [bitWidth, if_neg hne, Nat.add_sub_cancel, ← Nat.pow_succ']
  exact ⟨Nat.log2_self_le hne, Nat.lt_log2_self⟩

/-- A row holds what the windows of its width merge to. -/
def IsRow (merge : T → T → T) (xs : List T) (k : Nat) (row : List T) : Prop :=
  ∀ i, i + 2 ^ k ≤ xs.length → row[i]? = merged merge (segment xs i (i + 2 ^ k))

theorem isRow_zero : IsRow merge xs 0 xs := by
  intro i hi
  rw [Nat.pow_zero] at hi ⊢
  rw [segment_one (List.getElem?_eq_getElem hi)]
  exact List.getElem?_eq_getElem hi

/-- A window is two windows of half its width, side by side. -/
theorem window_halves (hop : Std.Associative merge) (hi : i + 2 ^ (k + 1) ≤ xs.length)
    (hprev : IsRow merge xs k prev) :
    ∃ a b, prev[i]? = some a ∧ prev[i + 2 ^ k]? = some b ∧
      merged merge (segment xs i (i + 2 ^ (k + 1))) = some (merge a b) := by
  have hpos := Nat.two_pow_pos k
  have hdouble : i + 2 ^ (k + 1) = i + 2 ^ k + 2 ^ k := by
    rw [Nat.pow_succ]
    omega
  rw [hdouble] at hi ⊢
  obtain ⟨a, ha⟩ : ∃ a, merged merge (segment xs i (i + 2 ^ k)) = some a :=
    merged_segment merge (by omega) (by omega)
  obtain ⟨b, hb⟩ : ∃ b, merged merge (segment xs (i + 2 ^ k) (i + 2 ^ k + 2 ^ k)) = some b :=
    merged_segment merge (by omega) hi
  refine ⟨a, b, by rw [hprev i (by omega), ha], by rw [hprev _ hi, hb], ?_⟩
  rw [← segment_append (m := i + 2 ^ k) (by omega) (by omega), merged_append hop, ha, hb]
  rfl

theorem buildRow_windows (i len : Nat) (hop : Std.Associative merge) (hprev : IsRow merge xs k prev)
    (hlen : i + len + 2 ^ (k + 1) ≤ xs.length + 1) :
    ∃ row, buildRow merge prev (2 ^ k) len i = some row ∧ row.length = len ∧ ∀ j < len,
      row[j]? = merged merge (segment xs (i + j) (i + j + 2 ^ (k + 1))) := by
  induction len generalizing i with
  | zero => exact ⟨[], rfl, rfl, fun j hj => absurd hj (Nat.not_lt_zero j)⟩
  | succ len ih =>
    obtain ⟨a, b, ha, hb, hab⟩ := window_halves hop (i := i) (by omega) hprev
    obtain ⟨row, hrow, hlength, hwindows⟩ := ih (i + 1) (by omega)
    refine ⟨merge a b :: row, by simp [buildRow, ha, hb, hrow],
      by rw [List.length_cons, hlength], ?_⟩
    intro j hj
    cases j with
    | zero => simpa using hab.symm
    | succ j =>
      rw [List.getElem?_cons_succ, hwindows j (by omega), Nat.add_right_comm i 1 j,
        Nat.add_assoc i j 1]

/-- Every row is filled from the one before it. -/
theorem buildRows_windows (k rows : Nat) (hop : Std.Associative merge) (hst : st.length = k + 1)
    (hrows : ∀ j row, st[j]? = some row → IsRow merge xs j row)
    (hfit : rows = 0 ∨ 2 ^ (k + rows) ≤ xs.length) :
    ∃ st', buildRows merge xs.length rows (k + 1) st = some st' ∧ st'.length = k + 1 + rows ∧
      ∀ j row, st'[j]? = some row → IsRow merge xs j row := by
  induction rows generalizing k st with
  | zero => exact ⟨st, rfl, hst, hrows⟩
  | succ rows ih =>
    have hwide : 2 ^ (k + 1) ≤ xs.length := by
      refine le_trans (Nat.pow_le_pow_right Nat.two_pos ?_)
        (hfit.resolve_left (Nat.succ_ne_zero rows))
      omega
    obtain ⟨prev, hprev⟩ : ∃ prev, st[k]? = some prev := ⟨_, List.getElem?_eq_getElem (by omega)⟩
    obtain ⟨row, hrow, _, hwindows⟩ := buildRow_windows 0 (xs.length - 2 ^ (k + 1) + 1) hop
      (hrows k prev hprev) (by omega)
    have hrows' : ∀ j row', (st ++ [row])[j]? = some row' → IsRow merge xs j row' := by
      intro j row' hj
      rcases Nat.lt_or_ge j st.length with hlt | hge
      · rw [List.getElem?_append_left hlt] at hj
        exact hrows j row' hj
      · rw [List.getElem?_append_right hge, List.getElem?_singleton] at hj
        split at hj
        · obtain rfl : row = row' := Option.some.inj hj
          obtain rfl : j = k + 1 := by omega
          intro i hi
          simpa using hwindows i (by omega)
        · cases hj
    have hfit' : rows = 0 ∨ 2 ^ (k + 1 + rows) ≤ xs.length := by
      have hsum : k + (rows + 1) = k + 1 + rows := by omega
      exact .inr (hsum ▸ hfit.resolve_left (Nat.succ_ne_zero rows))
    obtain ⟨st', hst', hlength, hall⟩ := ih (k + 1) (by simp [hst]) hrows' hfit'
    refine ⟨st', ?_, by omega, hall⟩
    simp only [buildRows, Nat.add_sub_cancel, Nat.one_shiftLeft, hprev, hrow, Option.bind_eq_bind,
      Option.bind_some, hst']

/-- A table of the elements has a row for each power of two up to their number. -/
structure Rep (merge : T → T → T) (t : SparseTable T) (xs : List T) : Prop where
  size : t.n = xs.length
  length : t.st.length = bitWidth xs.length
  row : ∀ k row, t.st[k]? = some row → IsRow merge xs k row
  first : 0 < xs.length → t.st[0]? = some xs

theorem buildRows_prefix {n : Nat} {st' : List (List T)}
    (h : buildRows merge n rows k st = some st') : st <+: st' := by
  induction rows generalizing k st with
  | zero =>
    obtain rfl : st = st' := Option.some.inj h
    exact List.prefix_rfl
  | succ rows ih =>
    simp only [buildRows, Option.bind_eq_bind, Option.bind_eq_some_iff] at h
    obtain ⟨prev, _, row, _, hrest⟩ := h
    exact (List.prefix_append st [row]).trans (ih hrest)

theorem buildFrom_rep (hop : Std.Associative merge) (xs : List T) :
    ∃ t, buildFrom merge xs = some t ∧ Rep merge t xs := by
  by_cases hn : xs.length = 0
  · refine ⟨⟨xs.length, []⟩, by simp [buildFrom, hn], rfl, by simp [hn, bitWidth], ?_, ?_⟩
    · intro k row hrow
      simp at hrow
    · intro hpos
      omega
  · obtain ⟨hlow, _⟩ := bitWidth_bounds _ (Nat.pos_of_ne_zero hn)
    have hrow : ∀ j row, [xs][j]? = some row → IsRow merge xs j row := by
      intro j row hj
      rw [List.getElem?_singleton] at hj
      split at hj
      · obtain rfl : xs = row := Option.some.inj hj
        obtain rfl : j = 0 := by omega
        exact isRow_zero
      · cases hj
    obtain ⟨st, hst, hlength, hrows⟩ := buildRows_windows 0 (bitWidth xs.length - 1) hop
      (List.length_singleton) hrow (.inr (by rwa [Nat.zero_add]))
    have hwidth : 0 < bitWidth xs.length := by
      rw [bitWidth, if_neg hn]
      exact Nat.succ_pos _
    refine ⟨⟨xs.length, st⟩, ?_, rfl, by simp only [hlength]; omega, hrows, ?_⟩
    · simp only [buildFrom, hn, if_false, hst, Option.bind_eq_bind, Option.bind_some,
        Option.pure_def]
    · intro _
      obtain ⟨rest, rfl⟩ := buildRows_prefix hst
      rfl

/-- The two windows of the largest power of two that fits, one from the left end and one up to
the right end, leave no gap. -/
theorem query_rep (hop : Std.Associative merge) (hsame : Std.IdempotentOp merge)
    (h : Rep merge t xs)
    (hl : l < r) (hr : r ≤ xs.length) :
    ∃ a, merged merge (segment xs l r) = some a ∧ t.query merge l r = some (.ok a) := by
  have hn : t.n ≠ 0 := by
    rw [h.size]
    omega
  have hrange : ¬ (r ≤ l ∨ t.n < r) := by
    rw [h.size]
    omega
  rw [query, if_neg hn, if_neg hrange]
  by_cases hone : r - l = 1
  · obtain rfl : r = l + 1 := by omega
    have hx : xs[l]? = some xs[l] := List.getElem?_eq_getElem hr
    refine ⟨xs[l], by rw [segment_one hx]; rfl, ?_⟩
    simp only [hone, if_true, h.first (by omega), Option.bind_eq_bind, Option.bind_some, hx,
      Option.pure_def]
  · obtain ⟨hlow, hhigh⟩ := bitWidth_bounds (r - l) (by omega)
    obtain ⟨_, hall⟩ := bitWidth_bounds xs.length (by omega)
    obtain ⟨k, hwindow⟩ : ∃ k, bitWidth (r - l) - 1 = k := ⟨_, rfl⟩
    rw [hwindow] at hlow hhigh
    have hpos := Nat.two_pow_pos k
    have hk : k < t.st.length := by
      have hpow : 2 ^ k < 2 ^ (bitWidth xs.length - 1 + 1) := by
        rw [Nat.pow_succ']
        omega
      have hlt := (Nat.pow_lt_pow_iff_right Nat.one_lt_two).mp hpow
      have hwidth : bitWidth xs.length ≠ 0 := by
        rw [bitWidth, if_neg (by omega)]
        exact Nat.succ_ne_zero _
      rw [h.length]
      omega
    obtain ⟨row, hrow⟩ : ∃ row, t.st[k]? = some row := ⟨_, List.getElem?_eq_getElem hk⟩
    obtain ⟨a, ha⟩ : ∃ a, merged merge (segment xs l (l + 2 ^ k)) = some a :=
      merged_segment merge (by omega) (by omega)
    obtain ⟨b, hb⟩ : ∃ b, merged merge (segment xs (r - 2 ^ k) r) = some b :=
      merged_segment merge (by omega) hr
    have hend : r - 2 ^ k + 2 ^ k = r := by omega
    have hleft := h.row k row hrow l (by omega)
    have hright := h.row k row hrow (r - 2 ^ k) (by omega)
    rw [hend, hb] at hright
    rw [ha] at hleft
    refine ⟨merge a b, ?_, ?_⟩
    · have hlap : Option.merge merge (merged merge (segment xs l (l + 2 ^ k)))
          (merged merge (segment xs (r - 2 ^ k) r)) = merged merge (segment xs l r) :=
        merged_overlap (l + 2 ^ k) hop hsame (by omega) (by omega) (by omega)
      rw [← hlap, ha, hb]
      rfl
    · simp only [hone, if_false, hwindow, Nat.one_shiftLeft, hrow, hleft, hright,
        Option.bind_eq_bind, Option.bind_some, Option.pure_def]

/-- Every access to a row is in range while a table is filled and queried, and a query gives the
elements of its range merged from left to right. -/
theorem query_merges (hop : Std.Associative merge) (hsame : Std.IdempotentOp merge)
    (hne : xs ≠ []) :
    ∃ t, buildFrom merge xs = some t ∧ t.n = xs.length ∧
      (∀ l r, l < r → r ≤ xs.length → ∃ a, merged merge (segment xs l r) = some a ∧
        t.query merge l r = some (.ok a)) ∧
      ∀ l r, ¬ (l < r ∧ r ≤ xs.length) →
        t.query merge l r = some (.error "Invalid query range [l, r)") := by
  obtain ⟨t, hbuild, hrep⟩ := buildFrom_rep hop xs
  refine ⟨t, hbuild, hrep.size, fun l r hl hr => query_rep hop hsame hrep hl hr, ?_⟩
  intro l r hrange
  have hn : t.n ≠ 0 := by
    rw [hrep.size]
    exact fun hnil => hne (List.length_eq_zero_iff.mp hnil)
  have hout : r ≤ l ∨ t.n < r := by
    rw [hrep.size]
    omega
  rw [query, if_neg hn, if_pos hout]

/-- The first operand, an operation that tells left from right. -/
theorem query_merges_first :
    ∃ t, buildFrom (fun a _ => a) [4, 2, 7, 1, 9] = some t ∧
      t.query (fun a _ => a) 1 4 = some (.ok 2) := by
  obtain ⟨t, hbuild, _, hquery, _⟩ := query_merges
    (⟨fun _ _ _ => rfl⟩ : Std.Associative fun a _ : Nat => a)
    ⟨fun _ => rfl⟩ (List.cons_ne_nil 4 [2, 7, 1, 9])
  obtain ⟨a, ha, hresult⟩ := hquery 1 4 (by decide) (by decide)
  obtain rfl : 2 = a := Option.some.inj ha
  exact ⟨t, hbuild, hresult⟩

end Cppforge.Range.SparseTable
