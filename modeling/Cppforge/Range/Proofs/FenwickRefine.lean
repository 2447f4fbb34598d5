import Cppforge.Range.RangeQueries
import Cppforge.Lib.Bits
import Cppforge.Lib.Ranges
import Cppforge.Lib.Run

namespace Cppforge.Range.FenwickTree
open LowBit Segments

variable {T : Type} [AddCommGroup T] {t : FenwickTree T} {xs : List T} {tree : List T}
  {i pos fuel : Nat} {delta result : T}

/-- What the calls do to an array, and return or throw. -/
def spec (xs : List T) : Op T → List T × Except String (Option T)
  | .add pos delta =>
    match xs[pos]? with
    | some x => (xs.set pos (x + delta), .ok none)
    | none => (xs, .error "Position out of bounds")
  | .sum pos => (xs, if pos ≤ xs.length then .ok (some (xs.take pos).sum)
      else .error "Position out of bounds")
  | .sumBetween l r => (xs, if l < r ∧ r ≤ xs.length then .ok (some (segment xs l r).sum)
      else .error "Invalid query range")
  | .atPos pos => (xs, match xs[pos]? with
    | some x => .ok (some x)
    | none => .error "Position out of bounds")

/-- A node holds the sum of the elements in the range that its lowest bit measures. -/
structure Rep (t : FenwickTree T) (xs : List T) : Prop where
  size : t.n = xs.length
  small : xs.length + 1 < 2 ^ 63
  node : ∀ i, 0 < i → i ≤ xs.length → t.tree[i]? = some (segment xs (i - lowBit i) i).sum

theorem lowbit_eq (h : 0 < i) (hi : i < 2 ^ 64) : lowbit i = lowBit i := by
  rw [lowbit, Nat.mod_eq_of_lt (by omega)]
  exact and_neg h hi

/-- What a turn of the loop adds to: the node that covers the position, and no other one up to
the next node. -/
theorem covers_step {n j : Nat} {vals : Nat → T} (hi : Covers i pos)
    (hnodes : ∀ j, 0 < j → j ≤ n →
      tree[j]? = some (vals j + if Covers j pos ∧ j < i then delta else 0))
    (hin : i ≤ n) (hj : 0 < j) (hjn : j ≤ n) :
    (tree.set i (vals i + delta))[j]? =
      some (vals j + if Covers j pos ∧ j < i + lowBit i then delta else 0) := by
  have hpos := lowBit_pos hi.pos
  by_cases hsame : j = i
  · subst hsame
    obtain ⟨hlen, _⟩ := List.getElem?_eq_some_iff.mp (hnodes j hj hjn)
    have hnow : Covers j pos ∧ j < j + lowBit j := ⟨hi, by omega⟩
    rw [List.getElem?_set_self hlen, if_pos hnow]
  · have hsides : (Covers j pos ∧ j < i + lowBit i) ↔ (Covers j pos ∧ j < i) := by
      constructor
      · intro hboth
        obtain ⟨hcover, hlt⟩ := hboth
        refine ⟨hcover, ?_⟩
        by_contra hge
        exact hi.gap (by omega) hlt hcover
      · intro hboth
        obtain ⟨hcover, hlt⟩ := hboth
        exact ⟨hcover, by omega⟩
    rw [List.getElem?_set_ne (Ne.symm hsame), hnodes j hj hjn]
    simp only [hsides]

/-- On its way from a node that covers a position, the loop meets the nodes that cover it
and no others. -/
theorem addFrom_covers {n : Nat} {vals : Nat → T} (hn : n < 2 ^ 63) (hi : Covers i pos)
    (hfuel : n < i + fuel)
    (hnodes : ∀ j, 0 < j → j ≤ n →
      tree[j]? = some (vals j + if Covers j pos ∧ j < i then delta else 0)) :
    ∃ tree', addFrom n delta (fuel + 1) i tree = some tree' ∧ ∀ j, 0 < j → j ≤ n →
      tree'[j]? = some (vals j + if Covers j pos then delta else 0) := by
  induction fuel generalizing i tree with
  | zero =>
    refine ⟨tree, by rw [addFrom, if_neg (by omega)], ?_⟩
    intro j hj hjn
    have hlt : j < i := by omega
    simpa [hlt] using hnodes j hj hjn
  | succ fuel ih =>
    by_cases hin : i ≤ n
    · have hlow := lowBit_le i
      have hpos := lowBit_pos hi.pos
      have hnext : (i + lowbit i) % 2 ^ 64 = i + lowBit i := by
        rw [lowbit_eq hi.pos (by omega), Nat.mod_eq_of_lt (by omega)]
      have hnode : tree[i]? = some (vals i) := by
        rw [hnodes i hi.pos hin, if_neg (fun h => Nat.lt_irrefl i h.2), add_zero]
      rw [addFrom, if_pos hin, hnode, hnext]
      exact ih hi.next (by omega) fun j hj hjn => covers_step hi hnodes hin hj hjn
    · refine ⟨tree, by rw [addFrom, if_neg hin], ?_⟩
      intro j hj hjn
      have hlt : j < i := by omega
      simpa [hlt] using hnodes j hj hjn

/-- Nodes that lie side by side hold what comes before a position. -/
theorem sumFrom_take (h : Rep t xs) (hi : i ≤ xs.length) (hfuel : i ≤ fuel) :
    sumFrom t.tree (fuel + 1) i result = some (result + (xs.take i).sum) := by
  induction fuel generalizing i result with
  | zero =>
    obtain rfl : i = 0 := by omega
    simp [sumFrom]
  | succ fuel ih =>
    by_cases hpos : 0 < i
    · have hsmall := h.small
      have hlow := lowBit_pos hpos
      rw [sumFrom, if_pos hpos, h.node i hpos hi, lowbit_eq hpos (by omega)]
      simp only [Option.bind_eq_bind, Option.bind_some]
      rw [ih (by omega) (by omega), add_assoc, add_comm (segment xs (i - lowBit i) i).sum,
        ← segment_zero xs (i - lowBit i), sum_segment_append (Nat.zero_le _) (Nat.sub_le i _),
        segment_zero]
    · obtain rfl : i = 0 := by omega
      simp [sumFrom]

theorem add_rep (h : Rep t xs) (delta : T) {x : T} (hx : xs[pos]? = some x) :
    ∃ t', t.add pos delta = some (.ok t') ∧ Rep t' (xs.set pos (x + delta)) := by
  obtain ⟨hpos, _⟩ := List.getElem?_eq_some_iff.mp hx
  have hsmall := h.small
  have hstart : ∀ j, 0 < j → j ≤ xs.length → t.tree[j]? =
      some ((segment xs (j - lowBit j) j).sum +
        if Covers j pos ∧ j < pos + 1 then delta else 0) := by
    intro j hj hjn
    have hnone : ¬ (Covers j pos ∧ j < pos + 1) := by
      intro hboth
      have := hboth.1.2
      omega
    rw [if_neg hnone, add_zero]
    exact h.node j hj hjn
  obtain ⟨tree', hrun, hnodes⟩ : ∃ tree', addFrom xs.length delta (xs.length + 1) (pos + 1) t.tree =
      some tree' ∧ ∀ j, 0 < j → j ≤ xs.length →
        tree'[j]? = some ((segment xs (j - lowBit j) j).sum + if Covers j pos then delta else 0) :=
    addFrom_covers (by omega) (covers_succ pos) (by omega) hstart
  refine ⟨⟨t.n, tree'⟩, ?_, ?_⟩
  · rw [add, if_neg (by rw [h.size]; omega), h.size, hrun]
    rfl
  · refine ⟨by rw [h.size, List.length_set], by rwa [List.length_set], ?_⟩
    intro j hj hjn
    rw [List.length_set] at hjn
    simp only [hnodes j hj hjn]
    by_cases hcover : Covers j pos
    · rw [if_pos hcover, sum_segment_set hx hcover.1 hcover.2]
    · rw [if_neg hcover, add_zero, segment_set]
      unfold Covers at hcover
      omega

theorem sum_rep (h : Rep t xs) (pos : Nat) :
    t.sum pos = some (if pos ≤ xs.length then .ok (xs.take pos).sum
      else .error "Position out of bounds") := by
  by_cases hpos : pos ≤ xs.length
  · rw [sum, h.size, if_neg (by omega), sumFrom_take h hpos le_rfl, zero_add, if_pos hpos]
    rfl
  · rw [sum, h.size, if_pos (by omega), if_neg hpos]

theorem sumBetween_rep (h : Rep t xs) (l r : Nat) :
    t.sumBetween l r = some (if l < r ∧ r ≤ xs.length then .ok (segment xs l r).sum
      else .error "Invalid query range") := by
  by_cases hrange : l < r ∧ r ≤ xs.length
  · have hdiff : (xs.take r).sum - (xs.take l).sum = (segment xs l r).sum := by
      rw [← segment_zero xs r, ← segment_zero xs l,
        ← sum_segment_append (Nat.zero_le l) hrange.1.le, add_sub_cancel_left]
    rw [sumBetween, h.size, if_neg (by omega), sum_rep h, sum_rep h, if_pos hrange.2,
      if_pos (hrange.1.le.trans hrange.2), if_pos hrange, ← hdiff]
    rfl
  · rw [sumBetween, h.size, if_pos (by omega), if_neg hrange]

theorem step_rep (h : Rep t xs) (op : Op T) :
    ∃ t', step t op = some (t', (spec xs op).2) ∧ Rep t' (spec xs op).1 := by
  cases op with
  | add pos delta =>
    cases hx : xs[pos]? with
    | some x =>
      obtain ⟨t', hadd, hrep⟩ := add_rep h delta hx
      exact ⟨t', by simp [step, hadd, spec, hx], by simpa [spec, hx] using hrep⟩
    | none =>
      have hout : t.n ≤ pos := by
        rw [h.size]
        exact List.getElem?_eq_none_iff.mp hx
      exact ⟨t, by simp [step, add, hout, spec, hx], by simpa [spec, hx] using h⟩
  | sum pos =>
    refine ⟨t, ?_, h⟩
    rw [step, sum_rep h, spec]
    split
    · rfl
    · rfl
  | sumBetween l r =>
    refine ⟨t, ?_, h⟩
    rw [step, sumBetween_rep h, spec]
    split
    · rfl
    · rfl
  | atPos pos =>
    refine ⟨t, ?_, h⟩
    cases hx : xs[pos]? with
    | some x =>
      obtain ⟨hpos, _⟩ := List.getElem?_eq_some_iff.mp hx
      rw [step, atPos, h.size, if_neg (by omega), sumBetween_rep h, if_pos ⟨by omega, hpos⟩,
        segment_one hx, List.sum_singleton]
      simp [spec, hx]
      rfl
    | none =>
      have hout := List.getElem?_eq_none_iff.mp hx
      rw [step, atPos, h.size, if_pos hout]
      simp [spec, hx]
      rfl

theorem rep_zeros {n : Nat} (hn : n + 1 < 2 ^ 63) :
    Rep (⟨n, List.replicate (n + 1) 0⟩ : FenwickTree T) (List.replicate n 0) := by
  refine ⟨by simp, by simpa using hn, ?_⟩
  intro i hi hin
  rw [List.length_replicate] at hin
  have hzero : (segment (List.replicate n (0 : T)) (i - lowBit i) i).sum = 0 := by
    refine List.sum_eq_zero ?_
    intro x hx
    exact List.eq_of_mem_replicate (List.mem_of_mem_take (List.mem_of_mem_drop hx))
  rw [hzero, List.getElem?_replicate, if_pos (by omega)]

/-- Zeros become the elements one after the other. -/
theorem addEach_rep (ys : List T) {data : List T} (h : Rep t (ys ++ List.replicate data.length 0)) :
    ∃ t', addEach t ys.length data = some (.ok t') ∧ Rep t' (ys ++ data) := by
  induction data generalizing t ys with
  | nil => exact ⟨t, rfl, by simpa using h⟩
  | cons x data ih =>
    have hzero : (ys ++ List.replicate (x :: data).length 0)[ys.length]? = some (0 : T) := by simp
    obtain ⟨t₁, hadd, hrep⟩ := add_rep h x hzero
    rw [zero_add, List.length_cons, List.replicate_succ, List.set_append_right _ _ le_rfl,
      Nat.sub_self, List.set_cons_zero, List.append_cons] at hrep
    obtain ⟨t', hrest, hrep'⟩ := ih _ hrep
    refine ⟨t', ?_, by simpa using hrep'⟩
    rw [List.length_append, List.length_singleton] at hrest
    rw [addEach, hadd]
    exact hrest

/-- The array that a constructor is given. -/
def Construction.elements : Construction T → List T
  | .sized n => List.replicate n.toNat 0
  | .filled n init => List.replicate n.toNat init
  | .range data => data

/-- The number of elements, and one more, is a `size_t`. -/
def Construction.Fits : Construction T → Prop
  | .sized n => n.toNat ≠ 2 ^ 64 - 1
  | .filled n _ => n.toNat ≠ 2 ^ 64 - 1
  | .range _ => True

theorem addEach_zeros (data : List T) (hsmall : data.length + 1 < 2 ^ 63) :
    ∃ t, addEach ⟨data.length, List.replicate (data.length + 1) 0⟩ 0 data = some (.ok t) ∧
      Rep t data :=
  addEach_rep [] (rep_zeros hsmall)

/-- More elements than a vector can hold are refused. -/
def Refused (c : Construction T) : Prop :=
  2 ^ 63 ≤ c.elements.length + 1 ∧ create c = some (.error "std::length_error")

/-- Where the number fits, a constructor leaves a tree of its elements, or there is no room. -/
theorem create_rep {c : Construction T} (h : c.Fits) :
    Refused c ∨ ∃ t, create c = some (.ok t) ∧ Rep t c.elements := by
  cases c with
  | sized n =>
    have hwrap : (n.toNat + 1) % 2 ^ 64 = n.toNat + 1 :=
      Nat.mod_eq_of_lt (by have := n.toNat_lt; have : n.toNat ≠ 2 ^ 64 - 1 := h; omega)
    by_cases hroom : n.toNat + 1 < 2 ^ 63
    · refine .inr ⟨⟨n.toNat, List.replicate (n.toNat + 1) 0⟩, ?_, rep_zeros hroom⟩
      rw [create, hwrap, zeros, if_pos hroom]
      rfl
    · refine .inl ⟨by simpa [Construction.elements] using hroom, ?_⟩
      rw [create, hwrap, zeros, if_neg hroom]
      rfl
  | filled n init =>
    have hwrap : (n.toNat + 1) % 2 ^ 64 = n.toNat + 1 :=
      Nat.mod_eq_of_lt (by have := n.toNat_lt; have : n.toNat ≠ 2 ^ 64 - 1 := h; omega)
    by_cases hroom : n.toNat + 1 < 2 ^ 63
    · obtain ⟨t, hadd, hrep⟩ := addEach_zeros (List.replicate n.toNat init) (by simpa using hroom)
      refine .inr ⟨t, ?_, hrep⟩
      rw [List.length_replicate] at hadd
      rw [create, hwrap, zeros, if_pos hroom]
      exact hadd
    · refine .inl ⟨by simpa [Construction.elements] using hroom, ?_⟩
      rw [create, hwrap, zeros, if_neg hroom]
  | range data =>
    by_cases hroom : data.length + 1 < 2 ^ 63
    · obtain ⟨t, hadd, hrep⟩ := addEach_zeros data hroom
      refine .inr ⟨t, ?_, hrep⟩
      rw [create, zeros, if_pos hroom]
      exact hadd
    · refine .inl ⟨not_lt.mp hroom, ?_⟩
      rw [create, zeros, if_neg hroom]

/-- A construction is refused, or whatever is called after it, each call returns or throws as on
the array of the elements. -/
def ActsAsArray (c : Construction T) : Prop :=
  Refused c ∨ ∃ t, create c = some (.ok t) ∧
    ∀ ops, ∃ t', Run.exec step t ops = some (t', (Run.execModel spec c.elements ops).2)

/-- A tree without nodes reads past them. -/
theorem sum_no_nodes {n : Nat} (hn : 0 < n) : (⟨n, []⟩ : FenwickTree T).sum 1 = none := by
  rw [sum, if_neg (Nat.not_lt.mpr hn)]
  rfl

theorem addEach_no_nodes {n : Nat} (hn : 0 < n) (init : T) :
    addEach (⟨n, []⟩ : FenwickTree T) 0 (List.replicate n init) = none := by
  match n with
  | n + 1 =>
    rw [List.replicate_succ, addEach, add, if_neg (by simp)]
    rw [addFrom, if_pos (by simp)]
    rfl

theorem fits_of_acts {c : Construction T} (hacts : ActsAsArray c) : c.Fits := by
  by_contra hfits
  cases c with
  | sized n =>
    have hn : n.toNat = 2 ^ 64 - 1 := not_not.mp hfits
    have hcreate : create (.sized n : Construction T) = some (.ok ⟨n.toNat, []⟩) := by
      rw [create, hn]
      rfl
    rcases hacts with ⟨_, herror⟩ | ⟨t, hok, hruns⟩
    · rw [hcreate] at herror
      simp at herror
    · rw [hcreate, Option.some.injEq, Except.ok.injEq] at hok
      subst hok
      obtain ⟨t', hrun⟩ := hruns [.sum 1]
      simp [Run.exec, step, sum_no_nodes (T := T) (n := n.toNat) (by omega)] at hrun
  | filled n init =>
    have hn : n.toNat = 2 ^ 64 - 1 := not_not.mp hfits
    have hcreate : create (.filled n init) = none := by
      have hwrap : (n.toNat + 1) % 2 ^ 64 = 0 := by omega
      rw [create, hwrap]
      exact addEach_no_nodes (by omega) init
    rcases hacts with ⟨_, herror⟩ | ⟨t, hok, _⟩
    · simp [hcreate] at herror
    · simp [hcreate] at hok
  | range data => exact hfits trivial

/-- A tree acts as an array, of which it knows sums, unless the number of its nodes wraps. -/
theorem fenwick_acts_iff (c : Construction T) : ActsAsArray c ↔ c.Fits := by
  refine ⟨fits_of_acts, ?_⟩
  intro hfits
  rcases create_rep hfits with herror | ⟨t, hok, hrep⟩
  · exact .inl herror
  · refine .inr ⟨t, hok, ?_⟩
    intro ops
    have hstep : ∀ (t : FenwickTree T) xs op, Rep t xs →
        ∃ t', step t op = some (t', (spec xs op).2) ∧ Rep t' (spec xs op).1 :=
      fun _ _ op h => step_rep h op
    obtain ⟨t', hrun, _⟩ := Run.exec_follows hstep ops hrep
    exact ⟨t', hrun⟩

/-- With the largest `size_t` the tree has no node at all. -/
theorem fenwick_of_largest_size :
    ¬ ∀ (T : Type) (_ : AddCommGroup T) (c : Construction T), ActsAsArray c := by
  intro h
  have hlargest := fits_of_acts (h ℤ inferInstance (.sized (UInt64.ofNat (2 ^ 64 - 1))))
  exact hlargest (by decide)

end Cppforge.Range.FenwickTree
