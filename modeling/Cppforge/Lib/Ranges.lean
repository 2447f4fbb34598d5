import Mathlib.Data.List.Basic
import Mathlib.Algebra.BigOperators.Group.List.Basic
import Mathlib.Data.Option.Basic
import Mathlib.Logic.Function.Iterate

/-! Arrays as lists of one length, read and written a range at a time. -/

namespace Ranges

variable {l A B C D E : List α} {i n : Nat}

/-- The elements from an index on, as many as asked for. -/
def read (l : List α) (i n : Nat) : Option (List α) :=
  if i + n ≤ l.length then some ((l.drop i).take n) else none

/-- Elements written over those from an index on. -/
def write (l : List α) (i : Nat) (xs : List α) : Option (List α) :=
  if i + xs.length ≤ l.length then some (l.take i ++ xs ++ l.drop (i + xs.length)) else none

/-- Elements moved one after the other from an index on to another, where the ranges may overlap. -/
def move (l : List α) (src dst : Nat) : Nat → Option (List α)
  | 0 => some l
  | n + 1 => do
    let x ← l[src]?
    let l ← write l dst [x]
    move l (src + 1) (dst + 1) n

/-- A list taken apart at the ends of a range. -/
theorem cut (h : i + n ≤ l.length) : ∃ A B C, l = A ++ B ++ C ∧ A.length = i ∧ B.length = n := by
  refine ⟨l.take i, (l.drop i).take n, (l.drop i).drop n, ?_, ?_, ?_⟩
  · rw [List.append_assoc, List.take_append_drop, List.take_append_drop]
  · rw [List.length_take]
    omega
  · rw [List.length_take, List.length_drop]
    omega

theorem read_mid (hi : A.length = i) (hn : B.length = n) : read (A ++ B ++ C) i n = some B := by
  subst hi hn
  simp [read]

theorem read_one {x : α} (h : read l i 1 = some [x]) : l[i]? = some x := by
  rw [read, Option.ite_none_right_eq_some, Option.some.injEq, List.take_one, List.head?_drop,
    Option.toList_eq_singleton_iff] at h
  exact h.2

theorem write_mid {xs : List α} (hi : A.length = i) (hn : B.length = xs.length) :
    write (A ++ B ++ C) i xs = some (A ++ xs ++ C) := by
  subst hi
  have hroom : A.length + xs.length ≤ (A ++ B ++ C).length := by
    simp only [List.length_append]
    omega
  rw [write, if_pos hroom, ← hn]
  simp

/-- Moved down, the elements come through whole. -/
theorem move_down (D A B C : List α) :
    ∃ E, move (D ++ A ++ B ++ C) (D.length + A.length) D.length B.length = some (D ++ B ++ E) := by
  induction B generalizing D A with
  | nil => exact ⟨A ++ C, by simp [move]⟩
  | cons b B ih =>
    have hread : (D ++ A ++ b :: B ++ C)[D.length + A.length]? = some b := by simp
    have hwrite : ∃ A',
        write (D ++ A ++ b :: B ++ C) D.length [b] = some (D ++ [b] ++ A' ++ B ++ C) ∧
        A'.length = A.length := by
      cases A with
      | nil =>
        have hmid : write (D ++ [b] ++ (B ++ C)) D.length [b] = some (D ++ [b] ++ (B ++ C)) :=
          write_mid rfl rfl
        exact ⟨[], by simpa using hmid, rfl⟩
      | cons a A =>
        refine ⟨A ++ [b], ?_, by simp⟩
        have hmid : write (D ++ [a] ++ (A ++ b :: B ++ C)) D.length [b] =
            some (D ++ [b] ++ (A ++ b :: B ++ C)) := write_mid rfl rfl
        simpa using hmid
    obtain ⟨A', hwrite, hlen⟩ := hwrite
    obtain ⟨E, hmove⟩ := ih (D ++ [b]) A'
    refine ⟨E, ?_⟩
    rw [List.length_append, List.length_singleton, hlen, Nat.add_right_comm] at hmove
    simp only [List.length_cons, move, hread, hwrite, Option.bind_eq_bind, Option.bind_some]
    simpa using hmove

theorem length_move {l' : List α} {src dst : Nat} (h : move l src dst n = some l') :
    l'.length = l.length := by
  induction n generalizing l src dst with
  | zero =>
    rw [move, Option.some.injEq] at h
    rw [h]
  | succ n ih =>
    simp only [move, write, Option.bind_eq_bind, Option.bind_eq_some_iff,
      Option.ite_none_right_eq_some, Option.some.injEq] at h
    obtain ⟨x, _, l₁, ⟨hroom, rfl⟩, hmove⟩ := h
    rw [ih hmove]
    simp only [List.length_append, List.length_take, List.length_drop, List.length_singleton]
      at hroom ⊢
    omega

end Ranges

/-! The elements of a list from one position up to another, and what an operation makes of them
from left to right. -/

namespace Segments

variable {α : Type} {xs ys : List α} {l m r i : Nat} {x y : α}

/-- The elements from position `l` on, up to position `r`. -/
def segment (xs : List α) (l r : Nat) : List α := (xs.take r).drop l

theorem segment_zero (xs : List α) (r : Nat) : segment xs 0 r = xs.take r := rfl

theorem segment_empty (h : r ≤ l) : segment xs l r = [] := by
  rw [segment, List.drop_eq_nil_iff, List.length_take]
  omega

theorem segment_append (hl : l ≤ m) (hr : m ≤ r) :
    segment xs l m ++ segment xs m r = segment xs l r := by
  have htake : xs.take m ++ (xs.take r).drop m = xs.take r := by
    have hcut : xs.take m = (xs.take r).take m := by rw [List.take_take, Nat.min_eq_left hr]
    rw [hcut, List.take_append_drop]
  by_cases hm : m ≤ xs.length
  · have hlen : l ≤ (xs.take m).length := by rwa [List.length_take_of_le hm]
    rw [segment, segment, ← List.drop_append_of_le_length hlen, htake, segment]
  · have hnone : segment xs m r = [] := by
      rw [segment, List.drop_eq_nil_iff, List.length_take]
      omega
    rw [hnone, List.append_nil, segment, segment, List.take_of_length_le (by omega),
      List.take_of_length_le (by omega)]

/-- Both sides of a cut give their part of a segment. -/
theorem segment_cut {a b : Nat} (hl : l ≤ m) (hr : m ≤ r) :
    segment xs (max l a) (min m b) ++ segment xs (max m a) (min r b) =
      segment xs (max l a) (min r b) := by
  by_cases hb : b ≤ m
  · have hright : segment xs (max m a) (min r b) = [] := segment_empty (by omega)
    rw [hright, List.append_nil, Nat.min_eq_right hb, Nat.min_eq_right (Nat.le_trans hb hr)]
  · by_cases ha : m ≤ a
    · have hleft : segment xs (max l a) (min m b) = [] := segment_empty (by omega)
      rw [hleft, List.nil_append, Nat.max_eq_right ha, Nat.max_eq_right (Nat.le_trans hl ha)]
    · have hmin : min m b = m := Nat.min_eq_left (by omega)
      have hmax : max m a = m := Nat.max_eq_left (by omega)
      rw [hmin, hmax]
      exact segment_append (by omega) (by omega)

theorem segment_one (h : xs[i]? = some x) : segment xs i (i + 1) = [x] := by
  obtain ⟨hi, rfl⟩ := List.getElem?_eq_some_iff.mp h
  rw [segment, List.take_succ_eq_append_getElem hi,
    List.drop_left' (List.length_take_of_le (Nat.le_of_lt hi))]

theorem segment_set (h : i < l ∨ r ≤ i) : segment (xs.set i x) l r = segment xs l r := by
  rw [segment, segment, List.take_set, List.drop_set]
  rcases h with h | h
  · rw [if_pos h]
  · split
    · rfl
    · exact List.set_eq_of_length_le (by simp; omega)

section Sums
variable {M : Type} [AddCommMonoid M] {zs : List M} {z d : M}

theorem sum_segment_append (hl : l ≤ m) (hr : m ≤ r) :
    (segment zs l m).sum + (segment zs m r).sum = (segment zs l r).sum := by
  rw [← List.sum_append, segment_append hl hr]

/-- What is added to an element is added to the sums over it. -/
theorem sum_segment_set (hi : zs[i]? = some z) (hl : l ≤ i) (hr : i < r) :
    (segment (zs.set i (z + d)) l r).sum = (segment zs l r).sum + d := by
  obtain ⟨hlen, _⟩ := List.getElem?_eq_some_iff.mp hi
  have hwhole : (segment zs l r).sum =
      (segment zs l i).sum + ((segment zs i (i + 1)).sum + (segment zs (i + 1) r).sum) := by
    rw [sum_segment_append (Nat.le_add_right i 1) hr, sum_segment_append hl (Nat.le_of_lt hr)]
  have hone : segment (zs.set i (z + d)) i (i + 1) = [z + d] :=
    segment_one (List.getElem?_set_self hlen)
  rw [← sum_segment_append hl (Nat.le_of_lt hr), ← sum_segment_append (Nat.le_add_right i 1) hr,
    hwhole, segment_set (.inr (Nat.le_refl i)), segment_set (.inl (Nat.lt_succ_self i)), hone,
    segment_one hi, List.sum_singleton, List.sum_singleton]
  simp only [add_assoc, add_comm d]

end Sums

/-- An operation from left to right, without a value where there is no element. -/
def merged (op : α → α → α) : List α → Option α
  | [] => none
  | x :: xs => some (xs.foldl op x)

section Merges
variable {op : α → α → α}

theorem merged_cons (hop : Std.Associative op) (x : α) (xs : List α) :
    merged op (x :: xs) = Option.merge op (some x) (merged op xs) := by
  cases xs with
  | nil => rfl
  | cons y ys => simp [merged, List.foldl_assoc]

theorem merged_append (hop : Std.Associative op) (xs ys : List α) :
    merged op (xs ++ ys) = Option.merge op (merged op xs) (merged op ys) := by
  induction xs with
  | nil => simp [merged]
  | cons x xs ih =>
    have hassoc : ∀ a b c, Option.merge op (Option.merge op a b) c =
        Option.merge op a (Option.merge op b c) := Std.Associative.assoc
    rw [List.cons_append, merged_cons hop, merged_cons hop, ih, hassoc]

theorem merged_eq_none : merged op xs = none ↔ xs = [] := by
  cases xs with
  | nil => simp [merged]
  | cons x xs => simp [merged]

theorem merged_segment (op : α → α → α) (hl : l < r) (hr : r ≤ xs.length) :
    ∃ a, merged op (segment xs l r) = some a := by
  cases hmerged : merged op (segment xs l r) with
  | some a => exact ⟨a, rfl⟩
  | none =>
    rw [merged_eq_none, segment, List.drop_eq_nil_iff, List.length_take] at hmerged
    omega

/-- What two segments have in common counts once. -/
theorem merged_overlap (m' : Nat) (hop : Std.Associative op) (hsame : Std.IdempotentOp op)
    (hl : l ≤ m) (hm : m ≤ m') (hr : m' ≤ r) :
    Option.merge op (merged op (segment xs l m')) (merged op (segment xs m r)) =
      merged op (segment xs l r) := by
  have hassoc : ∀ a b c, Option.merge op (Option.merge op a b) c =
      Option.merge op a (Option.merge op b c) := Std.Associative.assoc
  have hidem : ∀ a, Option.merge op a a = a := Std.IdempotentOp.idempotent
  rw [← segment_append hl (Nat.le_trans hm hr), ← segment_append hl hm, ← segment_append hm hr]
  simp only [merged_append hop]
  generalize merged op (segment xs l m) = a
  generalize merged op (segment xs m m') = b
  generalize merged op (segment xs m' r) = c
  calc
    Option.merge op (Option.merge op a b) (Option.merge op b c)
    _ = Option.merge op a (Option.merge op (Option.merge op b b) c) := by simp only [hassoc]
    _ = Option.merge op a (Option.merge op b c) := by rw [hidem]

end Merges

end Segments

/-! A sequence read through chunks of one size. What is read is told by the sequence alone; which
chunk is kept is told by how much has been read. -/

namespace Prefetch

variable {α : Type} {size n k : Nat}

/-- The chunk fetched last, the position in it, and what has not been fetched yet. -/
structure Chunked (α : Type) where
  chunk : List α
  pos : Nat
  rest : List α

namespace Chunked

/-- What has been fetched and not been read. -/
def unread (c : Chunked α) : List α := c.chunk.drop c.pos

/-- What is to come. -/
def left (c : Chunked α) : List α := c.unread ++ c.rest

/-- The next chunk, where nothing is left of the last one. -/
def refill (size : Nat) (c : Chunked α) : Chunked α :=
  if c.pos < c.chunk.length then c else ⟨c.rest.take size, 0, c.rest.drop size⟩

def pull (size : Nat) (c : Chunked α) : Chunked α :=
  let c := c.refill size
  { c with pos := min (c.pos + 1) c.chunk.length }

/-- Elements read one after the other. -/
def advance (size n : Nat) (c : Chunked α) : Chunked α := (pull size)^[n] c

variable {c : Chunked α}

theorem unread_eq_nil : c.unread = [] ↔ c.chunk.length ≤ c.pos := List.drop_eq_nil_iff

theorem length_unread : c.unread.length = c.chunk.length - c.pos := List.length_drop

theorem left_refill (size : Nat) (c : Chunked α) : (c.refill size).left = c.left := by
  unfold refill
  split
  · rfl
  · rename_i hempty
    rw [left, left, unread_eq_nil.mpr (Nat.le_of_not_lt hempty)]
    simp [unread]

theorem refill_refill (size : Nat) (c : Chunked α) :
    (c.refill size).refill size = c.refill size := by
  by_cases hmore : c.pos < c.chunk.length
  · simp only [refill, if_pos hmore]
  · simp only [refill, if_neg hmore]
    split
    · rfl
    · rename_i hempty
      have hnone : size = 0 ∨ c.rest = [] := by
        simpa only [List.length_pos_iff, not_not, List.take_eq_nil_iff] using hempty
      rcases hnone with rfl | hnone
      · simp
      · simp [hnone]

/-- A chunk that is empty after a refill is the end. -/
theorem refill_done (hsize : 1 ≤ size)
    (h : (c.refill size).chunk.length ≤ (c.refill size).pos) : c.refill size = ⟨[], 0, []⟩ := by
  unfold refill at h ⊢
  split at h
  · rename_i hmore
    exact absurd h (Nat.not_le_of_lt hmore)
  · rename_i hempty
    rw [if_neg hempty]
    have hnone : size = 0 ∨ c.rest = [] := by
      simpa only [Nat.le_zero_eq, List.length_eq_zero_iff, List.take_eq_nil_iff] using h
    rcases hnone with hzero | hnone
    · omega
    · simp [hnone]

theorem advance_succ (size n : Nat) (c : Chunked α) :
    c.advance size (n + 1) = (c.pull size).advance size n := rfl

theorem advance_add (size n k : Nat) (c : Chunked α) :
    c.advance size (n + k) = (c.advance size n).advance size k := by
  rw [advance, Nat.add_comm, Function.iterate_add_apply]
  rfl

theorem advance_refill (hn : 0 < n) (c : Chunked α) :
    (c.refill size).advance size n = c.advance size n := by
  obtain ⟨n, rfl⟩ := Nat.exists_eq_add_one.mpr hn
  simp only [advance_succ, pull, refill_refill]

theorem advance_done (size n : Nat) :
    (⟨[], 0, []⟩ : Chunked α).advance size n = ⟨[], 0, []⟩ := by
  induction n with
  | zero => rfl
  | succ n ih =>
    have hpull : pull size (⟨[], 0, []⟩ : Chunked α) = ⟨[], 0, []⟩ := by
      simp [pull, refill]
    rw [advance_succ, hpull, ih]

/-- Within a chunk only the position moves. -/
theorem advance_within (h : c.pos + n ≤ c.chunk.length) :
    c.advance size n = { c with pos := c.pos + n } := by
  induction n generalizing c with
  | zero => rfl
  | succ n ih =>
    have hpull : c.pull size = { c with pos := c.pos + 1 } := by
      have hmore : c.pos < c.chunk.length := by omega
      have hmin : min (c.pos + 1) c.chunk.length = c.pos + 1 := by omega
      simp only [pull, refill, if_pos hmore, hmin]
    have hmove : c.pos + 1 + n = c.pos + (n + 1) := by omega
    rw [advance_succ, hpull, ih (by simpa only [hmove] using h)]
    simp only [hmove]

theorem advance_whole (size : Nat) (xs ys : List α) :
    (⟨xs, 0, ys⟩ : Chunked α).advance size xs.length = ⟨xs, xs.length, ys⟩ := by
  rw [advance_within (Nat.le_of_eq (Nat.zero_add _)), Nat.zero_add]

theorem left_pull (hsize : 1 ≤ size) (c : Chunked α) : (c.pull size).left = c.left.tail := by
  rw [← left_refill size c, pull]
  by_cases hmore : (c.refill size).pos < (c.refill size).chunk.length
  · have hmin : min ((c.refill size).pos + 1) (c.refill size).chunk.length =
        (c.refill size).pos + 1 := by omega
    simp only [hmin, left, unread, List.drop_eq_getElem_cons hmore, List.cons_append,
      List.tail_cons]
  · rw [refill_done hsize (Nat.le_of_not_lt hmore)]
    simp [left, unread]

theorem pos_advance (n : Nat) (h : c.pos ≤ c.chunk.length) :
    (c.advance size n).pos ≤ (c.advance size n).chunk.length := by
  induction n generalizing c with
  | zero => exact h
  | succ n ih => exact ih (Nat.min_le_right _ _)

/-- What is read is no matter of the chunks. -/
theorem left_advance (hsize : 1 ≤ size) (n : Nat) (c : Chunked α) :
    (c.advance size n).left = c.left.drop n := by
  induction n generalizing c with
  | zero => rfl
  | succ n ih => rw [advance_succ, ih, left_pull hsize, List.drop_tail]

/-- The chunk that is kept when more has been read than had been fetched. -/
theorem chunk_advance_behind (hsize : 1 ≤ size) (k : Nat) : ∀ c : Chunked α, c.unread = [] →
    (c.advance size (k + 1)).chunk =
      if c.rest.length ≤ k then [] else (c.rest.drop (k / size * size)).take size := by
  induction k using Nat.strongRecOn with
  | ind k ih =>
    intro c hunread
    have hrefill : c.refill size = ⟨c.rest.take size, 0, c.rest.drop size⟩ := by
      rw [refill, if_neg (Nat.not_lt.mpr (unread_eq_nil.mp hunread))]
    rw [← advance_refill (Nat.lt_add_one_of_le (Nat.zero_le k)), hrefill]
    have htake : (c.rest.take size).length = min size c.rest.length := List.length_take
    by_cases hfits : k + 1 ≤ (c.rest.take size).length
    · -- the first chunk is enough
      have hzero : k / size = 0 := Nat.div_eq_of_lt (by omega)
      rw [advance_within (by simpa using hfits), if_neg (by omega), hzero, Nat.zero_mul,
        List.drop_zero]
    · have hsum : k + 1 = (c.rest.take size).length + (k + 1 - (c.rest.take size).length) := by
        omega
      rw [hsum, advance_add, advance_whole]
      by_cases hend : c.rest.length ≤ size
      · -- the first chunk is all there is
        have hnone : c.rest.drop size = [] := List.drop_eq_nil_of_le hend
        rw [if_pos (by omega), hnone, ← advance_refill (by omega)]
        have hlast : refill size ⟨c.rest.take size, (c.rest.take size).length, []⟩ =
            ⟨[], 0, []⟩ := by simp [refill]
        rw [hlast, advance_done]
      · -- the chunks behind the first
        have hlen : (c.rest.take size).length = size := by omega
        have hk : size ≤ k := by omega
        have hdiv : k / size * size = size + (k - size) / size * size := by
          rw [Nat.div_eq_sub_div (by omega) hk, Nat.add_mul, Nat.one_mul, Nat.add_comm]
        have hmore : k + 1 - size = k - size + 1 := by omega
        rw [hlen, hmore, ih (k - size) (by omega) ⟨c.rest.take size, size, c.rest.drop size⟩
          (unread_eq_nil.mpr (by simp [hlen])), List.length_drop, List.drop_drop, hdiv]
        congr 1
        exact propext (by omega)

/-- The chunk that is kept after so much has been read. -/
def kept (size n : Nat) (c : Chunked α) : List α :=
  if n ≤ c.unread.length then c.chunk
  else if c.left.length < n then []
  else (c.rest.drop ((n - c.unread.length - 1) / size * size)).take size

theorem chunk_advance (hsize : 1 ≤ size) (hpos : c.pos ≤ c.chunk.length) (n : Nat) :
    (c.advance size n).chunk = c.kept size n := by
  have hlen := c.length_unread
  unfold kept
  split
  · rw [advance_within (by omega)]
  · rename_i hmore
    obtain ⟨k, rfl⟩ : ∃ k, n = c.unread.length + (k + 1) :=
      ⟨n - c.unread.length - 1, by omega⟩
    have hk : c.unread.length + (k + 1) - c.unread.length - 1 = k := by omega
    have hleft : c.left.length < c.unread.length + (k + 1) ↔ c.rest.length ≤ k := by
      rw [left, List.length_append]
      omega
    have hend : unread { c with pos := c.pos + c.unread.length } = [] := by
      rw [unread_eq_nil]
      dsimp only
      omega
    have hwithin : c.advance size c.unread.length = { c with pos := c.pos + c.unread.length } :=
      advance_within (by omega)
    rw [advance_add, hwithin, chunk_advance_behind hsize k _ hend, hk]
    simp only [hleft]

end Chunked

end Prefetch
