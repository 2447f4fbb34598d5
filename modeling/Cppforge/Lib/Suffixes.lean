import Mathlib.Data.List.Basic

/-! The longest suffix of a word that belongs to a prefix-closed dictionary, and
how it changes with one more letter. -/

namespace Suffixes

variable {α : Type} (D : List α → Prop) [DecidablePred D]

/-- The longest suffix in the dictionary, which has the empty word. -/
def longest : List α → List α
  | [] => []
  | a :: w => if D (a :: w) then a :: w else longest w

/-- The longest suffix in the dictionary that is not the word itself. -/
def border (w : List α) : List α := longest D w.tail

variable {D} {p w x : List α} {c : α}

theorem longest_suffix (w : List α) : longest D w <:+ w := by
  induction w with
  | nil => exact List.suffix_rfl
  | cons a w ih =>
    rw [longest]
    split
    · exact List.suffix_rfl
    · exact ih.trans (List.suffix_cons a w)

theorem longest_mem (hnil : D []) (w : List α) : D (longest D w) := by
  induction w with
  | nil => exact hnil
  | cons a w ih =>
    rw [longest]
    split
    next h => exact h
    next => exact ih

theorem suffix_longest (hp : D p) (h : p <:+ w) : p <:+ longest D w := by
  induction w with
  | nil => exact h
  | cons a w ih =>
    rw [longest]
    split
    next => exact h
    next hnot =>
      rcases List.suffix_cons_iff.mp h with rfl | hw
      · exact absurd hp hnot
      · exact ih hw

theorem suffix_longest_iff (hp : D p) : p <:+ longest D w ↔ p <:+ w :=
  ⟨fun h => h.trans (longest_suffix w), suffix_longest hp⟩

theorem longest_of_mem (h : D w) : longest D w = w := by
  cases w with
  | nil => rfl
  | cons a w => rw [longest, if_pos h]

/-- Words with the same suffixes in the dictionary have the same longest one. -/
theorem longest_congr (hnil : D []) (h : ∀ p, D p → (p <:+ w ↔ p <:+ x)) :
    longest D w = longest D x := by
  have hwx : longest D w <:+ longest D x := suffix_longest (longest_mem hnil w)
    ((h _ (longest_mem hnil w)).mp (longest_suffix w))
  have hxw : longest D x <:+ longest D w := suffix_longest (longest_mem hnil x)
    ((h _ (longest_mem hnil x)).mpr (longest_suffix x))
  exact hwx.eq_of_length_le hxw.length_le

theorem border_suffix (w : List α) : border D w <:+ w := (longest_suffix _).trans (List.tail_suffix w)

theorem border_mem (hnil : D []) (w : List α) : D (border D w) := longest_mem hnil _

theorem length_border (hw : w ≠ []) : (border D w).length < w.length := by
  have hle : (border D w).length ≤ w.tail.length := (longest_suffix w.tail).length_le
  have hpos : 0 < w.length := List.length_pos_of_ne_nil hw
  rw [List.length_tail] at hle
  omega

/-- A suffix in the dictionary is the word itself or a suffix of the border. -/
theorem suffix_iff_border (hp : D p) (hw : w ≠ []) : p <:+ w ↔ p = w ∨ p <:+ border D w := by
  obtain ⟨a, w, rfl⟩ := List.exists_cons_of_ne_nil hw
  rw [List.suffix_cons_iff, border, List.tail_cons, suffix_longest_iff hp]

section Letter
variable (hnil : D []) (hD : ∀ w c, D (w ++ [c]) → D w)
include hnil hD

/-- The longest suffix of a longer word depends on that of the word only. -/
theorem longest_concat (w : List α) (c : α) :
    longest D (longest D w ++ [c]) = longest D (w ++ [c]) := by
  refine longest_congr hnil ?_
  intro p hp
  rw [List.suffix_concat_iff, List.suffix_concat_iff]
  refine or_congr_right (exists_congr fun t => and_congr_right ?_)
  rintro rfl
  exact suffix_longest_iff (hD t c hp)

theorem border_concat (hw : w ≠ []) : border D (w ++ [c]) = longest D (border D w ++ [c]) := by
  obtain ⟨a, w, rfl⟩ := List.exists_cons_of_ne_nil hw
  exact (longest_concat hnil hD w c).symm

/-- Where the next word is not in the dictionary, its longest suffix is that of the
border with the letter. -/
theorem longest_concat_border (hw : w ≠ []) (h : ¬ D (w ++ [c])) :
    longest D (w ++ [c]) = longest D (border D w ++ [c]) := by
  obtain ⟨a, w, rfl⟩ := List.exists_cons_of_ne_nil hw
  rw [List.cons_append] at h ⊢
  rw [longest, if_neg h]
  exact (longest_concat hnil hD w c).symm

end Letter

theorem border_singleton : border D [c] = [] := rfl

theorem longest_singleton (h : ¬ D [c]) : longest D [c] = [] := by
  rw [longest, if_neg h, longest]

end Suffixes
