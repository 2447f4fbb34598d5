import Mathlib.Logic.Function.Basic
import Mathlib.Data.List.Basic

/-! Singly linked lists behind a header, as the one lane of a structure that may have several. -/

namespace Lanes
open Function

variable {α : Type} {next next' : α → Option (Option α)} {a b s : α} {A B L : List α}

/-- From `a` the pointers lead through `L` to null. Reading a node that is not there gives
no pointer. -/
def Linked (next : α → Option (Option α)) : α → List α → Prop
  | a, [] => next a = some none
  | a, b :: L => next a = some (some b) ∧ Linked next b L

theorem Linked.congr (h : Linked next a L) (hsame : ∀ b ∈ a :: L, next' b = next b) :
    Linked next' a L := by
  induction L generalizing a with
  | nil => exact (hsame a List.mem_cons_self).trans h
  | cons b L ih =>
    exact ⟨(hsame a List.mem_cons_self).trans h.1,
      ih h.2 fun c hc => hsame c (List.mem_cons_of_mem a hc)⟩

theorem Linked.after (h : Linked next a (A ++ B)) : Linked next (A.getLastD a) B := by
  induction A generalizing a with
  | nil => exact h
  | cons b A ih =>
    rw [List.getLastD_cons]
    exact ih h.2

/-- The pointer behind the first part leads to the second. -/
theorem Linked.next_last (h : Linked next a (A ++ B)) : next (A.getLastD a) = some B.head? := by
  have hB := h.after
  cases B with
  | nil => exact hB
  | cons b B => exact hB.1

theorem getLastD_mem (A : List α) (a : α) : A.getLastD a ∈ a :: A := by
  induction A generalizing a with
  | nil => exact List.mem_singleton_self a
  | cons b A ih =>
    rw [List.getLastD_cons]
    exact List.mem_cons_of_mem a (ih b)

theorem getLastD_append (A B : List α) (a : α) : (A ++ B).getLastD a = B.getLastD (A.getLastD a) := by
  induction A generalizing a with
  | nil => rfl
  | cons b A ih =>
    rw [List.cons_append, List.getLastD_cons, List.getLastD_cons]
    exact ih b

/-- A list is cut behind any of its nodes, or the header. -/
theorem cut_behind (h : b ∈ a :: L) : ∃ A B, L = A ++ B ∧ A.getLastD a = b := by
  rcases List.mem_cons.mp h with rfl | h
  · exact ⟨[], L, rfl, rfl⟩
  · obtain ⟨A, B, rfl⟩ := List.append_of_mem h
    exact ⟨A ++ [b], B, by simp, by simp⟩

section Writes

/-- `s` linked in behind the first part. -/
theorem Linked.insert (h : Linked next a (A ++ B)) (hd : (a :: (A ++ B)).Nodup)
    (hs : s ∉ a :: (A ++ B)) (hlast : next' (A.getLastD a) = some (some s))
    (hnew : next' s = next (A.getLastD a))
    (hsame : ∀ b, b ≠ s → b ≠ A.getLastD a → next' b = next b) :
    Linked next' a (A ++ s :: B) := by
  induction A generalizing a with
  | nil =>
    refine ⟨hlast, ?_⟩
    have hBs : ∀ b ∈ B, next' b = next b := by
      intro b hb
      refine hsame b ?_ ?_
      · rintro rfl
        exact hs (List.mem_cons_of_mem a hb)
      · rintro rfl
        exact (List.nodup_cons.mp hd).1 hb
    cases B with
    | nil => exact hnew.trans h
    | cons b B => exact ⟨hnew.trans h.1, h.2.congr hBs⟩
  | cons b A ih =>
    rw [List.getLastD_cons] at hlast hnew hsame
    obtain ⟨ha, hd⟩ := List.nodup_cons.mp hd
    have has : a ≠ s := fun he => hs (he ▸ List.mem_cons_self)
    have hal : a ≠ A.getLastD b := by
      intro he
      exact ha (List.mem_append_left B (he ▸ getLastD_mem A b))
    exact ⟨(hsame a has hal).trans h.1,
      ih h.2 hd (fun hm => hs (List.mem_cons_of_mem a hm)) hlast hnew hsame⟩

/-- `s` taken out behind the first part. -/
theorem Linked.remove (h : Linked next a (A ++ s :: B)) (hd : (a :: (A ++ s :: B)).Nodup)
    (hlast : next' (A.getLastD a) = next s)
    (hsame : ∀ b, b ≠ s → b ≠ A.getLastD a → next' b = next b) : Linked next' a (A ++ B) := by
  induction A generalizing a with
  | nil =>
    have hBs : ∀ b ∈ B, next' b = next b := by
      intro b hb
      have hd' := (List.nodup_cons.mp hd).2
      refine hsame b ?_ ?_
      · rintro rfl
        exact (List.nodup_cons.mp hd').1 hb
      · rintro rfl
        exact (List.nodup_cons.mp hd).1 (List.mem_cons_of_mem s hb)
    cases B with
    | nil => exact hlast.trans h.2
    | cons b B => exact ⟨hlast.trans h.2.1, h.2.2.congr hBs⟩
  | cons b A ih =>
    rw [List.getLastD_cons] at hlast hsame
    obtain ⟨ha, hd⟩ := List.nodup_cons.mp hd
    have has : a ≠ s := by
      rintro rfl
      exact ha (by simp)
    have hal : a ≠ A.getLastD b := by
      intro he
      exact ha (List.mem_append_left (s :: B) (he ▸ getLastD_mem A b))
    exact ⟨(hsame a has hal).trans h.1, ih h.2 hd hlast hsame⟩

end Writes

section Reads

variable {below : α → Option Bool} {turns : Nat}

/-- A loop that goes on while there is a next node and it is below what is looked for. -/
def advance (next : α → Option (Option α)) (below : α → Option Bool) : Nat → α → Option α
  | 0, _ => none
  | turns + 1, a => do
    match ← next a with
    | none => some a
    | some b => if ← below b then advance next below turns b else some a

theorem Linked.advance (h : Linked next a (A ++ B)) (hA : ∀ b ∈ A, below b = some true)
    (hB : ∀ b ∈ B.head?, below b = some false) (hturns : A.length < turns) :
    advance next below turns a = some (A.getLastD a) := by
  induction A generalizing a turns with
  | nil =>
    obtain ⟨turns, rfl⟩ := Nat.exists_eq_add_one_of_ne_zero (Nat.ne_zero_of_lt hturns)
    cases B with
    | nil => simp [Lanes.advance, show next a = some none from h]
    | cons b B => simp [Lanes.advance, h.1, hB b rfl]
  | cons b A ih =>
    obtain ⟨turns, rfl⟩ := Nat.exists_eq_add_one_of_ne_zero (Nat.ne_zero_of_lt hturns)
    have hrest := ih h.2 (fun c hc => hA c (List.mem_cons_of_mem b hc))
      (Nat.lt_of_succ_lt_succ hturns)
    rw [List.getLastD_cons, ← hrest]
    simp [Lanes.advance, h.1, hA b List.mem_cons_self]

/-- What a walk along the lane meets. -/
def walk (next : α → Option (Option α)) : Nat → α → Option (List α)
  | 0, _ => none
  | turns + 1, a => do
    match ← next a with
    | none => some []
    | some b => do
      let rest ← walk next turns b
      return b :: rest

theorem Linked.walk (h : Linked next a L) (hturns : L.length < turns) :
    walk next turns a = some L := by
  induction L generalizing a turns with
  | nil =>
    obtain ⟨turns, rfl⟩ := Nat.exists_eq_add_one_of_ne_zero (Nat.ne_zero_of_lt hturns)
    simp [Lanes.walk, show next a = some none from h]
  | cons b L ih =>
    obtain ⟨turns, rfl⟩ := Nat.exists_eq_add_one_of_ne_zero (Nat.ne_zero_of_lt hturns)
    simp [Lanes.walk, h.1, ih h.2 (Nat.lt_of_succ_lt_succ hturns)]

end Reads

end Lanes
