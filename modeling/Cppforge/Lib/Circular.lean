import Mathlib.Data.Nat.ModEq
import Mathlib.Data.List.Basic

namespace Circular

variable {T : Type} {buffer l : List T} {v : T} {n head i j : Nat}

/-- The place before `i` around a buffer of `n` places. -/
def prev (n i : Nat) : Nat := if i = 0 then n - 1 else i - 1

theorem prev_lt (h : i < n) : prev n i < n := by
  unfold prev
  split <;> omega

theorem next_prev (h : i < n) : (prev n i + 1) % n = i := by
  unfold prev
  split
  · have hlast : n - 1 + 1 = n := by omega
    rw [hlast, Nat.mod_self]
    omega
  · rw [Nat.mod_eq_of_lt (by omega)]
    omega

theorem prev_next (h : i < n) : prev n ((i + 1) % n) = i := by
  by_cases hlast : i + 1 = n
  · subst hlast
    simp [prev]
  · rw [Nat.mod_eq_of_lt (by omega)]
    simp [prev]

/-- Places fewer than `n` steps apart are different. -/
theorem place_inj (hi : i < n) (hj : j < n) (h : (head + i) % n = (head + j) % n) : i = j := by
  have hmod : i % n = j % n := Nat.ModEq.add_left_cancel' head h
  rwa [Nat.mod_eq_of_lt hi, Nat.mod_eq_of_lt hj] at hmod

theorem place_next : ((head + 1) % n + i) % n = (head + (i + 1)) % n := by
  rw [Nat.mod_add_mod]
  congr 1
  omega

/-- The list lies in the buffer from `head` on, around its end. -/
structure Holds (buffer : List T) (head : Nat) (l : List T) : Prop where
  room : l.length ≤ buffer.length
  read : ∀ i, i < l.length → buffer[(head + i) % buffer.length]? = l[i]?

theorem holds_nil (buffer : List T) (head : Nat) : Holds buffer head [] :=
  ⟨Nat.zero_le _, fun i hi => absurd hi (Nat.not_lt_zero i)⟩

theorem holds_append (l rest : List T) : Holds (l ++ rest) 0 l := by
  refine ⟨by simp, ?_⟩
  intro i hi
  have hlt : i < (l ++ rest).length := by
    rw [List.length_append]
    omega
  rw [Nat.zero_add, Nat.mod_eq_of_lt hlt, List.getElem?_append_left hi]

theorem Holds.pushBack (h : Holds buffer head l) (hroom : l.length < buffer.length) (v : T) :
    Holds (buffer.set ((head + l.length) % buffer.length) v) head (l ++ [v]) := by
  refine ⟨by simpa [Nat.succ_le_iff] using hroom, ?_⟩
  intro i hi
  rw [List.length_append, List.length_singleton] at hi
  rw [List.length_set]
  by_cases hlast : i = l.length
  · subst hlast
    simp [List.getElem?_set_self (Nat.mod_lt _ (Nat.zero_lt_of_lt hroom))]
  · have hne : (head + l.length) % buffer.length ≠ (head + i) % buffer.length := fun heq =>
      hlast (place_inj hroom (by omega) heq).symm
    rw [List.getElem?_set_ne hne, h.read i (by omega), List.getElem?_append_left (by omega)]

theorem Holds.pushFront (h : Holds buffer head l) (hhead : head < buffer.length)
    (hroom : l.length < buffer.length) (v : T) :
    Holds (buffer.set (prev buffer.length head) v) (prev buffer.length head) (v :: l) := by
  have hprev := prev_lt hhead
  refine ⟨by simpa [Nat.succ_le_iff] using hroom, ?_⟩
  intro i hi
  rw [List.length_cons] at hi
  rw [List.length_set]
  cases i with
  | zero => simp [Nat.mod_eq_of_lt hprev, List.getElem?_set_self hprev]
  | succ i =>
    have hplace : (prev buffer.length head + (i + 1)) % buffer.length =
        (head + i) % buffer.length := by
      rw [← place_next, next_prev hhead]
    have hne : prev buffer.length head ≠ (prev buffer.length head + (i + 1)) % buffer.length := by
      intro heq
      have hzero : (prev buffer.length head + 0) % buffer.length =
          (prev buffer.length head + (i + 1)) % buffer.length := by
        rwa [Nat.add_zero, Nat.mod_eq_of_lt hprev]
      have hsame := place_inj (by omega) (by omega) hzero
      omega
    rw [List.getElem?_set_ne hne, hplace, h.read i (by omega), List.getElem?_cons_succ]

theorem Holds.popFront (h : Holds buffer head (v :: l)) :
    Holds buffer ((head + 1) % buffer.length) l := by
  have hroom := h.room
  rw [List.length_cons] at hroom
  refine ⟨by omega, ?_⟩
  intro i hi
  rw [place_next, h.read (i + 1) (by simpa using hi), List.getElem?_cons_succ]

theorem Holds.popBack (h : Holds buffer head (l ++ [v])) : Holds buffer head l := by
  have hroom := h.room
  rw [List.length_append] at hroom
  refine ⟨by omega, ?_⟩
  intro i hi
  rw [h.read i (by simp; omega), List.getElem?_append_left hi]

end Circular
