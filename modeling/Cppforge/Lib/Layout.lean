import Mathlib.Data.List.Nodup
import Mathlib.Data.Fintype.Card
import Mathlib.Order.WellFounded
import Mathlib.Logic.Relation

/-! Nodes listed so that what they lead to is listed before, and cycles where that is impossible. -/

namespace Layout
open Relation

variable {α : Type} {E : α → α → Prop} {l m : List α} {u v : α}

inductive TargetsFirst (E : α → α → Prop) : List α → Prop
  | nil : TargetsFirst E []
  | snoc {l : List α} {u : α} (h : TargetsFirst E l) (hu : u ∉ l) (ht : ∀ v, E u v → v ∈ l) :
      TargetsFirst E (l ++ [u])

namespace TargetsFirst

theorem nodup (h : TargetsFirst E l) : l.Nodup := by
  induction h with
  | nil => exact List.nodup_nil
  | snoc _ hu _ ih => exact List.concat_eq_append ▸ ih.concat hu

theorem append (h : TargetsFirst E l) (hnew : (l ++ m).Nodup)
    (ht : ∀ u ∈ m, ∀ v, E u v → v ∈ l) : TargetsFirst E (l ++ m) := by
  induction m using List.reverseRecOn with
  | nil => simpa using h
  | append_singleton m u ih =>
    rw [← List.append_assoc] at hnew ⊢
    have hlm : (l ++ m).Nodup := hnew.of_append_left
    have hu : u ∉ l ++ m := fun hu =>
      List.disjoint_of_nodup_append hnew hu (List.mem_singleton_self u)
    refine .snoc (ih hlm fun x hx => ht x (List.mem_append_left _ hx)) hu ?_
    intro v he
    exact List.mem_append_left m (ht u (List.mem_append_right m (List.mem_singleton_self u)) v he)

theorem idxOf_lt [DecidableEq α] (h : TargetsFirst E l) (hu : u ∈ l) (he : E u v) :
    l.idxOf v < l.idxOf u := by
  induction h with
  | nil => cases hu
  | @snoc l x _ hx ht ih =>
    rcases List.mem_append.mp hu with hu | hu
    · have hlt := ih hu
      have hv : v ∈ l := by
        have hin := List.idxOf_lt_length_of_mem hu
        exact List.idxOf_lt_length_iff.mp (by omega)
      rwa [List.idxOf_append_of_mem hv, List.idxOf_append_of_mem hu]
    · obtain rfl := List.mem_singleton.mp hu
      have hv := ht v he
      rw [List.idxOf_append_of_mem hv, List.idxOf_append_of_notMem hx]
      have hin := List.idxOf_lt_length_of_mem hv
      omega

theorem closed (h : TargetsFirst E l) (hu : u ∈ l) (he : E u v) : v ∈ l := by
  classical
  have hlt := h.idxOf_lt hu he
  have hin := List.idxOf_lt_length_of_mem hu
  exact List.idxOf_lt_length_iff.mp (by omega)

/-- No node that is listed is on a cycle. -/
theorem acyclic (h : TargetsFirst E l) (hu : u ∈ l) : ¬ TransGen E u u := by
  classical
  have hall : ∀ v, TransGen E u v → v ∈ l ∧ l.idxOf v < l.idxOf u := by
    intro v hv
    induction hv with
    | single he => exact ⟨h.closed hu he, h.idxOf_lt hu he⟩
    | tail _ he ih => exact ⟨h.closed ih.1 he, (h.idxOf_lt ih.1 he).trans ih.2⟩
  intro hcycle
  exact absurd (hall u hcycle).2 (Nat.lt_irrefl _)

end TargetsFirst

theorem idxOf_reverse_lt [DecidableEq α] (hl : l.Nodup) (hu : u ∈ l) (hv : v ∈ l)
    (hlt : l.idxOf v < l.idxOf u) : l.reverse.idxOf u < l.reverse.idxOf v := by
  have hmirror : ∀ x ∈ l, l.reverse.idxOf x = l.length - 1 - l.idxOf x := by
    intro x hx
    have hin := List.idxOf_lt_length_of_mem hx
    have hbound : l.length - 1 - l.idxOf x < l.reverse.length := by
      rw [List.length_reverse]
      omega
    have hback : l.length - 1 - (l.length - 1 - l.idxOf x) = l.idxOf x := by omega
    have hget : l.reverse[l.length - 1 - l.idxOf x] = x := by
      simp [List.getElem_reverse, hback]
    have hidx := (List.nodup_reverse.mpr hl).idxOf_getElem (l.length - 1 - l.idxOf x) hbound
    rwa [hget] at hidx
  have hin := List.idxOf_lt_length_of_mem hu
  rw [hmirror u hu, hmirror v hv]
  omega

/-- Nodes that all have a source among them contain a cycle. -/
theorem exists_cycle [Finite α] {S : Set α} (hS : S.Nonempty) (h : ∀ v ∈ S, ∃ u ∈ S, E u v) :
    ∃ v, TransGen E v v := by
  by_contra hno
  have hirrefl : Std.Irrefl (TransGen E) := ⟨fun v hv => hno ⟨v, hv⟩⟩
  have hwf : WellFounded (TransGen E) := Finite.wellFounded_of_trans_of_irrefl _
  obtain ⟨v, hv, hmin⟩ := hwf.has_min S hS
  obtain ⟨u, hu, he⟩ := h v hv
  exact hmin u hu (.single he)

end Layout
