import Mathlib.Data.List.Nodup
import Mathlib.Data.List.Induction

/-! Breadth-first search in a prefix-closed set of words. -/

namespace LevelOrder

variable {α : Type} (D : List α → Prop)

/-- The words with one letter more, in the order of the letters. -/
def kids [DecidablePred D] (letters : List α) (w : List α) : List (List α) :=
  (letters.map fun c => w ++ [c]).filter (fun x => decide (D x))

theorem kids_cons [DecidablePred D] (c : α) (letters : List α) (w : List α) :
    kids D (c :: letters) w = kids D [c] w ++ kids D letters w := by
  rw [kids, kids, kids, ← List.filter_append, ← List.map_append]
  rfl

/-- The words behind and in front of the search: the words that follow one behind it,
shorter ones first. -/
structure Frontier (behind queue : List (List α)) : Prop where
  nodup : (behind ++ queue).Nodup
  mem : ∀ w ∈ behind ++ queue, D w ∧ w ≠ []
  parent : ∀ w c, w ++ [c] ∈ behind ++ queue → w = [] ∨ w ∈ behind
  kids : ∀ w c, w = [] ∨ w ∈ behind → D (w ++ [c]) → w ++ [c] ∈ behind ++ queue
  sorted : (behind ++ queue).Pairwise fun x y => x.length ≤ y.length
  level : ∀ x ∈ queue, ∀ y ∈ queue, y.length ≤ x.length + 1

variable {D} {behind queue q : List (List α)} {u w : List α} {c : α}

namespace Frontier

/-- What was met fits into a set that has the empty word too. -/
theorem length_lt {words : List (List α)} (h : Frontier (· ∈ words) behind queue)
    (hnil : [] ∈ words) : (behind ++ queue).length < words.length := by
  have hnodup : ([] :: (behind ++ queue)).Nodup :=
    List.nodup_cons.mpr ⟨fun hmem => (h.mem [] hmem).2 rfl, h.nodup⟩
  have hsub : [] :: (behind ++ queue) ⊆ words := by
    intro x hx
    rcases List.mem_cons.mp hx with rfl | hx
    · exact hnil
    · exact (h.mem x hx).1
  exact hnodup.length_le_of_subset hsub

/-- No word that is at most as long as the first in the queue is missing. -/
theorem short (h : Frontier D behind (u :: q)) (hclosed : ∀ w c, D (w ++ [c]) → D w)
    (hw : D w) (hne : w ≠ []) (hle : w.length ≤ u.length) : w ∈ behind ++ u :: q := by
  induction w using List.reverseRecOn with
  | nil => exact absurd rfl hne
  | append_singleton w c ih =>
    rw [List.length_append, List.length_singleton] at hle
    refine h.kids w c ?_ hw
    by_cases hnil : w = []
    · exact .inl hnil
    refine .inr ?_
    have hsorted := (List.pairwise_append.mp h.sorted).2.1
    rcases List.mem_append.mp (ih (hclosed w c hw) hnil (by omega)) with hmem | hmem
    · exact hmem
    · rcases List.mem_cons.mp hmem with rfl | hmem
      · omega
      · have := (List.pairwise_cons.mp hsorted).1 w hmem
        omega

/-- Once the queue is empty every word is behind the search. -/
theorem complete (h : Frontier D behind []) (hclosed : ∀ w c, D (w ++ [c]) → D w)
    (hw : D w) (hne : w ≠ []) : w ∈ behind := by
  induction w using List.reverseRecOn with
  | nil => exact absurd rfl hne
  | append_singleton w c ih =>
    have hparent : w = [] ∨ w ∈ behind := by
      by_cases hnil : w = []
      · exact .inl hnil
      · exact .inr (ih (hclosed w c hw) hnil)
    simpa using h.kids w c hparent hw

variable [DecidablePred D] {letters : List α}

theorem mem_kids (hall : ∀ c, c ∈ letters) : w ∈ LevelOrder.kids D letters u ↔
    D w ∧ ∃ c, w = u ++ [c] := by
  rw [LevelOrder.kids, List.mem_filter, List.mem_map, decide_eq_true_iff, and_comm]
  refine and_congr_right fun _ => ?_
  constructor
  · rintro ⟨c, _, rfl⟩
    exact ⟨c, rfl⟩
  · rintro ⟨c, rfl⟩
    exact ⟨c, hall c, rfl⟩

theorem nodup_kids (hletters : letters.Nodup) : (LevelOrder.kids D letters u).Nodup :=
  (hletters.map fun c d hcd => by simpa using hcd).filter _

theorem start (hletters : letters.Nodup) (hall : ∀ c, c ∈ letters) :
    Frontier D [] (LevelOrder.kids D letters []) where
  nodup := nodup_kids hletters
  mem := by
    intro w hw
    obtain ⟨hD, c, rfl⟩ := (mem_kids hall).mp hw
    exact ⟨hD, by simp⟩
  parent := by
    intro w c hw
    obtain ⟨_, d, hd⟩ := (mem_kids hall).mp hw
    exact .inl (List.append_inj' hd rfl).1
  kids := by
    intro w c hw hD
    rw [or_iff_left List.not_mem_nil] at hw
    subst hw
    exact (mem_kids hall).mpr ⟨hD, c, rfl⟩
  sorted := by
    rw [List.nil_append]
    refine List.pairwise_of_forall_mem_list fun x hx y hy => ?_
    obtain ⟨_, c, rfl⟩ := (mem_kids hall).mp hx
    obtain ⟨_, d, rfl⟩ := (mem_kids hall).mp hy
    exact Nat.le_refl _
  level := by
    intro x hx y hy
    obtain ⟨_, d, rfl⟩ := (mem_kids hall).mp hy
    simp

theorem step (h : Frontier D behind (u :: q)) (letters : List α) (hletters : letters.Nodup)
    (hall : ∀ c, c ∈ letters) :
    Frontier D (behind ++ [u]) (q ++ LevelOrder.kids D letters u) := by
  have hsplit : behind ++ [u] ++ (q ++ LevelOrder.kids D letters u) =
      (behind ++ u :: q) ++ LevelOrder.kids D letters u := by simp
  have hu : u ≠ [] := (h.mem u (by simp)).2
  have hnodup := List.nodup_append'.mp h.nodup
  have hnot : u ∉ behind := fun hmem => hnodup.2.2 hmem List.mem_cons_self
  have hlong : ∀ x ∈ q, u.length ≤ x.length ∧ x.length ≤ u.length + 1 := by
    intro x hx
    exact ⟨(List.pairwise_cons.mp (List.pairwise_append.mp h.sorted).2.1).1 x hx,
      h.level u List.mem_cons_self x (List.mem_cons_of_mem _ hx)⟩
  have hkids : ∀ x ∈ LevelOrder.kids D letters u, x.length = u.length + 1 := by
    intro x hx
    obtain ⟨_, c, rfl⟩ := (mem_kids hall).mp hx
    simp
  refine ⟨?_, ?_, ?_, ?_, ?_, ?_⟩
  · rw [hsplit, List.nodup_append']
    refine ⟨h.nodup, nodup_kids hletters, ?_⟩
    intro x hx hxkid
    obtain ⟨_, c, rfl⟩ := (mem_kids hall).mp hxkid
    rcases h.parent u c hx with hnil | hmem
    · exact hu hnil
    · exact hnot hmem
  · intro w hw
    rw [hsplit] at hw
    rcases List.mem_append.mp hw with hw | hw
    · exact h.mem w hw
    · obtain ⟨hD, c, rfl⟩ := (mem_kids hall).mp hw
      exact ⟨hD, by simp⟩
  · intro w c hw
    rw [hsplit] at hw
    rcases List.mem_append.mp hw with hw | hw
    · exact (h.parent w c hw).imp_right (List.mem_append_left _)
    · obtain ⟨_, d, hd⟩ := (mem_kids hall).mp hw
      rw [(List.append_inj' hd rfl).1]
      exact .inr List.mem_concat_self
  · intro w c hw hD
    rw [hsplit]
    by_cases hwu : w = u
    · exact List.mem_append_right _ ((mem_kids hall).mpr ⟨hD, c, by rw [hwu]⟩)
    · refine List.mem_append_left _ (h.kids w c ?_ hD)
      refine hw.imp_right fun hmem => ?_
      simpa [hwu] using hmem
  · rw [hsplit, List.pairwise_append]
    refine ⟨h.sorted, ?_, ?_⟩
    · refine List.pairwise_of_forall_mem_list fun x hx y hy => ?_
      exact Nat.le_of_eq ((hkids x hx).trans (hkids y hy).symm)
    · intro x hx y hy
      rw [hkids y hy]
      rcases List.mem_append.mp hx with hx | hx
      · have := (List.pairwise_append.mp h.sorted).2.2 x hx u List.mem_cons_self
        omega
      · rcases List.mem_cons.mp hx with rfl | hx
        · omega
        · exact (hlong x hx).2
  · intro x hx y hy
    have hxlong : u.length ≤ x.length := by
      rcases List.mem_append.mp hx with hx | hx
      · exact (hlong x hx).1
      · rw [hkids x hx]
        omega
    have hyshort : y.length ≤ u.length + 1 := by
      rcases List.mem_append.mp hy with hy | hy
      · exact (hlong y hy).2
      · exact Nat.le_of_eq (hkids y hy)
    omega

end Frontier
end LevelOrder
