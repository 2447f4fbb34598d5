import Mathlib.Algebra.Group.Nat.Defs
import Mathlib.Data.Nat.Log

/-! The nodes of a binary tree numbered level by level, from a root at one, and the halves of a
range that they stand for. -/

namespace Halving

variable {i l m node r s : Nat}

/-- A node is in the subtree of another. -/
def Below (node i : Nat) : Prop := ∃ k, i / 2 ^ k = node

theorem below_self (node : Nat) : Below node node := ⟨0, by simp⟩

theorem below_left (h : Below (node * 2) i) : Below node i := by
  obtain ⟨k, hk⟩ := h
  refine ⟨k + 1, ?_⟩
  rw [Nat.pow_succ, ← Nat.div_div_eq_div_mul, hk]
  omega

theorem below_right (h : Below (node * 2 + 1) i) : Below node i := by
  obtain ⟨k, hk⟩ := h
  refine ⟨k + 1, ?_⟩
  rw [Nat.pow_succ, ← Nat.div_div_eq_div_mul, hk]
  omega

theorem Below.le (h : Below node i) : node ≤ i := by
  obtain ⟨k, rfl⟩ := h
  exact Nat.div_le_self i _

theorem not_below_child {child : Nat} (hnode : 0 < node) (hchild : node * 2 ≤ child) :
    ¬ Below child node := by
  intro h
  have := h.le
  omega

/-- Siblings have no node in common: their ancestors at one distance are apart, and at another
distance smaller. -/
theorem below_apart (hnode : 0 < node) (hleft : Below (node * 2) i) :
    ¬ Below (node * 2 + 1) i := by
  rintro ⟨k', hk'⟩
  obtain ⟨k, hk⟩ := hleft
  rcases Nat.lt_trichotomy k k' with hlt | rfl | hlt
  · obtain ⟨d, rfl⟩ := Nat.exists_eq_add_of_lt hlt
    have hsmall : node * 2 / 2 ^ (d + 1) = node * 2 + 1 := by
      rw [← hk', ← hk, Nat.div_div_eq_div_mul, ← Nat.pow_add, Nat.add_assoc]
    have := Nat.div_le_self (node * 2) (2 ^ (d + 1))
    omega
  · omega
  · obtain ⟨d, rfl⟩ := Nat.exists_eq_add_of_lt hlt
    have hsmall : (node * 2 + 1) / 2 ^ (d + 1) = node * 2 := by
      rw [← hk', Nat.div_div_eq_div_mul, ← Nat.pow_add, ← Nat.add_assoc, hk]
    have hhalf : (node * 2 + 1) / 2 ^ (d + 1) ≤ (node * 2 + 1) / 2 := by
      refine Nat.div_le_div_left ?_ Nat.two_pos
      exact Nat.le_self_pow (Nat.succ_ne_zero d) 2
    omega

/-- There is room for the nodes of a range of a size, with their root at a given one. -/
def Room (m node s : Nat) : Prop := (node + 1) * 2 ^ Nat.clog 2 s ≤ m

theorem Room.lt (h : Room m node s) : node < m := by
  have hpow : 0 < 2 ^ Nat.clog 2 s := Nat.two_pow_pos _
  have hle : node + 1 ≤ (node + 1) * 2 ^ Nat.clog 2 s := Nat.le_mul_of_pos_right _ hpow
  exact hle.trans h

theorem Room.mono {s' : Nat} (h : Room m node s) (hs : s' ≤ s) : Room m node s' :=
  (Nat.mul_le_mul_left _ (Nat.pow_le_pow_right Nat.two_pos (Nat.clog_mono_right 2 hs))).trans h

/-- Both halves of a range have room, the second being the larger one. -/
theorem Room.right (h : Room m node s) (hs : 2 ≤ s) : Room m (node * 2 + 1) (s - s / 2) := by
  have hlog : Nat.clog 2 s = Nat.clog 2 ((s + 1) / 2) + 1 := Nat.clog_of_two_le Nat.one_lt_two hs
  have hhalf : s - s / 2 = (s + 1) / 2 := by omega
  have hdouble : (node * 2 + 1 + 1) * 2 ^ Nat.clog 2 ((s + 1) / 2) =
      (node + 1) * 2 ^ Nat.clog 2 s := by
    have hroot : node * 2 + 1 + 1 = (node + 1) * 2 := by omega
    rw [hlog, Nat.pow_succ', hroot, Nat.mul_assoc]
  unfold Room
  rw [hhalf, hdouble]
  exact h

theorem Room.left (h : Room m node s) (hs : 2 ≤ s) : Room m (node * 2) (s / 2) := by
  have hright : Room m (node * 2 + 1) (s / 2) := (h.right hs).mono (by omega)
  exact (Nat.mul_le_mul_right _ (Nat.le_succ _)).trans hright

/-- Four times the size of a range is room for its nodes. -/
theorem room_root (hs : 0 < s) : Room (4 * s) 1 s := by
  have hpow : 2 ^ Nat.clog 2 s ≤ 2 * s := by
    rcases Nat.eq_or_lt_of_le (Nat.succ_le_of_lt hs) with rfl | hmany
    · simp
    · have hlt := Nat.pow_pred_clog_lt_self (b := 2) Nat.one_lt_two hmany
      have hpos := Nat.clog_pos Nat.one_lt_two hmany
      have hsucc : 2 ^ Nat.clog 2 s = 2 * 2 ^ (Nat.clog 2 s).pred := by
        rw [← Nat.pow_succ', Nat.succ_pred_eq_of_pos hpos]
      omega
  unfold Room
  omega

end Halving
