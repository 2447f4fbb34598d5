import Mathlib.Data.List.Perm.Basic

namespace Splice

/-- A list taken apart at an index; what the index operations do there follows. -/
theorem cut {l : List α} {i : Nat} (h : i ≤ l.length) : ∃ A B, l = A ++ B ∧ A.length = i :=
  ⟨l.take i, l.drop i, (List.take_append_drop i l).symm, List.length_take_of_le h⟩

theorem pick {l : List α} {i : Nat} (h : i < l.length) : ∃ A x B, l = A ++ x :: B ∧ A.length = i := by
  obtain ⟨A, B, rfl, hA⟩ := cut (Nat.le_of_lt h)
  cases B with
  | nil =>
    simp only [List.append_nil] at h
    omega
  | cons x B => exact ⟨A, x, B, rfl, hA⟩

variable {A B : List α} {x y : α} {i : Nat}

theorem getElem?_mid (h : A.length = i) : (A ++ x :: B)[i]? = some x := by
  subst h
  simp

theorem set_mid (h : A.length = i) : (A ++ x :: B).set i y = A ++ y :: B := by
  subst h
  simp

theorem insertIdx_mid (h : A.length = i) : (A ++ B).insertIdx i y = A ++ y :: B := by
  subst h
  induction A with
  | nil => simp
  | cons a A ih => simpa using ih

theorem eraseIdx_mid (h : A.length = i) : (A ++ x :: B).eraseIdx i = A ++ B := by
  subst h
  induction A with
  | nil => rfl
  | cons a A ih => simpa using ih

theorem drop_mid (h : A.length + 1 = i) : (A ++ x :: B).drop i = B := by
  rw [← List.singleton_append, ← List.append_assoc]
  exact List.drop_left' (by simpa using h)

/-- What an element loses and gains is what the list loses and gains. -/
theorem filterMap_set {l : List α} (f : α → Option β) (hi : l[i]? = some x) (y : α) :
    ((f x).toList ++ (l.set i y).filterMap f).Perm ((f y).toList ++ l.filterMap f) := by
  obtain ⟨A, z, B, rfl, hA⟩ := pick (List.getElem?_eq_some_iff.mp hi).1
  rw [getElem?_mid hA] at hi
  obtain rfl : z = x := Option.some.inj hi
  have hcons : ∀ w, (w :: B).filterMap f = (f w).toList ++ B.filterMap f := by
    intro w
    cases hw : f w <;> simp [hw]
  rw [set_mid hA, List.filterMap_append, List.filterMap_append, hcons y, hcons z]
  calc ((f z).toList ++ (A.filterMap f ++ ((f y).toList ++ B.filterMap f))).Perm
        (A.filterMap f ++ ((f z).toList ++ ((f y).toList ++ B.filterMap f))) :=
        List.perm_append_comm_assoc _ _ _
    List.Perm _ (A.filterMap f ++ ((f y).toList ++ ((f z).toList ++ B.filterMap f))) :=
        (List.perm_append_comm_assoc _ _ _).append_left _
    List.Perm _ ((f y).toList ++ (A.filterMap f ++ ((f z).toList ++ B.filterMap f))) :=
        List.perm_append_comm_assoc _ _ _

/-- What one element of a list contributes, and all that the others do. -/
theorem flatMap_set {l : List α} (f : α → List β) (hi : l[i]? = some x) :
    ∃ rest, (l.flatMap f).Perm (f x ++ rest) ∧ (∀ y, ((l.set i y).flatMap f).Perm (f y ++ rest)) ∧
      ∀ b ∈ rest, ∃ j y, j ≠ i ∧ l[j]? = some y ∧ b ∈ f y := by
  obtain ⟨A, z, B, rfl, hA⟩ := pick (List.getElem?_eq_some_iff.mp hi).1
  rw [getElem?_mid hA] at hi
  obtain rfl : z = x := Option.some.inj hi
  have hperm : ∀ y, ((A ++ y :: B).flatMap f).Perm (f y ++ (A.flatMap f ++ B.flatMap f)) := by
    intro y
    rw [List.flatMap_append, List.flatMap_cons]
    exact List.perm_append_comm_assoc _ _ _
  refine ⟨A.flatMap f ++ B.flatMap f, hperm z, ?_, ?_⟩
  · intro y
    rw [set_mid hA]
    exact hperm y
  · intro b hb
    rcases List.mem_append.mp hb with hb | hb
    · obtain ⟨y, hy, hb⟩ := List.mem_flatMap.mp hb
      obtain ⟨j, hj, rfl⟩ := List.mem_iff_getElem.mp hy
      exact ⟨j, _, by omega, by simp [List.getElem?_append_left hj], hb⟩
    · obtain ⟨y, hy, hb⟩ := List.mem_flatMap.mp hb
      obtain ⟨j, hj, rfl⟩ := List.mem_iff_getElem.mp hy
      refine ⟨A.length + (j + 1), _, by omega, ?_, hb⟩
      simp [List.getElem?_append_right]

end Splice

namespace Blocks

variable {κ α : Type} {b i n r : Nat} {f : κ → List α} {ks init A B : List κ} {k k' last : κ}

/-- A sequence in blocks: every block is full but the last one, which is not empty. -/
def Cut (b : Nat) (f : κ → List α) (ks : List κ) : Prop :=
  ∃ init last, ks = init ++ [last] ∧ (∀ k ∈ init, (f k).length = b) ∧
    0 < (f last).length ∧ (f last).length ≤ b

theorem length_full (hf : ∀ k ∈ ks, (f k).length = b) : (ks.flatMap f).length = ks.length * b := by
  induction ks with
  | nil => simp
  | cons k ks ih =>
    have hk := hf k List.mem_cons_self
    have hrest := ih (fun j hj => hf j (List.mem_cons_of_mem k hj))
    simp only [List.flatMap_cons, List.length_append, hk, hrest, List.length_cons, Nat.succ_mul]
    omega

theorem length_snoc (hf : ∀ k ∈ init, (f k).length = b) (last : κ) :
    ((init ++ [last]).flatMap f).length = init.length * b + (f last).length := by
  simp [length_full hf]

theorem Cut.length_le (hc : Cut b f ks) : (ks.flatMap f).length ≤ ks.length * b := by
  obtain ⟨init, last, rfl, hfull, _, hle⟩ := hc
  rw [length_snoc hfull, List.length_append, List.length_singleton, Nat.succ_mul]
  omega

theorem Cut.length_pos (hc : Cut b f ks) : 0 < (ks.flatMap f).length := by
  obtain ⟨init, last, rfl, hfull, hpos, _⟩ := hc
  rw [length_snoc hfull]
  omega

/-- An element and the block where it is. -/
theorem Cut.locate (hc : Cut b f ks) (hi : i < (ks.flatMap f).length) :
    ∃ A k B, ks = A ++ k :: B ∧ A.length = i / b ∧ (A.flatMap f).length = i / b * b ∧
      i % b < (f k).length := by
  obtain ⟨init, last, rfl, hfull, hpos, hle⟩ := hc
  rw [length_snoc hfull] at hi
  have hb : 0 < b := by omega
  have hdiv := Nat.div_add_mod' i b
  by_cases hin : i / b < init.length
  · obtain ⟨A, k, B, rfl, hA⟩ := Splice.pick hin
    have hAfull : ∀ j ∈ A, (f j).length = b := fun j hj => hfull j (by simp [hj])
    refine ⟨A, k, B ++ [last], by simp, hA, by rw [length_full hAfull, hA], ?_⟩
    rw [hfull k (by simp)]
    exact Nat.mod_lt i hb
  · have hlast : i / b = init.length := by
      have : i / b < init.length + 1 := by
        rw [Nat.div_lt_iff_lt_mul hb, Nat.succ_mul]
        omega
      omega
    refine ⟨init, last, [], rfl, hlast.symm, by rw [length_full hfull, hlast], ?_⟩
    rw [hlast] at hdiv
    omega

theorem getElem?_block (hn : (A.flatMap f).length = n) (hr : r < (f k).length) :
    ((A ++ k :: B).flatMap f)[n + r]? = (f k)[r]? := by
  rw [List.flatMap_append, List.flatMap_cons, List.getElem?_append_right (by omega),
    hn, Nat.add_sub_cancel_left, List.getElem?_append_left hr]

theorem set_block (hn : (A.flatMap f).length = n) (hr : r < (f k).length) {x : α}
    (hk : f k' = (f k).set r x) :
    ((A ++ k :: B).flatMap f).set (n + r) x = (A ++ k' :: B).flatMap f := by
  rw [List.flatMap_append, List.flatMap_cons, List.set_append_right _ _ (by omega), hn,
    Nat.add_sub_cancel_left, List.set_append_left _ _ hr, List.flatMap_append, List.flatMap_cons,
    hk]

/-- A block in place of another one of its length. -/
theorem Cut.replace (hc : Cut b f (A ++ k :: B)) (hlen : (f k').length = (f k).length) :
    Cut b f (A ++ k' :: B) := by
  obtain ⟨init, last, heq, hfull, hpos, hle⟩ := hc
  rcases List.eq_nil_or_concat B with rfl | ⟨B', z, rfl⟩
  · obtain ⟨rfl, hlast⟩ := List.append_inj' heq rfl
    obtain rfl : k = last := by simpa using hlast
    exact ⟨A, k', rfl, hfull, by omega, by omega⟩
  · have hcut : (A ++ k :: B') ++ [z] = init ++ [last] := by simpa using heq
    obtain ⟨rfl, hlast⟩ := List.append_inj' hcut rfl
    obtain rfl : z = last := by simpa using hlast
    refine ⟨A ++ k' :: B', z, by simp, ?_, hpos, hle⟩
    intro j hj
    have hk := hfull k (by simp)
    simp only [List.mem_append, List.mem_cons] at hj
    obtain hj | rfl | hj := hj
    · exact hfull j (by simp [hj])
    · omega
    · exact hfull j (by simp [hj])

end Blocks
