import Mathlib.Data.Nat.Digits.Lemmas

namespace Numerals

variable {b acc max r d n : Nat} {ds es : List Nat}

/-- The number that digits stand for behind a number, the first digit the highest. -/
def horner (b acc : Nat) (ds : List Nat) : Nat := ds.foldl (fun r d => r * b + d) acc

@[simp] theorem horner_nil (b acc : Nat) : horner b acc [] = acc := rfl

@[simp] theorem horner_cons (b acc d : Nat) (ds : List Nat) :
    horner b acc (d :: ds) = horner b (acc * b + d) ds := rfl

theorem horner_concat (b acc d : Nat) (ds : List Nat) :
    horner b acc (ds ++ [d]) = horner b acc ds * b + d := by
  rw [horner, List.foldl_append]
  rfl

theorem horner_eq_ofDigits (b : Nat) (ds : List Nat) : horner b 0 ds = Nat.ofDigits b ds.reverse := by
  induction ds using List.reverseRecOn with
  | nil => rfl
  | append_singleton ds d ih =>
    rw [horner_concat, ih, List.reverse_append, List.reverse_singleton, List.singleton_append,
      Nat.ofDigits_cons, Nat.add_comm, Nat.mul_comm]

/-- More digits make no smaller number. -/
theorem le_horner (hb : 0 < b) (acc : Nat) (ds : List Nat) : acc ≤ horner b acc ds := by
  induction ds generalizing acc with
  | nil => exact le_rfl
  | cons d ds ih =>
    have hgrow : acc * 1 ≤ acc * b := Nat.mul_le_mul_left acc hb
    have hrest := ih (acc * b + d)
    rw [horner_cons]
    omega

theorem horner_digits (b n : Nat) : horner b 0 (Nat.digits b n).reverse = n := by
  rw [horner_eq_ofDigits, List.reverse_reverse, Nat.ofDigits_digits]

/-- Digits of one length that stand for the same number are the same. -/
theorem horner_inj (hb : 1 < b) (hlen : ds.length = es.length) (hds : ∀ d ∈ ds, d < b)
    (hes : ∀ d ∈ es, d < b) (heq : horner b 0 ds = horner b 0 es) : ds = es := by
  rw [horner_eq_ofDigits, horner_eq_ofDigits] at heq
  refine List.reverse_injective (Nat.ofDigits_inj_of_len_eq hb ?_ ?_ ?_ heq)
  · simpa using hlen
  · simpa using hds
  · simpa using hes

/-- The test for a step of the loop above a limit, by division. -/
theorem lt_div_iff (hb : 0 < b) (hd : d ≤ max) : (max - d) / b < r ↔ max < r * b + d := by
  rw [Nat.div_lt_iff_lt_mul hb]
  omega

end Numerals
