import Cppforge.Lib.Numerals
import Cppforge.Toolkit.RadixToolkit

namespace Cppforge.Toolkit
open Bytes Numerals

section Types
variable {T : IntType} {v : Int} {m : Nat}

theorem Width.eight_le (w : Width) : 8 ≤ w.bits := by
  cases w <;> simp [Width.bits]

def IntType.InRange (T : IntType) (v : Int) : Prop := T.min ≤ v ∧ v ≤ T.max

/-- The numbers of half the range, once for both signs. -/
theorem IntType.two_pow_bits (T : IntType) :
    2 ^ T.width.bits = 2 * 2 ^ (T.width.bits - 1) ∧ 128 ≤ 2 ^ (T.width.bits - 1) := by
  have h8 := T.width.eight_le
  constructor
  · rw [← Nat.pow_succ']
    congr 1
    omega
  · exact Nat.pow_le_pow_right (n := 2) (by omega) (by omega : 7 ≤ T.width.bits - 1)

theorem IntType.inRange_iff (T : IntType) (v : Int) : T.InRange v ↔
    if T.signed then -(2 ^ (T.width.bits - 1) : Nat) ≤ v ∧ v < (2 ^ (T.width.bits - 1) : Nat)
    else 0 ≤ v ∧ v < (2 ^ T.width.bits : Nat) := by
  cases hs : T.signed with
  | false =>
    simp only [InRange, min, max, hs, Bool.false_eq_true, if_false]
    push_cast
    omega
  | true =>
    simp only [InRange, min, max, hs, if_true]
    push_cast
    omega

theorem IntType.toInt_inRange (T : IntType) (value : T.Bits) : T.InRange (T.toInt value) := by
  rw [inRange_iff]
  cases hs : T.signed with
  | false =>
    have hlt := value.isLt
    simp only [toInt, hs, Bool.false_eq_true, if_false]
    omega
  | true =>
    have hhalf := T.two_pow_bits.1
    have hlow := value.le_two_mul_toInt
    have hhigh := value.two_mul_toInt_lt
    have hcast : ((2 ^ T.width.bits : Nat) : Int) = 2 ^ T.width.bits := by norm_cast
    simp only [toInt, hs, if_true]
    omega

theorem IntType.min_le_max (T : IntType) : T.min ≤ T.max := by
  have h := T.toInt_inRange 0
  exact h.1.trans h.2

theorem IntType.toInt_ofInt (h : T.InRange v) : T.toInt (BitVec.ofInt _ v) = v := by
  rw [inRange_iff] at h
  have hhalf := T.two_pow_bits
  cases hs : T.signed with
  | false =>
    simp only [hs, Bool.false_eq_true, if_false] at h
    simp only [toInt, hs, Bool.false_eq_true, if_false, BitVec.toNat_ofInt]
    rw [Int.emod_eq_of_lt h.1 h.2]
    omega
  | true =>
    simp only [hs, if_true] at h
    simp only [toInt, hs, if_true, BitVec.toInt_ofInt]
    rw [Int.bmod_eq_of_le] <;> omega

theorem IntType.toInt_inj {value value' : T.Bits} (h : T.toInt value = T.toInt value') :
    value = value' := by
  cases hs : T.signed with
  | false =>
    simp only [toInt, hs, Bool.false_eq_true, if_false] at h
    exact BitVec.eq_of_toNat_eq (by omega)
  | true =>
    simp only [toInt, hs, if_true] at h
    exact BitVec.eq_of_toInt_eq h

theorem IntType.toInt_eq_zero_iff (T : IntType) (value : T.Bits) :
    T.toInt value = 0 ↔ value = 0 := by
  have hzero : T.toInt 0 = 0 := by
    rw [toInt]
    split <;> simp
  exact ⟨fun h => toInt_inj (h.trans hzero.symm), fun h => h ▸ hzero⟩

theorem IntType.ofInt_toInt (T : IntType) (value : T.Bits) : BitVec.ofInt _ (T.toInt value) = value :=
  toInt_inj (toInt_ofInt (T.toInt_inRange value))

end Types
namespace RadixToolkit

section Digits
variable {b d d' : Nat} {c : UInt8} {s t rest : Text} {ds es : List Nat}

/-- The digits of the default charset. -/
def upper : Text := ascii "0123456789ABCDEFGHIJKLMNOPQRSTUVWXYZ"

def lower : Text := ascii "0123456789abcdefghijklmnopqrstuvwxyz"

/-- A character is the digit of a number. -/
def DigitOf (c : UInt8) (d : Nat) : Prop := upper[d]? = some c ∨ lower[d]? = some c

theorem upper_getElem? : ∀ d < 36,
    upper[d]? = some (UInt8.ofNat (if d < 10 then 48 + d else 55 + d)) := by
  decide

theorem lower_getElem? : ∀ d < 36,
    lower[d]? = some (UInt8.ofNat (if d < 10 then 48 + d else 87 + d)) := by
  decide

theorem length_upper : upper.length = 36 := rfl

theorem length_lower : lower.length = 36 := rfl

theorem digitOf_iff : DigitOf c d ↔ d < 10 ∧ c.toNat = 48 + d ∨
    10 ≤ d ∧ d < 36 ∧ (c.toNat = 55 + d ∨ c.toNat = 87 + d) := by
  have hof : ∀ n < 256, (UInt8.ofNat n = c ↔ c.toNat = n) := by
    intro n hn
    rw [← UInt8.toNat_inj, UInt8.toNat_ofNat_of_lt' hn, eq_comm]
  by_cases hd : d < 36
  · rw [DigitOf, upper_getElem? d hd, lower_getElem? d hd, Option.some.injEq, Option.some.injEq]
    by_cases h10 : d < 10
    · rw [if_pos h10, if_pos h10, hof _ (by omega)]
      omega
    · rw [if_neg h10, if_neg h10, hof _ (by omega), hof _ (by omega)]
      omega
  · have hupper : upper[d]? = none := List.getElem?_eq_none (by rw [length_upper]; omega)
    have hlower : lower[d]? = none := List.getElem?_eq_none (by rw [length_lower]; omega)
    simp only [DigitOf, hupper, hlower, reduceCtorEq, or_self, false_iff]
    omega

theorem charToDigit_eq_iff : charToDigit c = (d : Int) ↔ DigitOf c d := by
  rw [digitOf_iff, charToDigit]
  simp only [UInt8.le_iff_toNat_le, UInt8.reduceToNat]
  split
  · omega
  · split
    · omega
    · split <;> omega

/-- The test of the code for a character that is no digit of the base. -/
theorem not_digit_iff : charToDigit c < 0 ∨ (b : Int) ≤ charToDigit c ↔ ∀ d < b, ¬ DigitOf c d := by
  simp only [← charToDigit_eq_iff]
  constructor
  · intro h d hd heq
    omega
  · intro h
    by_contra hno
    exact h (charToDigit c).toNat (by omega) (by omega)

/-- A text is made of these digits. -/
def Reads (b : Nat) : Text → List Nat → Prop := List.Forall₂ fun c d => DigitOf c d ∧ d < b

/-- The digits before the first character that is none, and the text from there on. -/
def leading (b : Nat) : Text → List Nat × Text
  | [] => ([], [])
  | c :: rest =>
    if charToDigit c < 0 ∨ (b : Int) ≤ charToDigit c then ([], c :: rest)
    else ((charToDigit c).toNat :: (leading b rest).1, (leading b rest).2)

theorem leading_cons_digit (h : DigitOf c d) (hd : d < b) :
    leading b (c :: rest) = (d :: (leading b rest).1, (leading b rest).2) := by
  have hc := charToDigit_eq_iff.mpr h
  rw [leading, hc, if_neg (by omega), Int.toNat_natCast]

theorem leading_append (h : Reads b s ds) :
    leading b (s ++ t) = (ds ++ (leading b t).1, (leading b t).2) := by
  induction h with
  | nil => rfl
  | cons hc _ ih =>
    rw [List.cons_append, leading_cons_digit hc.1 hc.2, ih]
    rfl

/-- The digits read are a part of the text, and what is left starts with no digit. -/
theorem leading_spec (b : Nat) (s : Text) : ∃ t, Reads b t (leading b s).1 ∧
    s = t ++ (leading b s).2 ∧ ∀ c ∈ (leading b s).2.head?, ∀ d < b, ¬ DigitOf c d := by
  induction s with
  | nil => exact ⟨[], .nil, rfl, by simp [leading]⟩
  | cons c rest ih =>
    rw [leading]
    split
    · rename_i hc
      refine ⟨[], .nil, rfl, ?_⟩
      intro c' hc'
      obtain rfl : c = c' := by simpa using hc'
      exact not_digit_iff.mp hc
    · rename_i hc
      obtain ⟨t, hreads, hsplit, hhead⟩ := ih
      refine ⟨c :: t, .cons ⟨charToDigit_eq_iff.mp (by omega), by omega⟩ hreads, ?_, hhead⟩
      rw [List.cons_append, ← hsplit]

theorem reads_iff : Reads b s ds ↔ leading b s = (ds, []) := by
  constructor
  · intro h
    have happ := leading_append (t := []) h
    rwa [List.append_nil, leading, List.append_nil] at happ
  · intro h
    obtain ⟨t, hreads, hsplit, -⟩ := leading_spec b s
    rw [h] at hreads hsplit
    rw [hsplit, List.append_nil]
    exact hreads

theorem Reads.length_eq (h : Reads b s ds) : s.length = ds.length := List.Forall₂.length_eq h

theorem Reads.lt (h : Reads b s ds) : ∀ d ∈ ds, d < b := by
  induction h with
  | nil => simp
  | cons hc _ ih => simpa [hc.2] using ih

end Digits

section Loop
variable {T : IntType} {b : Nat} {r : T.Bits} {c : UInt8} {rest : Text}

theorem toNat_ofInt_small {n : Nat} (hn : n ≤ 36) :
    (BitVec.ofInt T.width.bits n).toNat = n := by
  have hhalf := T.two_pow_bits
  rw [BitVec.ofInt_natCast, BitVec.toNat_ofNat, Nat.mod_eq_of_lt (by omega)]

/-- What the loop makes of a text: it fails at the first digit above the limit or at the first
character that is no digit, whichever comes first. -/
theorem magnitude_eq (h2 : 2 ≤ b) (h36 : b ≤ 36) (r : T.Bits) (s : Text) :
    magnitude T b r s =
      if 2 ^ T.width.bits ≤ horner b r.toNat (leading b s).1 then
        .error (.out_of_range (ascii "Value exceeds type limits"))
      else
        match (leading b s).2 with
        | [] => .ok (BitVec.ofNat _ (horner b r.toNat (leading b s).1))
        | c :: _ => .error (.invalid_argument (ascii "Invalid character '" ++ [c] ++
            ascii "' for base " ++ ascii (toString (b : Int)))) := by
  induction s generalizing r with
  | nil => simp [magnitude, leading, r.isLt]
  | cons c rest ih =>
    rw [magnitude, leading]
    by_cases hc : charToDigit c < 0 ∨ (b : Int) ≤ charToDigit c
    · simp [hc, r.isLt]
    · obtain ⟨d, hd⟩ : ∃ d : Nat, charToDigit c = d := ⟨(charToDigit c).toNat, by omega⟩
      have hdb : d < b := by omega
      have hhalf := T.two_pow_bits
      have hlimit : ((BitVec.allOnes T.width.bits - BitVec.ofInt _ (d : Int)) /
          BitVec.ofInt _ (b : Int) < r) ↔ 2 ^ T.width.bits ≤ r.toNat * b + d := by
        have hle : d ≤ 2 ^ T.width.bits - 1 := by omega
        rw [BitVec.lt_def, BitVec.toNat_udiv, toNat_ofInt_small h36,
          BitVec.toNat_sub_of_le (by
            rw [BitVec.le_def, toNat_ofInt_small (by omega), BitVec.toNat_allOnes]
            exact hle),
          BitVec.toNat_allOnes, toNat_ofInt_small (by omega), lt_div_iff (by omega) hle]
        omega
      have hdigit : ¬ ((d : Int) < 0 ∨ (b : Int) ≤ d) := by omega
      simp only [hd, hdigit, if_false, gt_iff_lt, hlimit, Int.toNat_natCast, horner_cons]
      split
      · rename_i hover
        have hgrow := le_horner (by omega : 0 < b) (r.toNat * b + d) (leading b rest).1
        rw [if_pos (hover.trans hgrow)]
      · rename_i hfits
        have hnext : (r * BitVec.ofInt _ (b : Int) + BitVec.ofInt _ (d : Int)).toNat
            = r.toNat * b + d := by
          rw [BitVec.toNat_add, BitVec.toNat_mul, toNat_ofInt_small h36,
            toNat_ofInt_small (by omega), Nat.mod_add_mod, Nat.mod_eq_of_lt (by omega)]
        rw [ih, hnext]

end Loop

section Signs
variable {T : IntType} {b m : Nat} {s body : Text} {negative : Bool} {v : Int} {ds : List Nat}
  {neg : Negation}

/-- A text is a sign that the type allows, or none, and the rest. -/
inductive Signed (T : IntType) : Text → Bool → Text → Prop where
  | bare (body : Text) : Signed T body false body
  | plus (h : T.signed) (body : Text) : Signed T (43 :: body) false body
  | minus (h : T.signed) (body : Text) : Signed T (45 :: body) true body

def withSign (negative : Bool) (m : Nat) : Int := if negative then -m else m

theorem withSign_inj {n : Nat} (h : withSign negative m = withSign negative n) : m = n := by
  rw [withSign, withSign] at h
  split at h <;> omega

/-- A text is an optional sign and one or more digits of the base for this number. -/
def Denotes (T : IntType) (b : Nat) (s : Text) (v : Int) : Prop :=
  ∃ negative body ds, Signed T s negative body ∧ body ≠ [] ∧ Reads b body ds ∧
    v = withSign negative (horner b 0 ds)

theorem not_digitOf_sign {d : Nat} : ¬ DigitOf 43 d ∧ ¬ DigitOf 45 d := by
  simp only [digitOf_iff, UInt8.reduceToNat]
  omega

theorem readSign_cases (T : IntType) (s : Text) :
    ((s = [] ∨ T.signed ∧ s = [45]) ∧ ∃ what, readSign T s = .error (.invalid_argument what)) ∨
      ∃ negative body, readSign T s = .ok (negative, body) ∧ Signed T s negative body ∧
        (negative → T.signed) ∧ (body = [] → T.signed ∧ s = [43]) := by
  cases s with
  | nil => exact .inl ⟨.inl rfl, _, rfl⟩
  | cons c rest =>
    rw [readSign]
    split
    · rename_i hminus
      obtain ⟨hs, rfl⟩ := hminus
      cases rest with
      | nil => exact .inl ⟨.inr ⟨hs, rfl⟩, _, rfl⟩
      | cons c' rest => exact .inr ⟨true, c' :: rest, rfl, .minus hs _, fun _ => hs, by simp⟩
    · split
      · rename_i hplus
        obtain ⟨hs, rfl⟩ := hplus
        exact .inr ⟨false, rest, rfl, .plus hs _, by simp, fun hnil => ⟨hs, by rw [hnil]⟩⟩
      · exact .inr ⟨false, c :: rest, rfl, .bare _, by simp, by simp⟩

theorem Signed.readSign_eq {c : UInt8} {rest : Text} {d : Nat}
    (h : Signed T s negative (c :: rest)) (hc : DigitOf c d) :
    readSign T s = .ok (negative, c :: rest) := by
  cases h with
  | bare =>
    rw [readSign, if_neg, if_neg]
    · intro hplus
      exact not_digitOf_sign.1 (hplus.2 ▸ hc)
    · intro hminus
      exact not_digitOf_sign.2 (hminus.2 ▸ hc)
  | plus hs =>
    rw [readSign, if_neg (by simp), if_pos ⟨hs, rfl⟩]
  | minus hs =>
    rw [readSign, if_pos ⟨hs, rfl⟩, if_neg (by simp)]

theorem Signed.readSign_of_reads (h : Signed T s negative body) (hne : body ≠ [])
    (hreads : Reads b body ds) : readSign T s = .ok (negative, body) := by
  cases hreads with
  | nil => exact absurd rfl hne
  | cons hc _ => exact h.readSign_eq hc.1

theorem denotes_iff (hread : readSign T s = .ok (negative, body)) (hne : body ≠ [])
    (hsigned : Signed T s negative body) : Denotes T b s v ↔
      (leading b body).2 = [] ∧ v = withSign negative (horner b 0 (leading b body).1) := by
  constructor
  · intro h
    obtain ⟨negative', body', ds, hsigned', hne', hreads, rfl⟩ := h
    have hsame := hsigned'.readSign_of_reads hne' hreads
    rw [hread, Except.ok.injEq, Prod.mk.injEq] at hsame
    obtain ⟨rfl, rfl⟩ := hsame
    rw [reads_iff.mp hreads]
    exact ⟨rfl, rfl⟩
  · intro h
    exact ⟨negative, body, _, hsigned, hne, reads_iff.mpr (Prod.ext rfl h.1), h.2⟩

theorem Denotes.unique {v' : Int} (h : Denotes T b s v) (h' : Denotes T b s v') : v = v' := by
  obtain ⟨negative, body, ds, hsigned, hne, hreads, rfl⟩ := h
  have hread := hsigned.readSign_of_reads hne hreads
  rw [denotes_iff hread hne hsigned, reads_iff.mp hreads] at h'
  exact h'.2.symm

theorem not_denotes_of_error {e : Exception} (hread : readSign T s = .error e) :
    ¬ Denotes T b s v := by
  intro h
  obtain ⟨negative, body, ds, hsigned, hne, hreads, -⟩ := h
  rw [hsigned.readSign_of_reads hne hreads] at hread
  exact nomatch hread

/-- The code negates the magnitude of the minimum of a type from `int` on. -/
def NegatesMin (T : IntType) (v : Int) : Prop := T.signed ∧ 32 ≤ T.width.bits ∧ v = T.min

instance (T : IntType) (v : Int) : Decidable (NegatesMin T v) :=
  inferInstanceAs (Decidable (_ ∧ _ ∧ _))

theorem signedValue_unsigned (h : T.signed = false) (result : T.Bits) :
    signedValue neg T negative result = some (.ok result) := by
  exact if_pos (by rw [h]; decide)

theorem signedValue_nonneg (h : T.signed = true) (result : T.Bits) :
    signedValue neg T false result = if BitVec.intMax _ < result then
      some (.error (.out_of_range (ascii "Value exceeds type maximum"))) else some (.ok result) := by
  have htest : ¬¬T.signed = true := not_not_intro h
  exact (if_neg htest).trans (if_neg Bool.false_ne_true)

theorem signedValue_negative (h : T.signed = true) (result : T.Bits) :
    signedValue neg T true result = if BitVec.intMin _ < result then
      some (.error (.out_of_range (ascii "Value below type minimum")))
    else
      match neg with
      | .wraps => some (.ok (-result))
      | .checked =>
        if result = BitVec.intMin _ ∧ 32 ≤ T.width.bits then none else some (.ok (-result)) := by
  have htest : ¬¬T.signed = true := not_not_intro h
  exact (if_neg htest).trans (if_pos rfl)

theorem signedValue_out (neg : Negation) (hneg : negative → T.signed) (hm : m < 2 ^ T.width.bits)
    (h : ¬ T.InRange (withSign negative m)) :
    ∃ what, signedValue neg T negative (BitVec.ofNat _ m) = some (.error (.out_of_range what)) := by
  have hhalf := T.two_pow_bits
  have hpos := T.width.eight_le
  rw [IntType.inRange_iff] at h
  cases hs : T.signed with
  | false =>
    obtain rfl : negative = false := by simpa [hs] using hneg
    simp only [hs, withSign, Bool.false_eq_true, if_false] at h
    omega
  | true =>
    have hnat : (BitVec.ofNat T.width.bits m).toNat = m := by
      rw [BitVec.toNat_ofNat, Nat.mod_eq_of_lt hm]
    simp only [hs, if_true] at h
    cases negative with
    | false =>
      simp only [withSign, Bool.false_eq_true, if_false] at h
      refine ⟨ascii "Value exceeds type maximum", ?_⟩
      rw [signedValue_nonneg hs, if_pos]
      rw [BitVec.lt_def, hnat, BitVec.toNat_intMax]
      omega
    | true =>
      simp only [withSign, if_true] at h
      refine ⟨ascii "Value below type minimum", ?_⟩
      rw [signedValue_negative hs, if_pos]
      rw [BitVec.lt_def, hnat, BitVec.toNat_intMin_of_pos (by omega)]
      omega

/-- A number in range comes out, unless the code may not negate it. -/
theorem signedValue_in (neg : Negation) (hneg : negative → T.signed) (hm : m < 2 ^ T.width.bits)
    (h : T.InRange (withSign negative m)) :
    signedValue neg T negative (BitVec.ofNat _ m) =
      if neg = .checked ∧ NegatesMin T (withSign negative m) then none
      else some (.ok (BitVec.ofInt _ (withSign negative m))) := by
  have hhalf := T.two_pow_bits
  have hpos := T.width.eight_le
  rw [IntType.inRange_iff] at h
  cases hs : T.signed with
  | false =>
    obtain rfl : negative = false := by simpa [hs] using hneg
    rw [signedValue_unsigned hs, if_neg (by simp [NegatesMin, hs]), withSign,
      if_neg (by decide), BitVec.ofInt_natCast]
  | true =>
    have hnat : (BitVec.ofNat T.width.bits m).toNat = m := by
      rw [BitVec.toNat_ofNat, Nat.mod_eq_of_lt hm]
    simp only [hs, if_true] at h
    cases negative with
    | false =>
      simp only [withSign, Bool.false_eq_true, if_false] at h ⊢
      have hmin : ¬ NegatesMin T m := by
        intro hmin
        have hlow := hmin.2.2
        rw [IntType.min, if_pos hs] at hlow
        have : (0 : Int) < 2 ^ (T.width.bits - 1) := by positivity
        omega
      rw [signedValue_nonneg hs, if_neg, if_neg (fun hboth => hmin hboth.2), BitVec.ofInt_natCast]
      rw [BitVec.lt_def, hnat, BitVec.toNat_intMax]
      omega
    | true =>
      simp only [withSign, if_true] at h ⊢
      have hle : ¬ BitVec.intMin T.width.bits < BitVec.ofNat _ m := by
        rw [BitVec.lt_def, hnat, BitVec.toNat_intMin_of_pos (by omega)]
        omega
      have hmin : BitVec.ofNat T.width.bits m = BitVec.intMin _ ↔ -(m : Int) = T.min := by
        rw [← BitVec.toNat_inj, hnat, BitVec.toNat_intMin_of_pos (by omega), IntType.min, if_pos hs,
          Int.neg_inj]
        norm_cast
      rw [signedValue_negative hs, if_neg hle, BitVec.ofInt_neg, BitVec.ofInt_natCast]
      cases neg with
      | wraps => rfl
      | checked => simp only [NegatesMin, hs, hmin, true_and, and_comm]

end Signs

section Parsing
variable {T : IntType} {b : Nat} {s body : Text} {negative : Bool} {neg : Negation}

theorem not_inRange_of_ge {m : Nat} (h : 2 ^ T.width.bits ≤ m) :
    ¬ T.InRange (withSign negative m) := by
  have hhalf := T.two_pow_bits
  rw [IntType.inRange_iff, withSign]
  split <;> split <;> omega

/-- What comes out of a text with digits behind its sign, by the digits before the first other
character. -/
theorem convertFromString_digits (neg : Negation) (h2 : 2 ≤ b) (h36 : b ≤ 36)
    (hread : readSign T s = .ok (negative, body)) :
    (2 ^ T.width.bits ≤ horner b 0 (leading b body).1 →
      ∃ what, convertFromString neg T s b = some (.error (.out_of_range what))) ∧
    (horner b 0 (leading b body).1 < 2 ^ T.width.bits →
      ((leading b body).2 ≠ [] →
        ∃ what, convertFromString neg T s b = some (.error (.invalid_argument what))) ∧
      ((leading b body).2 = [] → convertFromString neg T s b =
        signedValue neg T negative (BitVec.ofNat _ (horner b 0 (leading b body).1)))) := by
  have hbase : ¬ ((b : Int) < 2 ∨ (36 : Int) < b) := by omega
  have hzero : (0 : T.Bits).toNat = 0 := BitVec.toNat_zero
  rw [convertFromString, if_neg hbase]
  simp only [hread, magnitude_eq h2 h36, hzero]
  constructor
  · intro hover
    rw [if_pos hover]
    exact ⟨_, rfl⟩
  · intro hfits
    rw [if_neg (Nat.not_le.mpr hfits)]
    constructor
    · intro hrest
      cases hcase : (leading b body).2 with
      | nil => exact absurd hcase hrest
      | cons c rest => exact ⟨_, rfl⟩
    · intro hrest
      rw [hrest]

theorem convertFromString_eq_ok_iff (neg : Negation) (h2 : 2 ≤ b) (h36 : b ≤ 36)
    (hread : readSign T s = .ok (negative, body)) (hneg : negative → T.signed) (value : T.Bits) :
    convertFromString neg T s b = some (.ok value) ↔ (leading b body).2 = [] ∧
      withSign negative (horner b 0 (leading b body).1) = T.toInt value ∧
        ¬ (neg = .checked ∧ NegatesMin T (T.toInt value)) := by
  obtain ⟨hover, hdigits⟩ := convertFromString_digits neg h2 h36 hread
  rcases Nat.lt_or_ge (horner b 0 (leading b body).1) (2 ^ T.width.bits) with hsmall | hge
  · obtain ⟨hinvalid, hvalue⟩ := hdigits hsmall
    by_cases hrest : (leading b body).2 = []
    · rw [hvalue hrest]
      by_cases hin : T.InRange (withSign negative (horner b 0 (leading b body).1))
      · rw [signedValue_in neg hneg hsmall hin]
        have hbits : BitVec.ofInt _ (withSign negative (horner b 0 (leading b body).1)) = value ↔
            withSign negative (horner b 0 (leading b body).1) = T.toInt value := by
          constructor
          · intro heq
            rw [← heq, IntType.toInt_ofInt hin]
          · intro heq
            rw [heq, T.ofInt_toInt]
        split
        · rename_i hmin
          simp only [reduceCtorEq, false_iff]
          intro hall
          exact hall.2.2 (hall.2.1 ▸ hmin)
        · rename_i hmin
          rw [Option.some.injEq, Except.ok.injEq, hbits]
          exact ⟨fun heq => ⟨hrest, heq, heq ▸ hmin⟩, fun hall => hall.2.1⟩
      · obtain ⟨what, hbad⟩ := signedValue_out neg hneg hsmall hin
        simp only [hbad, Option.some.injEq, reduceCtorEq, false_iff]
        exact fun hall => hin (hall.2.1 ▸ T.toInt_inRange value)
    · obtain ⟨what, hbad⟩ := hinvalid hrest
      simp only [hbad, Option.some.injEq, reduceCtorEq, false_iff]
      exact fun hall => hrest hall.1
  · obtain ⟨what, hbad⟩ := hover hge
    simp only [hbad, Option.some.injEq, reduceCtorEq, false_iff]
    exact fun hall => not_inRange_of_ge hge (hall.2.1 ▸ T.toInt_inRange value)

/-- A plus sign with nothing behind it. -/
def LonePlus (T : IntType) (s : Text) : Prop := T.signed ∧ s = [43]

/-- Digits above the limit of the unsigned type stand before a character that is none. -/
def LateInvalid (T : IntType) (b : Nat) (s : Text) : Prop :=
  ∃ negative digits c rest ds, Signed T s negative (digits ++ c :: rest) ∧ Reads b digits ds ∧
    2 ^ T.width.bits ≤ horner b 0 ds ∧ ∀ d < b, ¬ DigitOf c d

/-- The text stands for the minimum, which the code negates. -/
def DenotesMin (T : IntType) (b : Nat) (s : Text) : Prop :=
  ∃ v, Denotes T b s v ∧ NegatesMin T v

/-- The value, the error or the absence of undefined behaviour that the form of the text asks
for. -/
structure ParsesExactly (T : IntType) (b : Nat) (s : Text) : Prop where
  value : ∀ value, convertFromString .checked T s b = some (.ok value) ↔
    Denotes T b s (T.toInt value)
  out_of_range : (∃ what, convertFromString .checked T s b = some (.error (.out_of_range what))) ↔
    ∃ v, Denotes T b s v ∧ ¬ T.InRange v
  invalid_argument :
    (∃ what, convertFromString .checked T s b = some (.error (.invalid_argument what))) ↔
      ¬ ∃ v, Denotes T b s v
  no_overflow : convertFromString .checked T s b ≠ none

theorem lateInvalid_iff (hread : readSign T s = .ok (negative, body))
    (hsigned : Signed T s negative body) : LateInvalid T b s ↔
      2 ^ T.width.bits ≤ horner b 0 (leading b body).1 ∧ (leading b body).2 ≠ [] := by
  constructor
  · intro h
    obtain ⟨negative', digits, c, rest, ds, hsigned', hreads, hover, hc⟩ := h
    cases hreads with
    | nil =>
      have hpos : 0 < 2 ^ T.width.bits := Nat.two_pow_pos _
      exact absurd hover (Nat.not_le.mpr hpos)
    | cons hd hds =>
      have hsame := hsigned'.readSign_eq hd.1
      rw [hread, Except.ok.injEq, Prod.mk.injEq] at hsame
      obtain ⟨rfl, rfl⟩ := hsame
      have hstop : leading b (c :: rest) = ([], c :: rest) := by
        rw [leading, if_pos (not_digit_iff.mpr hc)]
      have hlead := leading_append (t := c :: rest) (List.Forall₂.cons hd hds)
      rw [hstop, List.append_nil] at hlead
      simp only [List.append_eq, ← List.cons_append, hlead]
      exact ⟨hover, List.cons_ne_nil _ _⟩
  · intro h
    obtain ⟨hover, hne⟩ := h
    obtain ⟨digits, hreads, hsplit, hhead⟩ := leading_spec b body
    cases hrest : (leading b body).2 with
    | nil => exact absurd hrest hne
    | cons c rest =>
      rw [hrest] at hsplit hhead
      exact ⟨negative, digits, c, rest, _, hsplit ▸ hsigned, hreads, hover, hhead c rfl⟩

theorem not_lateInvalid_of_error {e : Exception} (hread : readSign T s = .error e) :
    ¬ LateInvalid T b s := by
  intro h
  obtain ⟨negative, digits, c, rest, ds, hsigned, hreads, hover, -⟩ := h
  cases hreads with
  | nil =>
    have hpos : 0 < 2 ^ T.width.bits := Nat.two_pow_pos _
    exact absurd hover (Nat.not_le.mpr hpos)
  | cons hd _ =>
    rw [hsigned.readSign_eq hd.1] at hread
    exact nomatch hread

section Outcomes
variable {what : Text} {value : T.Bits}

theorem parsesExactly_iff_of_value (hout : convertFromString .checked T s b = some (.ok value)) :
    ParsesExactly T b s ↔ Denotes T b s (T.toInt value) := by
  constructor
  · intro h
    exact (h.value value).mp hout
  · intro h
    refine ⟨?_, ?_, ?_, ?_⟩
    · intro value'
      rw [hout, Option.some.injEq, Except.ok.injEq]
      exact ⟨fun heq => heq ▸ h, fun h' => IntType.toInt_inj (h.unique h')⟩
    · simp only [hout, Option.some.injEq, reduceCtorEq, exists_false, false_iff]
      intro hex
      obtain ⟨v, hv, hrange⟩ := hex
      exact hrange (h.unique hv ▸ T.toInt_inRange value)
    · simp only [hout, Option.some.injEq, reduceCtorEq, exists_false, false_iff, not_not]
      exact ⟨_, h⟩
    · simp [hout]

theorem parsesExactly_iff_of_out
    (hout : convertFromString .checked T s b = some (.error (.out_of_range what))) :
    ParsesExactly T b s ↔ ∃ v, Denotes T b s v ∧ ¬ T.InRange v := by
  constructor
  · intro h
    exact h.out_of_range.mp ⟨what, hout⟩
  · intro h
    obtain ⟨v, hv, hrange⟩ := h
    refine ⟨?_, ?_, ?_, ?_⟩
    · intro value
      simp only [hout, Option.some.injEq, reduceCtorEq, false_iff]
      intro hvalue
      exact hrange (hv.unique hvalue ▸ T.toInt_inRange value)
    · exact ⟨fun _ => ⟨v, hv, hrange⟩, fun _ => ⟨what, hout⟩⟩
    · simp only [hout, Option.some.injEq, Except.error.injEq, reduceCtorEq, exists_false,
        false_iff, not_not]
      exact ⟨v, hv⟩
    · simp [hout]

theorem parsesExactly_iff_of_invalid
    (hout : convertFromString .checked T s b = some (.error (.invalid_argument what))) :
    ParsesExactly T b s ↔ ¬ ∃ v, Denotes T b s v := by
  constructor
  · intro h
    exact h.invalid_argument.mp ⟨what, hout⟩
  · intro h
    refine ⟨?_, ?_, ?_, ?_⟩
    · intro value
      simp only [hout, Option.some.injEq, reduceCtorEq, false_iff]
      exact fun hvalue => h ⟨_, hvalue⟩
    · simp only [hout, Option.some.injEq, Except.error.injEq, reduceCtorEq, exists_false,
        false_iff]
      intro hex
      obtain ⟨v, hv, -⟩ := hex
      exact h ⟨v, hv⟩
    · exact ⟨fun _ => h, fun _ => ⟨what, hout⟩⟩
    · simp [hout]

end Outcomes

/-- Nothing is read of a lone plus sign, and 0 comes out. -/
theorem convertFromString_nil (h2 : 2 ≤ b) (h36 : b ≤ 36)
    (hread : readSign T s = .ok (negative, [])) (hneg : negative → T.signed) :
    convertFromString neg T s b = some (.ok 0) := by
  have hzero : T.toInt 0 = 0 := (T.toInt_eq_zero_iff 0).mpr rfl
  rw [convertFromString_eq_ok_iff neg h2 h36 hread hneg, hzero]
  refine ⟨rfl, ?_, ?_⟩
  · rw [leading, horner_nil, withSign]
    split <;> rfl
  · intro hboth
    have hlow := hboth.2.2.2
    have hpos : (0 : Int) < 2 ^ (T.width.bits - 1) := by positivity
    rw [IntType.min, if_pos hboth.2.1] at hlow
    omega

theorem parsesExactly_of_error {e : Exception} (h2 : 2 ≤ b) (h36 : b ≤ 36)
    (hread : readSign T s = .error e) (he : ∃ what, e = .invalid_argument what) :
    ParsesExactly T b s := by
  obtain ⟨what, rfl⟩ := he
  have hbase : ¬ ((b : Int) < 2 ∨ (36 : Int) < b) := by omega
  have hout : convertFromString .checked T s b = some (.error (.invalid_argument what)) := by
    rw [convertFromString, if_neg hbase, hread]
  rw [parsesExactly_iff_of_invalid hout]
  intro hex
  obtain ⟨v, hv⟩ := hex
  exact not_denotes_of_error hread hv

/-- With something behind the sign, the digits before the first other character decide. -/
theorem parsesExactly_iff_of_digits (h2 : 2 ≤ b) (h36 : b ≤ 36)
    (hread : readSign T s = .ok (negative, body)) (hsigned : Signed T s negative body)
    (hneg : negative → T.signed) (hne : body ≠ []) :
    ParsesExactly T b s ↔ ¬ LateInvalid T b s ∧ ¬ DenotesMin T b s := by
  have hdenotes := fun v => denotes_iff (b := b) (v := v) hread hne hsigned
  rw [lateInvalid_iff hread hsigned]
  obtain ⟨hover, hfits⟩ := convertFromString_digits .checked h2 h36 hread
  rcases Nat.lt_or_ge (horner b 0 (leading b body).1) (2 ^ T.width.bits) with hlt | hge
  · obtain ⟨hinvalid, hvalue⟩ := hfits hlt
    by_cases hrest : (leading b body).2 = []
    · have hv := (hdenotes _).mpr ⟨hrest, rfl⟩
      have hlate : ¬ (2 ^ T.width.bits ≤ horner b 0 (leading b body).1 ∧ (leading b body).2 ≠ []) :=
        fun hboth => hboth.2 hrest
      have hmin : DenotesMin T b s ↔ NegatesMin T (withSign negative (horner b 0 (leading b body).1)) := by
        constructor
        · intro hex
          obtain ⟨v, hv', hnegates⟩ := hex
          exact hv'.unique hv ▸ hnegates
        · exact fun hnegates => ⟨_, hv, hnegates⟩
      simp only [hlate, hmin, not_false_eq_true, true_and]
      by_cases hrange : T.InRange (withSign negative (horner b 0 (leading b body).1))
      · rw [signedValue_in _ hneg hlt hrange] at hvalue
        by_cases hnegates : NegatesMin T (withSign negative (horner b 0 (leading b body).1))
        · rw [if_pos ⟨rfl, hnegates⟩] at hvalue
          simp only [hnegates, not_true_eq_false, iff_false]
          exact fun h => h.no_overflow (hvalue hrest)
        · rw [if_neg (fun hboth => hnegates hboth.2)] at hvalue
          rw [parsesExactly_iff_of_value (hvalue hrest), IntType.toInt_ofInt hrange]
          exact ⟨fun _ => hnegates, fun _ => hv⟩
      · obtain ⟨what, hout⟩ := signedValue_out .checked hneg hlt hrange
        rw [parsesExactly_iff_of_out ((hvalue hrest).trans hout)]
        refine ⟨fun _ hnegates => hrange ?_, fun _ => ⟨_, hv, hrange⟩⟩
        have hhalf := T.two_pow_bits
        rw [hnegates.2.2]
        exact ⟨le_rfl, T.min_le_max⟩
    · obtain ⟨what, hout⟩ := hinvalid hrest
      have hno : ∀ v, ¬ Denotes T b s v := fun v hv => hrest ((hdenotes v).mp hv).1
      rw [parsesExactly_iff_of_invalid hout]
      refine ⟨fun _ => ⟨fun hboth => absurd hboth.1 (Nat.not_le.mpr hlt), ?_⟩, fun _ hex => ?_⟩
      · intro hex
        obtain ⟨v, hv, -⟩ := hex
        exact hno v hv
      · obtain ⟨v, hv⟩ := hex
        exact hno v hv
  · obtain ⟨what, hout⟩ := hover hge
    rw [parsesExactly_iff_of_out hout]
    have hrange : ¬ T.InRange (withSign negative (horner b 0 (leading b body).1)) :=
      not_inRange_of_ge hge
    constructor
    · intro hex
      obtain ⟨v, hv, -⟩ := hex
      refine ⟨fun hboth => hboth.2 ((hdenotes v).mp hv).1, ?_⟩
      intro hmin
      obtain ⟨v', hv', hnegates⟩ := hmin
      apply hrange
      rw [← ((hdenotes v').mp hv').2, hnegates.2.2]
      exact ⟨le_rfl, T.min_le_max⟩
    · intro hboth
      have hrest : (leading b body).2 = [] := by
        by_contra hrest
        exact hboth.1 ⟨hge, hrest⟩
      exact ⟨_, (hdenotes _).mpr ⟨hrest, rfl⟩, hrange⟩

/-- A text is parsed as its form says, but for a lone plus sign, a bad character behind too many
digits and the minimum of a type from `int` on. -/
theorem parsesExactly_iff (T : IntType) (b : Nat) (s : Text) (h2 : 2 ≤ b) (h36 : b ≤ 36) :
    ParsesExactly T b s ↔ ¬ LonePlus T s ∧ ¬ LateInvalid T b s ∧ ¬ DenotesMin T b s := by
  rcases readSign_cases T s with hbad | hgood
  · obtain ⟨hform, what, hread⟩ := hbad
    have hplus : ¬ LonePlus T s := by
      intro hplus
      rcases hform with rfl | ⟨-, rfl⟩
      · exact absurd hplus.2 (by simp)
      · exact absurd hplus.2 (by simp)
    have hmin : ¬ DenotesMin T b s := by
      intro hex
      obtain ⟨v, hv, -⟩ := hex
      exact not_denotes_of_error hread hv
    exact ⟨fun _ => ⟨hplus, not_lateInvalid_of_error hread, hmin⟩,
      fun _ => parsesExactly_of_error h2 h36 hread ⟨what, rfl⟩⟩
  · obtain ⟨negative, body, hread, hsigned, hneg, hnil⟩ := hgood
    by_cases hne : body = []
    · subst hne
      have hplus : LonePlus T s := hnil rfl
      simp only [hplus, not_true_eq_false, false_and, iff_false]
      rw [parsesExactly_iff_of_value (convertFromString_nil h2 h36 hread hneg)]
      intro hv
      obtain ⟨negative', body, ds, hsigned', hbody, hreads, -⟩ := hv
      have hsame := hsigned'.readSign_of_reads hbody hreads
      rw [hread, Except.ok.injEq, Prod.mk.injEq] at hsame
      exact hbody hsame.2.symm
    · have hplus : ¬ LonePlus T s := by
        intro hplus
        obtain ⟨hs, rfl⟩ := hplus
        rw [readSign, if_neg (by simp), if_pos ⟨hs, rfl⟩, Except.ok.injEq, Prod.mk.injEq] at hread
        exact hne hread.2.symm
      rw [parsesExactly_iff_of_digits h2 h36 hread hsigned hneg hne]
      simp only [hplus, not_false_eq_true, true_and]

theorem parsesExactly_iff_small_minimum :
    ParsesExactly ⟨.w8, true⟩ 10 (ascii "-128") ↔
      ¬ LonePlus ⟨.w8, true⟩ (ascii "-128") ∧ ¬ LateInvalid ⟨.w8, true⟩ 10 (ascii "-128") ∧
        ¬ DenotesMin ⟨.w8, true⟩ 10 (ascii "-128") :=
  parsesExactly_iff _ _ _ (by decide) (by decide)

/-- A plus sign alone is parsed as 0. -/
theorem lonePlus_parsed : ¬ ParsesExactly ⟨.w32, true⟩ 10 (ascii "+") := by
  intro h
  have hout : convertFromString .checked ⟨.w32, true⟩ (ascii "+") 10 = some (.ok 0) := rfl
  obtain ⟨negative, body, ds, hsigned, hne, hreads, -⟩ := (h.value 0).mp hout
  have hread := hsigned.readSign_of_reads hne hreads
  have hnil : readSign ⟨.w32, true⟩ (ascii "+") = .ok (false, []) := rfl
  rw [hnil, Except.ok.injEq, Prod.mk.injEq] at hread
  exact hne hread.2.symm

end Parsing

end RadixToolkit
end Cppforge.Toolkit
