import Cppforge.Toolkit.Proofs.RadixParsing

namespace Cppforge.Toolkit.RadixToolkit
open Bytes Numerals

variable {T : IntType} {b n turns : Nat} {charset result text body : Text} {value : T.Bits}
  {neg : Negation}

/-- A text shows digits in the characters of a charset. -/
def Prints (charset : Text) : Text → List Nat → Prop :=
  List.Forall₂ fun c d => charset[d]? = some c

/-- The digits of a number as they are printed, at least one. -/
def printedDigits (b n : Nat) : List Nat := if n = 0 then [0] else (Nat.digits b n).reverse

theorem printedDigits_ne_nil (b n : Nat) : printedDigits b n ≠ [] := by
  rw [printedDigits]
  split
  · exact List.cons_ne_nil _ _
  · rename_i hn
    rw [ne_eq, List.reverse_eq_nil_iff]
    exact Nat.digits_ne_nil_iff_ne_zero.mpr hn

theorem printedDigits_lt (hb : 1 < b) (n : Nat) : ∀ d ∈ printedDigits b n, d < b := by
  intro d hd
  rw [printedDigits] at hd
  split at hd
  · rw [List.mem_singleton] at hd
    omega
  · exact Nat.digits_lt_base hb (List.mem_reverse.mp hd)

theorem horner_printedDigits (b n : Nat) : horner b 0 (printedDigits b n) = n := by
  rw [printedDigits]
  split
  · rename_i hn
    simp [hn]
  · exact horner_digits b n

theorem printedDigits_head (hn : n ≠ 0) : (printedDigits b n).head? ≠ some 0 := by
  rw [printedDigits, if_neg hn, List.head?_reverse]
  intro hlast
  rw [List.getLast?_eq_some_getLast (Nat.digits_ne_nil_iff_ne_zero.mpr hn),
    Option.some.injEq] at hlast
  exact Nat.getLast_digit_ne_zero b hn hlast

/-- The loop pushes the digits, the lowest one first. -/
theorem digitLoop_eq {w : Nat} {ubase a : BitVec w} (hb : 1 < ubase.toNat)
    (hsize : ubase.toNat ≤ charset.length) (hturns : a.toNat < 2 ^ turns) (result : Text) :
    ∃ chars, digitLoop charset ubase (turns + 1) a result = some (result ++ chars) ∧
      Prints charset chars (Nat.digits ubase.toNat a.toNat) := by
  induction turns generalizing a result with
  | zero =>
    have ha : a = 0 := BitVec.eq_of_toNat_eq (by simpa using hturns)
    subst ha
    refine ⟨[], by simp [digitLoop], ?_⟩
    simp [Prints]
  | succ turns ih =>
    by_cases ha : a = 0
    · subst ha
      refine ⟨[], by simp [digitLoop], ?_⟩
      simp [Prints]
    · have hpos : 0 < a.toNat := by
        rw [Nat.pos_iff_ne_zero]
        exact fun h => ha (BitVec.eq_of_toNat_eq (by simpa using h))
      have hubase : ubase ≠ 0 := by
        intro hzero
        simp [hzero] at hb
      have hmod : (a % ubase).toNat < charset.length := by
        rw [BitVec.toNat_umod]
        exact (Nat.mod_lt _ (by omega)).trans_le hsize
      have hdiv : (a / ubase).toNat < 2 ^ turns := by
        rw [BitVec.toNat_udiv]
        apply Nat.div_lt_of_lt_mul
        rw [Nat.pow_succ, Nat.mul_comm] at hturns
        exact hturns.trans_le (Nat.mul_le_mul_right _ hb)
      obtain ⟨chars, hrest, hprints⟩ := ih hdiv (result ++ [charset[(a % ubase).toNat]])
      refine ⟨charset[(a % ubase).toNat] :: chars, ?_, ?_⟩
      · rw [digitLoop, if_neg ha, if_neg hubase, List.getElem?_eq_getElem hmod,
          Option.bind_eq_bind, Option.bind_some, hrest, List.append_assoc]
        rfl
      · rw [BitVec.toNat_udiv] at hprints
        rw [Nat.digits_eq_cons_digits_div hb (by omega), ← BitVec.toNat_umod]
        exact .cons (List.getElem?_eq_getElem hmod) hprints

theorem isNegative_iff : isNegative T value = true ↔ T.toInt value < 0 := by
  cases hs : T.signed with
  | false => simp [isNegative, IntType.toInt, hs]
  | true => simp [isNegative, IntType.toInt, hs, BitVec.slt_iff_toInt_lt]

theorem isNegative_signed (h : isNegative T value = true) : T.signed = true := by
  simp only [isNegative, Bool.and_eq_true] at h
  exact h.1

/-- The magnitude fits into the unsigned type, that of the minimum as well. -/
theorem toNat_absValue (T : IntType) (value : T.Bits) :
    (absValue T value).toNat = (T.toInt value).natAbs := by
  have hhalf := T.two_pow_bits
  have hlt := value.isLt
  have hneg : -(value + 1) + 1 = -value := by
    rw [BitVec.neg_add, BitVec.sub_add_cancel]
  cases hs : T.signed with
  | false => simp [absValue, isNegative, IntType.toInt, hs]
  | true =>
    have hint := BitVec.toInt_eq_toNat_cond value
    have hcases : isNegative T value = true ↔ T.toInt value < 0 := isNegative_iff
    rw [absValue]
    simp only [IntType.toInt, hs, if_true] at hcases ⊢
    split
    · rename_i hsign
      rw [hneg, BitVec.toNat_neg]
      rw [hcases] at hsign
      split at hint
      · omega
      · rw [Nat.mod_eq_of_lt (by omega)]
        omega
    · rename_i hsign
      rw [hcases] at hsign
      split at hint <;> omega

/-- The text of a number: its digits, behind a sign when it is negative. -/
theorem convertToString_eq (hb : 2 ≤ b) (hfits : b < 2 ^ T.width.bits) (hsize : b ≤ charset.length)
    (value : T.Bits) : ∃ body,
      convertToString T value b charset =
        some (.ok (if T.toInt value < 0 then 45 :: body else body)) ∧
      Prints charset body (printedDigits b (T.toInt value).natAbs) := by
  have hbase : ¬ ((b : Int) < 2 ∨ (charset.length : Int) < b) := by omega
  have hubase : (BitVec.ofInt T.width.bits (b : Int)).toNat = b := by
    rw [BitVec.ofInt_natCast, BitVec.toNat_ofNat, Nat.mod_eq_of_lt hfits]
  rw [convertToString, if_neg hbase]
  by_cases hzero : value = 0
  · have hint := (T.toInt_eq_zero_iff value).mpr hzero
    have h0 : 0 < charset.length := by omega
    refine ⟨[charset[0]], ?_, ?_⟩
    · rw [if_pos hzero, List.getElem?_eq_getElem h0, hint, if_neg (by omega)]
      rfl
    · rw [hint, Int.natAbs_zero, printedDigits, if_pos rfl]
      exact .cons (List.getElem?_eq_getElem h0) .nil
  · have hne : (T.toInt value).natAbs ≠ 0 := by
      rw [ne_eq, Int.natAbs_eq_zero, T.toInt_eq_zero_iff]
      exact hzero
    obtain ⟨chars, hloop, hprints⟩ := digitLoop_eq
      (hubase.symm ▸ hb : 1 < (BitVec.ofInt T.width.bits (b : Int)).toNat) (hubase.symm ▸ hsize)
      (absValue T value).isLt []
    rw [hubase, toNat_absValue] at hprints
    refine ⟨chars.reverse, ?_, ?_⟩
    · simp only [if_neg hzero, hloop, List.nil_append, isNegative_iff, Option.bind_eq_bind,
        Option.bind_some, Option.pure_def]
      split
      · rw [List.reverse_append]
        rfl
      · rfl
    · rw [printedDigits, if_neg hne]
      exact List.rel_reverse hprints

/-- The characters of the charset are read as the digits that they show. -/
def Legible (charset : Text) (ds : List Nat) : Prop :=
  ∀ d ∈ ds, ∃ c, charset[d]? = some c ∧ DigitOf c d

theorem Prints.length_eq {ds : List Nat} (h : Prints charset body ds) : body.length = ds.length :=
  List.Forall₂.length_eq h

theorem Prints.reads {ds : List Nat} (h : Prints charset body ds) (hlt : ∀ d ∈ ds, d < b)
    (hlegible : Legible charset ds) : Reads b body ds := by
  induction h with
  | nil => exact .nil
  | @cons c d body ds hc _ ih =>
    refine .cons ⟨?_, hlt d List.mem_cons_self⟩ ?_
    · obtain ⟨c', hc', hdigit⟩ := hlegible d List.mem_cons_self
      rw [hc, Option.some.injEq] at hc'
      exact hc' ▸ hdigit
    · exact ih (fun d hd => hlt d (List.mem_cons_of_mem _ hd))
        (fun d hd => hlegible d (List.mem_cons_of_mem _ hd))

theorem Prints.legible {ds : List Nat} (h : Prints charset body ds) (hreads : Reads b body ds) :
    Legible charset ds := by
  induction h with
  | nil => simp [Legible]
  | @cons c d body ds hc _ ih =>
    cases hreads with
    | cons hdigit hrest =>
      intro d' hd'
      rcases List.mem_cons.mp hd' with rfl | hmem
      · exact ⟨c, hc, hdigit.1⟩
      · exact ih hrest d' hmem

/-- The printed text is read as its sign and its characters. -/
theorem readSign_printed (hplus : 43 ∉ charset) (hminus : 45 ∉ charset) {ds : List Nat}
    (hprints : Prints charset body ds) (hne : ds ≠ []) (value : T.Bits) :
    readSign T (if T.toInt value < 0 then 45 :: body else body) =
      .ok (decide (T.toInt value < 0), body) := by
  cases hprints with
  | nil => exact absurd rfl hne
  | @cons c d rest ds hc _ =>
    have hmem := List.mem_of_getElem? hc
    split
    · rename_i hneg
      have hs := isNegative_signed (isNegative_iff.mpr hneg)
      rw [readSign, if_pos ⟨hs, rfl⟩, if_neg (by simp), decide_eq_true hneg]
    · rename_i hneg
      have hno : ¬ (T.signed = true ∧ c = 45) := fun h => hminus (h.2 ▸ hmem)
      have hno' : ¬ (T.signed = true ∧ c = 43) := fun h => hplus (h.2 ▸ hmem)
      rw [readSign, if_neg hno, if_neg hno', decide_eq_false hneg]

theorem withSign_natAbs (value : T.Bits) :
    withSign (decide (T.toInt value < 0)) (T.toInt value).natAbs = T.toInt value := by
  rw [withSign]
  split
  · rename_i h
    have := of_decide_eq_true h
    omega
  · rename_i h
    have := of_decide_eq_false (Bool.eq_false_iff.mpr h)
    omega

/-- A printed text is parsed back when its characters are the digits that they show, and only
then; the minimum needs a negation that wraps. -/
theorem convertFromString_printed_iff (neg : Negation) (h2 : 2 ≤ b) (h36 : b ≤ 36)
    (hplus : 43 ∉ charset) (hminus : 45 ∉ charset) (value : T.Bits)
    (hprints : Prints charset body (printedDigits b (T.toInt value).natAbs)) :
    convertFromString neg T (if T.toInt value < 0 then 45 :: body else body) b = some (.ok value) ↔
      Legible charset (printedDigits b (T.toInt value).natAbs) ∧
        ¬ (neg = .checked ∧ NegatesMin T (T.toInt value)) := by
  have hread := readSign_printed hplus hminus hprints (printedDigits_ne_nil _ _) value
  have hsign := withSign_natAbs value
  have hneg : decide (T.toInt value < 0) = true → T.signed = true := by
    intro h
    exact isNegative_signed (isNegative_iff.mpr (of_decide_eq_true h))
  have hlt := printedDigits_lt (by omega : 1 < b) (T.toInt value).natAbs
  rw [convertFromString_eq_ok_iff neg h2 h36 hread hneg]
  constructor
  · intro hall
    obtain ⟨hrest, hsame, hmin⟩ := hall
    have hreads : Reads b body (leading b body).1 := reads_iff.mpr (Prod.ext rfl hrest)
    have heq : (leading b body).1 = printedDigits b (T.toInt value).natAbs := by
      refine horner_inj (by omega) ?_ hreads.lt hlt ?_
      · rw [← hreads.length_eq, hprints.length_eq]
      · rw [horner_printedDigits]
        exact withSign_inj (hsame.trans hsign.symm)
    exact ⟨hprints.legible (heq ▸ hreads), hmin⟩
  · intro hgood
    obtain ⟨hlegible, hmin⟩ := hgood
    have hlead := reads_iff.mp (hprints.reads hlt hlegible)
    rw [hlead, horner_printedDigits]
    exact ⟨rfl, hsign, hmin⟩

section Standard

/-- The text starts with no digit 0, also behind a minus sign, unless it is that digit. -/
def NoLeadingZero (text : Text) : Prop :=
  ∀ rest, (text = 48 :: rest → rest = []) ∧ text ≠ 45 :: 48 :: rest

theorem legible_of_le (h2 : 2 ≤ b) (h36 : b ≤ 36) (hcharset : charset = upper ∨ charset = lower)
    (n : Nat) : Legible charset (printedDigits b n) := by
  intro d hd
  have hlt := printedDigits_lt (by omega : 1 < b) n d hd
  rcases hcharset with rfl | rfl
  · have hd' : d < upper.length := by rw [length_upper]; omega
    exact ⟨_, List.getElem?_eq_getElem hd', .inl (List.getElem?_eq_getElem hd')⟩
  · have hd' : d < lower.length := by rw [length_lower]; omega
    exact ⟨_, List.getElem?_eq_getElem hd', .inr (List.getElem?_eq_getElem hd')⟩

theorem digitOf_zero {d : Nat} (h : DigitOf 48 d) : d = 0 := by
  simp only [digitOf_iff, UInt8.reduceToNat] at h
  omega

theorem noLeadingZero_printed (hprints : Prints charset body (printedDigits b (T.toInt value).natAbs))
    (hlegible : Legible charset (printedDigits b (T.toInt value).natAbs)) (hminus : 45 ∉ charset) :
    NoLeadingZero (if T.toInt value < 0 then 45 :: body else body) := by
  have hhead : ∀ rest, body = 48 :: rest → (T.toInt value).natAbs = 0 := by
    intro rest hbody
    by_contra hne
    have hfirst := printedDigits_head (b := b) hne
    generalize printedDigits b (T.toInt value).natAbs = ds at *
    subst hbody
    cases hprints with
    | @cons _ d _ _ hc _ =>
      obtain ⟨c, hc', hdigit⟩ := hlegible d List.mem_cons_self
      rw [hc, Option.some.injEq] at hc'
      subst hc'
      exact hfirst (by rw [digitOf_zero hdigit]; rfl)
  intro rest
  split
  · rename_i hneg
    refine ⟨by simp, ?_⟩
    intro htext
    have := hhead rest (List.cons.inj htext).2
    omega
  · constructor
    · intro hbody
      rw [hhead rest hbody, printedDigits, if_pos rfl] at hprints
      have hlen := hprints.length_eq
      rw [hbody] at hlen
      simpa using hlen
    · intro hbody
      rw [hbody] at hprints
      generalize printedDigits b (T.toInt value).natAbs = ds at hprints
      cases hprints with
      | cons hc _ => exact hminus (List.mem_of_getElem? hc)

theorem sign_not_mem (hcharset : charset = upper ∨ charset = lower) :
    43 ∉ charset ∧ 45 ∉ charset := by
  rcases hcharset with rfl | rfl
  · constructor
    · intro hmem
      obtain ⟨d, hd⟩ := List.mem_iff_getElem?.mp hmem
      exact not_digitOf_sign.1 (.inl hd)
    · intro hmem
      obtain ⟨d, hd⟩ := List.mem_iff_getElem?.mp hmem
      exact not_digitOf_sign.2 (.inl hd)
  · constructor
    · intro hmem
      obtain ⟨d, hd⟩ := List.mem_iff_getElem?.mp hmem
      exact not_digitOf_sign.1 (.inr hd)
    · intro hmem
      obtain ⟨d, hd⟩ := List.mem_iff_getElem?.mp hmem
      exact not_digitOf_sign.2 (.inr hd)

/-- Every value of every type comes back from its text in the standard digits. -/
theorem convertFromString_convertToString (T : IntType) (value : T.Bits) (b : Nat) (h2 : 2 ≤ b)
    (h36 : b ≤ 36) (charset : Text) (hcharset : charset = upper ∨ charset = lower) :
    ∃ text, convertToString T value b charset = some (.ok text) ∧
      convertFromString .wraps T text b = some (.ok value) ∧ NoLeadingZero text := by
  have hhalf := T.two_pow_bits
  have hsize : b ≤ charset.length := by
    rcases hcharset with rfl | rfl
    · exact length_upper ▸ h36
    · exact length_lower ▸ h36
  obtain ⟨hplus, hminus⟩ := sign_not_mem hcharset
  obtain ⟨body, hprint, hprints⟩ := convertToString_eq h2 (by omega) hsize value
  have hlegible := legible_of_le h2 h36 hcharset (T.toInt value).natAbs
  refine ⟨_, hprint, ?_, noLeadingZero_printed hprints hlegible hminus⟩
  rw [convertFromString_printed_iff .wraps h2 h36 hplus hminus value hprints]
  exact ⟨hlegible, by simp⟩

theorem convertFromString_convertToString_minimum :
    ∃ text, convertToString ⟨.w64, true⟩ (BitVec.intMin 64) 36 upper = some (.ok text) ∧
      convertFromString .wraps ⟨.w64, true⟩ text 36 = some (.ok (BitVec.intMin 64)) ∧
        NoLeadingZero text :=
  convertFromString_convertToString ⟨.w64, true⟩ (BitVec.intMin 64) 36 (by decide) (by decide)
    upper (.inl rfl)

end Standard

section Instances

/-- Distinct characters without the signs are too few to make the base wrap to 0. -/
theorem length_le_of_nodup (hnodup : charset.Nodup) (hplus : 43 ∉ charset) (hminus : 45 ∉ charset) :
    charset.length ≤ 254 := by
  have hall : (43 :: 45 :: charset).Nodup := by
    simp [hnodup, hplus, hminus]
  have hmap : ((43 :: 45 :: charset).map UInt8.toNat).Nodup :=
    hall.map fun a b h => UInt8.toNat_inj.mp h
  have hsub : (43 :: 45 :: charset).map UInt8.toNat ⊆ List.range 256 := by
    intro n hn
    obtain ⟨c, -, rfl⟩ := List.mem_map.mp hn
    exact List.mem_range.mpr c.toNat_lt
  have hlen := (List.subperm_of_subset hmap hsub).length_le
  simp only [List.length_map, List.length_cons, List.length_range] at hlen
  omega

theorem toString_eq (r : RadixToolkit) (T : IntType) (value : T.Bits) (hnodup : r.charset_.Nodup)
    (hplus : 43 ∉ r.charset_) (hminus : 45 ∉ r.charset_) :
    ∃ body, r.toString T value 0 = some (.ok (if T.toInt value < 0 then 45 :: body else body)) ∧
      Prints r.charset_ body (printedDigits r.default_base_.toNat (T.toInt value).natAbs) := by
  have hhalf := T.two_pow_bits
  have hlen := length_le_of_nodup hnodup hplus hminus
  have hlow := r.two_le
  have hhigh := r.le_size
  have hbase : ((r.default_base_.toNat : Nat) : Int) = r.default_base_ := by omega
  rw [RadixToolkit.toString, if_pos rfl, ← hbase]
  exact convertToString_eq (by omega) (by omega) (by omega) value

/-- An instance reads back what it prints when its base is one that can be read and every
character in the text is the digit that it stands for; the minimum of a type from `int` on also
needs a negation that wraps. -/
theorem fromString_toString_iff (r : RadixToolkit) (hnodup : r.charset_.Nodup)
    (hplus : 43 ∉ r.charset_) (hminus : 45 ∉ r.charset_) (neg : Negation) (T : IntType)
    (value : T.Bits) :
    (∃ text, r.toString T value 0 = some (.ok text) ∧
        r.fromString neg T text 0 = some (.ok value)) ↔
      r.default_base_ ≤ 36 ∧
      (∀ d ∈ printedDigits r.default_base_.toNat (T.toInt value).natAbs,
        ∃ c, r.charset_[d]? = some c ∧ DigitOf c d) ∧
      ¬ (neg = .checked ∧ NegatesMin T (T.toInt value)) := by
  have hlow := r.two_le
  obtain ⟨body, hprint, hprints⟩ := r.toString_eq T value hnodup hplus hminus
  have hbase : ((r.default_base_.toNat : Nat) : Int) = r.default_base_ := by omega
  have hiff : (∃ text, r.toString T value 0 = some (.ok text) ∧
      r.fromString neg T text 0 = some (.ok value)) ↔
      convertFromString neg T (if T.toInt value < 0 then 45 :: body else body)
        r.default_base_ = some (.ok value) := by
    simp only [hprint, Option.some.injEq, Except.ok.injEq, exists_eq_left', fromString, if_true]
  rw [hiff]
  by_cases h36 : r.default_base_ ≤ 36
  · have hparse := convertFromString_printed_iff neg (by omega) (by omega) hplus hminus value hprints
    rw [hbase] at hparse
    rw [hparse]
    simp only [h36, true_and]
    rfl
  · simp only [h36, false_and, iff_false]
    rw [convertFromString, if_pos (.inr (by omega))]
    intro h
    cases h

/-- The default instance, for the number 255. -/
theorem fromString_toString_default :
    ∃ r : RadixToolkit, r.charset_ = upper ∧ r.default_base_ = 16 ∧
      ((∃ text, r.toString ⟨.w8, false⟩ 255 0 = some (.ok text) ∧
          r.fromString .checked ⟨.w8, false⟩ text 0 = some (.ok 255)) ↔
        r.default_base_ ≤ 36 ∧
        (∀ d ∈ printedDigits r.default_base_.toNat (IntType.toInt ⟨.w8, false⟩ 255).natAbs,
          ∃ c, r.charset_[d]? = some c ∧ DigitOf c d) ∧
        ¬ (Negation.checked = .checked ∧
          NegatesMin ⟨.w8, false⟩ (IntType.toInt ⟨.w8, false⟩ 255))) :=
  ⟨⟨16, upper, by decide, by decide⟩, rfl, rfl,
    fromString_toString_iff ⟨16, upper, by decide, by decide⟩ (by decide) (by decide) (by decide)
      .checked ⟨.w8, false⟩ 255⟩

/-- The digits 0 and 1 in the other order. -/
def swapped : RadixToolkit := ⟨2, ascii "10", by decide, by decide⟩

theorem swapped_not_inverse : ¬ ∃ text, swapped.toString ⟨.w32, true⟩ 1 0 = some (.ok text) ∧
    swapped.fromString .wraps ⟨.w32, true⟩ text 0 = some (.ok 1) := by
  intro h
  obtain ⟨text, hprint, hparse⟩ := h
  obtain rfl : ascii "0" = text := Except.ok.inj (Option.some.inj hprint)
  have hzero : swapped.fromString .wraps ⟨.w32, true⟩ (ascii "0") 0 = some (.ok 0) := rfl
  rw [hzero] at hparse
  exact absurd (Except.ok.inj (Option.some.inj hparse)) (by decide)

end Instances

end Cppforge.Toolkit.RadixToolkit
