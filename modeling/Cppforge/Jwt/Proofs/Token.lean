import Cppforge.Jwt.Token
import Mathlib.Algebra.Group.Nat.Defs
import Mathlib.Data.Set.Operations

namespace Cppforge.Jwt
open Bytes

/-- The six-bit groups of a string, the last one filled up with zero bits. -/
def sextets : Text → List Nat
  | [] => []
  | [a] => [a.toNat / 4, a.toNat % 4 * 16]
  | [a, b] => [a.toNat / 4, a.toNat % 4 * 16 + b.toNat / 16, b.toNat % 16 * 4]
  | a :: b :: c :: rest =>
    a.toNat / 4 :: (a.toNat % 4 * 16 + b.toNat / 16) :: (b.toNat % 16 * 4 + c.toNat / 64) ::
      c.toNat % 64 :: sextets rest

theorem sextets_lt (s : Text) : ∀ i ∈ sextets s, i < 64 := by
  induction s using sextets.induct with
  | case1 => simp [sextets]
  | case2 a =>
    have ha := a.toNat_lt
    simp only [sextets, List.mem_cons, List.not_mem_nil, or_false, forall_eq_or_imp, forall_eq]
    omega
  | case3 a b =>
    have ha := a.toNat_lt
    have hb := b.toNat_lt
    simp only [sextets, List.mem_cons, List.not_mem_nil, or_false, forall_eq_or_imp, forall_eq]
    omega
  | case4 a b c rest ih =>
    have ha := a.toNat_lt
    have hb := b.toNat_lt
    have hc := c.toNat_lt
    simp only [sextets, List.mem_cons, forall_eq_or_imp]
    exact ⟨by omega, by omega, by omega, by omega, ih⟩

/-- A masked arithmetic shift reads a field of the accumulator, whatever its sign. -/
theorem toNat_field (v mask : BitVec 32) {b w : Nat} (hmask : mask.toNat = 2 ^ w - 1)
    (h : b + w ≤ 32) : (v.sshiftRight b &&& mask).toNat = v.toNat / 2 ^ b % 2 ^ w := by
  apply Nat.eq_of_testBit_eq
  intro i
  rw [BitVec.toNat_and, Nat.testBit_and, hmask, Nat.testBit_two_pow_sub_one, Nat.testBit_mod_two_pow,
    Nat.testBit_div_two_pow, BitVec.testBit_toNat, BitVec.testBit_toNat, BitVec.getLsbD_sshiftRight]
  by_cases hi : i < w
  · have h1 : ¬ 32 ≤ i := by omega
    have h2 : b + i < 32 := by omega
    simp [hi, h1, h2, Nat.add_comm]
  · simp [hi]

theorem digit_shift (v : BitVec 32) {b : Nat} (h : b ≤ 26) :
    digit (v.sshiftRight b) = encodeTable.getD (v.toNat / 2 ^ b % 64) 0 := by
  have hfield : (v.sshiftRight b &&& 0x3F).toNat = v.toNat / 2 ^ b % 64 :=
    toNat_field v 0x3F (w := 6) rfl (by omega)
  rw [digit, hfield]

/-- The accumulator after the bits of `c`. -/
theorem toNat_push (v : BitVec 32) (k c : Nat) :
    ((v <<< k) + BitVec.ofNat 32 c).toNat = (v.toNat * 2 ^ k + c) % 2 ^ 32 := by
  rw [BitVec.toNat_add, BitVec.toNat_shiftLeft, BitVec.toNat_ofNat, Nat.shiftLeft_eq,
    Nat.add_mod, Nat.mod_mod, Nat.mod_mod, ← Nat.add_mod]

theorem encodeLoop_first (val : BitVec 32) (c : UInt8) (cs : Text) :
    encodeLoop val (-6) (c :: cs) =
      digit (((val <<< 8) + BitVec.ofNat 32 c.toNat).sshiftRight 2) ::
        encodeLoop ((val <<< 8) + BitVec.ofNat 32 c.toNat) (-4) cs := rfl

theorem encodeLoop_second (val : BitVec 32) (c : UInt8) (cs : Text) :
    encodeLoop val (-4) (c :: cs) =
      digit (((val <<< 8) + BitVec.ofNat 32 c.toNat).sshiftRight 4) ::
        encodeLoop ((val <<< 8) + BitVec.ofNat 32 c.toNat) (-2) cs := rfl

theorem encodeLoop_third (val : BitVec 32) (c : UInt8) (cs : Text) :
    encodeLoop val (-2) (c :: cs) =
      digit (((val <<< 8) + BitVec.ofNat 32 c.toNat).sshiftRight 6) ::
        digit (((val <<< 8) + BitVec.ofNat 32 c.toNat).sshiftRight 0) ::
          encodeLoop ((val <<< 8) + BitVec.ofNat 32 c.toNat) (-6) cs := rfl

theorem encodeLoop_last_four (val : BitVec 32) :
    encodeLoop val (-4) [] = [digit ((val <<< 8).sshiftRight 4)] := rfl

theorem encodeLoop_last_two (val : BitVec 32) :
    encodeLoop val (-2) [] = [digit ((val <<< 8).sshiftRight 6)] := rfl

theorem encodeLoop_sextets (s : Text) (val : BitVec 32) :
    encodeLoop val (-6) s = (sextets s).map (fun i => encodeTable.getD i 0) := by
  induction s using sextets.induct generalizing val with
  | case1 => rfl
  | case2 a =>
    have ha := a.toNat_lt
    rw [encodeLoop_first, encodeLoop_last_four]
    have h1 := toNat_push val 8 a.toNat
    generalize (val <<< 8) + BitVec.ofNat 32 a.toNat = v1 at h1 ⊢
    have e1 : v1.toNat / 2 ^ 2 % 64 = a.toNat / 4 := by omega
    have e2 : v1.toNat * 2 ^ 8 % 2 ^ 32 / 2 ^ 4 % 64 = a.toNat % 4 * 16 := by omega
    rw [digit_shift _ (by omega), digit_shift _ (by omega), BitVec.toNat_shiftLeft,
      Nat.shiftLeft_eq, e1, e2]
    rfl
  | case3 a b =>
    have ha := a.toNat_lt
    have hb := b.toNat_lt
    rw [encodeLoop_first, encodeLoop_second, encodeLoop_last_two]
    have h1 := toNat_push val 8 a.toNat
    generalize (val <<< 8) + BitVec.ofNat 32 a.toNat = v1 at h1 ⊢
    have h2 := toNat_push v1 8 b.toNat
    generalize (v1 <<< 8) + BitVec.ofNat 32 b.toNat = v2 at h2 ⊢
    have e1 : v1.toNat / 2 ^ 2 % 64 = a.toNat / 4 := by omega
    have e2 : v2.toNat / 2 ^ 4 % 64 = a.toNat % 4 * 16 + b.toNat / 16 := by omega
    have e3 : v2.toNat * 2 ^ 8 % 2 ^ 32 / 2 ^ 6 % 64 = b.toNat % 16 * 4 := by omega
    rw [digit_shift _ (by omega), digit_shift _ (by omega), digit_shift _ (by omega),
      BitVec.toNat_shiftLeft, Nat.shiftLeft_eq, e1, e2, e3]
    rfl
  | case4 a b c rest ih =>
    have ha := a.toNat_lt
    have hb := b.toNat_lt
    have hc := c.toNat_lt
    rw [encodeLoop_first, encodeLoop_second, encodeLoop_third, ih]
    have h1 := toNat_push val 8 a.toNat
    generalize (val <<< 8) + BitVec.ofNat 32 a.toNat = v1 at h1 ⊢
    have h2 := toNat_push v1 8 b.toNat
    generalize (v1 <<< 8) + BitVec.ofNat 32 b.toNat = v2 at h2 ⊢
    have h3 := toNat_push v2 8 c.toNat
    generalize (v2 <<< 8) + BitVec.ofNat 32 c.toNat = v3 at h3 ⊢
    have e1 : v1.toNat / 2 ^ 2 % 64 = a.toNat / 4 := by omega
    have e2 : v2.toNat / 2 ^ 4 % 64 = a.toNat % 4 * 16 + b.toNat / 16 := by omega
    have e3 : v3.toNat / 2 ^ 6 % 64 = b.toNat % 16 * 4 + c.toNat / 64 := by omega
    have e4 : v3.toNat / 2 ^ 0 % 64 = c.toNat % 64 := by omega
    rw [digit_shift _ (by omega), digit_shift _ (by omega), digit_shift _ (by omega),
      digit_shift _ (by omega), e1, e2, e3, e4]
    rfl

/-- The byte a sextet is written as. -/
def urlDigit (i : Nat) : UInt8 :=
  let c := encodeTable.getD i 0
  if c = 43 then 45 else if c = 47 then 95 else c

/-- That byte, back in the standard alphabet. -/
def standardDigit (i : Nat) : UInt8 :=
  let c := urlDigit i
  if c = 45 then 43 else if c = 95 then 47 else c

theorem urlDigit_ne_dot : ∀ i < 64, urlDigit i ≠ 46 := by decide +kernel

theorem decodeTable_standardDigit :
    ∀ i < 64, decodeTable.getD (standardDigit i).toNat (-1) = (i : Int) := by decide +kernel

theorem encodeTable_ne_pad : ∀ i < 64, encodeTable.getD i 0 ≠ 61 := by decide +kernel

theorem base64UrlEncode_eq (s : Text) : base64UrlEncode s = (sextets s).map urlDigit := by
  have hpad : ((sextets s).map (fun i => encodeTable.getD i 0)).rdropWhile (fun c => c == 61) =
      (sextets s).map (fun i => encodeTable.getD i 0) := by
    rw [List.rdropWhile_eq_self_iff]
    intro hne
    obtain ⟨i, hi, he⟩ := List.mem_map.mp (List.getLast_mem hne)
    have := encodeTable_ne_pad i (sextets_lt s i hi)
    rw [he] at this
    simpa using this
  simp only [base64UrlEncode, encodeLoop_sextets, hpad, replace, List.map_map]
  apply List.map_congr_left
  intro i _
  simp only [Function.comp_apply, urlDigit]
  generalize encodeTable.getD i 0 = c
  by_cases h : c = 43
  · subst c
    rfl
  · simp only [h, if_false]

theorem dot_not_mem_base64UrlEncode (s : Text) : 46 ∉ base64UrlEncode s := by
  rw [base64UrlEncode_eq, List.mem_map]
  intro h
  obtain ⟨i, hi, he⟩ := h
  exact urlDigit_ne_dot i (sextets_lt s i hi) he

theorem base64UrlEncode_ne_nil {s : Text} (h : s ≠ []) : base64UrlEncode s ≠ [] := by
  rw [base64UrlEncode_eq]
  cases s using sextets.induct with
  | case1 => exact absurd rfl h
  | case2 | case3 | case4 => simp [sextets]

section Decoding

theorem decodeLoop_skip (val : BitVec 32) {i : Nat} (hi : i < 64) (cs : Text) :
    decodeLoop val (-8) (standardDigit i :: cs) =
      decodeLoop ((val <<< 6) + BitVec.ofNat 32 i) (-2) cs := by
  simp only [decodeLoop, decodeTable_standardDigit i hi]
  rw [if_neg (by omega), if_neg (by omega), BitVec.ofInt_natCast]
  rfl

/-- A digit that completes a byte, of which `r` bits are left over. -/
theorem decodeLoop_emit (val : BitVec 32) {i r : Nat} {bits b : Int} (hi : i < 64)
    (hbits : bits + 6 = r) (hb : (r : Int) - 8 = b) (hr : r ≤ 4) (cs : Text) :
    decodeLoop val bits (standardDigit i :: cs) =
      UInt8.ofNat ((val.toNat * 2 ^ 6 + i) % 2 ^ 32 / 2 ^ r % 256) ::
        decodeLoop ((val <<< 6) + BitVec.ofNat 32 i) b cs := by
  have hfield : (((val <<< 6) + BitVec.ofNat 32 i).sshiftRight r &&& 0xFF).toNat =
      ((val <<< 6) + BitVec.ofNat 32 i).toNat / 2 ^ r % 256 :=
    toNat_field _ 0xFF (w := 8) rfl (by omega)
  simp only [decodeLoop, decodeTable_standardDigit i hi]
  rw [if_neg (by omega), if_pos (by omega), BitVec.ofInt_natCast, hbits, hb,
    Int.toNat_natCast, hfield, toNat_push]

theorem decodeLoop_pad (val : BitVec 32) (bits : Int) (n : Nat) :
    decodeLoop val bits (List.replicate n 61) = [] := by
  cases n with
  | zero => rfl
  | succ n =>
    have : decodeTable.getD (61 : UInt8).toNat (-1) = -1 := by decide +kernel
    simp only [List.replicate_succ, decodeLoop, this, if_true]

theorem ofNat_eq {a : UInt8} {n : Nat} (h : n = a.toNat) : UInt8.ofNat n = a := by
  rw [h, UInt8.ofNat_toNat]

/-- Decoding undoes the sextets, with any padding behind them. -/
theorem decodeLoop_sextets (s : Text) (val : BitVec 32) (n : Nat) :
    decodeLoop val (-8) ((sextets s).map standardDigit ++ List.replicate n 61) = s := by
  induction s using sextets.induct generalizing val with
  | case1 => simpa [sextets] using decodeLoop_pad val (-8) n
  | case2 a =>
    have ha := a.toNat_lt
    simp only [sextets, List.map_cons, List.map_nil, List.cons_append, List.nil_append]
    rw [decodeLoop_skip _ (by omega), decodeLoop_emit _ (r := 4) (b := -4) (by omega) rfl rfl (by omega),
      decodeLoop_pad, toNat_push, ofNat_eq (a := a) (by omega)]
  | case3 a b =>
    have ha := a.toNat_lt
    have hb := b.toNat_lt
    simp only [sextets, List.map_cons, List.map_nil, List.cons_append, List.nil_append]
    rw [decodeLoop_skip _ (by omega), decodeLoop_emit _ (r := 4) (b := -4) (by omega) rfl rfl (by omega),
      decodeLoop_emit _ (r := 2) (b := -6) (by omega) rfl rfl (by omega), decodeLoop_pad]
    have h1 := toNat_push val 6 (a.toNat / 4)
    generalize (val <<< 6) + BitVec.ofNat 32 (a.toNat / 4) = v1 at h1 ⊢
    have h2 := toNat_push v1 6 (a.toNat % 4 * 16 + b.toNat / 16)
    generalize (v1 <<< 6) + BitVec.ofNat 32 (a.toNat % 4 * 16 + b.toNat / 16) = v2 at h2 ⊢
    rw [ofNat_eq (a := a) (by omega), ofNat_eq (a := b) (by omega)]
  | case4 a b c rest ih =>
    have ha := a.toNat_lt
    have hb := b.toNat_lt
    have hc := c.toNat_lt
    simp only [sextets, List.map_cons, List.cons_append]
    rw [decodeLoop_skip _ (by omega), decodeLoop_emit _ (r := 4) (b := -4) (by omega) rfl rfl (by omega),
      decodeLoop_emit _ (r := 2) (b := -6) (by omega) rfl rfl (by omega),
      decodeLoop_emit _ (r := 0) (b := -8) (by omega) rfl rfl (by omega), ih]
    have h1 := toNat_push val 6 (a.toNat / 4)
    generalize (val <<< 6) + BitVec.ofNat 32 (a.toNat / 4) = v1 at h1 ⊢
    have h2 := toNat_push v1 6 (a.toNat % 4 * 16 + b.toNat / 16)
    generalize (v1 <<< 6) + BitVec.ofNat 32 (a.toNat % 4 * 16 + b.toNat / 16) = v2 at h2 ⊢
    have h3 := toNat_push v2 6 (b.toNat % 16 * 4 + c.toNat / 64)
    generalize (v2 <<< 6) + BitVec.ofNat 32 (b.toNat % 16 * 4 + c.toNat / 64) = v3 at h3 ⊢
    rw [ofNat_eq (a := a) (by omega), ofNat_eq (a := b) (by omega), ofNat_eq (a := c) (by omega)]

/-- The codec loses nothing, however much of the accumulator has shifted out. -/
theorem base64UrlDecode_encode (s : Text) : base64UrlDecode (base64UrlEncode s) = s := by
  have hstd : replace 95 47 (replace 45 43 (base64UrlEncode s)) = (sextets s).map standardDigit := by
    rw [base64UrlEncode_eq]
    simp only [replace, List.map_map]
    apply List.map_congr_left
    intro i _
    simp only [Function.comp_apply, standardDigit]
    generalize urlDigit i = c
    by_cases h : c = 45
    · subst c
      rfl
    · simp only [h, if_false]
  simp only [base64UrlDecode, pad, hstd]
  exact decodeLoop_sextets s 0 _

end Decoding

section Alphabet

/-- Letters, digits, hyphen and underscore. -/
def IsUrlChar (c : UInt8) : Prop :=
  65 ≤ c ∧ c ≤ 90 ∨ 97 ≤ c ∧ c ≤ 122 ∨ 48 ≤ c ∧ c ≤ 57 ∨ c = 45 ∨ c = 95

instance (c : UInt8) : Decidable (IsUrlChar c) :=
  inferInstanceAs (Decidable (65 ≤ c ∧ c ≤ 90 ∨ 97 ≤ c ∧ c ≤ 122 ∨ 48 ≤ c ∧ c ≤ 57 ∨ c = 45 ∨ c = 95))

theorem isUrlChar_urlDigit : ∀ i < 64, IsUrlChar (urlDigit i) := by decide +kernel

/-- Four digits for three bytes, rounded up. -/
theorem length_sextets (s : Text) : (sextets s).length = (4 * s.length + 2) / 3 := by
  induction s using sextets.induct with
  | case1 | case2 | case3 => simp [sextets]
  | case4 a b c rest ih =>
    simp only [sextets, List.length_cons, ih]
    omega

/-- The codec takes every string to its length of the alphabet and back, and every encoding back
to itself. -/
theorem base64Url_codec (s : Text) :
    base64UrlDecode (base64UrlEncode s) = s ∧
      (∀ c ∈ base64UrlEncode s, IsUrlChar c) ∧
      (base64UrlEncode s).length = (4 * s.length + 2) / 3 ∧
      ∀ e ∈ Set.range base64UrlEncode, base64UrlEncode (base64UrlDecode e) = e := by
  refine ⟨base64UrlDecode_encode s, ?_, ?_, ?_⟩
  · intro c hc
    rw [base64UrlEncode_eq, List.mem_map] at hc
    obtain ⟨i, hi, rfl⟩ := hc
    exact isUrlChar_urlDigit i (sextets_lt s i hi)
  · rw [base64UrlEncode_eq, List.length_map, length_sextets]
  · intro e he
    obtain ⟨t, rfl⟩ := he
    rw [base64UrlDecode_encode]

end Alphabet

end Cppforge.Jwt

namespace Cppforge.Jwt
open Bytes Ordered

namespace JwtToken
variable (j : JwtToken)

/-- The signed token of a header and a payload part. -/
def signed (h p : Text) : Text :=
  h ++ dot :: (p ++ dot :: base64UrlEncode (j.hmacSha256 (h ++ [dot] ++ p) j.secret))

/-- The strings that are the signed token of some dot-free parts. -/
def Signed (t : Text) : Prop := ∃ h p, dot ∉ h ∧ dot ∉ p ∧ t = j.signed h p

/-- A signed token whose payload the decoder can read, with one dot too many. -/
def Dotted (t : Text) : Prop :=
  ∃ h p ms, dot ∉ h ∧ dot ∉ p ∧ t = j.signed h p ++ [dot] ∧
    j.json.parse (cStr (base64UrlDecode p)) = some (.object ms)

theorem decode_eq_some {t : Text} {m : StringMap} : j.decode t = some m ↔
    ∃ h p ms, split dot t =
        [h, p, base64UrlEncode (j.hmacSha256 (h ++ [dot] ++ p) j.secret)] ∧
      j.json.parse (cStr (base64UrlDecode p)) = some (.object ms) ∧ m = collect ms := by
  constructor
  · intro hd
    simp only [decode] at hd
    split at hd
    · rename_i h p sig hs
      split at hd
      · cases hd
      · rename_i hsig
        have hsig := not_not.mp hsig
        split at hd
        · rename_i ms hp
          refine ⟨h, p, ms, ?_, hp, (Option.some.inj hd).symm⟩
          rw [hs, hsig]
        · cases hd
    · cases hd
  · intro hd
    obtain ⟨h, p, ms, hs, hp, rfl⟩ := hd
    simp only [decode, hs, hp, ne_eq, not_true_eq_false, if_false]

/-- Three pieces come from two inner dots, and maybe a third at the very end. -/
theorem split_three {t a b c : Text} (hc : dot ∉ c) : split dot t = [a, b, c] ↔
    dot ∉ a ∧ dot ∉ b ∧
      (c ≠ [] ∧ t = a ++ dot :: (b ++ dot :: c) ∨ t = a ++ dot :: (b ++ dot :: (c ++ [dot]))) := by
  constructor
  · intro h
    obtain ⟨ha, ⟨_, _, hnil⟩ | ⟨r1, rfl, h1⟩⟩ := split_eq_cons.mp h
    · cases hnil
    obtain ⟨hb, ⟨_, _, hnil⟩ | ⟨r2, rfl, h2⟩⟩ := split_eq_cons.mp h1
    · cases hnil
    refine ⟨ha, hb, ?_⟩
    obtain ⟨_, ⟨rfl, hne, _⟩ | ⟨r3, rfl, h3⟩⟩ := split_eq_cons.mp h2
    · exact .inl ⟨hne, rfl⟩
    · rw [split_eq_nil.mp h3]
      exact .inr rfl
  · intro h
    obtain ⟨ha, hb, ⟨hne, rfl⟩ | rfl⟩ := h
    · rw [split_append ha, split_append hb, split_last hc hne]
    · rw [split_append ha, split_append hb, split_append hc, split_nil]

theorem count_signed {h p : Text} (hh : dot ∉ h) (hp : dot ∉ p) : (j.signed h p).count dot = 2 := by
  have hsig : dot ∉ base64UrlEncode (j.hmacSha256 (h ++ [dot] ++ p) j.secret) :=
    dot_not_mem_base64UrlEncode _
  simp only [signed, List.count_append, List.count_cons_self, List.count_eq_zero.mpr hh,
    List.count_eq_zero.mpr hp, List.count_eq_zero.mpr hsig]

/-- Acceptance is exact but for the trailing dot the splitter swallows. -/
theorem decode_signed_iff (t : Text) :
    ((j.decode t).isSome = true → j.Signed t) ↔ ¬ j.Dotted t := by
  constructor
  · intro hexact hdot
    obtain ⟨h, p, ms, hh, hp, rfl, hparse⟩ := hdot
    have hsplit := (split_three (t := j.signed h p ++ [dot])
      (dot_not_mem_base64UrlEncode (j.hmacSha256 (h ++ [dot] ++ p) j.secret))).mpr
      ⟨hh, hp, .inr (by simp [signed])⟩
    have hsome := (j.decode_eq_some).mpr ⟨h, p, ms, hsplit, hparse, rfl⟩
    obtain ⟨h', p', hh', hp', he⟩ := hexact (by rw [hsome]; rfl)
    have hcount := congrArg (List.count dot) he
    rw [List.count_append, j.count_signed hh hp, j.count_signed hh' hp'] at hcount
    simp at hcount
  · intro hdot hsome
    obtain ⟨m, hm⟩ := Option.isSome_iff_exists.mp hsome
    obtain ⟨h, p, ms, hs, hparse, _⟩ := (j.decode_eq_some).mp hm
    obtain ⟨hh, hp, ⟨_, ht⟩ | ht⟩ := (split_three
      (dot_not_mem_base64UrlEncode (j.hmacSha256 (h ++ [dot] ++ p) j.secret))).mp hs
    · exact ⟨h, p, hh, hp, ht⟩
    · exact absurd ⟨h, p, ms, hh, hp, by simpa [signed] using ht, hparse⟩ hdot

end JwtToken

section RoundTrip

theorem assign_last (m : StringMap) {key value : Text}
    (h : ∀ e ∈ m.entries, textLess e.1 key = true) :
    (m.assign key value).entries = m.entries ++ [(key, value)] := by
  have happ : (m.assign key value).entries = upsert (fun e => cut textLess key e.1)
      (fun e => (e.1, value)) (key, value) (m.entries ++ []) := by
    rw [List.append_nil]
    rfl
  rw [happ, upsert_append_left _ _ (fun e he => cut_eq_lt.mpr (h e he))]
  rfl

/-- The members of a parsed object that holds strings only. -/
def strings (ms : List (Text × Text)) : List (Text × JsonValue) := ms.map (fun m => (m.1, .string m.2))

/-- Names in increasing order are assigned one behind the other. -/
theorem foldl_assign (pre : StringMap) (ms : List (Text × Text))
    (hs : (pre.entries ++ ms).Pairwise (fun a b => textLess a.1 b.1 = true)) :
    (ms.foldl (fun result m => result.assign m.1 m.2) pre).entries = pre.entries ++ ms := by
  induction ms generalizing pre with
  | nil => simp
  | cons m ms ih =>
    have hlast : (pre.assign m.1 m.2).entries = pre.entries ++ [m] := by
      apply assign_last
      intro e he
      exact (List.pairwise_append.mp hs).2.2 e he m List.mem_cons_self
    rw [List.foldl_cons, ih (pre.assign m.1 m.2) (by rw [hlast]; simpa using hs), hlast]
    simp

/-- Whatever is collected went through C strings. -/
theorem foldl_assign_noNul (pre : StringMap) (ms : List (Text × Text))
    (hpre : ∀ e ∈ pre.entries, NoNul e.1 ∧ NoNul e.2) :
    ∀ e ∈ (ms.foldl (fun result m => result.assign (cStr m.1) (cStr m.2)) pre).entries,
      NoNul e.1 ∧ NoNul e.2 := by
  induction ms generalizing pre with
  | nil => exact hpre
  | cons m ms ih =>
    apply ih
    intro e he
    rcases mem_upsert _ he with rfl | he | ⟨e', he', _, rfl⟩
    · exact ⟨noNul_cStr _, noNul_cStr _⟩
    · exact hpre e he
    · exact ⟨(hpre e' he').1, noNul_cStr _⟩

theorem collect_strings (ms : List (Text × Text)) : JwtToken.collect (strings ms) =
    ms.foldl (fun result m => result.assign (cStr m.1) (cStr m.2)) .empty := by
  rw [JwtToken.collect, strings, List.foldl_map]

theorem collect_eq_iff (m : StringMap) : JwtToken.collect (strings (JwtToken.members m)) = m ↔
    ∀ e ∈ m.entries, NoNul e.1 ∧ NoNul e.2 := by
  rw [collect_strings]
  constructor
  · intro h
    have hall := foldl_assign_noNul .empty (JwtToken.members m) (by simp [StringMap.empty])
    rwa [h] at hall
  · intro h
    have hstr : ∀ e ∈ m.entries, (cStr e.1, cStr e.2) = e := by
      intro e he
      rw [cStr_eq_self.mpr (h e he).1, cStr_eq_self.mpr (h e he).2]
    have hmem : JwtToken.members m = m.entries := by
      rw [JwtToken.members, List.map_congr_left hstr, List.map_id']
    have hcong : m.entries.foldl (fun result e => result.assign (cStr e.1) (cStr e.2)) .empty =
        m.entries.foldl (fun result e => result.assign e.1 e.2) StringMap.empty := by
      apply List.foldl_ext
      intro result e he
      rw [cStr_eq_self.mpr (h e he).1, cStr_eq_self.mpr (h e he).2]
    rw [hmem, hcong]
    apply StringMap.ext
    exact foldl_assign .empty m.entries m.sorted

theorem split_encode (j : JwtToken) (m : StringMap)
    (hsig : ∀ data key, j.hmacSha256 data key ≠ []) :
    split JwtToken.dot (j.encode m) = [base64UrlEncode JwtToken.header,
      base64UrlEncode (cStr (j.json.write (JwtToken.members m))),
      base64UrlEncode (j.hmacSha256 (base64UrlEncode JwtToken.header ++ [JwtToken.dot] ++
        base64UrlEncode (cStr (j.json.write (JwtToken.members m)))) j.secret)] := by
  refine (JwtToken.split_three (dot_not_mem_base64UrlEncode _)).mpr
    ⟨dot_not_mem_base64UrlEncode _, dot_not_mem_base64UrlEncode _,
      .inl ⟨base64UrlEncode_ne_nil (hsig _ _), ?_⟩⟩
  simp [JwtToken.encode]

/-- The round trip is exact for the payloads that C strings can carry, and for no other. -/
theorem decode_encode_iff (j : JwtToken) (m : StringMap)
    (hmac : ∀ data key, (j.hmacSha256 data key).length = 32)
    (hwrite : NoNul (j.json.write (JwtToken.members m)))
    (hparse : j.json.parse (j.json.write (JwtToken.members m)) =
      some (.object (strings (JwtToken.members m)))) :
    j.decode (j.encode m) = some m ↔ ∀ e ∈ m.entries, NoNul e.1 ∧ NoNul e.2 := by
  have hsig : ∀ data key, j.hmacSha256 data key ≠ [] := by
    intro data key hnil
    have := hmac data key
    rw [hnil] at this
    cases this
  rw [← collect_eq_iff]
  have hdec : j.decode (j.encode m) =
      some (JwtToken.collect (strings (JwtToken.members m))) := by
    refine (j.decode_eq_some).mpr ⟨_, _, _, split_encode j m hsig, ?_, rfl⟩
    rw [base64UrlDecode_encode, cStr_eq_self.mpr (noNul_cStr _), cStr_eq_self.mpr hwrite, hparse]
  rw [hdec, Option.some.injEq]

/-- The text of an object with the one member `a`, whose value is `b`. -/
def sampleText : Text := ascii "\x7b\"a\":\"b\"\x7d"

/-- The signature of that payload under the secret `k`. -/
def sampleHmac : Text :=
  [131, 85, 172, 72, 227, 231, 121, 130, 230, 200, 86, 0, 168, 130, 201, 232,
    56, 110, 35, 244, 62, 31, 17, 36, 120, 222, 76, 120, 63, 131, 210, 239]

def sample : JwtToken where
  hmacSha256 _ _ := sampleHmac
  json := ⟨fun _ => sampleText, fun _ => some (.object (strings [(ascii "a", ascii "b")]))⟩
  secret := ascii "k"

def samplePayload : StringMap := ⟨[(ascii "a", ascii "b")], List.pairwise_singleton _ _⟩

theorem decode_encode_sample : sample.decode (sample.encode samplePayload) = some samplePayload :=
  (decode_encode_iff sample samplePayload (fun _ _ => rfl) (by decide +kernel) rfl).mpr
    (by decide +kernel)

/-- A value with a zero byte comes back without it. -/
def nulPayload : StringMap := ⟨[(ascii "a", ascii "b" ++ [0])], List.pairwise_singleton _ _⟩

theorem decode_encode_nul :
    sample.json.parse (sample.json.write (JwtToken.members nulPayload)) =
      some (.object (strings (JwtToken.members nulPayload))) ∧
    sample.decode (sample.encode nulPayload) ≠ some nulPayload :=
  ⟨rfl, by decide +kernel⟩

theorem decode_dotted :
    (sample.decode (sample.encode samplePayload ++ [JwtToken.dot])).isSome = true ∧
      ¬ sample.Signed (sample.encode samplePayload ++ [JwtToken.dot]) := by
  refine ⟨by decide +kernel, ?_⟩
  intro h
  obtain ⟨h, p, hh, hp, he⟩ := h
  have hcount := congrArg (List.count JwtToken.dot) he
  rw [sample.count_signed hh hp] at hcount
  exact absurd hcount (by decide +kernel)

end RoundTrip

end Cppforge.Jwt
