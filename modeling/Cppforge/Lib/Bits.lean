import Mathlib.Data.Int.Basic
import Mathlib.Algebra.Ring.Int.Defs
import Mathlib.Algebra.GroupWithZero.Nat
import Mathlib.Algebra.Group.Nat.Defs
import Mathlib.Data.Nat.Bitwise
import Mathlib.Data.Nat.EvenOddRec

/-! Fields packed into a signed word that is never negative. -/

namespace BitFields

variable {x y s : Int64} {k n : Nat}

theorem toNat_toBitVec (h : 0 ≤ x.toInt) : (x.toBitVec.toNat : Int) = x.toInt := by
  have hlt := x.toBitVec.isLt
  have hcond := BitVec.toInt_eq_toNat_cond x.toBitVec
  rw [Int64.toInt_toBitVec] at hcond
  split at hcond <;> omega

theorem toInt_of_toNat (h : x.toBitVec.toNat = k) (hk : k < 2 ^ 63) : x.toInt = k := by
  have hcond := BitVec.toInt_eq_toNat_cond x.toBitVec
  rw [Int64.toInt_toBitVec] at hcond
  split at hcond <;> omega

/-- A shift that drops no bit. -/
theorem toInt_shiftLeft (hs : (s.toBitVec.smod 64).toNat = n) (hx : 0 ≤ x.toInt)
    (hlt : x.toInt * 2 ^ n < 2 ^ 63) : (x <<< s).toInt = x.toInt * 2 ^ n := by
  have hnat := toNat_toBitVec hx
  rw [← hnat] at hlt ⊢
  have hlt' : x.toBitVec.toNat * 2 ^ n < 2 ^ 63 := by exact_mod_cast hlt
  have hval : (x <<< s).toBitVec.toNat = x.toBitVec.toNat * 2 ^ n := by
    rw [Int64.toBitVec_shiftLeft, BitVec.shiftLeft_eq', hs, BitVec.toNat_shiftLeft,
      Nat.shiftLeft_eq, Nat.mod_eq_of_lt (by omega)]
  exact_mod_cast toInt_of_toNat hval hlt'

/-- A field below the others is added to them. -/
theorem toInt_or (hx : 0 ≤ x.toInt) (hdvd : (2 : Int) ^ n ∣ x.toInt) (hy : 0 ≤ y.toInt)
    (hlt : y.toInt < 2 ^ n) (hsum : x.toInt + y.toInt < 2 ^ 63) :
    (x ||| y).toInt = x.toInt + y.toInt := by
  have hxn := toNat_toBitVec hx
  have hyn := toNat_toBitVec hy
  rw [← hxn] at hdvd hsum ⊢
  rw [← hyn] at hlt hsum ⊢
  obtain ⟨a, ha⟩ : 2 ^ n ∣ x.toBitVec.toNat := by exact_mod_cast hdvd
  have hlt' : y.toBitVec.toNat < 2 ^ n := by exact_mod_cast hlt
  have hval : (x ||| y).toBitVec.toNat = x.toBitVec.toNat + y.toBitVec.toNat := by
    rw [Int64.toBitVec_or, BitVec.toNat_or, ha, Nat.two_pow_add_eq_or_of_lt hlt']
  exact_mod_cast toInt_of_toNat hval (by exact_mod_cast hsum)

/-- A mask of low bits is a remainder. -/
theorem toInt_and (hx : 0 ≤ x.toInt) (hy : y.toInt = 2 ^ n - 1) (hn : n ≤ 63) :
    (x &&& y).toInt = x.toInt % 2 ^ n := by
  have hpos := Nat.two_pow_pos n
  have hpow : 2 ^ n ≤ 2 ^ 63 := Nat.pow_le_pow_right (by decide) hn
  have hcast : ((2 ^ n : Nat) : Int) = 2 ^ n := by norm_cast
  have hxn := toNat_toBitVec hx
  have hyn : y.toBitVec.toNat = 2 ^ n - 1 := by
    have := toNat_toBitVec (x := y) (by omega)
    omega
  have hval : (x &&& y).toBitVec.toNat = x.toBitVec.toNat % 2 ^ n := by
    rw [Int64.toBitVec_and, BitVec.toNat_and, hyn, Nat.and_two_pow_sub_one_eq_mod]
  have hmod := Nat.mod_lt x.toBitVec.toNat hpos
  rw [toInt_of_toNat hval (by omega), ← hxn]
  norm_cast

end BitFields

/-! Numbers as bytes, the lowest byte first. -/

namespace LittleEndian

/-- The lowest bytes of a number. -/
def bytesOf : Nat → Nat → List UInt8
  | 0, _ => []
  | width + 1, n => UInt8.ofNat n :: bytesOf width (n / 256)

def valueOf : List UInt8 → Nat
  | [] => 0
  | b :: bytes => b.toNat + 256 * valueOf bytes

theorem length_bytesOf (width n : Nat) : (bytesOf width n).length = width := by
  induction width generalizing n with
  | zero => rfl
  | succ width ih => rw [bytesOf, List.length_cons, ih]

/-- What does not fit is lost. -/
theorem valueOf_bytesOf (width n : Nat) : valueOf (bytesOf width n) = n % 256 ^ width := by
  induction width generalizing n with
  | zero => rw [Nat.pow_zero, Nat.mod_one]; rfl
  | succ width ih =>
    rw [Nat.pow_succ', Nat.mod_mul, ← ih]
    rfl

theorem valueOf_uint64 (n : UInt64) : valueOf (bytesOf 8 n.toNat) = n.toNat := by
  rw [valueOf_bytesOf]
  exact Nat.mod_eq_of_lt n.toNat_lt

theorem valueOf_uint32 {n : Nat} (hn : n < 2 ^ 32) :
    valueOf (bytesOf 4 (UInt32.ofNat n).toNat) = n := by
  rw [valueOf_bytesOf, UInt32.toNat_ofNat_of_lt' hn]
  exact Nat.mod_eq_of_lt hn

end LittleEndian

/-! The lowest bit of a number that is set, and the numbers that cover a position by the range
below them that their lowest bit measures. -/

namespace LowBit

variable {x i j p r w : Nat}

/-- The lowest bit that is set. -/
def lowBit (x : Nat) : Nat :=
  if x = 0 then 0 else if x % 2 = 1 then 1 else 2 * lowBit (x / 2)
termination_by x
decreasing_by omega

@[simp] theorem lowBit_odd (y : Nat) : lowBit (2 * y + 1) = 1 := by
  rw [lowBit, if_neg (by omega), if_pos (by omega)]

@[simp] theorem lowBit_even (y : Nat) : lowBit (2 * y) = 2 * lowBit y := by
  rw [lowBit]
  split
  · obtain rfl : y = 0 := by omega
    simp [lowBit]
  · rw [if_neg (by omega), Nat.mul_div_cancel_left y Nat.two_pos]

theorem lowBit_pos (h : 0 < x) : 0 < lowBit x := by
  induction x using Nat.evenOddRec with
  | h0 => cases h
  | h_even y ih =>
    rw [lowBit_even]
    have := ih (by omega)
    omega
  | h_odd y ih => simp

theorem lowBit_le (x : Nat) : lowBit x ≤ x := by
  induction x using Nat.evenOddRec with
  | h0 => simp [lowBit]
  | h_even y ih =>
    rw [lowBit_even]
    omega
  | h_odd y ih =>
    rw [lowBit_odd]
    omega

/-- Below the lowest bit of a number, what is added decides on the lowest bit. -/
theorem lowBit_add (h : 0 < r) (hr : r < lowBit i) : lowBit (i + r) = lowBit r := by
  induction i using Nat.evenOddRec generalizing r with
  | h0 => simp [lowBit] at hr
  | h_even y ih =>
    rw [lowBit_even] at hr
    rcases Nat.even_or_odd' r with ⟨s, rfl | rfl⟩
    · rw [← Nat.mul_add, lowBit_even, lowBit_even, ih (by omega) (by omega)]
    · rw [← Nat.add_assoc, ← Nat.mul_add, lowBit_odd, lowBit_odd]
  | h_odd y ih =>
    rw [lowBit_odd] at hr
    omega

/-- One lowest bit further, the lowest bit is at least twice as large. -/
theorem lowBit_next (h : 0 < i) : 2 * lowBit i ≤ lowBit (i + lowBit i) := by
  induction i using Nat.evenOddRec with
  | h0 => cases h
  | h_even y ih =>
    rw [lowBit_even, ← Nat.mul_add, lowBit_even]
    exact Nat.mul_le_mul_left 2 (ih (by omega))
  | h_odd y ih =>
    have heven : 2 * y + 1 + 1 = 2 * (y + 1) := by omega
    rw [lowBit_odd, heven, lowBit_even]
    have := lowBit_pos (x := y + 1) (Nat.succ_pos y)
    omega

theorem and_complement (h : x < 2 ^ w) : x &&& (2 ^ w - (x + 1)) = 0 := by
  refine Nat.eq_of_testBit_eq ?_
  intro i
  rw [Nat.testBit_and, Nat.testBit_two_pow_sub_succ h]
  cases x.testBit i with
  | false => simp
  | true => simp

/-- Among words, a number and its negative share the lowest bit only. -/
theorem and_neg (h : 0 < x) (hx : x < 2 ^ w) : x &&& (2 ^ w - x) = lowBit x := by
  induction x using Nat.evenOddRec generalizing w with
  | h0 => cases h
  | h_even y ih =>
    cases w with
    | zero => omega
    | succ w =>
      have hneg : 2 ^ (w + 1) - 2 * y = 2 * (2 ^ w - y) := by omega
      have hy : y < 2 ^ w := by omega
      rw [hneg, lowBit_even, ← ih (by omega) hy]
      exact Nat.land_bit false y false (2 ^ w - y)
  | h_odd y ih =>
    cases w with
    | zero => omega
    | succ w =>
      have hneg : 2 ^ (w + 1) - (2 * y + 1) = 2 * (2 ^ w - (y + 1)) + 1 := by omega
      have hy : y < 2 ^ w := by omega
      have hbits := Nat.land_bit true y true (2 ^ w - (y + 1))
      rw [and_complement hy] at hbits
      rw [hneg, lowBit_odd]
      exact hbits

/-- The range below a number that its lowest bit measures holds a position. -/
def Covers (i p : Nat) : Prop := i - lowBit i ≤ p ∧ p < i

instance (i p : Nat) : Decidable (Covers i p) := inferInstanceAs (Decidable (_ ∧ _))

theorem covers_succ (p : Nat) : Covers (p + 1) p := by
  have := lowBit_pos (x := p + 1) (Nat.succ_pos p)
  exact ⟨by omega, Nat.lt_succ_self p⟩

theorem Covers.pos (h : Covers i p) : 0 < i := by
  have := h.2
  omega

/-- After a number that covers a position comes the one a lowest bit further. -/
theorem Covers.next (h : Covers i p) : Covers (i + lowBit i) p := by
  have hnext := lowBit_next h.pos
  obtain ⟨hlow, hhigh⟩ := h
  exact ⟨by omega, by omega⟩

theorem Covers.gap (h : Covers i p) (hj : i < j) (hnext : j < i + lowBit i) : ¬ Covers j p := by
  intro hcover
  have hlow : lowBit j = lowBit (j - i) := by
    have hadd := lowBit_add (i := i) (r := j - i) (by omega) (by omega)
    rwa [Nat.add_sub_cancel' hj.le] at hadd
  have hle := lowBit_le (j - i)
  have hp := h.2
  have hj' := hcover.1
  omega

end LowBit
