import Cppforge.Lib.Bytes
import Mathlib.Algebra.Group.Int.Defs

namespace Cppforge.Toolkit
open Bytes

inductive Width where
  | w8
  | w16
  | w32
  | w64

def Width.bits : Width → Nat
  | .w8 => 8
  | .w16 => 16
  | .w32 => 32
  | .w64 => 64

/-- An integer type `T`. -/
structure IntType where
  width : Width
  signed : Bool

/-- The values of `T` and of `UnsignedT`. A cast between them keeps the bits. -/
abbrev IntType.Bits (T : IntType) : Type := BitVec T.width.bits

/-- The number that a value of `T` stands for. -/
def IntType.toInt (T : IntType) (value : T.Bits) : Int :=
  if T.signed then value.toInt else value.toNat

def IntType.min (T : IntType) : Int := if T.signed then -2 ^ (T.width.bits - 1) else 0

def IntType.max (T : IntType) : Int :=
  if T.signed then 2 ^ (T.width.bits - 1) - 1 else 2 ^ T.width.bits - 1

inductive Exception where
  | invalid_argument (what : Text)
  | out_of_range (what : Text)

/-- What negating the minimum of a type does. Types below `int` are negated as `int`. -/
inductive Negation where
  | wraps
  | checked
deriving DecidableEq

structure RadixToolkit where
  default_base_ : Int
  charset_ : Text
  two_le : 2 ≤ default_base_
  le_size : default_base_ ≤ charset_.length

namespace RadixToolkit

def create (default_base : Int) (charset : Text) : Except Exception RadixToolkit :=
  if h : 2 ≤ default_base ∧ default_base ≤ charset.length then
    .ok ⟨default_base, charset, h.1, h.2⟩
  else .error (.invalid_argument (ascii "Default base incompatible with charset size"))

/-- `none` is a division by zero, an index out of range or a loop without end: with a base from
2 the loop ends in as many turns as there are bits. -/
def digitLoop {w : Nat} (charset : Text) (ubase : BitVec w) : Nat → BitVec w → Text → Option Text
  | 0, _, _ => none
  | turns + 1, abs_value, result =>
    if abs_value = 0 then some result
    else if ubase = 0 then none
    else do
      let c ← charset[(abs_value % ubase).toNat]?
      digitLoop charset ubase turns (abs_value / ubase) (result ++ [c])

def isNegative (T : IntType) (value : T.Bits) : Bool := T.signed && value.slt 0

/-- The sum is that of the code, which keeps the minimum from being negated. -/
def absValue (T : IntType) (value : T.Bits) : T.Bits :=
  if isNegative T value then -(value + 1) + 1 else value

def convertToString (T : IntType) (value : T.Bits) (base : Int) (charset : Text) :
    Option (Except Exception Text) :=
  if base < 2 ∨ charset.length < base then
    some (.error (.invalid_argument (ascii "Base must be between 2 and charset size")))
  else if value = 0 then do
    let c ← charset[0]?
    return .ok [c]
  else do
    let ubase : T.Bits := BitVec.ofInt _ base
    let result ← digitLoop charset ubase (T.width.bits + 1) (absValue T value) []
    let result := if isNegative T value then result ++ ascii "-" else result
    return .ok result.reverse

def charToDigit (c : UInt8) : Int :=
  if 48 ≤ c ∧ c ≤ 57 then c.toNat - 48
  else if 65 ≤ c ∧ c ≤ 90 then c.toNat - 65 + 10
  else if 97 ≤ c ∧ c ≤ 122 then c.toNat - 97 + 10
  else -1

/-- The sign and the text behind it. -/
def readSign (T : IntType) (str : Text) : Except Exception (Bool × Text) :=
  match str with
  | [] => .error (.invalid_argument (ascii "Empty input string"))
  | c :: rest =>
    if T.signed ∧ c = 45 then
      if rest.isEmpty then .error (.invalid_argument (ascii "Invalid format: lone minus sign"))
      else .ok (true, rest)
    else if T.signed ∧ c = 43 then .ok (false, rest)
    else .ok (false, str)

/-- The loop over the characters behind the sign. -/
def magnitude (T : IntType) (base : Int) : T.Bits → Text → Except Exception T.Bits
  | result, [] => .ok result
  | result, c :: rest =>
    let ubase : T.Bits := BitVec.ofInt _ base
    let digit := charToDigit c
    if digit < 0 ∨ base ≤ digit then
      .error (.invalid_argument (ascii "Invalid character '" ++ [c] ++ ascii "' for base " ++
        ascii (toString base)))
    else
      let digit_val : T.Bits := BitVec.ofInt _ digit
      let max_unsigned := BitVec.allOnes _
      if result > (max_unsigned - digit_val) / ubase then
        .error (.out_of_range (ascii "Value exceeds type limits"))
      else magnitude T base (result * ubase + digit_val) rest

/-- The end of `convertFromString`. `none` is an overflow. -/
def signedValue (neg : Negation) (T : IntType) (negative : Bool) (result : T.Bits) :
    Option (Except Exception T.Bits) :=
  if ¬ T.signed then some (.ok result)
  else if negative then
    let min_mag := BitVec.intMin _
    if result > min_mag then some (.error (.out_of_range (ascii "Value below type minimum")))
    else
      match neg with
      | .wraps => some (.ok (-result))
      | .checked =>
        if result = min_mag ∧ 32 ≤ T.width.bits then none else some (.ok (-result))
  else if result > BitVec.intMax _ then
    some (.error (.out_of_range (ascii "Value exceeds type maximum")))
  else some (.ok result)

def convertFromString (neg : Negation) (T : IntType) (str : Text) (base : Int) :
    Option (Except Exception T.Bits) :=
  if base < 2 ∨ 36 < base then
    some (.error (.invalid_argument (ascii "Base must be between 2 and 36")))
  else
    match readSign T str with
    | .error e => some (.error e)
    | .ok (negative, rest) =>
      match magnitude T base 0 rest with
      | .error e => some (.error e)
      | .ok result => signedValue neg T negative result

protected def toString (r : RadixToolkit) (T : IntType) (value : T.Bits) (override_base : Int) :
    Option (Except Exception Text) :=
  let base := if override_base = 0 then r.default_base_ else override_base
  convertToString T value base r.charset_

def fromString (neg : Negation) (r : RadixToolkit) (T : IntType) (str : Text)
    (override_base : Int) : Option (Except Exception T.Bits) :=
  let base := if override_base = 0 then r.default_base_ else override_base
  convertFromString neg T str base

end RadixToolkit
end Cppforge.Toolkit
