import Mathlib.Algebra.Group.Int.Defs
import Mathlib.Data.List.FinRange
import Mathlib.Logic.Function.Basic
import Cppforge.Lib.Bytes

namespace Cppforge.Crypto
open Bytes Function

/-- An array of `ALPHABET_SIZE` characters. -/
abbrev SubstitutionCipher.Table := Fin 26 → UInt8

structure SubstitutionCipher where
  encode_map_ : SubstitutionCipher.Table
  decode_map_ : SubstitutionCipher.Table

namespace SubstitutionCipher

def kAlphabet : Table := fun i => UInt8.ofNat (65 + i)

def isupper (c : UInt8) : Bool := 65 ≤ c && c ≤ 90

def islower (c : UInt8) : Bool := 97 ≤ c && c ≤ 122

def isalpha (c : UInt8) : Bool := isupper c || islower c

def toupper (c : UInt8) : UInt8 := if islower c then c - 32 else c

def tolower (c : UInt8) : UInt8 := if isupper c then c + 32 else c

/-- The place of a letter in the alphabet. -/
def letter (c : UInt8) : Fin 26 := Fin.ofNat 26 ((toupper c).toNat - 65)

/-- `static_cast<size_t>(c - first)`, where `char` is signed. -/
def offset (c first : UInt8) : Nat := ((c.toInt8.toInt - first.toInt8.toInt) % 2 ^ 64).toNat

/-- `none` is an index out of range. -/
def entry (map : Table) (idx : Nat) : Option UInt8 :=
  if h : idx < 26 then some (map ⟨idx, h⟩) else none

def setEntry (map : Table) (idx : Nat) (c : UInt8) : Option Table :=
  if h : idx < 26 then some (update map ⟨idx, h⟩ c) else none

/-- The overrides, in the order in which the container is gone through. -/
def override (encode_map_ : Table) (mapping : List (UInt8 × UInt8)) : Option Table :=
  mapping.foldlM (fun map pair => setEntry map (offset (toupper pair.1) 65) (toupper pair.2))
    encode_map_

/-- The loop of `ValidateAndBuildReverseMap`. The errors are those of `std::invalid_argument`. -/
def reverseFrom (encode_map_ : Table) :
    List (Fin 26) → (Fin 26 → Bool) → Table → Option (Except Text Table)
  | [], _, decode_map_ => some (.ok decode_map_)
  | i :: rest, seen, decode_map_ =>
    let encoded := encode_map_ i
    if ¬ isalpha encoded then
      some (.error (ascii "Mapping must contain only alphabetic characters"))
    else
      let idx := offset (toupper encoded) 65
      if h : idx < 26 then
        if seen ⟨idx, h⟩ then some (.error (ascii "Mapping must be bijective (one-to-one)"))
        else
          reverseFrom encode_map_ rest (update seen ⟨idx, h⟩ true)
            (update decode_map_ ⟨idx, h⟩ (kAlphabet i))
      else none

/-- `decode_map_` is what the array holds before it is filled. -/
def validateAndBuildReverseMap (encode_map_ decode_map_ : Table) :
    Option (Except Text SubstitutionCipher) := do
  match ← reverseFrom encode_map_ (List.finRange 26) (fun _ => false) decode_map_ with
  | .error e => return .error e
  | .ok decode_map_ => return .ok ⟨encode_map_, decode_map_⟩

def ofMapping (decode_map_ : Table) (mapping : List (UInt8 × UInt8)) :
    Option (Except Text SubstitutionCipher) := do
  validateAndBuildReverseMap (← override kAlphabet mapping) decode_map_

def ofShift (decode_map_ : Table) (shift : Int) : Option (Except Text SubstitutionCipher) :=
  let normalized_shift := shift.tmod 26
  let normalized_shift := if normalized_shift < 0 then normalized_shift + 26 else normalized_shift
  validateAndBuildReverseMap
    (fun i => kAlphabet (Fin.ofNat 26 (i + normalized_shift.toNat))) decode_map_

def transformChar (c : UInt8) (map : Table) : Option UInt8 :=
  if ¬ isalpha c then some c
  else if isupper c then entry map (offset c 65)
  else do return tolower (← entry map (offset c 97))

def encrypt (cipher : SubstitutionCipher) (plaintext : Text) : Option Text :=
  plaintext.mapM fun c => transformChar c cipher.encode_map_

def decrypt (cipher : SubstitutionCipher) (ciphertext : Text) : Option Text :=
  ciphertext.mapM fun c => transformChar c cipher.decode_map_

end SubstitutionCipher
end Cppforge.Crypto
