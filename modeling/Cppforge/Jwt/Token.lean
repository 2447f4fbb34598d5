import Cppforge.Lib.Bytes
import Cppforge.Lib.Ordered
import Mathlib.Data.List.DropRight

namespace Cppforge.Jwt
open Bytes Ordered

section Codec

/-- `std::replace` over a whole string. -/
def replace (old new : UInt8) (s : Text) : Text := s.map (fun c => if c = old then new else c)

def encodeTable : Text := ascii "ABCDEFGHIJKLMNOPQRSTUVWXYZabcdefghijklmnopqrstuvwxyz0123456789+/"

/-- `table[v & mask]` of the encoder. -/
def digit (v : BitVec 32) : UInt8 := encodeTable.getD (v &&& 0x3F).toNat 0

/-- The inner loop of the encoder: one digit for each six whole bits. `bits`
falls by six a turn, so `bits + 1` turns are enough. -/
def drain (val : BitVec 32) : Nat → Int → Text × Int
  | 0, bits => ([], bits)
  | fuel + 1, bits =>
    if 0 ≤ bits then
      let (output, bits') := drain val fuel (bits - 6)
      (digit (val.sshiftRight bits.toNat) :: output, bits')
    else ([], bits)

/-- The encoder's loop over the input, with the last partial digit at its end.
`val` is a 32-bit `int` whose high bits shift out. -/
def encodeLoop (val : BitVec 32) (bits : Int) : Text → Text
  | [] => if -6 < bits then [digit ((val <<< 8).sshiftRight (bits + 8).toNat)] else []
  | c :: cs =>
    let val := (val <<< 8) + BitVec.ofNat 32 c.toNat
    let bits := bits + 8
    let (output, bits) := drain val (bits + 1).toNat bits
    output ++ encodeLoop val bits cs

def base64UrlEncode (input : Text) : Text :=
  let output := (encodeLoop 0 (-6) input).rdropWhile (fun c => c == 61)
  replace 47 95 (replace 43 45 output)

def decodeTable : List Int := [
  -1, -1, -1, -1, -1, -1, -1, -1, -1, -1, -1, -1, -1, -1, -1, -1,
  -1, -1, -1, -1, -1, -1, -1, -1, -1, -1, -1, -1, -1, -1, -1, -1,
  -1, -1, -1, -1, -1, -1, -1, -1, -1, -1, -1, 62, -1, -1, -1, 63,
  52, 53, 54, 55, 56, 57, 58, 59, 60, 61, -1, -1, -1, -1, -1, -1,
  -1, 0, 1, 2, 3, 4, 5, 6, 7, 8, 9, 10, 11, 12, 13, 14,
  15, 16, 17, 18, 19, 20, 21, 22, 23, 24, 25, -1, -1, -1, -1, -1,
  -1, 26, 27, 28, 29, 30, 31, 32, 33, 34, 35, 36, 37, 38, 39, 40,
  41, 42, 43, 44, 45, 46, 47, 48, 49, 50, 51, -1, -1, -1, -1, -1,
  -1, -1, -1, -1, -1, -1, -1, -1, -1, -1, -1, -1, -1, -1, -1, -1,
  -1, -1, -1, -1, -1, -1, -1, -1, -1, -1, -1, -1, -1, -1, -1, -1,
  -1, -1, -1, -1, -1, -1, -1, -1, -1, -1, -1, -1, -1, -1, -1, -1,
  -1, -1, -1, -1, -1, -1, -1, -1, -1, -1, -1, -1, -1, -1, -1, -1,
  -1, -1, -1, -1, -1, -1, -1, -1, -1, -1, -1, -1, -1, -1, -1, -1,
  -1, -1, -1, -1, -1, -1, -1, -1, -1, -1, -1, -1, -1, -1, -1, -1,
  -1, -1, -1, -1, -1, -1, -1, -1, -1, -1, -1, -1, -1, -1, -1, -1,
  -1, -1, -1, -1, -1, -1, -1, -1, -1, -1, -1, -1, -1, -1, -1, -1]

/-- The decoder's loop; it stops at the first byte outside the alphabet. -/
def decodeLoop (val : BitVec 32) (bits : Int) : Text → Text
  | [] => []
  | c :: cs =>
    let entry := decodeTable.getD c.toNat (-1)
    if entry = -1 then []
    else
      let val := (val <<< 6) + BitVec.ofInt 32 entry
      let bits := bits + 6
      if 0 ≤ bits then
        UInt8.ofNat (val.sshiftRight bits.toNat &&& 0xFF).toNat :: decodeLoop val (bits - 8) cs
      else decodeLoop val bits cs

/-- `=` is appended until the length is a multiple of four. -/
def pad (b64 : Text) : Text := b64 ++ List.replicate ((4 - b64.length % 4) % 4) 61

def base64UrlDecode (input : Text) : Text :=
  decodeLoop 0 (-8) (pad (replace 95 47 (replace 45 43 input)))

end Codec

section Payload

/-- `std::string::operator<`, bytes compared as unsigned. -/
def textLess (a b : Text) : Bool := decide (a < b)

theorem textLess_strictWeak : StrictWeak textLess where
  irrefl a := by simp [textLess, List.lt_irrefl]
  trans hab hbc := by
    simp only [textLess, decide_eq_true_eq] at hab hbc ⊢
    exact List.lt_trans hab hbc
  split b hac := by
    simp only [textLess, decide_eq_true_eq] at hac ⊢
    rcases Decidable.em (_ < b) with hab | hab
    · exact .inl hab
    · exact .inr (List.lt_of_le_of_lt (List.not_lt.mp hab) hac)

/-- `std::map<std::string, std::string>`: its bindings, in strictly increasing key order. -/
@[ext]
structure StringMap where
  entries : List (Text × Text)
  sorted : entries.Pairwise (fun a b => textLess a.1 b.1 = true)
deriving DecidableEq

namespace StringMap

def empty : StringMap := ⟨[], .nil⟩

/-- `result[key] = value`. -/
def assign (m : StringMap) (key value : Text) : StringMap where
  entries := upsert (fun e => cut textLess key e.1) (fun e => (e.1, value)) (key, value) m.entries
  sorted := upsert_pairwise textLess_strictWeak Prod.fst (fun e => (e.1, value)) (key, value) rfl
    (fun _ => rfl) m.entries m.sorted

end StringMap

/-- A parsed RapidJSON value, as far as the decoder tells values apart. -/
inductive JsonValue where
  | object (members : List (Text × JsonValue))
  | string (s : Text)
  | other

/-- The two calls into RapidJSON: the text `Writer` produces for an object with
these string members, and `Document::Parse`, `none` on a parse error. -/
structure Json where
  write : List (Text × Text) → Text
  parse : Text → Option JsonValue

end Payload

/-- The collaborators of a token handler and its secret. `hmacSha256` is a
function of data and key. -/
structure JwtToken where
  hmacSha256 : Text → Text → Text
  json : Json
  secret : Text

namespace JwtToken
variable (j : JwtToken)

def dot : UInt8 := 46

def header : Text := ascii "\x7b\"alg\":\"HS256\",\"typ\":\"JWT\"\x7d"

/-- The members added to the document; both constructors take C strings. -/
def members (payload : StringMap) : List (Text × Text) :=
  payload.entries.map (fun e => (cStr e.1, cStr e.2))

def encode (payload : StringMap) : Text :=
  let encoded_header := base64UrlEncode header
  let encoded_payload := base64UrlEncode (cStr (j.json.write (members payload)))
  let signing_input := encoded_header ++ [dot] ++ encoded_payload
  let encoded_signature := base64UrlEncode (j.hmacSha256 signing_input j.secret)
  signing_input ++ [dot] ++ encoded_signature

/-- The string members of the parsed object, through `GetString` as C strings;
a repeated name keeps its last value. -/
def collect (ms : List (Text × JsonValue)) : StringMap :=
  ms.foldl (fun result m => match m.2 with
    | .string value => result.assign (cStr m.1) (cStr value)
    | _ => result) .empty

def decode (token : Text) : Option StringMap :=
  match split dot token with
  | [part0, part1, part2] =>
    let signing_input := part0 ++ [dot] ++ part1
    let encoded_expected := base64UrlEncode (j.hmacSha256 signing_input j.secret)
    if encoded_expected ≠ part2 then none
    else match j.json.parse (cStr (base64UrlDecode part1)) with
      | some (.object ms) => some (collect ms)
      | _ => none
  | _ => none

end JwtToken

end Cppforge.Jwt
