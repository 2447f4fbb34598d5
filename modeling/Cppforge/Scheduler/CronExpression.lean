import Cppforge.Lib.Bytes
import Cppforge.Lib.Numerals

namespace Cppforge.Scheduler
open Bytes

inductive CronError where
  | invalidArgument (what : Text)
  | outOfRange (what : Text)

abbrev slash : UInt8 := 47

abbrev dash : UInt8 := 45

/-- `std::isspace` of the "C" locale. -/
def isSpace (c : UInt8) : Bool := decide (9 ≤ c ∧ c ≤ 13 ∨ c = 32)

def isDigit (c : UInt8) : Bool := decide (48 ≤ c ∧ c ≤ 57)

/-- The number that a row of digits stands for. -/
def numeral (ds : Text) : Int := Numerals.horner 10 0 (ds.map fun c => c.toNat - 48)

/-- The number of the digits that a text starts with. -/
def unsignedNumber (s : Text) : Option Int :=
  if s.takeWhile isDigit = [] then none else some (numeral (s.takeWhile isDigit))

/-- The number that `strtol` finds: blanks and a sign may stand before the digits, anything
behind them. -/
def leadingNumber (s : Text) : Option Int :=
  match s.dropWhile isSpace with
  | 45 :: rest => (unsignedNumber rest).map fun v => -v
  | 43 :: rest => unsignedNumber rest
  | rest => unsignedNumber rest

def stoi (s : Text) : Except CronError Int :=
  match leadingNumber s with
  | none => .error (.invalidArgument (ascii "stoi"))
  | some v => if v < -2 ^ 31 ∨ 2 ^ 31 ≤ v then .error (.outOfRange (ascii "stoi")) else .ok v

/-- A loop `for (int i = first; i <= last; i += step)`, with the turns that are left. `none` is an
overflow or a loop without end. -/
def loop (last step : Int) : Nat → Int → Option (List Int)
  | 0, _ => none
  | turns + 1, i =>
    if last < i then some []
    else if 2 ^ 31 ≤ i + step then none
    else (loop last step turns (i + step)).map fun values => i :: values

def steps (first last step : Int) : Option (List Int) :=
  loop last step ((last - first + 1).toNat + 1) first

/-- The part of the field before a slash, and the step behind it. -/
def parseStep (field_str : Text) : Except CronError (Text × Int) :=
  match cut slash field_str with
  | (_, none) => .ok (field_str, 1)
  | (base, some rest) => do
    let step ← stoi rest
    if step ≤ 0 then
      throw (.invalidArgument (ascii "Step value must be positive in: " ++ field_str))
    return (base, step)

/-- The values of the part before the slash, `none` at an overflow. -/
def parseBase (field_str base : Text) (min max step : Int) :
    Except CronError (Option (List Int)) :=
  match cut dash base with
  | (first, some rest) => do
    let range_start ← stoi first
    let range_end ← stoi rest
    if range_start < min ∨ max < range_end ∨ range_end < range_start then
      throw (.invalidArgument (ascii "Invalid range in cron field: " ++ field_str))
    return steps range_start range_end step
  | (_, none) =>
    if base = ascii "*" then return steps min max step
    else do
      let val ← stoi base
      if val < min ∨ max < val then
        throw (.invalidArgument (ascii "Value " ++ ascii (toString val) ++
          ascii " out of range [" ++ ascii (toString min) ++ ascii "," ++ ascii (toString max) ++
          ascii "] in: " ++ field_str))
      if 1 < step then return steps val max step
      return some [val]

def parseField (field_str : Text) (min max : Int) : Except CronError (Option (List Int)) :=
  if field_str = ascii "*" then return steps min max 1
  else do
    let (base, step) ← parseStep field_str
    parseBase field_str base min max step

/-- The sets of allowed values. -/
structure CronExpression where
  expression : Text
  minutes : List Int
  hours : List Int
  days : List Int
  months : List Int
  weekdays : List Int

/-- The words that `>>` reads from a stream. -/
def tokens (expression : Text) : List Text :=
  (expression.splitOnP isSpace).filter fun token => !token.isEmpty

def CronExpression.create (expression : Text) : OptionT (Except CronError) CronExpression :=
  match tokens expression with
  | [minute, hour, day, month, weekday] => do
    let minutes ← OptionT.mk (parseField minute 0 59)
    let hours ← OptionT.mk (parseField hour 0 23)
    let days ← OptionT.mk (parseField day 1 31)
    let months ← OptionT.mk (parseField month 1 12)
    let weekdays ← OptionT.mk (parseField weekday 0 6)
    return ⟨expression, minutes, hours, days, months, weekdays⟩
  | tokens => OptionT.mk (throw (.invalidArgument (ascii
      "Cron expression must have exactly 5 fields, got " ++ ascii (toString tokens.length) ++
      ascii " in: " ++ expression)))

end Cppforge.Scheduler
