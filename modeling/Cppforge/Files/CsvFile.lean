import Cppforge.Lib.Bytes

namespace Cppforge.Files
open Bytes

/-- Counts are not bounded. What the file system holds is not part of the object: its contents are
an argument of the constructor and a result of `save`. -/
structure CsvFile where
  header : List Text
  rows : List (List Text)
  columnCount : Nat
  isValid : Bool

namespace CsvFile

section Lines

def quote : UInt8 := 34

def comma : UInt8 := 44

def newline : UInt8 := 10

/-- The loop of `parseLine`, from a character on. -/
def parseFrom (inQuotes : Bool) (field : Text) : Text → List Text
  | [] => [field]
  | c :: line =>
    if inQuotes then
      if c = quote then
        match line with
        | [] => parseFrom false field []
        | d :: rest =>
          if d = quote then parseFrom true (field ++ [quote]) rest
          else parseFrom false field (d :: rest)
      else parseFrom true (field ++ [c]) line
    else if c = quote then parseFrom true field line
    else if c = comma then field :: parseFrom false [] line
    else parseFrom false (field ++ [c]) line

def parseLine (line : Text) : List Text := parseFrom false [] line

def doubleQuotes (field : Text) : Text :=
  field.flatMap fun c => if c = quote then [quote, quote] else [c]

def escapeField (field : Text) : Text :=
  if comma ∉ field ∧ quote ∉ field ∧ newline ∉ field then field
  else quote :: (doubleQuotes field ++ [quote])

/-- The fields of a line as `save` writes them. -/
def writeFields : List Text → Text
  | [] => []
  | [field] => escapeField field
  | field :: fields => escapeField field ++ comma :: writeFields fields

def writeLine (fields : List Text) : Text := writeFields fields ++ [newline]

end Lines

section Calls

/-- A turn of the constructor's loop. The flag is `headerRead`. -/
def readLine (file : CsvFile × Bool) (line : Text) : CsvFile × Bool :=
  if line.isEmpty then file
  else
    let fields := parseLine line
    if file.2 then ({ file.1 with rows := file.1.rows ++ [fields] }, true)
    else ({ file.1 with header := fields, columnCount := fields.length }, true)

/-- The constructor, from the contents of the file. -/
def load (contents : Text) : CsvFile :=
  { ((split newline contents).foldl readLine (⟨[], [], 0, false⟩, false)).1 with isValid := true }

/-- The constructor where the file cannot be opened. -/
def unopened : CsvFile := ⟨[], [], 0, false⟩

def insertRow (file : CsvFile) (insertIndex : Nat) (item : List Text) : CsvFile × Bool :=
  if file.isValid = false ∨ insertIndex > file.rows.length then (file, false)
  else if file.columnCount ≠ 0 ∧ item.length ≠ file.columnCount then (file, false)
  else
    ({ file with
        rows := file.rows.take insertIndex ++ item :: file.rows.drop insertIndex
        columnCount := if file.columnCount = 0 then item.length else file.columnCount }, true)

def pushBack (file : CsvFile) (item : List Text) : CsvFile × Bool :=
  file.insertRow file.rows.length item

/-- What `save` writes to a file it can open, `none` where it writes nothing. -/
def save (file : CsvFile) : Option Text :=
  if file.isValid then some (writeLine file.header ++ file.rows.flatMap writeLine) else none

inductive Op where
  | insertRow (insertIndex : Nat) (item : List Text)
  | pushBack (item : List Text)

def apply (file : CsvFile) : Op → CsvFile
  | .insertRow insertIndex item => (file.insertRow insertIndex item).1
  | .pushBack item => (file.pushBack item).1

def run (file : CsvFile) (ops : List Op) : CsvFile := ops.foldl apply file

end Calls

end CsvFile

end Cppforge.Files
