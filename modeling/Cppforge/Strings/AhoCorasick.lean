import Mathlib.Logic.Function.Basic
import Mathlib.Algebra.Group.Nat.Defs
import Mathlib.Algebra.Group.Int.Defs

namespace Cppforge.Strings

abbrev Byte := Fin 256

/-- A text that can be scanned; its length is a `size_t`. -/
abbrev StringView := { bytes : List Byte // bytes.length < 2 ^ 64 }

/-- `position`, `length` and `patternIndex`. -/
structure MatchResult where
  position : Nat
  length : Nat
  patternIndex : Nat
deriving DecidableEq

/-- An exception, or an access outside of an array or an overflow. `unfinished` is a
loop that has not ended after the steps given to it. -/
inductive Failure where
  | invalidArgument (what : String)
  | runtimeError (what : String)
  | undefined
  | unfinished
deriving DecidableEq

/-- `static_cast<int32_t>` of a `size_t`. -/
def toInt32 (n : Nat) : Int := (n : Int).bmod (2 ^ 32)

/-- `static_cast<std::size_t>`. -/
def toSize (v : Int) : Nat := (v % 2 ^ 64).toNat

/-- The sum of two `int32_t`. -/
def add32 (a b : Int) : Except Failure Int :=
  if -2 ^ 31 ≤ a + b ∧ a + b < 2 ^ 31 then .ok (a + b) else .error .undefined

section Arrays
variable {E : Type}

def read (l : List E) (i : Nat) : Except Failure E :=
  match l[i]? with
  | some e => .ok e
  | none => .error .undefined

/-- The same behind a pointer, with an `int32_t`. -/
def readAt (l : List E) (i : Int) : Except Failure E :=
  if i < 0 then .error .undefined else read l i.toNat

def write (l : List E) (i : Nat) (e : E) : Except Failure (List E) :=
  if i < l.length then .ok (l.set i e) else .error .undefined

end Arrays

/-- The flat tables `goto_` and `trans_`, a row of 256 entries for each state. -/
abbrev Table := List (Byte → Int)

def cell (t : Table) (state : Nat) (c : Byte) : Except Failure Int := do
  let row ← read t state
  return row c

def setCell (t : Table) (state : Nat) (c : Byte) (v : Int) : Table :=
  t.modify state fun row => Function.update row c v

structure AhoCorasick where
  goTo : Table
  trans : Table
  fail : List Int
  outputData : List Int
  outputPtr : List Int
  outputCnt : List Int
  patterns : List (List Byte)
  built : Bool
  output : List (List Int)

namespace AhoCorasick

/-- `NO_STATE`. -/
def noState : Int := -1

/-- The constructor. -/
def create : AhoCorasick where
  goTo := [fun _ => noState]
  trans := []
  fail := [0]
  outputData := []
  outputPtr := [0]
  outputCnt := [0]
  patterns := []
  built := false
  output := [[]]

section Insert

/-- The automaton with one more state, and its number. -/
def addState (a : AhoCorasick) : AhoCorasick × Nat :=
  ({ a with
      goTo := a.goTo ++ [fun _ => noState]
      fail := a.fail ++ [noState]
      outputPtr := a.outputPtr ++ [0]
      outputCnt := a.outputCnt ++ [0]
      output := a.output ++ [[]] },
    a.goTo.length)

/-- The loop of `insert` from a state on. -/
def descend : List Byte → Nat → AhoCorasick → Except Failure (AhoCorasick × Nat)
  | [], state, a => .ok (a, state)
  | c :: pattern, state, a => do
    let g ← cell a.goTo state c
    if g = noState then
      let (a, newState) := a.addState
      let a := { a with goTo := setCell a.goTo state c (toInt32 newState) }
      let g ← cell a.goTo state c
      descend pattern (toSize g) a
    else descend pattern (toSize g) a

def insert (a : AhoCorasick) (pattern : List Byte) : Except Failure AhoCorasick :=
  if pattern = [] then
    .error (.invalidArgument "AhoCorasick::insert: empty pattern is not supported")
  else if a.built then
    .error (.runtimeError "AhoCorasick::insert: cannot insert after build() has been called")
  else do
    let (a, state) ← descend pattern 0 a
    let patIdx := a.patterns.length
    let out ← read a.output state
    return { a with
      output := a.output.set state (out ++ [toInt32 patIdx])
      patterns := a.patterns ++ [pattern] }

end Insert

section Build

/-- The bytes in the order of the loops. -/
def bytes : List Byte := List.finRange 256

/-- Step 1. -/
def closeRoot (goTo : Table) : Table :=
  goTo.modify 0 fun row c => if row c = noState then 0 else row c

/-- What the search changes: `fail_`, `output_`, `q` and `bfsOrder`. -/
structure Search where
  fail : List Int
  output : List (List Int)
  queue : List Nat
  bfsOrder : List Nat

/-- Step 2, for one byte. -/
def enqueueChild (goTo : Table) (s : Search) (c : Byte) : Except Failure Search := do
  let g ← cell goTo 0 c
  let child := toSize g
  if child ≠ 0 then do
    let fail ← write s.fail child 0
    return { s with fail := fail, queue := s.queue ++ [child] }
  else return s

/-- The walk up the fail chain from `f`. -/
def followFail (goTo : Table) (fail : List Int) (c : Byte) : Nat → Nat → Except Failure Nat
  | 0, _ => .error .unfinished
  | fuel + 1, f =>
    if f = 0 then .ok f
    else do
      let g ← cell goTo f c
      if g = noState then do
        let link ← read fail f
        followFail goTo fail c fuel (toSize link)
      else return f

/-- One index of `mergeOutput`. -/
def addMissing (dst : List Int) (patIdx : Int) : List Int :=
  if patIdx ∈ dst then dst else dst ++ [patIdx]

def mergeOutput (output : List (List Int)) (state failState : Nat) :
    Except Failure (List (List Int)) := do
  let src ← read output failState
  if src = [] then return output
  else do
    let dst ← read output state
    write output state (src.foldl addMissing dst)

/-- Step 3, for one byte of the state at the front. -/
def visit (goTo : Table) (u : Nat) (s : Search) (c : Byte) : Except Failure Search := do
  let v ← cell goTo u c
  if v = noState then return s
  else do
    let link ← read s.fail u
    let f ← followFail goTo s.fail c (s.fail.length + 1) (toSize link)
    let target ← cell goTo f c
    let fail ← write s.fail (toSize v) target
    let output ← mergeOutput s.output (toSize v) (toSize target)
    return { s with fail := fail, output := output, queue := s.queue ++ [toSize v] }

/-- Step 3. -/
def bfs (goTo : Table) : Nat → Search → Except Failure Search
  | 0, s => if s.queue = [] then .ok s else .error .unfinished
  | fuel + 1, s =>
    match s.queue with
    | [] => .ok s
    | u :: q => do
      let s ← bytes.foldlM (visit goTo u) { s with queue := q, bfsOrder := s.bfsOrder ++ [u] }
      bfs goTo fuel s

/-- The loop of `flattenOutput`: `outputPtr_` and `outputCnt_` from a state on, and
`outputData_`. -/
def flattenOutput (flat : List Int) : List (List Int) → List Int × List Int × List Int
  | [] => ([], [], flat)
  | out :: output =>
    let (ptr, cnt, data) := flattenOutput (flat ++ out) output
    (toInt32 flat.length :: ptr, toInt32 out.length :: cnt, data)

/-- Step 5, for one state. -/
def complete (goTo : Table) (fail : List Int) (trans : Table) (s : Nat) : Except Failure Table := do
  let base ← read goTo s
  let link ← read fail s
  let failBase ← read trans (toSize link)
  write trans s fun c => if base c ≠ noState then base c else failBase c

def build (a : AhoCorasick) : Except Failure AhoCorasick :=
  if a.built then .ok a
  else do
    let numStates := a.goTo.length
    let goTo := closeRoot a.goTo
    let s ← bytes.foldlM (enqueueChild goTo) ⟨a.fail, a.output, [], []⟩
    let s ← bfs goTo numStates s
    let (ptr, cnt, data) := flattenOutput [] s.output
    let root ← read goTo 0
    let trans ← write (List.replicate numStates fun _ => 0) 0
      fun c => if root c ≠ noState then root c else 0
    let trans ← s.bfsOrder.foldlM (complete goTo s.fail) trans
    return { a with
      goTo := []
      trans := trans
      fail := s.fail
      outputData := data
      outputPtr := ptr
      outputCnt := cnt
      built := true
      output := [] }

end Build

section Match
variable {S : Type} (a : AhoCorasick) (report : S → MatchResult → S)

/-- One entry of the slice at `off`, found behind byte `i`. -/
def reportHit (i : Nat) (off : Int) (found : S) (j : Nat) : Except Failure S := do
  let k ← add32 off j
  let v ← readAt a.outputData k
  let patIdx := toSize v
  let pat ← read a.patterns patIdx
  return report found ⟨toSize ((i : Int) - pat.length + 1), pat.length, patIdx⟩

/-- One byte of the text. -/
def scanByte (i : Nat) (c : Byte) (state : Int) (found : S) : Except Failure (Int × S) := do
  let state ← cell a.trans (toSize state) c
  let cnt ← readAt a.outputCnt state
  if 0 < cnt then do
    let off ← readAt a.outputPtr state
    let found ← (List.range cnt.toNat).foldlM (reportHit a report i off) found
    return (state, found)
  else return (state, found)

/-- The loop of `match` and of `matchEach` from byte `i` on. -/
def scan : List Byte → Nat → Int → S → Except Failure S
  | [], _, _, found => .ok found
  | c :: text, i, state, found => do
    let (state, found) ← scanByte a report i c state found
    scan text (i + 1) state found

/-- `match`. -/
def matchAll (text : StringView) : Except Failure (List MatchResult) :=
  if !a.built then
    .error (.runtimeError "AhoCorasick::match: build() must be called before match()")
  else scan a (fun results m => results ++ [m]) text.1 0 0 []

/-- What the callback does to the state of its caller. -/
def matchEach (callback : S → MatchResult → S) (text : StringView) (start : S) :
    Except Failure S :=
  if !a.built then .error (.runtimeError "AhoCorasick::matchEach: build() must be called first")
  else scan a callback text.1 0 0 start

end Match

/-- An automaton with these patterns, built. -/
def ofPatterns (patterns : List (List Byte)) : Except Failure AhoCorasick := do
  let a ← patterns.foldlM insert create
  build a

end AhoCorasick
end Cppforge.Strings
