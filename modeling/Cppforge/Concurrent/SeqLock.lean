import Cppforge.Lib.Interleave
import Mathlib.Algebra.Group.Nat.Defs

namespace Cppforge.Concurrent.SeqLock
open Interleave

section Memory

/-- The cells of a value, each read and written by one access. -/
abbrev Value (w : Nat) (α : Type) := Fin w → α

/-- `seq_` counts all increments. The owner of `mtx_` and those that share it are of
`MutexSeqLock`. -/
structure Shared (I : Type) (w : Nat) (α : Type) where
  seq : Nat := 0
  data : Value w α
  unique : Option I := none
  sharing : List I := []

/-- What the counter's 64 bits hold. -/
def word (seq : Nat) : Nat := seq % 2 ^ 64

end Memory

section Program
variable {I α : Type} {w : Nat}

/-- `lock` is of `SeqLock` alone, and `protect` is `load` there. -/
inductive Call (w : Nat) (α : Type) where
  | store (value : Value w α)
  | lock
  | load
  | tryLoad

/-- A call that took effect; a copy lists the cells read. -/
inductive Event (w : Nat) (α : Type) where
  | stored (value : Value w α)
  | loaded (copy : List α)
  | missed

/-- What is between `acquire_write_lock` and `release_write_lock`: the copy of a value, or a
`WriteGuard`. -/
inductive Writing (w : Nat) (α : Type) where
  | whole (value : Value w α)
  | guarded

/-- Where a thread stands: before one access to shared memory, with the locals
it still uses. -/
inductive Pc (w : Nat) (α : Type) where
  | idle
  -- `MutexSeqLock` takes `mtx_` before the call and gives it back after it
  | enter (call : Call w α)
  | leave (event : Event w α)
  -- `load`, and `try_load` without `retry`
  | readSeq (retry : Bool)
  | copy (retry : Bool) (seq0 : Nat) (copied : List α)
  -- `acquire_write_lock`
  | acquireLoad (writing : Writing w α)
  | acquireStore (writing : Writing w α) (seq : Nat)
  | write (value : Value w α) (cell : Nat)
  | guarding
  -- `release_write_lock`
  | releaseLoad (writing : Writing w α)
  | releaseStore (writing : Writing w α) (seq : Nat)

/-- A thread, with its calls that have returned. -/
structure Thread (I : Type) (w : Nat) (α : Type) where
  id : I
  pc : Pc w α := .idle
  calls : List (Event w α) := []

def Thread.goto (t : Thread I w α) (pc : Pc w α) : Thread I w α := { t with pc := pc }

def Thread.finish (t : Thread I w α) (event : Event w α) : Thread I w α :=
  { t with pc := .idle, calls := t.calls ++ [event] }

variable (mutexed : Bool)

/-- The call proper is over. -/
def done (t : Thread I w α) (event : Event w α) : Thread I w α :=
  if mutexed then t.goto (.leave event) else t.finish event

/-- Where the call proper starts. -/
def Call.begin : Call w α → Pc w α
  | .store value => .acquireLoad (.whole value)
  | .lock => .acquireLoad .guarded
  | .load => .readSeq true
  | .tryLoad => .readSeq false

def Writing.value (data : Value w α) : Writing w α → Value w α
  | .whole value => value
  | .guarded => data

variable [DecidableEq I]

/-- The lock of `MutexSeqLock`. It waits, but for `try_load`, where it may fail for no reason. -/
def enter (s : Shared I w α) (t : Thread I w α) (fail : Bool) (call : Call w α) :
    Shared I w α × Thread I w α :=
  match call with
  | .store _ =>
    if s.unique.isNone && s.sharing.isEmpty then
      ({ s with unique := some t.id }, t.goto call.begin)
    else (s, t)
  | .load =>
    if s.unique.isNone then ({ s with sharing := t.id :: s.sharing }, t.goto call.begin)
    else (s, t)
  | .tryLoad =>
    if !fail && s.unique.isNone then
      ({ s with sharing := t.id :: s.sharing }, t.goto call.begin)
    else (s, t.finish .missed)
  -- not a call of `MutexSeqLock`
  | .lock => (s, t.goto .idle)

/-- A thread's next access. -/
def advance (s : Shared I w α) (t : Thread I w α) (fail : Bool) :
    Shared I w α × Thread I w α :=
  match t.pc with
  | .idle => (s, t)
  | .enter call => enter s t fail call
  | .leave event =>
    (if s.unique = some t.id then { s with unique := none }
      else { s with sharing := s.sharing.erase t.id }, t.finish event)
  | .readSeq retry =>
    if word s.seq % 2 = 1 then (s, if retry then t else done mutexed t .missed)
    else (s, t.goto (.copy retry s.seq []))
  | .copy retry seq0 copied =>
    if h : copied.length < w then
      (s, t.goto (.copy retry seq0 (copied ++ [s.data ⟨copied.length, h⟩])))
    else if word seq0 = word s.seq then (s, done mutexed t (.loaded copied))
    else (s, if retry then t.goto (.readSeq true) else done mutexed t .missed)
  | .acquireLoad writing => (s, t.goto (.acquireStore writing s.seq))
  | .acquireStore writing seq =>
    ({ s with seq := seq + 1 }, t.goto (match writing with
      | .whole value => .write value 0
      | .guarded => .guarding))
  | .write value cell =>
    if h : cell < w then
      ({ s with data := Function.update s.data ⟨cell, h⟩ (value ⟨cell, h⟩) },
        t.goto (.write value (cell + 1)))
    else (s, t.goto (.releaseStore (.whole value) s.seq))
  | .guarding => (s, t)
  | .releaseLoad writing => (s, t.goto (.releaseStore writing s.seq))
  | .releaseStore writing seq =>
    ({ s with seq := seq + 1 }, done mutexed t (.stored (writing.value s.data)))

/-- A thread is told to start a call, to make its next access, or to use or drop its
`WriteGuard`. -/
inductive Move (w : Nat) (α : Type) where
  | call (call : Call w α)
  | access (fail : Bool)
  | assign (cell : Fin w) (value : α)
  | unlock

/-- A call starts only where none is in progress. -/
def step (s : Shared I w α) (t : Thread I w α) : Move w α → Shared I w α × Thread I w α
  | .call call =>
    match t.pc with
    | .idle => (s, t.goto (if mutexed then .enter call else call.begin))
    | _ => (s, t)
  | .access fail => advance mutexed s t fail
  | .assign cell value =>
    match t.pc with
    | .guarding => ({ s with data := Function.update s.data cell value }, t)
    | _ => (s, t)
  | .unlock =>
    match t.pc with
    | .guarding => (s, t.goto (.releaseLoad .guarded))
    | _ => (s, t)

abbrev System (n w : Nat) (α : Type) := Config (Fin n) (Shared (Fin n) w α) (Thread (Fin n) w α)

/-- A new lock and its idle threads. -/
def start (n : Nat) {w : Nat} {α : Type} (initial : Value w α) : System n w α :=
  ⟨{ data := initial }, fun i => { id := i }⟩

end Program

end Cppforge.Concurrent.SeqLock
