import Cppforge.Lib.Interleave

namespace Cppforge.Concurrent.ConcurrentQueue
open Interleave Monitor

/-- The condition variables. -/
inductive Condition where
  | notEmpty
  | notFull
deriving DecidableEq

/-- Calls. `push` stands for `emplace` too, `tryPush` for `try_emplace`. -/
inductive Call (T : Type) where
  | push (value : T)
  | pop
  | tryPopFor
  | tryPush (value : T)
  | tryPop
  | clear

/-- `queue_`, the owner of `mutex_`, and the threads blocked on each condition. -/
structure Shared (I T : Type) where
  queue : List T := []
  mutex : Option I := none
  notEmpty : List I := []
  notFull : List I := []

/-- Where a thread stands: before one access to what the threads share. -/
inductive Pc (T : Type) where
  | idle
  -- `late` tells that `wait_for` has timed out
  | lock (call : Call T) (late : Bool)
  -- from here to `unlock` the thread holds the mutex
  | test (call : Call T) (late : Bool)
  | notifyOne (condition : Condition)
  | notifyAll
  | unlock (after : Option Condition)
  -- `notify_one` after the mutex is given back
  | signal (condition : Condition)
  -- on a condition, with the mutex given back
  | wait (call : Call T)

/-- A thread, with the values it has put into the queue and those it has got out of it. -/
structure Thread (I T : Type) where
  id : I
  pc : Pc T := .idle
  pushed : List T := []
  taken : List T := []

variable {I T : Type}

def Thread.goto (t : Thread I T) (pc : Pc T) : Thread I T := { t with pc := pc }

namespace Shared
variable (s : Shared I T)

def waiting : Condition → List I
  | .notEmpty => s.notEmpty
  | .notFull => s.notFull

def setWaiting (ids : List I) : Condition → Shared I T
  | .notEmpty => { s with notEmpty := ids }
  | .notFull => { s with notFull := ids }

def notify (condition : Condition) (choice : Nat) : Shared I T :=
  s.setWaiting (notifyOne (s.waiting condition) choice) condition

end Shared

/-- What a call waits for. -/
def Call.condition : Call T → Condition
  | .push _ => .notFull
  | _ => .notEmpty

section Program
variable (maxSize : Nat)

/-- The condition is not met: `wait` puts the thread to sleep and gives the mutex back. -/
def block (s : Shared I T) (t : Thread I T) (call : Call T) : Shared I T × Thread I T :=
  ({ s.setWaiting (s.waiting call.condition ++ [t.id]) call.condition with mutex := none },
    t.goto (.wait call))

def put (s : Shared I T) (t : Thread I T) (value : T) (pc : Pc T) : Shared I T × Thread I T :=
  ({ s with queue := s.queue ++ [value] }, { t with pc := pc, pushed := t.pushed ++ [value] })

def take (s : Shared I T) (t : Thread I T) (value : T) (rest : List T) (pc : Pc T) :
    Shared I T × Thread I T :=
  ({ s with queue := rest }, { t with pc := pc, taken := t.taken ++ [value] })

/-- The condition and what a call does under the mutex when it holds. With `fail` the
constructor of the element throws. -/
def body (s : Shared I T) (t : Thread I T) (fail late : Bool) :
    Call T → Shared I T × Thread I T
  | .push value =>
    if s.queue.length < maxSize then
      if fail then (s, t.goto (.unlock none)) else put s t value (.unlock (some .notEmpty))
    else block s t (.push value)
  | .pop =>
    match s.queue with
    | value :: rest => take s t value rest (.unlock (some .notFull))
    | [] => block s t .pop
  | .tryPopFor =>
    match s.queue with
    | value :: rest => take s t value rest (.unlock (some .notFull))
    | [] => if late then (s, t.goto (.unlock none)) else block s t .tryPopFor
  | .tryPush value =>
    if s.queue.length < maxSize then
      if fail then (s, t.goto (.unlock none)) else put s t value (.notifyOne .notEmpty)
    else (s, t.goto (.unlock none))
  | .tryPop =>
    match s.queue with
    | value :: rest => take s t value rest (.notifyOne .notFull)
    | [] => (s, t.goto (.unlock none))
  | .clear => ({ s with queue := [] }, t.goto .notifyAll)

variable [DecidableEq I]

/-- A thread's next access. It does nothing while another has the mutex, and while
the thread sleeps. -/
def advance (s : Shared I T) (t : Thread I T) (choice : Nat) (fail : Bool) :
    Shared I T × Thread I T :=
  match t.pc with
  | .idle => (s, t)
  | .lock call late =>
    if s.mutex.isNone then ({ s with mutex := some t.id }, t.goto (.test call late)) else (s, t)
  | .test call late => body maxSize s t fail late call
  | .notifyOne condition => (s.notify condition choice, t.goto (.unlock none))
  | .notifyAll => ({ s with notFull := [] }, t.goto (.unlock none))
  | .unlock after =>
    ({ s with mutex := none }, t.goto (match after with
      | some condition => .signal condition
      | none => .idle))
  | .signal condition => (s.notify condition choice, t.goto .idle)
  | .wait call =>
    if t.id ∈ s.waiting call.condition then (s, t) else (s, t.goto (.lock call false))

/-- A thread wakes up without being notified. -/
def wake (s : Shared I T) (t : Thread I T) (timedOut : Bool) : Shared I T × Thread I T :=
  match t.pc with
  | .wait call =>
    (s.setWaiting ((s.waiting call.condition).erase t.id) call.condition,
      t.goto (.lock call timedOut))
  | _ => (s, t)

/-- A thread is told to start a call or to make its next access, or wakes up. -/
inductive Move (T : Type) where
  | call (call : Call T)
  | access (choice : Nat) (fail : Bool)
  | wake (timedOut : Bool)

/-- A call starts only where none is in progress; only `wait_for` times out. -/
def step (s : Shared I T) (t : Thread I T) : Move T → Shared I T × Thread I T
  | .call call =>
    match t.pc with
    | .idle => (s, t.goto (.lock call false))
    | _ => (s, t)
  | .access choice fail => advance maxSize s t choice fail
  | .wake timedOut =>
    wake s t (timedOut && match t.pc with
      | .wait .tryPopFor => true
      | _ => false)

end Program

abbrev System (n : Nat) (T : Type) := Config (Fin n) (Shared (Fin n) T) (Thread (Fin n) T)

/-- A new queue and its idle threads. -/
def start (n : Nat) (T : Type) : System n T := ⟨{}, fun i => { id := i }⟩

end Cppforge.Concurrent.ConcurrentQueue
