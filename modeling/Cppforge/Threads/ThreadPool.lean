import Cppforge.Lib.Interleave
import Mathlib.Data.Fintype.Basic

namespace Cppforge.Threads.ThreadPool
open Interleave Monitor

/-- The arguments of the constructor but for the idle time. -/
structure Limits where
  coreThreads : Nat
  maxThreads : Nat
  queueSize : Nat

/-- `addWorker` on `active_thread_count_`; a thread is created where it grows. -/
def addWorker (l : Limits) (active : Nat) : Nat :=
  if active ≥ l.maxThreads then active else active + 1

/-- The constructor: its checks, and the number of threads it creates. -/
def construct (l : Limits) : Except String Nat :=
  if l.coreThreads = 0 then .error "ThreadPool::ThreadPool: core_threads must be greater than 0"
  else if l.maxThreads < l.coreThreads then
    .error "ThreadPool::ThreadPool: max_threads cannot be less than core_threads"
  else if l.queueSize = 0 then
    .error "ThreadPool::ThreadPool: queue_size must be greater than 0"
  else .ok ((addWorker l)^[l.coreThreads] 0)

/-- `task_queue_`, `stop_`, `active_thread_count_`, the owner of `queue_mutex_`, the threads
blocked on `condition_`, and the threads that have ended. -/
structure Shared (I T : Type) where
  queue : List T := []
  stop : Bool := false
  active : Nat
  mutex : Option I := none
  waiting : List I := []
  ended : List I := []

/-- What `submit` throws. -/
inductive Refusal where
  | stopped
  | null
  | full
deriving DecidableEq

def Refusal.text : Refusal → String
  | .stopped => "ThreadPool::submit: Pool is stopped"
  | .null => "ThreadPool::submit: Function is null"
  | .full => "ThreadPool::submit: Task queue is full"

/-- Where a thread stands: before one access to what the threads share. -/
inductive Pc (T : Type) where
  -- `worker`; `late` tells that `wait_for` has timed out
  | lock (late : Bool)
  | test (late : Bool)
  | wait
  | unlock (exit : Bool) (task : Option T)
  | run (task : T)
  | ended
  -- a thread that uses the pool, between its calls
  | idle
  -- `submit`
  | readStop (task : Option T)
  | lockSubmit (task : T)
  | submit (task : T)
  | unlockSubmit (result : Option Refusal)
  | notify
  -- `shutdown`, and `shutdownNow` with `now`
  | lockStop (now : Bool)
  | stop (now : Bool)
  | unlockStop (first : Bool)
  | notifyAll
  | join (worker : Nat)

/-- A thread, with the tasks it has run, those it has got into the queue, each with the value
`stop_` had then, and what its calls of `submit` have thrown. -/
structure Thread (I T : Type) where
  id : I
  pc : Pc T
  ran : List T := []
  accepted : List (T × Bool) := []
  refused : List Refusal := []

/-- The workers come first, then the threads that use the pool. -/
abbrev Party (core n : Nat) := Fin (core + n)

variable {T : Type}

def Thread.goto {I : Type} (t : Thread I T) (pc : Pc T) : Thread I T := { t with pc := pc }

def Thread.refuse {I : Type} (t : Thread I T) (refusal : Refusal) : Thread I T :=
  { t with pc := .idle, refused := t.refused ++ [refusal] }

section Program
variable (l : Limits) {core n : Nat}

/-- The rest of the critical section of `worker`, after `wait_for`. -/
def fetch {I : Type} (s : Shared I T) (t : Thread I T) : Shared I T × Thread I T :=
  if s.stop && s.queue.isEmpty then (s, t.goto (.unlock true none))
  else if s.queue.isEmpty && decide (s.active > l.coreThreads) then
    ({ s with active := s.active - 1 }, t.goto (.unlock true none))
  else match s.queue with
    | task :: rest => ({ s with queue := rest }, t.goto (.unlock false (some task)))
    | [] => (s, t.goto (.unlock false none))

/-- A thread's next access. It does nothing while another has the mutex, while the thread sleeps,
and while the thread it joins has not ended. -/
def advance (s : Shared (Party core n) T) (t : Thread (Party core n) T) (choice : Nat) :
    Shared (Party core n) T × Thread (Party core n) T :=
  match t.pc with
  | .lock late =>
    if s.mutex.isNone then ({ s with mutex := some t.id }, t.goto (.test late)) else (s, t)
  | .test late =>
    if s.stop || !s.queue.isEmpty || late then fetch l s t
    else ({ s with mutex := none, waiting := s.waiting ++ [t.id] }, t.goto .wait)
  | .wait => if t.id ∈ s.waiting then (s, t) else (s, t.goto (.lock false))
  | .unlock exit task =>
    if exit then ({ s with mutex := none, ended := t.id :: s.ended }, t.goto .ended)
    else ({ s with mutex := none }, t.goto (match task with
      | some task => .run task
      | none => .lock false))
  | .run task => (s, { t with pc := .lock false, ran := t.ran ++ [task] })
  | .ended => (s, t)
  | .idle => (s, t)
  | .readStop task =>
    if s.stop then (s, t.refuse .stopped)
    else (s, match task with
      | some task => t.goto (.lockSubmit task)
      | none => t.refuse .null)
  | .lockSubmit task =>
    if s.mutex.isNone then ({ s with mutex := some t.id }, t.goto (.submit task)) else (s, t)
  | .submit task =>
    if s.queue.length ≥ l.queueSize then (s, t.goto (.unlockSubmit (some .full)))
    else ({ s with queue := s.queue ++ [task] },
      { t with pc := .unlockSubmit none, accepted := t.accepted ++ [(task, s.stop)] })
  | .unlockSubmit result =>
    ({ s with mutex := none }, match result with
      | some refusal => t.refuse refusal
      | none => t.goto .notify)
  | .notify => ({ s with waiting := notifyOne s.waiting choice }, t.goto .idle)
  | .lockStop now =>
    if s.mutex.isNone then ({ s with mutex := some t.id }, t.goto (.stop now)) else (s, t)
  | .stop now =>
    if s.stop then (s, t.goto (.unlockStop false))
    else ({ s with stop := true, queue := if now then [] else s.queue },
      t.goto (.unlockStop true))
  | .unlockStop first => ({ s with mutex := none }, t.goto (if first then .notifyAll else .idle))
  | .notifyAll => ({ s with waiting := [] }, t.goto (.join 0))
  | .join worker =>
    if h : worker < core then
      if Fin.castAdd n ⟨worker, h⟩ ∈ s.ended then (s, t.goto (.join (worker + 1))) else (s, t)
    else (s, t.goto .idle)

/-- A thread is told to start a call or to make its next access, or wakes up without a
notification; a task of `none` is a null function. -/
inductive Move (T : Type) where
  | submit (task : Option T)
  | shutdown (now : Bool)
  | access (choice : Nat)
  | wake (timedOut : Bool)

/-- A call starts only where none is in progress. -/
def step (s : Shared (Party core n) T) (t : Thread (Party core n) T) :
    Move T → Shared (Party core n) T × Thread (Party core n) T
  | .submit task =>
    match t.pc with
    | .idle => (s, t.goto (.readStop task))
    | _ => (s, t)
  | .shutdown now =>
    match t.pc with
    | .idle => (s, t.goto (.lockStop now))
    | _ => (s, t)
  | .access choice => advance l s t choice
  | .wake timedOut =>
    match t.pc with
    | .wait => ({ s with waiting := s.waiting.erase t.id }, t.goto (.lock timedOut))
    | _ => (s, t)

abbrev System (core n : Nat) (T : Type) :=
  Config (Party core n) (Shared (Party core n) T) (Thread (Party core n) T)

/-- A pool as the constructor leaves it, and the idle threads that use it. -/
def start (core n : Nat) (T : Type) : System core n T :=
  ⟨{ active := core }, fun id => { id := id, pc := if id < core then .lock false else .idle }⟩

end Program

end Cppforge.Threads.ThreadPool
