import Mathlib.Logic.Function.Basic
import Mathlib.Data.List.Basic

namespace Cppforge.Scheduler

/-- `cron` is the `nextExecutionTime` of the expression. What the function of a task does is up
to the other steps while it runs. -/
structure ScheduledTask where
  id : Nat
  nextExecution : Int
  cron : Option (Int → Int)
  interval : Int
  periodic : Bool
  cancelled : Bool

/-- Where a worker is in its loop. -/
inductive Worker
  | idle
  | entered
  | running (task : ScheduledTask)
  | requeueing (task : ScheduledTask)

/-- `pending` holds the tasks of calls that have drawn an id and wait for the mutex; a call that
throws leaves its task there. Ids are not bounded. -/
structure TaskScheduler (W : Type) where
  running : Bool
  nextId : Nat
  pending : List ScheduledTask
  taskQueue : List ScheduledTask
  workers : W → Worker

inductive Act (W : Type)
  | schedule (cron : Int → Int) (now : Int)
  | scheduleOnce (delay now : Int)
  | schedulePeriodic (interval now : Int)
  | push (call : Nat)
  | cancel (taskId : Nat)
  | start
  | stop
  | enter (w : W)
  | dequeue (w : W) (top : Nat) (now : Int)
  | finish (w : W) (now : Int)
  | requeue (w : W)

inductive Event
  | internal
  | cancelled (found : Bool)
  | started (taskId : Nat)
deriving DecidableEq

namespace TaskScheduler
variable {W : Type} [DecidableEq W]

def init : TaskScheduler W := ⟨false, 1, [], [], fun _ => .idle⟩

/-- A call to schedule up to its critical section. -/
def make (s : TaskScheduler W) (task : ScheduledTask) : TaskScheduler W :=
  { s with nextId := s.nextId + 1, pending := task :: s.pending }

/-- The first task of an id is marked. -/
def markCancelled (taskId : Nat) : List ScheduledTask → List ScheduledTask
  | [] => []
  | task :: tasks =>
    if task.id = taskId then { task with cancelled := true } :: tasks
    else task :: markCancelled taskId tasks

def setWorker (s : TaskScheduler W) (w : W) (worker : Worker) : TaskScheduler W :=
  { s with workers := Function.update s.workers w worker }

def pop (s : TaskScheduler W) (top : Nat) : TaskScheduler W :=
  { s with taskQueue := s.taskQueue.eraseIdx top }

/-- The next time of a periodic task. -/
def reschedule (task : ScheduledTask) (now : Int) : ScheduledTask :=
  match task.cron with
  | some nextExecutionTime => { task with nextExecution := nextExecutionTime now }
  | none => if task.interval > 0 then { task with nextExecution := now + task.interval } else task

/-- The critical section of a worker in its loop. The top of the heap is at `top`, any task due
first; a worker that waits goes round the loop. -/
def dequeue (s : TaskScheduler W) (w : W) (top : Nat) (now : Int) :
    Option (TaskScheduler W × Event) :=
  if s.taskQueue.isEmpty then some (s.setWorker w .idle, .internal)
  else do
    let nextTask ← s.taskQueue[top]?
    if s.taskQueue.all fun task => nextTask.nextExecution ≤ task.nextExecution then
      if nextTask.cancelled then some ((s.pop top).setWorker w .idle, .internal)
      else if nextTask.nextExecution ≤ now then
        some ((s.pop top).setWorker w (.running nextTask), .started nextTask.id)
      else some (s.setWorker w .idle, .internal)
    else none

/-- One step of one thread; `none` where it cannot be taken. -/
def step (s : TaskScheduler W) : Act W → Option (TaskScheduler W × Event)
  | .schedule cron now =>
    some (s.make ⟨s.nextId, cron now, some cron, 0, true, false⟩, .internal)
  | .scheduleOnce delay now =>
    some (s.make ⟨s.nextId, now + delay, none, 0, false, false⟩, .internal)
  | .schedulePeriodic interval now =>
    some (s.make ⟨s.nextId, now + interval, none, interval, true, false⟩, .internal)
  | .push call => do
    let task ← s.pending[call]?
    return ({ s with pending := s.pending.eraseIdx call, taskQueue := task :: s.taskQueue },
      .internal)
  | .cancel taskId =>
    some ({ s with taskQueue := markCancelled taskId s.taskQueue },
      .cancelled (s.taskQueue.any fun task => task.id = taskId))
  | .start => some ({ s with running := true }, .internal)
  | .stop => some ({ s with running := false }, .internal)
  | .enter w =>
    match s.workers w with
    | .idle => if s.running then some (s.setWorker w .entered, .internal) else none
    | _ => none
  | .dequeue w top now =>
    match s.workers w with
    | .entered => s.dequeue w top now
    | _ => none
  | .finish w now =>
    match s.workers w with
    | .running task =>
      if task.periodic && !task.cancelled && s.running then
        some (s.setWorker w (.requeueing (reschedule task now)), .internal)
      else some (s.setWorker w .idle, .internal)
    | _ => none
  | .requeue w =>
    match s.workers w with
    | .requeueing task =>
      some ({ s with taskQueue := task :: s.taskQueue }.setWorker w .idle, .internal)
    | _ => none

end TaskScheduler

end Cppforge.Scheduler
