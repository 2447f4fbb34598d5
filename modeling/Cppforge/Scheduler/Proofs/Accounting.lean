import Cppforge.Scheduler.Proofs.Cancellation

namespace Cppforge.Scheduler.TaskScheduler

section Statement
variable {W : Type}

/-- The steps taken, with what each of them gave. -/
abbrev Log (W : Type) := List (Act W × Event)

/-- The task that a call to schedule makes of its id. -/
def plan : Act W → Option (Nat → ScheduledTask)
  | .schedule cron now => some fun id => ⟨id, cron now, some cron, 0, true, false⟩
  | .scheduleOnce delay now => some fun id => ⟨id, now + delay, none, 0, false, false⟩
  | .schedulePeriodic interval now => some fun id => ⟨id, now + interval, none, interval, true, false⟩
  | _ => none

def plans (log : Log W) : List (Nat → ScheduledTask) := log.filterMap fun entry => plan entry.1

/-- The task scheduled under an id, as it was at first. -/
def planned (log : Log W) : Nat → Option ScheduledTask
  | 0 => none
  | n + 1 => (plans log)[n]?.map fun first => first (n + 1)

def Began (log : Log W) (taskId : Nat) : Prop := .started taskId ∈ log.map Prod.snd

/-- A task that is nowhere any more was cancelled while it waited, or it has run and either was to
run once or the scheduler was stopped. -/
def Gone (log : Log W) (task : ScheduledTask) : Prop :=
  (.cancel task.id, .cancelled true) ∈ log ∨
    Began log task.id ∧ (task.periodic = false ∨ .stop ∈ log.map Prod.fst)

def Has (s : TaskScheduler W) (task : ScheduledTask) : Prop :=
  task ∈ s.waiting ∨ ∃ w, held (s.workers w) = some task

/-- What becomes of the scheduled tasks. -/
structure Accounted (s : TaskScheduler W) (log : Log W) : Prop where
  /-- No task is in two places, and so no two workers run it at a time. -/
  distinct : Distinct s
  kept : ∀ taskId first, planned log taskId = some first →
    (∃ task, Has s task ∧ task.id = taskId) ∨ Gone log first
  genuine : ∀ taskId, Began log taskId → ∃ first, planned log taskId = some first
  once : ∀ taskId first, planned log taskId = some first → first.periodic = false →
    (log.map Prod.snd).count (.started taskId) ≤ 1
  punctual : ∀ w top now taskId first, (.dequeue w top now, .started taskId) ∈ log →
    planned log taskId = some first → first.periodic = false → first.nextExecution ≤ now

end Statement

section Tasks
variable {W : Type} {s : TaskScheduler W} {task : ScheduledTask}

/-- A task as it was, but for its next time where it is periodic. -/
structure Like (task first : ScheduledTask) : Prop where
  id : first.id = task.id
  periodic : first.periodic = task.periodic
  time : first.periodic = false → first.nextExecution = task.nextExecution

theorem Like.refl (task : ScheduledTask) : Like task task := ⟨rfl, rfl, fun _ => rfl⟩

theorem Like.trans {task mid first : ScheduledTask} (h : Like task mid) (h' : Like mid first) :
    Like task first where
  id := h'.id.trans h.id
  periodic := h'.periodic.trans h.periodic
  time := fun honce => (h'.time honce).trans (h.time (h'.periodic ▸ honce))

theorem like_reschedule (hperiodic : task.periodic = true) (now : Int) :
    Like (reschedule task now) task := by
  obtain ⟨hid, hsame⟩ := reschedule_id task now
  refine ⟨hid.symm, hsame.symm, ?_⟩
  intro honce
  rw [hperiodic] at honce
  cases honce

theorem reschedule_cancelled (task : ScheduledTask) (now : Int) :
    (reschedule task now).cancelled = task.cancelled := by
  unfold reschedule
  split
  · rfl
  · split <;> rfl

/-- What a task marked by a call was. -/
theorem like_of_mem_mark {taskId : Nat} {tasks : List ScheduledTask}
    (h : task ∈ markCancelled taskId tasks) : ∃ first ∈ tasks, Like task first ∧
      (task.cancelled = true → first.cancelled = true ∨
        task.id = taskId ∧ (tasks.any fun t => t.id = taskId) = true) := by
  induction tasks with
  | nil => cases h
  | cons t tasks ih =>
    rw [markCancelled] at h
    split at h
    · rename_i ht
      rcases List.mem_cons.mp h with rfl | h
      · refine ⟨t, List.mem_cons_self, ⟨rfl, rfl, fun _ => rfl⟩, fun _ => .inr ⟨ht, ?_⟩⟩
        simp [ht]
      · exact ⟨task, List.mem_cons_of_mem _ h, .refl task, .inl⟩
    · rcases List.mem_cons.mp h with rfl | h
      · exact ⟨task, List.mem_cons_self, .refl task, .inl⟩
      · obtain ⟨first, hfirst, hlike, hmark⟩ := ih h
        refine ⟨first, List.mem_cons_of_mem _ hfirst, hlike, ?_⟩
        intro hcancelled
        rcases hmark hcancelled with hmark | ⟨hid, hany⟩
        · exact .inl hmark
        · exact .inr ⟨hid, by rw [List.any_cons, hany, Bool.or_true]⟩

theorem mem_mark_of_mem (taskId : Nat) {tasks : List ScheduledTask} (h : task ∈ tasks) :
    ∃ marked ∈ markCancelled taskId tasks, marked.id = task.id := by
  have hmem := List.mem_map_of_mem (f := ScheduledTask.id) h
  rw [← map_id_markCancelled taskId] at hmem
  obtain ⟨marked, hmarked, hid⟩ := List.mem_map.mp hmem
  exact ⟨marked, hmarked, hid⟩

theorem mem_waiting_of_mem_pop {top : Nat} (h : task ∈ (s.pop top).waiting) : task ∈ s.waiting := by
  rcases List.mem_append.mp h with h | h
  · exact List.mem_append_left _ h
  · exact List.mem_append_right _ (List.mem_of_mem_eraseIdx h)

theorem Has.pop {top : Nat} {first : ScheduledTask} (h : Has s task)
    (htop : s.taskQueue[top]? = some first) : Has (s.pop top) task ∨ task = first := by
  obtain ⟨hlt, rfl⟩ := List.getElem?_eq_some_iff.mp htop
  rcases h with h | h
  · rcases List.mem_append.mp h with h | h
    · exact .inl (.inl (List.mem_append_left _ h))
    · have hperm := List.getElem_cons_eraseIdx_perm hlt
      rcases List.mem_cons.mp (hperm.mem_iff.mpr h) with h | h
      · exact .inr h
      · exact .inl (.inl (List.mem_append_right _ h))
  · exact .inl (.inr h)

end Tasks

section Turns
variable {W : Type} [DecidableEq W]

/-- What a step can do. -/
inductive Turn (s : TaskScheduler W) : Act W → Event → TaskScheduler W → Prop
  | make {act} first (hplan : plan act = some first) : Turn s act .internal (s.make (first s.nextId))
  | push {call task} (hcall : s.pending[call]? = some task) : Turn s (.push call) .internal
      { s with pending := s.pending.eraseIdx call, taskQueue := task :: s.taskQueue }
  | cancel taskId : Turn s (.cancel taskId)
      (.cancelled (s.taskQueue.any fun task => task.id = taskId))
      { s with taskQueue := markCancelled taskId s.taskQueue }
  | start : Turn s .start .internal { s with running := true }
  | stop : Turn s .stop .internal { s with running := false }
  | enter {w} (hw : s.workers w = .idle) (hrunning : s.running = true) :
      Turn s (.enter w) .internal (s.setWorker w .entered)
  | pass {w top now} (hw : s.workers w = .entered) :
      Turn s (.dequeue w top now) .internal (s.setWorker w .idle)
  | drop {w top now task} (hw : s.workers w = .entered) (htop : s.taskQueue[top]? = some task)
      (hcancelled : task.cancelled = true) :
      Turn s (.dequeue w top now) .internal ((s.pop top).setWorker w .idle)
  | take {w top now task} (hw : s.workers w = .entered) (htop : s.taskQueue[top]? = some task)
      (hcancelled : task.cancelled = false) (hdue : task.nextExecution ≤ now) :
      Turn s (.dequeue w top now) (.started task.id) ((s.pop top).setWorker w (.running task))
  | finish {w now task} (hw : s.workers w = .running task) (hperiodic : task.periodic = true) :
      Turn s (.finish w now) .internal (s.setWorker w (.requeueing (reschedule task now)))
  | release {w now task} (hw : s.workers w = .running task)
      (hlast : task.periodic = false ∨ task.cancelled = true ∨ s.running = false) :
      Turn s (.finish w now) .internal (s.setWorker w .idle)
  | requeue {w task} (hw : s.workers w = .requeueing task) : Turn s (.requeue w) .internal
      ({ s with taskQueue := task :: s.taskQueue }.setWorker w .idle)

variable {s s' : TaskScheduler W} {act : Act W} {event : Event} {w : W} {task : ScheduledTask}

theorem turn_of_dequeue {top : Nat} {now : Int} (hw : s.workers w = .entered)
    (h : s.dequeue w top now = some (s', event)) : Turn s (.dequeue w top now) event s' := by
  unfold dequeue at h
  split at h
  · cases h
    apply Turn.pass hw
  obtain ⟨task, htop, h⟩ := Option.bind_eq_some_iff.mp h
  split at h
  · split at h
    · rename_i hcancelled
      cases h
      apply Turn.drop hw htop hcancelled
    · rename_i hcancelled
      split at h
      · rename_i hdue
        cases h
        apply Turn.take hw htop (Bool.eq_false_iff.mpr hcancelled) hdue
      · cases h
        apply Turn.pass hw
  · cases h

theorem turn_of_step (h : step s act = some (s', event)) : Turn s act event s' := by
  cases act with
  | schedule cron now =>
    cases h
    apply Turn.make (fun id => ⟨id, cron now, some cron, 0, true, false⟩) rfl
  | scheduleOnce delay now =>
    cases h
    apply Turn.make (fun id => ⟨id, now + delay, none, 0, false, false⟩) rfl
  | schedulePeriodic interval now =>
    cases h
    apply Turn.make (fun id => ⟨id, now + interval, none, interval, true, false⟩) rfl
  | push call =>
    obtain ⟨task, hcall, h⟩ := Option.bind_eq_some_iff.mp h
    cases h
    apply Turn.push hcall
  | cancel taskId =>
    cases h
    apply Turn.cancel
  | start =>
    cases h
    apply Turn.start
  | stop =>
    cases h
    apply Turn.stop
  | enter w =>
    simp only [step] at h
    split at h
    · rename_i hw
      split at h
      · rename_i hrunning
        cases h
        apply Turn.enter hw hrunning
      · cases h
    · cases h
  | dequeue w top now =>
    simp only [step] at h
    split at h
    · rename_i hw
      exact turn_of_dequeue hw h
    · cases h
  | finish w now =>
    simp only [step] at h
    split at h
    · rename_i task hw
      split at h
      · rename_i hcond
        cases h
        simp only [Bool.and_eq_true] at hcond
        exact .finish hw hcond.1.1
      · rename_i hcond
        cases h
        refine .release hw ?_
        simpa [Decidable.or_iff_not_imp_left] using hcond
    · cases h
  | requeue w =>
    simp only [step] at h
    split at h
    · rename_i task hw
      cases h
      exact .requeue hw
    · cases h

/-- A task that waits after a step waited before, or has just been made, or was put back. -/
theorem Turn.waiting (h : Turn s act event s') (htask : task ∈ s'.waiting) :
    (∃ first ∈ s.waiting, Like task first ∧ (task.cancelled = true →
      first.cancelled = true ∨ (act, event) = (.cancel task.id, .cancelled true))) ∨
    (∃ first, plan act = some first ∧ task = first s.nextId) ∨
    ∃ w, s.workers w = .requeueing task := by
  have hold : task ∈ s.waiting → ∃ first ∈ s.waiting, Like task first ∧ (task.cancelled = true →
      first.cancelled = true ∨ (act, event) = (.cancel task.id, .cancelled true)) :=
    fun hmem => ⟨task, hmem, .refl task, .inl⟩
  cases h with
  | make first hplan =>
    rcases List.mem_cons.mp htask with rfl | htask
    · exact .inr (.inl ⟨_, hplan, rfl⟩)
    · exact .inl (hold htask)
  | push hcall =>
    left
    apply hold
    rcases List.mem_append.mp htask with htask | htask
    · exact List.mem_append_left _ (List.mem_of_mem_eraseIdx htask)
    · rcases List.mem_cons.mp htask with rfl | htask
      · exact List.mem_append_left _ (List.mem_of_getElem? hcall)
      · exact List.mem_append_right _ htask
  | cancel taskId =>
    left
    rcases List.mem_append.mp htask with htask | htask
    · apply hold
      exact List.mem_append_left _ htask
    · obtain ⟨first, hfirst, hlike, hmark⟩ := like_of_mem_mark htask
      refine ⟨first, List.mem_append_right _ hfirst, hlike, ?_⟩
      intro hcancelled
      rcases hmark hcancelled with hmark | ⟨hid, hany⟩
      · exact .inl hmark
      · right
        rw [hid, hany]
  | drop | take => exact .inl (hold (mem_waiting_of_mem_pop htask))
  | requeue hw =>
    rcases List.mem_append.mp htask with htask | htask
    · exact .inl (hold (List.mem_append_left _ htask))
    · rcases List.mem_cons.mp htask with rfl | htask
      · exact .inr (.inr ⟨_, hw⟩)
      · exact .inl (hold (List.mem_append_right _ htask))
  | start | stop | enter | pass | finish | release => exact .inl (hold htask)

/-- A task that a worker has after a step it had before, or has just begun to run. -/
theorem Turn.held (h : Turn s act event s') (hw : held (s'.workers w) = some task) :
    (∃ first, TaskScheduler.held (s.workers w) = some first ∧ Like task first ∧
      task.cancelled = first.cancelled) ∨
    task ∈ s.waiting ∧ task.cancelled = false ∧ event = .started task.id := by
  have hold : TaskScheduler.held (s.workers w) = some task →
      ∃ first, TaskScheduler.held (s.workers w) = some first ∧ Like task first ∧
        task.cancelled = first.cancelled := fun hw => ⟨task, hw, .refl task, rfl⟩
  cases h with
  | make | push | cancel | start | stop => exact .inl (hold hw)
  | take hv htop hcancelled hdue =>
    rcases held_setWorker hw with ⟨_, hw⟩ | ⟨_, hw⟩
    · cases hw
      exact .inr ⟨mem_waiting htop, hcancelled, rfl⟩
    · exact .inl (hold hw)
  | finish hv hperiodic =>
    rcases held_setWorker hw with ⟨rfl, hmine⟩ | ⟨_, hw⟩
    · cases hmine
      left
      refine ⟨_, by rw [hv]; rfl, like_reschedule hperiodic _, reschedule_cancelled _ _⟩
    · exact .inl (hold hw)
  | enter | pass | drop | release | requeue =>
    rcases held_setWorker hw with ⟨_, hw⟩ | ⟨_, hw⟩
    · cases hw
    · exact .inl (hold hw)

/-- A worker other than the one that steps keeps its task. -/
theorem Has.setWorker {worker : Worker} (h : Has s task)
    (hw : TaskScheduler.held (s.workers w) ≠ some task) : Has (s.setWorker w worker) task := by
  rcases h with h | ⟨v, hv⟩
  · exact .inl h
  · refine .inr ⟨v, ?_⟩
    rw [setWorker_ne]
    · exact hv
    · rintro rfl
      exact hw hv

/-- A task stays somewhere unless it is dropped, being cancelled, or its last run ends. -/
theorem Turn.keeps (h : Turn s act event s') (htask : Has s task) :
    (∃ task', Has s' task' ∧ task'.id = task.id) ∨
    task ∈ s.waiting ∧ task.cancelled = true ∨
    ∃ w, s.workers w = .running task ∧
      (task.periodic = false ∨ task.cancelled = true ∨ s.running = false) := by
  cases h with
  | make first hplan =>
    left
    refine ⟨task, ?_, rfl⟩
    rcases htask with htask | htask
    · exact .inl (List.mem_cons_of_mem _ htask)
    · exact .inr htask
  | push hcall =>
    left
    refine ⟨task, ?_, rfl⟩
    obtain ⟨hlt, rfl⟩ := List.getElem?_eq_some_iff.mp hcall
    rcases htask with htask | htask
    · left
      rcases List.mem_append.mp htask with htask | htask
      · have hperm := List.getElem_cons_eraseIdx_perm hlt
        rcases List.mem_cons.mp (hperm.mem_iff.mpr htask) with rfl | htask
        · exact List.mem_append_right _ List.mem_cons_self
        · exact List.mem_append_left _ htask
      · exact List.mem_append_right _ (List.mem_cons_of_mem _ htask)
    · exact .inr htask
  | cancel taskId =>
    left
    rcases htask with htask | htask
    · rcases List.mem_append.mp htask with htask | htask
      · exact ⟨task, .inl (List.mem_append_left _ htask), rfl⟩
      · obtain ⟨marked, hmarked, hid⟩ := mem_mark_of_mem taskId htask
        exact ⟨marked, .inl (List.mem_append_right _ hmarked), hid⟩
    · exact ⟨task, .inr htask, rfl⟩
  | start | stop => exact .inl ⟨task, htask, rfl⟩
  | enter hw | pass hw =>
    left
    refine ⟨task, htask.setWorker ?_, rfl⟩
    rw [hw]
    nofun
  | drop hw htop hcancelled =>
    rcases htask.pop htop with hpop | rfl
    · left
      refine ⟨task, hpop.setWorker ?_, rfl⟩
      change TaskScheduler.held (s.workers _) ≠ _
      rw [hw]
      nofun
    · exact .inr (.inl ⟨mem_waiting htop, hcancelled⟩)
  | @take w top now mine hw htop hcancelled hdue =>
    left
    rcases htask.pop htop with hpop | rfl
    · refine ⟨task, hpop.setWorker ?_, rfl⟩
      change TaskScheduler.held (s.workers _) ≠ _
      rw [hw]
      nofun
    · refine ⟨task, .inr ⟨w, ?_⟩, rfl⟩
      rw [setWorker_self]
      rfl
  | @finish w now mine hw hperiodic =>
    left
    by_cases hmine : mine = task
    · subst hmine
      refine ⟨reschedule mine now, .inr ⟨w, ?_⟩, (reschedule_id mine now).1⟩
      rw [setWorker_self]
      rfl
    · refine ⟨task, htask.setWorker ?_, rfl⟩
      rw [hw]
      exact fun heq => hmine (Option.some.inj heq)
  | @release w now mine hw hlast =>
    by_cases hmine : mine = task
    · subst hmine
      exact .inr (.inr ⟨w, hw, hlast⟩)
    · left
      refine ⟨task, htask.setWorker ?_, rfl⟩
      rw [hw]
      exact fun heq => hmine (Option.some.inj heq)
  | @requeue w mine hw =>
    left
    refine ⟨task, ?_, rfl⟩
    by_cases hmine : mine = task
    · subst hmine
      exact .inl (List.mem_append_right _ List.mem_cons_self)
    · have hrest : Has (s.setWorker w .idle) task := by
        apply htask.setWorker
        rw [hw]
        exact fun heq => hmine (Option.some.inj heq)
      rcases hrest with hrest | hrest
      · left
        rcases List.mem_append.mp hrest with hrest | hrest
        · exact List.mem_append_left _ hrest
        · exact List.mem_append_right _ (List.mem_cons_of_mem _ hrest)
      · exact .inr hrest

theorem Turn.made {first : Nat → ScheduledTask} (h : Turn s act event s')
    (hplan : plan act = some first) : s' = s.make (first s.nextId) ∧ event = .internal := by
  cases h with
  | make first' hplan' =>
    rw [hplan] at hplan'
    cases hplan'
    exact ⟨rfl, rfl⟩
  | _ => cases hplan

theorem Turn.nextId (h : Turn s act event s') (hplan : plan act = none) : s'.nextId = s.nextId := by
  cases h with
  | make first hplan' =>
    rw [hplan] at hplan'
    cases hplan'
  | _ => rfl

/-- A run starts with a task that waited and is due. -/
theorem Turn.began {taskId : Nat} (h : Turn s act event s') (hevent : event = .started taskId) :
    ∃ w top now, act = .dequeue w top now ∧ ∃ task ∈ s.waiting, task.id = taskId ∧
      task.nextExecution ≤ now ∧ TaskScheduler.held (s'.workers w) = some task := by
  cases h with
  | @take w top now task hw htop hcancelled hdue =>
    refine ⟨w, top, now, rfl, task, mem_waiting htop, Event.started.inj hevent, hdue, ?_⟩
    rw [setWorker_self]
    rfl
  | _ => cases hevent

/-- A worker is in its loop only where the scheduler has been started. -/
theorem Turn.opened (h : Turn s act event s') {Stopped : Prop}
    (hopen : ∀ w, s.workers w ≠ .idle → s.running = true ∨ Stopped)
    (hw : s'.workers w ≠ .idle) : s'.running = true ∨ act = .stop ∨ Stopped := by
  have hsame : s.workers w ≠ .idle → s.running = true ∨ act = .stop ∨ Stopped := by
    intro hne
    rcases hopen w hne with hrunning | hstopped
    · exact .inl hrunning
    · exact .inr (.inr hstopped)
  have hother : ∀ {s₁ : TaskScheduler W} {v worker}, s₁.workers = s.workers →
      s₁.running = s.running → s.workers v ≠ .idle → (s₁.setWorker v worker).workers w ≠ .idle →
      (s₁.setWorker v worker).running = true ∨ act = .stop ∨ Stopped := by
    intro s₁ v worker hworkers hrunning hv hne
    change s₁.running = true ∨ _
    rw [hrunning]
    by_cases hvw : w = v
    · subst hvw
      exact hsame hv
    · rw [setWorker_ne s₁ worker hvw, hworkers] at hne
      exact hsame hne
  cases h with
  | make | push | cancel => exact hsame hw
  | start => exact .inl rfl
  | stop => exact .inr (.inl rfl)
  | enter hv hrunning => exact .inl hrunning
  | pass hv | drop hv | take hv | finish hv | release hv | requeue hv =>
    exact hother rfl rfl (by rw [hv]; nofun) hw

end Turns

section Logs
variable {W : Type} {log more : Log W} {act : Act W} {event : Event} {taskId : Nat}
  {first : ScheduledTask}

theorem planned_append (h : planned log taskId = some first) (more : Log W) :
    planned (log ++ more) taskId = some first := by
  cases taskId with
  | zero => cases h
  | succ n =>
    obtain ⟨make, hmake, hfirst⟩ := Option.map_eq_some_iff.mp h
    apply Option.map_eq_some_iff.mpr
    refine ⟨make, ?_, hfirst⟩
    rw [plans, List.filterMap_append]
    exact List.getElem?_append_left (List.getElem?_eq_some_iff.mp hmake).1 ▸ hmake

theorem planned_lt (h : planned log taskId = some first) : taskId < (plans log).length + 1 := by
  cases taskId with
  | zero => exact Nat.succ_pos _
  | succ n =>
    obtain ⟨make, hmake, _⟩ := Option.map_eq_some_iff.mp h
    exact Nat.succ_lt_succ (List.getElem?_eq_some_iff.mp hmake).1

theorem plans_append_none (hplan : plan act = none) :
    plans (log ++ [(act, event)]) = plans log := by
  simp [plans, hplan]

theorem plans_append_some {make : Nat → ScheduledTask} (hplan : plan act = some make) :
    plans (log ++ [(act, event)]) = plans log ++ [make] := by
  simp [plans, hplan]

theorem planned_new {make : Nat → ScheduledTask} (hplan : plan act = some make) :
    planned (log ++ [(act, event)]) ((plans log).length + 1) =
      some (make ((plans log).length + 1)) := by
  simp [planned, plans_append_some hplan]

/-- Nothing but a call to schedule adds a task. -/
theorem planned_cases (h : planned (log ++ [(act, event)]) taskId = some first) :
    planned log taskId = some first ∨ ∃ make, plan act = some make ∧
      taskId = (plans log).length + 1 ∧ first = make taskId := by
  cases taskId with
  | zero => cases h
  | succ n =>
    cases hplan : plan act with
    | none =>
      left
      rwa [planned, plans_append_none hplan] at h
    | some make =>
      have hlt := planned_lt h
      rw [plans_append_some hplan, List.length_append, List.length_singleton] at hlt
      rw [planned, plans_append_some hplan] at h
      by_cases hn : n < (plans log).length
      · left
        rwa [List.getElem?_append_left hn] at h
      · right
        obtain rfl : n = (plans log).length := by omega
        refine ⟨make, rfl, rfl, ?_⟩
        simpa [eq_comm] using h

theorem plan_id {make : Nat → ScheduledTask} (hplan : plan act = some make) (id : Nat) :
    (make id).id = id ∧ (make id).cancelled = false := by
  cases act with
  | schedule | scheduleOnce | schedulePeriodic =>
    cases hplan
    exact ⟨rfl, rfl⟩
  | _ => cases hplan

theorem Began.append (h : Began log taskId) (more : Log W) : Began (log ++ more) taskId := by
  rw [Began, List.map_append]
  exact List.mem_append_left _ h

theorem began_append : Began (log ++ [(act, event)]) taskId ↔
    Began log taskId ∨ event = .started taskId := by
  simp [Began, eq_comm]

theorem Gone.append (h : Gone log first) (more : Log W) : Gone (log ++ more) first := by
  rcases h with h | ⟨hbegan, h⟩
  · exact .inl (List.mem_append_left _ h)
  · refine .inr ⟨hbegan.append more, ?_⟩
    rcases h with h | h
    · exact .inl h
    · right
      rw [List.map_append]
      exact List.mem_append_left _ h

end Logs

section Ledger
variable {W : Type} {s s' : TaskScheduler W} {log : Log W} {act : Act W} {event : Event}
  {taskId : Nat} {task first : ScheduledTask}

/-- What is known of the tasks that wait and of those that a worker has. -/
structure Ledger (s : TaskScheduler W) (log : Log W) : Prop extends Accounted s log where
  ids : (plans log).length + 1 = s.nextId
  whose : ∀ task, Has s task → ∃ first, planned log task.id = some first ∧ Like task first
  fresh : ∀ task ∈ s.waiting, task.periodic = false → ¬ Began log task.id
  marked : ∀ task ∈ s.waiting, task.cancelled = true → (.cancel task.id, .cancelled true) ∈ log
  begun : ∀ w task, held (s.workers w) = some task → Began log task.id ∧ task.cancelled = false
  opened : ∀ w, s.workers w ≠ .idle → s.running = true ∨ .stop ∈ log.map Prod.fst

theorem Ledger.first_unique (h : Ledger s log) (htask : Has s task)
    (hfirst : planned log task.id = some first) : Like task first := by
  obtain ⟨first', hfirst', hlike⟩ := h.whose task htask
  rw [hfirst] at hfirst'
  cases hfirst'
  exact hlike

theorem Ledger.not_began (h : Ledger s log) : ¬ Began log s.nextId := by
  intro hbegan
  obtain ⟨first, hfirst⟩ := h.genuine _ hbegan
  have hlt := planned_lt hfirst
  rw [h.ids] at hlt
  exact Nat.lt_irrefl _ hlt

/-- The task made by a call that has just been taken has the next id. -/
theorem Ledger.planned_cases (h : Ledger s log)
    (hfirst : planned (log ++ [(act, event)]) taskId = some first) :
    planned log taskId = some first ∨
      ∃ make, plan act = some make ∧ taskId = s.nextId ∧ first = make s.nextId := by
  rcases TaskScheduler.planned_cases hfirst with hold | ⟨make, hplan, hid, rfl⟩
  · exact .inl hold
  · right
    rw [h.ids] at hid
    subst hid
    exact ⟨make, hplan, rfl, rfl⟩

theorem Ledger.planned_new (h : Ledger s log) {make : Nat → ScheduledTask}
    (hplan : plan act = some make) :
    planned (log ++ [(act, event)]) s.nextId = some (make s.nextId) := by
  rw [← h.ids]
  apply TaskScheduler.planned_new hplan

variable [DecidableEq W]

/-- A run that begins is one of a task that waited and is due. -/
theorem Ledger.due (h : Ledger s log) (hturn : Turn s act (.started taskId) s') :
    ∃ w top now, act = .dequeue w top now ∧ ∃ task ∈ s.waiting, task.id = taskId ∧
      task.nextExecution ≤ now ∧ held (s'.workers w) = some task ∧
      ∃ first, planned log taskId = some first ∧ Like task first := by
  obtain ⟨w, top, now, hact, task, htask, rfl, hdue, hheld⟩ := hturn.began rfl
  exact ⟨w, top, now, hact, task, htask, rfl, hdue, hheld, h.whose task (.inl htask)⟩

theorem Ledger.kept_step (h : Ledger s log) (hturn : Turn s act event s')
    (hfirst : planned (log ++ [(act, event)]) taskId = some first) :
    (∃ task, Has s' task ∧ task.id = taskId) ∨ Gone (log ++ [(act, event)]) first := by
  rcases h.planned_cases hfirst with hold | ⟨make, hplan, rfl, rfl⟩
  · rcases h.kept taskId first hold with ⟨task, htask, rfl⟩ | hgone
    · have hlike := h.first_unique htask hold
      rcases hturn.keeps htask with ⟨task', htask', hid⟩ | ⟨hmem, hcancelled⟩ | ⟨w, hw, hlast⟩
      · exact .inl ⟨task', htask', hid⟩
      · right
        left
        rw [hlike.id]
        exact List.mem_append_left _ (h.marked task hmem hcancelled)
      · obtain ⟨hbegan, hnot⟩ := h.begun w task (by rw [hw]; rfl)
        right
        refine Gone.append (.inr ⟨hlike.id ▸ hbegan, ?_⟩) _
        rcases hlast with honce | hcancelled | hrunning
        · exact .inl (hlike.periodic.trans honce)
        · rw [hnot] at hcancelled
          cases hcancelled
        · rcases h.opened w (by rw [hw]; nofun) with hopen | hstopped
          · rw [hrunning] at hopen
            cases hopen
          · exact .inr hstopped
    · exact .inr (hgone.append _)
  · left
    obtain ⟨rfl, _⟩ := hturn.made hplan
    exact ⟨make s.nextId, .inl List.mem_cons_self, (plan_id hplan _).1⟩

theorem Ledger.genuine_step (h : Ledger s log) (hturn : Turn s act event s')
    (hbegan : Began (log ++ [(act, event)]) taskId) :
    ∃ first, planned (log ++ [(act, event)]) taskId = some first := by
  have hold : ∃ first, planned log taskId = some first := by
    rcases began_append.mp hbegan with hbegan | rfl
    · exact h.genuine taskId hbegan
    · obtain ⟨_, _, _, _, _, _, _, _, _, first, hfirst, _⟩ := h.due hturn
      exact ⟨first, hfirst⟩
  obtain ⟨first, hfirst⟩ := hold
  exact ⟨first, planned_append hfirst _⟩

theorem Ledger.once_step (h : Ledger s log) (hturn : Turn s act event s')
    (hfirst : planned (log ++ [(act, event)]) taskId = some first)
    (honce : first.periodic = false) :
    ((log ++ [(act, event)]).map Prod.snd).count (.started taskId) ≤ 1 := by
  rw [List.map_append, List.count_append]
  have hnone : ¬ Began log taskId → (log.map Prod.snd).count (.started taskId) = 0 :=
    List.count_eq_zero.mpr
  by_cases hevent : event = .started taskId
  · subst hevent
    obtain ⟨_, _, _, _, task, htask, rfl, _, _, first', hfirst', hlike⟩ := h.due hturn
    rw [planned_append hfirst' _] at hfirst
    cases hfirst
    rw [hnone (h.fresh task htask (hlike.periodic ▸ honce))]
    simp
  · have hlast : ([(act, event)].map Prod.snd).count (.started taskId) = 0 := by
      simpa [List.count_singleton] using hevent
    rw [hlast, Nat.add_zero]
    rcases h.planned_cases hfirst with hold | ⟨make, hplan, rfl, rfl⟩
    · exact h.once taskId first hold honce
    · rw [hnone h.not_began]
      exact Nat.zero_le 1

theorem Ledger.punctual_step (h : Ledger s log) (hturn : Turn s act event s') {w : W} {top : Nat}
    {now : Int} (hmem : (.dequeue w top now, .started taskId) ∈ log ++ [(act, event)])
    (hfirst : planned (log ++ [(act, event)]) taskId = some first)
    (honce : first.periodic = false) : first.nextExecution ≤ now := by
  rcases List.mem_append.mp hmem with hmem | hmem
  · obtain ⟨first', hfirst'⟩ := h.genuine taskId (List.mem_map_of_mem hmem)
    rw [planned_append hfirst' _] at hfirst
    cases hfirst
    exact h.punctual w top now taskId first hmem hfirst' honce
  · cases List.mem_singleton.mp hmem
    obtain ⟨_, _, _, hact, task, _, _, hdue, _, first', hfirst', hlike⟩ := h.due hturn
    cases hact
    rw [planned_append hfirst' _] at hfirst
    cases hfirst
    rw [hlike.time honce]
    exact hdue

theorem Ledger.whose_step (h : Ledger s log) (hturn : Turn s act event s') (htask : Has s' task) :
    ∃ first, planned (log ++ [(act, event)]) task.id = some first ∧ Like task first := by
  have hlike : ∀ {before}, Has s before → Like task before →
      ∃ first, planned (log ++ [(act, event)]) task.id = some first ∧ Like task first := by
    intro before hbefore hlike
    obtain ⟨first, hfirst, hlike'⟩ := h.whose before hbefore
    refine ⟨first, ?_, hlike.trans hlike'⟩
    rw [← hlike.id]
    exact planned_append hfirst _
  rcases htask with htask | ⟨w, hw⟩
  · rcases hturn.waiting htask with ⟨before, hmem, hsame, _⟩ | ⟨make, hplan, rfl⟩ | ⟨w, hw⟩
    · exact hlike (.inl hmem) hsame
    · refine ⟨make s.nextId, ?_, .refl _⟩
      rw [(plan_id hplan _).1]
      exact h.planned_new hplan
    · exact hlike (.inr ⟨w, by rw [hw]; rfl⟩) (.refl task)
  · rcases hturn.held hw with ⟨before, hbefore, hsame, _⟩ | ⟨hmem, _⟩
    · exact hlike (.inr ⟨w, hbefore⟩) hsame
    · exact hlike (.inl hmem) (.refl task)

theorem Ledger.fresh_step (h : Ledger s log) (hturn : Turn s act event s')
    (hdistinct : Distinct s') (htask : task ∈ s'.waiting) (honce : task.periodic = false) :
    ¬ Began (log ++ [(act, event)]) task.id := by
  rw [began_append, not_or]
  constructor
  · rcases hturn.waiting htask with ⟨before, hmem, hlike, _⟩ | ⟨make, hplan, rfl⟩ | ⟨w, hw⟩
    · rw [← hlike.id]
      exact h.fresh before hmem (hlike.periodic.trans honce)
    · rw [(plan_id hplan _).1]
      exact h.not_began
    · rw [h.distinct.periodic w task hw] at honce
      cases honce
  · rintro rfl
    obtain ⟨w, _, _, _, running, _, hid, _, hw, _⟩ := h.due hturn
    apply (hdistinct.taken w running hw).2
    rw [hid]
    exact List.mem_map_of_mem htask

theorem Ledger.marked_step (h : Ledger s log) (hturn : Turn s act event s')
    (htask : task ∈ s'.waiting) (hcancelled : task.cancelled = true) :
    (.cancel task.id, .cancelled true) ∈ log ++ [(act, event)] := by
  rcases hturn.waiting htask with ⟨before, hmem, hlike, hmark⟩ | ⟨make, hplan, rfl⟩ | ⟨w, hw⟩
  · rcases hmark hcancelled with hmark | heq
    · rw [← hlike.id]
      exact List.mem_append_left _ (h.marked before hmem hmark)
    · rw [heq]
      exact List.mem_append_right _ List.mem_cons_self
  · rw [(plan_id hplan _).2] at hcancelled
    cases hcancelled
  · rw [(h.begun w task (by rw [hw]; rfl)).2] at hcancelled
    cases hcancelled

theorem Ledger.begun_step (h : Ledger s log) (hturn : Turn s act event s') {w : W}
    (hw : held (s'.workers w) = some task) :
    Began (log ++ [(act, event)]) task.id ∧ task.cancelled = false := by
  rcases hturn.held hw with ⟨before, hbefore, hlike, hcancelled⟩ | ⟨_, hcancelled, hevent⟩
  · obtain ⟨hbegan, hnot⟩ := h.begun w before hbefore
    exact ⟨hlike.id ▸ hbegan.append _, hcancelled.trans hnot⟩
  · exact ⟨began_append.mpr (.inr hevent), hcancelled⟩

theorem Ledger.step (h : Ledger s log) (hstep : step s act = some (s', event)) :
    Ledger s' (log ++ [(act, event)]) := by
  have hturn := turn_of_step hstep
  have hdistinct := h.distinct.step hstep
  refine ⟨⟨hdistinct, ?_, ?_, ?_, ?_⟩, ?_, ?_, ?_, ?_, ?_, ?_⟩
  · exact fun taskId first hfirst => h.kept_step hturn hfirst
  · exact fun taskId hbegan => h.genuine_step hturn hbegan
  · exact fun taskId first hfirst honce => h.once_step hturn hfirst honce
  · intro w top now taskId first hmem hfirst honce
    exact h.punctual_step hturn hmem hfirst honce
  · cases hplan : plan act with
    | none => rw [plans_append_none hplan, h.ids, hturn.nextId hplan]
    | some make =>
      obtain ⟨rfl, _⟩ := hturn.made hplan
      rw [plans_append_some hplan, List.length_append, List.length_singleton, h.ids]
      rfl
  · exact fun task htask => h.whose_step hturn htask
  · exact fun task htask honce => h.fresh_step hturn hdistinct htask honce
  · exact fun task htask hcancelled => h.marked_step hturn htask hcancelled
  · exact fun w task hw => h.begun_step hturn hw
  · intro w hw
    rcases hturn.opened h.opened hw with hrunning | rfl | hstopped
    · exact .inl hrunning
    · right
      simp
    · right
      rw [List.map_append]
      exact List.mem_append_left _ hstopped

theorem Ledger.exec {more : Log W} (h : Ledger s log)
    (hrun : Run.exec TaskScheduler.step s (more.map Prod.fst) = some (s', more.map Prod.snd)) :
    Ledger s' (log ++ more) := by
  induction more generalizing s log with
  | nil =>
    cases hrun
    rwa [List.append_nil]
  | cons entry more ih =>
    obtain ⟨act, event⟩ := entry
    obtain ⟨⟨s₁, event'⟩, hstep, hrun⟩ := Option.bind_eq_some_iff.mp hrun
    obtain ⟨⟨s₂, events⟩, hrest, hrun⟩ := Option.bind_eq_some_iff.mp hrun
    simp only [Option.pure_def, Option.some.injEq, Prod.mk.injEq, List.map_cons,
      List.cons.injEq] at hrun
    obtain ⟨rfl, rfl, rfl⟩ := hrun
    have hlast := ih (h.step hstep) hrest
    rwa [List.append_assoc] at hlast

end Ledger

end Cppforge.Scheduler.TaskScheduler
