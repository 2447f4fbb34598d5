import Cppforge.Lib.Run
import Cppforge.Scheduler.TaskScheduler
import Mathlib.Data.Fintype.Basic
import Mathlib.Data.List.Nodup
import Mathlib.Data.List.Perm.Basic
import Mathlib.Data.List.Perm.Subperm

namespace Cppforge.Scheduler.TaskScheduler

variable {W : Type} {s s' : TaskScheduler W} {act : Act W} {acts : List (Act W)}
  {event : Event} {taskId : Nat} {w : W} {task : ScheduledTask}

section Statement

/-- The task that a worker has taken out of the queue. -/
def held : Worker → Option ScheduledTask
  | .running task => some task
  | .requeueing task => some task
  | _ => none

/-- A task that was scheduled and is not finished for good. -/
def Alive (s : TaskScheduler W) (taskId : Nat) : Prop :=
  (∃ task ∈ s.taskQueue, task.id = taskId) ∨
    ∃ w task, held (s.workers w) = some task ∧ task.id = taskId

/-- No call cancels a periodic task that a worker has taken and not put back yet. -/
def OutsideRun (s : TaskScheduler W) : Act W → Prop
  | .cancel taskId => ∀ w, ∀ task ∈ held (s.workers w), task.id = taskId → task.periodic = false
  | _ => True

instance OutsideRun.decidable [Fintype W] (s : TaskScheduler W) :
    ∀ act, Decidable (OutsideRun s act)
  | .cancel taskId => inferInstanceAs (Decidable (∀ w, ∀ task ∈ held (s.workers w),
      task.id = taskId → task.periodic = false))
  | .schedule .. | .scheduleOnce .. | .schedulePeriodic .. | .push _ | .start | .stop | .enter _
  | .dequeue .. | .finish .. | .requeue _ => isTrue trivial

variable [DecidableEq W]

/-- In a run from a state, no run of a task starts after a call that cancels it. -/
def CancelFinal (s : TaskScheduler W) (acts : List (Act W)) : Prop :=
  ∀ before taskId after, acts = before ++ .cancel taskId :: after →
    ∀ s₁ events, Run.exec step s before = some (s₁, events) → Alive s₁ taskId →
      ∀ s₂ events', Run.exec step s₁ (.cancel taskId :: after) = some (s₂, events') →
        Event.started taskId ∉ events'


end Statement

section Invariant

/-- The tasks that no worker has taken. -/
def waiting (s : TaskScheduler W) : List ScheduledTask := s.pending ++ s.taskQueue

/-- Every task is in one place, under its own id. -/
structure Distinct (s : TaskScheduler W) : Prop where
  nodup : (s.waiting.map ScheduledTask.id).Nodup
  below : ∀ task ∈ s.waiting, task.id < s.nextId
  taken : ∀ w task, held (s.workers w) = some task →
    task.id < s.nextId ∧ task.id ∉ s.waiting.map ScheduledTask.id
  single : ∀ w w' task task', held (s.workers w) = some task → held (s.workers w') = some task' →
    task.id = task'.id → w = w'
  periodic : ∀ w task, s.workers w = .requeueing task → task.periodic = true

theorem map_id_markCancelled (taskId : Nat) (tasks : List ScheduledTask) :
    (markCancelled taskId tasks).map ScheduledTask.id = tasks.map ScheduledTask.id := by
  induction tasks with
  | nil => rfl
  | cons task tasks ih =>
    rw [markCancelled]
    split
    · rfl
    · rw [List.map_cons, List.map_cons, ih]

theorem distinct_init : Distinct (init : TaskScheduler W) where
  nodup := List.nodup_nil
  below := fun _ h => nomatch h
  taken := fun _ _ h => nomatch h
  single := fun _ _ _ _ h => nomatch h
  periodic := fun _ _ h => nomatch h

/-- Only the ids of the tasks that wait matter, and there may be fewer. -/
theorem Distinct.subperm (h : Distinct s) (hnext : s'.nextId = s.nextId)
    (hworkers : s'.workers = s.workers)
    (hwaiting : (s'.waiting.map ScheduledTask.id).Subperm (s.waiting.map ScheduledTask.id)) :
    Distinct s' where
  nodup := by
    obtain ⟨ids, hperm, hsub⟩ := hwaiting
    exact hperm.nodup_iff.mp (h.nodup.sublist hsub)
  below := by
    intro task htask
    obtain ⟨task', htask', heq⟩ :=
      List.mem_map.mp (hwaiting.subset (List.mem_map_of_mem htask))
    rw [hnext, ← heq]
    exact h.below task' htask'
  taken := by
    intro w task htask
    rw [hworkers] at htask
    rw [hnext]
    obtain ⟨hlt, hnot⟩ := h.taken w task htask
    exact ⟨hlt, fun hmem => hnot (hwaiting.subset hmem)⟩
  single := by
    rw [hworkers]
    exact h.single
  periodic := by
    rw [hworkers]
    exact h.periodic

theorem Distinct.make (h : Distinct s) (hid : task.id = s.nextId) : Distinct (s.make task) where
  nodup := by
    change ((task :: s.waiting).map ScheduledTask.id).Nodup
    refine List.nodup_cons.mpr ⟨?_, h.nodup⟩
    intro hmem
    obtain ⟨task', htask', heq⟩ := List.mem_map.mp hmem
    have := h.below task' htask'
    omega
  below := by
    change ∀ task' ∈ task :: s.waiting, task'.id < s.nextId + 1
    intro task' htask'
    rcases List.mem_cons.mp htask' with rfl | htask'
    · omega
    · have := h.below task' htask'
      omega
  taken := by
    intro w task' htask'
    obtain ⟨hlt, hnot⟩ := h.taken w task' htask'
    refine ⟨Nat.lt_succ_of_lt hlt, ?_⟩
    change task'.id ∉ (task :: s.waiting).map ScheduledTask.id
    rw [List.map_cons, List.mem_cons, not_or]
    exact ⟨by omega, hnot⟩
  single := h.single
  periodic := h.periodic

theorem waiting_pop (s : TaskScheduler W) (top : Nat) :
    ((s.pop top).waiting.map ScheduledTask.id).Sublist (s.waiting.map ScheduledTask.id) :=
  (List.Sublist.append_left (List.eraseIdx_sublist _ _) _).map _

theorem mem_waiting {top : Nat} (h : s.taskQueue[top]? = some task) : task ∈ s.waiting :=
  List.mem_append_right _ (List.mem_of_getElem? h)

/-- The task at the top is nowhere else. -/
theorem Distinct.not_mem_pop (h : Distinct s) {top : Nat} (htop : s.taskQueue[top]? = some task) :
    task.id ∉ (s.pop top).waiting.map ScheduledTask.id := by
  obtain ⟨hlt, rfl⟩ := List.getElem?_eq_some_iff.mp htop
  have hperm : s.waiting.Perm (s.taskQueue[top] :: (s.pop top).waiting) :=
    ((List.getElem_cons_eraseIdx_perm hlt).symm.append_left s.pending).trans List.perm_middle
  have hnodup := (hperm.map ScheduledTask.id).nodup_iff.mp h.nodup
  exact (List.nodup_cons.mp hnodup).1

theorem Distinct.others (h : Distinct s) (hw : held (s.workers w) = some task) (v : W)
    (task' : ScheduledTask) (hne : v ≠ w) (hv : held (s.workers v) = some task') :
    task'.id ≠ task.id := fun heq => hne (h.single v w task' task hv hw heq)

variable [DecidableEq W]

theorem setWorker_self (s : TaskScheduler W) (w : W) (worker : Worker) :
    (s.setWorker w worker).workers w = worker := Function.update_self ..

theorem setWorker_ne (s : TaskScheduler W) (worker : Worker) {v : W} (h : v ≠ w) :
    (s.setWorker w worker).workers v = s.workers v := Function.update_of_ne h ..

theorem held_setWorker {worker : Worker} {v : W}
    (h : held ((s.setWorker w worker).workers v) = some task) :
    v = w ∧ held worker = some task ∨ v ≠ w ∧ held (s.workers v) = some task := by
  by_cases hv : v = w
  · subst hv
    rw [setWorker_self] at h
    exact .inl ⟨rfl, h⟩
  · rw [setWorker_ne s worker hv] at h
    exact .inr ⟨hv, h⟩

/-- A worker that holds nothing afterwards. -/
theorem Distinct.release (h : Distinct s) {worker : Worker} (hworker : held worker = none) :
    Distinct (s.setWorker w worker) where
  nodup := h.nodup
  below := h.below
  taken := by
    intro v task hv
    rcases held_setWorker hv with ⟨_, hv⟩ | ⟨_, hv⟩
    · rw [hworker] at hv
      cases hv
    · exact h.taken v task hv
  single := by
    intro v v' task task' hv hv'
    rcases held_setWorker hv with ⟨_, hv⟩ | ⟨_, hv⟩
    · rw [hworker] at hv
      cases hv
    rcases held_setWorker hv' with ⟨_, hv'⟩ | ⟨_, hv'⟩
    · rw [hworker] at hv'
      cases hv'
    · exact h.single v v' task task' hv hv'
  periodic := by
    intro v task hv
    by_cases hvw : v = w
    · subst hvw
      rw [setWorker_self] at hv
      rw [hv] at hworker
      cases hworker
    · rw [setWorker_ne s worker hvw] at hv
      exact h.periodic v task hv

/-- A worker that takes a task, in nobody's hands before. -/
theorem Distinct.take (h : Distinct s) {worker : Worker} (hworker : held worker = some task)
    (hperiodic : ∀ task, worker = .requeueing task → task.periodic = true)
    (hlt : task.id < s.nextId) (hnot : task.id ∉ s.waiting.map ScheduledTask.id)
    (hfree : ∀ v task', v ≠ w → held (s.workers v) = some task' → task'.id ≠ task.id) :
    Distinct (s.setWorker w worker) where
  nodup := h.nodup
  below := h.below
  taken := by
    intro v task' hv
    rcases held_setWorker hv with ⟨_, hv⟩ | ⟨_, hv⟩
    · rw [hworker] at hv
      cases hv
      exact ⟨hlt, hnot⟩
    · exact h.taken v task' hv
  single := by
    intro v v' t t' hv hv' heq
    rcases held_setWorker hv with ⟨hvw, ht⟩ | ⟨hvw, ht⟩
    · rcases held_setWorker hv' with ⟨hvw', ht'⟩ | ⟨hvw', ht'⟩
      · exact hvw.trans hvw'.symm
      · rw [hworker] at ht
        cases ht
        exact absurd heq.symm (hfree v' t' hvw' ht')
    · rcases held_setWorker hv' with ⟨_, ht'⟩ | ⟨_, ht'⟩
      · rw [hworker] at ht'
        cases ht'
        exact absurd heq (hfree v t hvw ht)
      · exact h.single v v' t t' ht ht' heq
  periodic := by
    intro v task' hv
    by_cases hvw : v = w
    · subst hvw
      rw [setWorker_self] at hv
      exact hperiodic task' hv
    · rw [setWorker_ne s worker hvw] at hv
      exact h.periodic v task' hv

/-- A worker that puts its task back. -/
theorem Distinct.putBack (h : Distinct s) (hw : held (s.workers w) = some task) :
    Distinct ({ s with taskQueue := task :: s.taskQueue }.setWorker w .idle) := by
  obtain ⟨hlt, hnot⟩ := h.taken w task hw
  have hrelease : Distinct (s.setWorker w .idle) := h.release rfl
  have hfree : ∀ v t, held ((s.setWorker w .idle).workers v) = some t → t.id ≠ task.id := by
    intro v t hv
    rcases held_setWorker hv with ⟨_, hv⟩ | ⟨hne, hv⟩
    · cases hv
    · exact h.others hw v t hne hv
  have hperm : (s.pending ++ task :: s.taskQueue).Perm (task :: s.waiting) := List.perm_middle
  have hids := hperm.map ScheduledTask.id
  refine ⟨hids.nodup_iff.mpr (List.nodup_cons.mpr ⟨hnot, h.nodup⟩), ?_, ?_, hrelease.single,
    hrelease.periodic⟩
  · intro t ht
    rcases List.mem_cons.mp (hperm.mem_iff.mp ht) with rfl | ht
    · exact hlt
    · exact h.below t ht
  · intro v t hv
    obtain ⟨hlt', hnot'⟩ := hrelease.taken v t hv
    refine ⟨hlt', ?_⟩
    intro hmem
    rcases List.mem_cons.mp (hids.mem_iff.mp hmem) with heq | hmem
    · exact hfree v t hv heq
    · exact hnot' hmem

/-- A critical section of a worker leaves it without a task, or starts the task at the top, one
that is not cancelled. -/
theorem dequeue_cases {top : Nat} {now : Int} (h : s.dequeue w top now = some (s', event)) :
    (∃ s₁, s' = s₁.setWorker w .idle ∧ event = .internal ∧ (s₁ = s ∨ s₁ = s.pop top)) ∨
    ∃ task, s.taskQueue[top]? = some task ∧ task.cancelled = false ∧
      s' = (s.pop top).setWorker w (.running task) ∧ event = .started task.id := by
  unfold dequeue at h
  split at h
  · cases h
    exact .inl ⟨s, rfl, rfl, .inl rfl⟩
  obtain ⟨task, htask, h⟩ := Option.bind_eq_some_iff.mp h
  split at h
  · split at h
    · cases h
      exact .inl ⟨s.pop top, rfl, rfl, .inr rfl⟩
    · rename_i hcancelled
      split at h
      · cases h
        exact .inr ⟨task, htask, Bool.eq_false_iff.mpr hcancelled, rfl, rfl⟩
      · cases h
        exact .inl ⟨s, rfl, rfl, .inl rfl⟩
  · cases h

theorem reschedule_id (task : ScheduledTask) (now : Int) :
    (reschedule task now).id = task.id ∧ (reschedule task now).periodic = task.periodic := by
  unfold reschedule
  split
  · exact ⟨rfl, rfl⟩
  · split <;> exact ⟨rfl, rfl⟩

/-- Ids stay distinct. -/
theorem Distinct.step (h : Distinct s) (hstep : step s act = some (s', event)) : Distinct s' := by
  cases act with
  | schedule cron now =>
    cases hstep
    exact h.make rfl
  | scheduleOnce delay now =>
    cases hstep
    exact h.make rfl
  | schedulePeriodic interval now =>
    cases hstep
    exact h.make rfl
  | push call =>
    obtain ⟨task, htask, hstep⟩ := Option.bind_eq_some_iff.mp hstep
    cases hstep
    obtain ⟨hlt, rfl⟩ := List.getElem?_eq_some_iff.mp htask
    refine h.subperm rfl rfl (List.Perm.subperm (List.Perm.map _ ?_))
    have hmiddle : (s.pending.eraseIdx call ++ s.pending[call] :: s.taskQueue).Perm
        (s.pending[call] :: s.pending.eraseIdx call ++ s.taskQueue) := List.perm_middle
    exact hmiddle.trans ((List.getElem_cons_eraseIdx_perm hlt).append_right _)
  | cancel taskId =>
    cases hstep
    refine h.subperm rfl rfl (List.Perm.subperm (List.Perm.of_eq ?_))
    simp [waiting, map_id_markCancelled]
  | start =>
    cases hstep
    exact h.subperm rfl rfl (List.Subperm.refl _)
  | stop =>
    cases hstep
    exact h.subperm rfl rfl (List.Subperm.refl _)
  | enter w =>
    simp only [TaskScheduler.step] at hstep
    split at hstep
    · split at hstep
      · cases hstep
        exact h.release rfl
      · cases hstep
    · cases hstep
  | dequeue w top now =>
    simp only [TaskScheduler.step] at hstep
    split at hstep
    · rename_i hw
      have hpop : Distinct (s.pop top) := h.subperm rfl rfl (waiting_pop s top).subperm
      rcases dequeue_cases hstep with ⟨s₁, rfl, _, rfl | rfl⟩ | ⟨task, htop, _, rfl, _⟩
      · exact h.release rfl
      · exact hpop.release rfl
      · refine hpop.take rfl (fun _ hr => nomatch hr) (h.below task (mem_waiting htop))
          (h.not_mem_pop htop) ?_
        intro v task' _ hv heq
        exact (h.taken v task' hv).2 (heq ▸ List.mem_map_of_mem (mem_waiting htop))
    · cases hstep
  | finish w now =>
    simp only [TaskScheduler.step] at hstep
    split at hstep
    · rename_i task hw
      have hheld : held (s.workers w) = some task := by rw [hw]; rfl
      obtain ⟨hid, hperiodic⟩ := reschedule_id task now
      split at hstep
      · rename_i hcond
        cases hstep
        obtain ⟨hlt, hnot⟩ := h.taken w task hheld
        have htook : held (.requeueing (reschedule task now)) = some (reschedule task now) := rfl
        refine h.take htook ?_ (hid ▸ hlt) (hid ▸ hnot) (hid ▸ h.others hheld)
        intro task' heq
        cases heq
        simp only [Bool.and_eq_true] at hcond
        rw [hperiodic]
        exact hcond.1.1
      · cases hstep
        exact h.release rfl
    · cases hstep
  | requeue w =>
    simp only [TaskScheduler.step] at hstep
    split at hstep
    · rename_i task hw
      have hheld : held (s.workers w) = some task := by rw [hw]; rfl
      cases hstep
      exact h.putBack hheld
    · cases hstep

end Invariant

section Cancelled

/-- No run of a task starts any more: where it waits it is marked, and a worker that has taken it
will not put it back. -/
structure Over (s : TaskScheduler W) (taskId : Nat) : Prop where
  known : taskId < s.nextId
  pending : ∀ task ∈ s.pending, task.id ≠ taskId
  marked : ∀ task ∈ s.taskQueue, task.id = taskId → task.cancelled = true
  once : ∀ w task, held (s.workers w) = some task → task.id = taskId → task.periodic = false

theorem Over.make (h : Over s taskId) (hid : task.id = s.nextId) : Over (s.make task) taskId := by
  refine ⟨Nat.lt_succ_of_lt h.known, ?_, h.marked, h.once⟩
  have hknown := h.known
  exact List.forall_mem_cons.mpr ⟨by omega, h.pending⟩

theorem Over.pop (h : Over s taskId) (top : Nat) : Over (s.pop top) taskId :=
  ⟨h.known, h.pending, fun t ht => h.marked t (List.mem_of_mem_eraseIdx ht), h.once⟩

theorem Over.enqueue (h : Over s taskId) (hne : task.id ≠ taskId) :
    Over { s with taskQueue := task :: s.taskQueue } taskId :=
  ⟨h.known, h.pending, List.forall_mem_cons.mpr ⟨fun heq => absurd heq hne, h.marked⟩, h.once⟩

theorem mem_markCancelled {other : Nat} {tasks : List ScheduledTask}
    (h : task ∈ markCancelled other tasks) :
    ∃ task' ∈ tasks, task'.id = task.id ∧ (task'.cancelled = true → task.cancelled = true) := by
  induction tasks with
  | nil => cases h
  | cons t tasks ih =>
    rw [markCancelled] at h
    split at h
    · rcases List.mem_cons.mp h with rfl | h
      · exact ⟨t, List.mem_cons_self, rfl, fun _ => rfl⟩
      · exact ⟨task, List.mem_cons_of_mem _ h, rfl, id⟩
    · rcases List.mem_cons.mp h with rfl | h
      · exact ⟨task, List.mem_cons_self, rfl, id⟩
      · obtain ⟨task', hmem, hrest⟩ := ih h
        exact ⟨task', List.mem_cons_of_mem _ hmem, hrest⟩

/-- Where ids are distinct the task of the id is marked. -/
theorem cancelled_of_markCancelled {tasks : List ScheduledTask}
    (hnodup : (tasks.map ScheduledTask.id).Nodup) (h : task ∈ markCancelled taskId tasks)
    (hid : task.id = taskId) : task.cancelled = true := by
  induction tasks with
  | nil => cases h
  | cons t tasks ih =>
    rw [List.map_cons, List.nodup_cons] at hnodup
    rw [markCancelled] at h
    split at h
    · rename_i ht
      rcases List.mem_cons.mp h with rfl | h
      · rfl
      · exact absurd (hid.trans ht.symm ▸ List.mem_map_of_mem h) hnodup.1
    · rename_i ht
      rcases List.mem_cons.mp h with rfl | h
      · exact absurd hid ht
      · exact ih hnodup.2 h

/-- A call outside the runs of its task is final. -/
theorem Distinct.cancel (h : Distinct s) (halive : Alive s taskId)
    (hok : OutsideRun s (.cancel taskId)) :
    Over { s with taskQueue := markCancelled taskId s.taskQueue } taskId := by
  have hqueue : (s.taskQueue.map ScheduledTask.id).Nodup :=
    h.nodup.sublist ((List.sublist_append_right _ _).map _)
  have hpending : taskId < s.nextId ∧ ∀ task ∈ s.pending, task.id ≠ taskId := by
    rcases halive with ⟨task, htask, rfl⟩ | ⟨w, task, hw, rfl⟩
    · refine ⟨h.below task (List.mem_append_right _ htask), ?_⟩
      intro t ht heq
      have hnodup := h.nodup
      rw [waiting, List.map_append, List.nodup_append] at hnodup
      exact hnodup.2.2 _ (List.mem_map_of_mem ht) _ (List.mem_map_of_mem htask) heq
    · obtain ⟨hlt, hnot⟩ := h.taken w task hw
      refine ⟨hlt, ?_⟩
      intro t ht heq
      exact hnot (heq ▸ List.mem_map_of_mem (List.mem_append_left _ ht))
  exact ⟨hpending.1, hpending.2, fun t ht hid => cancelled_of_markCancelled hqueue ht hid, hok⟩

variable [DecidableEq W]

theorem Over.setWorker (h : Over s taskId) {worker : Worker}
    (hworker : ∀ task, held worker = some task → task.id = taskId → task.periodic = false) :
    Over (s.setWorker w worker) taskId := by
  refine ⟨h.known, h.pending, h.marked, ?_⟩
  intro v t hv
  rcases held_setWorker hv with ⟨_, hv⟩ | ⟨_, hv⟩
  · exact hworker t hv
  · exact h.once v t hv

/-- A step starts no run of a task that is over, and leaves it so. -/
theorem Over.step (h : Over s taskId) (hd : Distinct s) (hstep : step s act = some (s', event)) :
    Over s' taskId ∧ event ≠ .started taskId := by
  cases act with
  | schedule cron now =>
    cases hstep
    exact ⟨h.make rfl, nofun⟩
  | scheduleOnce delay now =>
    cases hstep
    exact ⟨h.make rfl, nofun⟩
  | schedulePeriodic interval now =>
    cases hstep
    exact ⟨h.make rfl, nofun⟩
  | push call =>
    obtain ⟨task, htask, hstep⟩ := Option.bind_eq_some_iff.mp hstep
    cases hstep
    have hne := h.pending task (List.mem_of_getElem? htask)
    have hrest : Over { s with pending := s.pending.eraseIdx call } taskId :=
      ⟨h.known, fun t ht => h.pending t (List.mem_of_mem_eraseIdx ht), h.marked, h.once⟩
    exact ⟨hrest.enqueue hne, nofun⟩
  | cancel other =>
    cases hstep
    refine ⟨⟨h.known, h.pending, ?_, h.once⟩, nofun⟩
    intro t ht hid
    obtain ⟨t', ht', heq, hmark⟩ := mem_markCancelled ht
    exact hmark (h.marked t' ht' (heq.trans hid))
  | start =>
    cases hstep
    exact ⟨⟨h.known, h.pending, h.marked, h.once⟩, nofun⟩
  | stop =>
    cases hstep
    exact ⟨⟨h.known, h.pending, h.marked, h.once⟩, nofun⟩
  | enter w =>
    simp only [TaskScheduler.step] at hstep
    split at hstep
    · split at hstep
      · cases hstep
        exact ⟨h.setWorker nofun, nofun⟩
      · cases hstep
    · cases hstep
  | dequeue w top now =>
    simp only [TaskScheduler.step] at hstep
    split at hstep
    · rcases dequeue_cases hstep with ⟨s₁, rfl, rfl, rfl | rfl⟩ | ⟨task, htop, hnot, rfl, rfl⟩
      · exact ⟨h.setWorker nofun, nofun⟩
      · exact ⟨(h.pop top).setWorker nofun, nofun⟩
      · have hne : task.id ≠ taskId := by
          intro heq
          rw [h.marked task (List.mem_of_getElem? htop) heq] at hnot
          cases hnot
        refine ⟨(h.pop top).setWorker ?_, fun heq => hne (Event.started.inj heq)⟩
        intro t ht hid
        cases ht
        exact absurd hid hne
    · cases hstep
  | finish w now =>
    simp only [TaskScheduler.step] at hstep
    split at hstep
    · rename_i task hw
      split at hstep
      · rename_i hcond
        cases hstep
        refine ⟨h.setWorker ?_, nofun⟩
        intro t ht hid
        cases ht
        simp only [Bool.and_eq_true] at hcond
        have honce := h.once w task (by rw [hw]; rfl) ((reschedule_id task now).1 ▸ hid)
        rw [hcond.1.1] at honce
        cases honce
      · cases hstep
        exact ⟨h.setWorker nofun, nofun⟩
    · cases hstep
  | requeue w =>
    simp only [TaskScheduler.step] at hstep
    split at hstep
    · rename_i task hw
      cases hstep
      have hne : task.id ≠ taskId := by
        intro heq
        have honce := h.once w task (by rw [hw]; rfl) heq
        rw [hd.periodic w task hw] at honce
        cases honce
      exact ⟨(h.enqueue hne).setWorker nofun, nofun⟩
    · cases hstep

/-- So does a run. -/
theorem Over.exec (h : Over s taskId) (hd : Distinct s) {events : List Event}
    (hrun : Run.exec TaskScheduler.step s acts = some (s', events)) :
    Event.started taskId ∉ events := by
  induction acts generalizing s events with
  | nil =>
    cases hrun
    exact List.not_mem_nil
  | cons act acts ih =>
    obtain ⟨⟨s₁, event⟩, hstep, hrun⟩ := Option.bind_eq_some_iff.mp hrun
    obtain ⟨⟨s₂, rest⟩, hrest, hrun⟩ := Option.bind_eq_some_iff.mp hrun
    cases hrun
    obtain ⟨hover, hne⟩ := h.step hd hstep
    rw [List.mem_cons, not_or]
    exact ⟨hne.symm, ih hover (hd.step hstep) hrest⟩

end Cancelled

section Results
variable [DecidableEq W]

theorem Distinct.exec (h : Distinct s) (hmeets : Run.Meets TaskScheduler.step OutsideRun s acts)
    {before after : List (Act W)} (hacts : acts = before ++ after) {events : List Event}
    (hrun : Run.exec TaskScheduler.step s before = some (s', events)) :
    Distinct s' ∧ Run.Meets TaskScheduler.step OutsideRun s' after := by
  subst hacts
  induction before generalizing s events with
  | nil =>
    cases hrun
    exact ⟨h, hmeets⟩
  | cons act before ih =>
    obtain ⟨⟨s₁, event⟩, hstep, hrun⟩ := Option.bind_eq_some_iff.mp hrun
    obtain ⟨⟨s₂, rest⟩, hrest, hrun⟩ := Option.bind_eq_some_iff.mp hrun
    cases hrun
    exact ih (h.step hstep) hrest (hmeets.2 s₁ event hstep)

/-- Where no call cancels a periodic task during a run of it, cancellation is final, whatever the
workers do. -/
theorem cancel_final (hmeets : Run.Meets step OutsideRun (init : TaskScheduler W) acts) :
    CancelFinal (init : TaskScheduler W) acts := by
  intro before taskId after hacts s₁ events hrun halive s₂ events' hafter
  obtain ⟨hd, hok, hrest⟩ := distinct_init.exec hmeets hacts hrun
  have hstep : step s₁ (.cancel taskId) = some (_, _) := rfl
  rw [Run.exec_cons hstep, Option.map_eq_some_iff] at hafter
  obtain ⟨⟨s₃, rest⟩, hlast, heq⟩ := hafter
  cases heq
  rw [List.mem_cons, not_or]
  exact ⟨nofun, (hd.cancel halive hok).exec (hd.step hstep) hlast⟩

/-- A periodic task cancelled between two runs. -/
theorem cancel_final_waiting : CancelFinal (init : TaskScheduler Unit)
    [.schedulePeriodic 5 0, .push 0, .start, .enter (), .dequeue () 0 5, .finish () 6, .requeue (),
      .cancel 1, .enter (), .dequeue () 0 20] :=
  cancel_final (by decide)

/-- A periodic task cancelled during its first run starts again. -/
theorem cancel_during_run : ¬ CancelFinal (init : TaskScheduler Unit)
    [.schedulePeriodic 5 0, .push 0, .start, .enter (), .dequeue () 0 5, .cancel 1, .finish () 6,
      .requeue (), .enter (), .dequeue () 0 20] := by
  intro h
  refine h [.schedulePeriodic 5 0, .push 0, .start, .enter (), .dequeue () 0 5] 1
    [.finish () 6, .requeue (), .enter (), .dequeue () 0 20] rfl _ _ rfl ?_ _ _ rfl ?_
  · exact .inr ⟨(), _, rfl, rfl⟩
  · decide

end Results

end Cppforge.Scheduler.TaskScheduler
