import Cppforge.Threads.ThreadPool
import Mathlib.Data.List.Nodup

namespace Cppforge.Threads.ThreadPool
open Interleave Monitor

variable {l : Limits} {core n : Nat} {T : Type}

section Steps
variable {s : Shared (Party core n) T} {t : Thread (Party core n) T} {m : Move T}

/-- A thread that asks for the mutex, and where it goes with it. -/
inductive Pc.Takes : Pc T → Pc T → Prop where
  | worker (late : Bool) : Takes (.lock late) (.test late)
  | submit (task : T) : Takes (.lockSubmit task) (.submit task)
  | stop (now : Bool) : Takes (.lockStop now) (.stop now)

/-- A thread that gives the mutex back, and where it goes. -/
inductive Pc.Gives : Pc T → Pc T → Prop where
  | idle : Gives (.unlock false none) (.lock false)
  | task (task : T) : Gives (.unlock false (some task)) (.run task)
  | submit : Gives (.unlockSubmit none) .notify
  | first : Gives (.unlockStop true) .notifyAll
  | again : Gives (.unlockStop false) .idle

/-- A thread that goes on with nothing changed that the threads share. -/
inductive Pc.Passes (s : Shared (Party core n) T) (id : Party core n) : Pc T → Pc T → Prop where
  | resume (gone : id ∉ s.waiting) : Passes s id .wait (.lock false)
  | nothing (late : Bool) (queue : s.queue = []) (stop : s.stop = false) :
    Passes s id (.test late) (.unlock false none)
  | exit (late : Bool) (queue : s.queue = []) (stop : s.stop = true) :
    Passes s id (.test late) (.unlock true none)
  | start (task : Option T) : Passes s id .idle (.readStop task)
  | shutdown (now : Bool) : Passes s id .idle (.lockStop now)
  | checked (task : T) (stop : s.stop = false) : Passes s id (.readStop (some task)) (.lockSubmit task)
  | full (task : T) : Passes s id (.submit task) (.unlockSubmit (some .full))
  | again (now : Bool) (stop : s.stop = true) : Passes s id (.stop now) (.unlockStop false)
  | joined (worker : Nat) (h : worker < core) (ended : Fin.castAdd n ⟨worker, h⟩ ∈ s.ended) :
    Passes s id (.join worker) (.join (worker + 1))
  | done (worker : Nat) (h : core ≤ worker) : Passes s id (.join worker) .idle

/-- All that a step can do. -/
inductive Turn (l : Limits) (s : Shared (Party core n) T) (t : Thread (Party core n) T) (m : Move T) :
    Shared (Party core n) T × Thread (Party core n) T → Prop where
  | stay : Turn l s t m (s, t)
  | take {old new : Pc T} (pc : t.pc = old) (kind : old.Takes new) (free : s.mutex = none) :
    Turn l s t m ({ s with mutex := some t.id }, t.goto new)
  | give {old new : Pc T} (pc : t.pc = old) (kind : old.Gives new) :
    Turn l s t m ({ s with mutex := none }, t.goto new)
  | pass {old new : Pc T} (pc : t.pc = old) (kind : old.Passes s t.id new)
    (now : ∀ now, new = .lockStop now → m = .shutdown now) : Turn l s t m (s, t.goto new)
  | sleep (late : Bool) (pc : t.pc = .test late) (queue : s.queue = []) (stop : s.stop = false) :
    Turn l s t m ({ s with mutex := none, waiting := s.waiting ++ [t.id] }, t.goto .wait)
  | retire (late : Bool) (pc : t.pc = .test late) (many : s.active > l.coreThreads) :
    Turn l s t m ({ s with active := s.active - 1 }, t.goto (.unlock true none))
  | fetch (late : Bool) (task : T) (rest : List T) (pc : t.pc = .test late)
    (queue : s.queue = task :: rest) :
    Turn l s t m ({ s with queue := rest }, t.goto (.unlock false (some task)))
  | leave (task : Option T) (pc : t.pc = .unlock true task) :
    Turn l s t m ({ s with mutex := none, ended := t.id :: s.ended }, t.goto .ended)
  | run (task : T) (pc : t.pc = .run task) :
    Turn l s t m (s, { t with pc := .lock false, ran := t.ran ++ [task] })
  | refuse (task : Option T) (refusal : Refusal) (pc : t.pc = .readStop task) :
    Turn l s t m (s, t.refuse refusal)
  | refuseFull (refusal : Refusal) (pc : t.pc = .unlockSubmit (some refusal)) :
    Turn l s t m ({ s with mutex := none }, t.refuse refusal)
  | accept (task : T) (pc : t.pc = .submit task) (room : s.queue.length < l.queueSize) :
    Turn l s t m ({ s with queue := s.queue ++ [task] },
      { t with pc := .unlockSubmit none, accepted := t.accepted ++ [(task, s.stop)] })
  | notify (choice : Nat) (pc : t.pc = .notify) :
    Turn l s t m ({ s with waiting := notifyOne s.waiting choice }, t.goto .idle)
  | stop (now : Bool) (pc : t.pc = .stop now) (running : s.stop = false) :
    Turn l s t m ({ s with stop := true, queue := if now then [] else s.queue },
      t.goto (.unlockStop true))
  | notifyAll (pc : t.pc = .notifyAll) : Turn l s t m ({ s with waiting := [] }, t.goto (.join 0))
  | wake (late : Bool) (pc : t.pc = .wait) :
    Turn l s t m ({ s with waiting := s.waiting.erase t.id }, t.goto (.lock late))

theorem fetch_turn {late : Bool} (pc : t.pc = .test late) : Turn l s t m (fetch l s t) := by
  simp only [fetch]
  split
  · rename_i h
    simp only [Bool.and_eq_true, List.isEmpty_iff] at h
    exact .pass pc (.exit late h.2 h.1) (by simp)
  · rename_i hrunning
    split
    · rename_i h
      simp only [Bool.and_eq_true, decide_eq_true_eq] at h
      exact .retire late pc h.2
    · split
      · rename_i task rest hqueue
        exact .fetch late task rest pc hqueue
      · rename_i hqueue
        have hstop : s.stop = false := by simpa [hqueue] using hrunning
        exact .pass pc (.nothing late hqueue hstop) (by simp)

theorem advance_turn (s : Shared (Party core n) T) (t : Thread (Party core n) T) (choice : Nat) :
    Turn l s t m (advance l s t choice) := by
  have htake : ∀ {new : Pc T}, t.pc.Takes new → Turn l s t m
      (if s.mutex.isNone then ({ s with mutex := some t.id }, t.goto new) else (s, t)) := by
    intro new kind
    split
    · rename_i hfree
      exact .take rfl kind (Option.isNone_iff_eq_none.mp hfree)
    · exact .stay
  simp only [advance]
  split
  · rename_i late hpc
    exact htake (hpc ▸ .worker late)
  · rename_i late hpc
    split
    · exact fetch_turn hpc
    · rename_i hno
      simp only [Bool.or_eq_true, Bool.not_eq_true', not_or, Bool.not_eq_true] at hno
      exact .sleep late hpc (by simpa using hno.1.2) hno.1.1
  · rename_i hpc
    split
    · exact .stay
    · rename_i hgone
      exact .pass hpc (.resume hgone) (by simp)
  · rename_i exit task hpc
    split
    · rename_i hexit
      subst hexit
      exact .leave task hpc
    · rename_i hexit
      obtain rfl : exit = false := by simpa using hexit
      cases task with
      | none => exact .give hpc .idle
      | some task => exact .give hpc (.task task)
  · rename_i task hpc
    exact .run task hpc
  · exact .stay
  · exact .stay
  · rename_i task hpc
    split
    · exact .refuse task .stopped hpc
    · rename_i hrunning
      cases task with
      | none => exact .refuse none .null hpc
      | some task => exact .pass hpc (.checked task (by simpa using hrunning)) (by simp)
  · rename_i task hpc
    exact htake (hpc ▸ .submit task)
  · rename_i task hpc
    split
    · exact .pass hpc (.full task) (by simp)
    · rename_i hroom
      exact .accept task hpc (by omega)
  · rename_i result hpc
    cases result with
    | none => exact .give hpc .submit
    | some refusal => exact .refuseFull refusal hpc
  · rename_i hpc
    exact .notify choice hpc
  · rename_i now hpc
    exact htake (hpc ▸ .stop now)
  · rename_i now hpc
    split
    · rename_i hstop
      exact .pass hpc (.again now hstop) (by simp)
    · rename_i hrunning
      exact .stop now hpc (by simpa using hrunning)
  · rename_i first hpc
    cases first with
    | true => exact .give hpc .first
    | false => exact .give hpc .again
  · rename_i hpc
    exact .notifyAll hpc
  · rename_i worker hpc
    split
    · rename_i h
      split
      · rename_i hended
        exact .pass hpc (.joined worker h hended) (by simp)
      · exact .stay
    · rename_i h
      exact .pass hpc (.done worker (by omega)) (by simp)

theorem step_turn (s : Shared (Party core n) T) (t : Thread (Party core n) T) (m : Move T) :
    Turn l s t m (step l s t m) := by
  cases m with
  | submit task =>
    simp only [step]
    split
    · rename_i hpc
      exact .pass hpc (.start task) (by simp)
    · exact .stay
  | shutdown now =>
    simp only [step]
    split
    · rename_i hpc
      exact .pass hpc (.shutdown now) (by simp)
    · exact .stay
  | access choice => exact advance_turn s t choice
  | wake timedOut =>
    simp only [step]
    split
    · rename_i hpc
      exact .wake timedOut hpc
    · exact .stay

end Steps

section Conservation

/-- The task a worker has fetched and not run yet. -/
def Pc.holding : Pc T → List T
  | .unlock exit task => if exit then [] else task.toList
  | .run task => [task]
  | _ => []

/-- The tasks a worker has fetched. -/
def Thread.tasks {I : Type} (t : Thread I T) : List T := t.ran ++ t.pc.holding

/-- The worker ends, or has. -/
def Pc.exits : Pc T → Bool
  | .unlock exit _ => exit
  | .ended => true
  | _ => false

/-- The tasks in the order they entered the queue, each with the thread that submitted it and with
`stop_` as it was, and in the order they left it, each with the worker that got it; `shutdownNow`
gives them to none. -/
structure Ledger (core n : Nat) (T : Type) where
  entered : List (Party core n × T × Bool)
  left : List (Option (Party core n) × T)

/-- What a ledger says later: the same and more. -/
def Ledger.Extends (g g' : Ledger core n T) : Prop :=
  g.entered <+: g'.entered ∧ g.left <+: g'.left

/-- The tasks in the queue. -/
def Ledger.rest (g : Ledger core n T) : List (Party core n × T × Bool) :=
  g.entered.drop g.left.length

/-- The queue holds what entered and has not left, each thread knows its own part, and where a
worker has gone only tasks are left that were accepted after `stop_` was set. -/
structure Balanced (l : Limits) (c : System core n T) (g : Ledger core n T) : Prop where
  bounded : c.shared.queue.length ≤ l.queueSize
  flow : g.entered.map (fun e => e.2.1) = g.left.map Prod.snd ++ c.shared.queue
  accepted : ∀ i, (g.entered.filter fun e => e.1 = i).map Prod.snd = (c.locals i).accepted
  ran : ∀ i, (g.left.filter fun e => e.1 = some i).map Prod.snd =
    (c.locals i).tasks
  active : c.shared.active ≤ l.coreThreads
  drained : ∀ i, (c.locals i).pc.exits = true →
    c.shared.stop = true ∧ ∀ e ∈ g.rest, e.2.2 = true

/-- No call of `shutdownNow` has started. -/
structure Graceful (c : System core n T) (g : Ledger core n T) : Prop where
  named : ∀ e ∈ g.left, e.1 ≠ none
  calls : ∀ i, (c.locals i).pc ≠ .lockStop true ∧ (c.locals i).pc ≠ .stop true

theorem Balanced.rest_eq {c : System core n T} {g : Ledger core n T} (h : Balanced l c g) :
    g.rest.map (fun e => e.2.1) = c.shared.queue := by
  have hlen : (g.left.map Prod.snd).length = g.left.length := List.length_map ..
  rw [Ledger.rest, List.map_drop, h.flow, ← hlen, List.drop_left]

/-- What a step does to the queue, and to the tasks of its thread. -/
inductive Effect (l : Limits) (s : Shared (Party core n) T) (t : Thread (Party core n) T)
    (next : Shared (Party core n) T × Thread (Party core n) T) : Prop where
  | quiet (queue : next.1.queue = s.queue) (accepted : next.2.accepted = t.accepted)
      (ran : next.2.tasks = t.tasks)
  | accept (task : T) (room : s.queue.length < l.queueSize)
      (queue : next.1.queue = s.queue ++ [task])
      (accepted : next.2.accepted = t.accepted ++ [(task, s.stop)])
      (ran : next.2.tasks = t.tasks)
  | fetch (task : T) (queue : s.queue = task :: next.1.queue)
      (accepted : next.2.accepted = t.accepted)
      (ran : next.2.tasks = t.tasks ++ [task])
  | drop (pc : t.pc = .stop true) (queue : next.1.queue = [])
      (accepted : next.2.accepted = t.accepted)
      (ran : next.2.tasks = t.tasks)

variable {s : Shared (Party core n) T} {t : Thread (Party core n) T} {m : Move T}
  {next : Shared (Party core n) T × Thread (Party core n) T}

theorem Turn.effect (h : Turn l s t m next) : Effect l s t next := by
  cases h with
  | stay => exact .quiet rfl rfl rfl
  | take pc kind | give pc kind | pass pc kind =>
    cases kind <;> exact .quiet rfl rfl (by simp [pc, Thread.tasks, Thread.goto, Pc.holding])
  | fetch _ task rest pc queue =>
    exact .fetch task queue rfl (by simp [pc, Thread.tasks, Thread.goto, Pc.holding])
  | accept task pc room =>
    exact .accept task room rfl rfl (by simp [pc, Thread.tasks, Pc.holding])
  | stop now pc =>
    cases now with
    | true => exact .drop pc rfl rfl (by simp [pc, Thread.tasks, Thread.goto, Pc.holding])
    | false => exact .quiet rfl rfl (by simp [pc, Thread.tasks, Thread.goto, Pc.holding])
  | sleep _ pc | retire _ pc | leave _ pc | run _ pc | refuse _ _ pc | refuseFull _ pc
  | notify _ pc | notifyAll pc | wake _ pc =>
    exact .quiet rfl rfl (by simp [pc, Thread.tasks, Thread.goto, Thread.refuse, Pc.holding])

/-- Whether a pool is stopped, and whether a worker ends. -/
theorem Turn.exits (h : Turn l s t m next) (hactive : s.active ≤ l.coreThreads)
    (hexits : next.2.pc.exits = true) : t.pc.exits = true ∨ (s.stop = true ∧ s.queue = []) := by
  cases h with
  | stay => exact .inl hexits
  | take _ kind | give _ kind => cases kind <;> cases hexits
  | pass _ kind =>
    cases kind with
    | exit _ queue stop => exact .inr ⟨stop, queue⟩
    | _ => cases hexits
  | retire _ _ many => omega
  | leave _ pc => exact .inl (by rw [pc]; rfl)
  | sleep | fetch | run | refuse | refuseFull | accept | notify | stop | notifyAll | wake =>
    cases hexits

theorem Turn.stop_active (h : Turn l s t m next) :
    (s.stop = true → next.1.stop = true) ∧ next.1.active ≤ s.active := by
  cases h with
  | retire => exact ⟨id, Nat.sub_le ..⟩
  | stop => exact ⟨fun _ => rfl, Nat.le_refl _⟩
  | stay | take | give | pass | sleep | fetch | leave | run | refuse | refuseFull | accept | notify
  | notifyAll | wake => exact ⟨id, Nat.le_refl _⟩

/-- A call of `shutdownNow` starts where the thread is told to. -/
theorem Turn.calls (h : Turn l s t m next) (hm : m ≠ .shutdown true)
    (hold : t.pc ≠ .lockStop true ∧ t.pc ≠ .stop true) :
    next.2.pc ≠ .lockStop true ∧ next.2.pc ≠ .stop true := by
  cases h with
  | stay => exact hold
  | take pc kind => cases kind <;> simp_all [Thread.goto]
  | give _ kind => cases kind <;> simp [Thread.goto]
  | pass _ kind now =>
    cases kind with
    | shutdown now' =>
      cases now' with
      | true => exact absurd (now true rfl) hm
      | false => simp [Thread.goto]
    | _ => simp [Thread.goto]
  | sleep | retire | fetch | leave | run | refuse | refuseFull | accept | notify | stop | notifyAll
  | wake => simp [Thread.goto, Thread.refuse]

/-- A worker that ends finds the queue empty, and what follows only adds tasks accepted late. -/
theorem Balanced.drained_next {c : System core n T} {g : Ledger core n T} (h : Balanced l c g)
    {i : Party core n} (hturn : Turn l c.shared (c.locals i) m next) {g' : Ledger core n T}
    (hrest : ∀ e ∈ g'.rest, e ∈ g.rest ∨ e.2.2 = c.shared.stop) (j : Party core n)
    (hj : (Function.update c.locals i next.2 j).pc.exits = true) :
    next.1.stop = true ∧ ∀ e ∈ g'.rest, e.2.2 = true := by
  have hlate : c.shared.stop = true ∧ ∀ e ∈ g.rest, e.2.2 = true := by
    revert j
    apply (Function.forall_update_iff c.locals fun _ t => t.pc.exits = true →
      c.shared.stop = true ∧ ∀ e ∈ g.rest, e.2.2 = true).mpr
    refine ⟨fun hi => ?_, fun j _ hj => h.drained j hj⟩
    rcases hturn.exits h.active hi with hexits | ⟨hs, hq⟩
    · exact h.drained i hexits
    · have hnil := h.rest_eq
      rw [hq, List.map_eq_nil_iff] at hnil
      exact ⟨hs, by simp [hnil]⟩
  refine ⟨hturn.stop_active.1 hlate.1, ?_⟩
  intro e he
  rcases hrest e he with hold | hnew
  · exact hlate.2 e hold
  · exact hnew.trans hlate.1

theorem Graceful.act {c : System core n T} {g g' : Ledger core n T} (h : Graceful c g)
    {i : Party core n} (hturn : Turn l c.shared (c.locals i) m next) (hm : m ≠ .shutdown true)
    (hleft : ∀ e ∈ g'.left, e ∈ g.left ∨ e.1 ≠ none) :
    Graceful ⟨next.1, Function.update c.locals i next.2⟩ g' where
  named e he := (hleft e he).elim (h.named e) id
  calls := by
    apply (Function.forall_update_iff c.locals fun _ t =>
      t.pc ≠ .lockStop true ∧ t.pc ≠ .stop true).mpr
    exact ⟨hturn.calls hm (h.calls i), fun j _ => h.calls j⟩

theorem Balanced.act {c : System core n T} {g : Ledger core n T} (h : Balanced l c g)
    (m : Party core n × Move T) : ∃ g', g.Extends g' ∧ Balanced l (act (step l) c m) g' ∧
      (Graceful c g → m.2 ≠ .shutdown true → Graceful (act (step l) c m) g') := by
  obtain ⟨i, m⟩ := m
  have hturn : Turn l c.shared (c.locals i) m _ := step_turn _ _ _
  simp only [Interleave.act]
  generalize step l c.shared (c.locals i) m = next at hturn ⊢
  have hactive := hturn.stop_active.2.trans h.active
  have hle : g.left.length ≤ g.entered.length := by
    have := congrArg List.length h.flow
    simp only [List.length_map, List.length_append] at this
    omega
  cases hturn.effect with
  | quiet queue accepted ran =>
    refine ⟨g, ⟨List.prefix_rfl, List.prefix_rfl⟩, ⟨?_, ?_, ?_, ?_, hactive, ?_⟩, ?_⟩
    · exact (congrArg List.length queue).trans_le h.bounded
    · exact h.flow.trans (congrArg _ queue.symm)
    · exact fun j => (h.accepted j).trans (field_update _ _ accepted j).symm
    · exact fun j => (h.ran j).trans
        (field_update Thread.tasks _ ran j).symm
    · exact h.drained_next hturn fun e he => .inl he
    · exact fun hgraceful hm => hgraceful.act hturn hm fun e he => .inl he
  | accept task room queue accepted ran =>
    refine ⟨{ g with entered := g.entered ++ [(i, task, c.shared.stop)] },
      ⟨List.prefix_append .., List.prefix_rfl⟩, ⟨?_, ?_, ?_, ?_, hactive, ?_⟩, ?_⟩
    · simp only [queue, List.length_append, List.length_singleton]
      exact room
    · simp [queue, h.flow]
    · exact own_append Function.injective_id h.accepted accepted
    · exact fun j => (h.ran j).trans
        (field_update Thread.tasks _ ran j).symm
    · refine h.drained_next hturn ?_
      intro e he
      rw [Ledger.rest, List.drop_append_of_le_length hle, List.mem_append,
        List.mem_singleton] at he
      exact he.imp_right fun he => by rw [he]
    · exact fun hgraceful hm => hgraceful.act hturn hm fun e he => .inl he
  | fetch task queue accepted ran =>
    refine ⟨{ g with left := g.left ++ [(some i, task)] },
      ⟨List.prefix_rfl, List.prefix_append ..⟩, ⟨?_, ?_, ?_, ?_, hactive, ?_⟩, ?_⟩
    · have hbounded := h.bounded
      rw [queue, List.length_cons] at hbounded
      exact Nat.le_of_succ_le hbounded
    · simp [h.flow, queue]
    · exact fun j => (h.accepted j).trans (field_update _ _ accepted j).symm
    · exact own_append (Option.some_injective _) h.ran ran
    · refine h.drained_next hturn ?_
      intro e he
      rw [Ledger.rest, List.length_append, ← List.drop_drop] at he
      exact .inl (List.mem_of_mem_drop he)
    · refine fun hgraceful hm => hgraceful.act hturn hm ?_
      intro e he
      rw [List.mem_append, List.mem_singleton] at he
      exact he.imp_right fun he => by simp [he]
  | drop pc queue accepted ran =>
    refine ⟨{ g with left := g.left ++ c.shared.queue.map fun task => (none, task) },
      ⟨List.prefix_rfl, List.prefix_append ..⟩, ⟨?_, ?_, ?_, ?_, hactive, ?_⟩, ?_⟩
    · simp [queue]
    · simp [h.flow, queue, Function.comp_def]
    · exact fun j => (h.accepted j).trans (field_update _ _ accepted j).symm
    · intro j
      have hnone : (c.shared.queue.map fun task => ((none : Option (Party core n)), task)).filter
          (fun e => e.1 = some j) = [] := by simp
      rw [List.filter_append, List.map_append, h.ran, hnone, List.map_nil, List.append_nil]
      exact (field_update Thread.tasks _ ran j).symm
    · refine h.drained_next hturn ?_
      intro e he
      rw [Ledger.rest, List.length_append, ← List.drop_drop] at he
      exact .inl (List.mem_of_mem_drop he)
    · exact fun hgraceful => absurd pc (hgraceful.calls i).2

theorem Balanced.run {c : System core n T} {g : Ledger core n T} (h : Balanced l c g)
    (moves : List (Party core n × Move T)) :
    ∃ g', g.Extends g' ∧ Balanced l (run (step l) c moves) g' ∧
      (Graceful c g → (∀ m ∈ moves, m.2 ≠ .shutdown true) →
        Graceful (run (step l) c moves) g') := by
  induction moves generalizing c g with
  | nil => exact ⟨g, ⟨List.prefix_rfl, List.prefix_rfl⟩, h, fun hgraceful _ => hgraceful⟩
  | cons m moves ih =>
    obtain ⟨g₁, he₁, h₁, hgraceful₁⟩ := h.act m
    obtain ⟨g₂, he₂, h₂, hgraceful₂⟩ := ih h₁
    refine ⟨g₂, ⟨he₁.1.trans he₂.1, he₁.2.trans he₂.2⟩, h₂, ?_⟩
    intro hgraceful hmoves
    obtain ⟨hm, hrest⟩ := List.forall_mem_cons.mp hmoves
    exact hgraceful₂ (hgraceful₁ hgraceful hm) hrest

/-- The constructor creates one worker for each core thread. -/
theorem construct_ok {k : Nat} (h : construct l = .ok k) : 0 < k ∧ k = l.coreThreads := by
  have hgrow : ∀ j ≤ l.maxThreads, (addWorker l)^[j] 0 = j := by
    intro j hj
    induction j with
    | zero => rfl
    | succ j ih =>
      rw [Function.iterate_succ_apply', ih (by omega), addWorker, if_neg (by omega)]
  simp only [construct] at h
  split at h
  · cases h
  · split at h
    · cases h
    · split at h
      · cases h
      · rename_i hcore hmax _
        rw [hgrow _ (by omega)] at h
        cases h
        exact ⟨by omega, rfl⟩

theorem start_balanced (hl : construct l = .ok core) :
    Balanced l (start core n T) ⟨[], []⟩ ∧ Graceful (start core n T) ⟨[], []⟩ := by
  have hpc : ∀ i : Party core n, ((start core n T).locals i).pc = .lock false ∨
      ((start core n T).locals i).pc = .idle := by
    intro i
    simp only [start]
    split
    · exact .inl rfl
    · exact .inr rfl
  refine ⟨⟨Nat.zero_le _, rfl, fun _ => rfl, ?_, (construct_ok hl).2.le, ?_⟩, by simp, ?_⟩
  · intro i
    change [] = [] ++ ((start core n T).locals i).pc.holding
    rcases hpc i with hpc | hpc <;> rw [hpc] <;> rfl
  · intro i hi
    rcases hpc i with hpc | hpc <;> rw [hpc] at hi <;> cases hi
  · intro i
    rcases hpc i with hpc | hpc <;> simp [hpc]

/-- However submissions, workers and calls of `shutdown` and `shutdownNow` are scheduled: tasks
leave the queue in the order they were accepted, each once, to the worker that runs it or to
`shutdownNow`, and the queue never holds more than `max_queue_size_`. No worker ends before the
pool is stopped and the queue was empty, so that only tasks accepted after that can be left. -/
theorem tasks_conserved (l : Limits) (core n : Nat) (T : Type) (hl : construct l = .ok core)
    (moves more : List (Party core n × Move T)) :
    ∃ g g', g.Extends g' ∧ Balanced l (run (step l) (start core n T) moves) g ∧
      Balanced l (run (step l) (start core n T) (moves ++ more)) g' := by
  obtain ⟨g, _, h, _⟩ := (start_balanced hl).1.run moves
  obtain ⟨g', he, h', _⟩ := h.run more
  exact ⟨g, g', he, h, run_append (step l) _ moves more ▸ h'⟩

/-- A thread makes some accesses in a row. -/
def accesses {core n : Nat} (i : Party core n) (k : Nat) : List (Party core n × Move T) :=
  List.replicate k (i, .access 0)

/-- A task is submitted and run, the other worker sleeps, and the pool is shut down. -/
def session {core n : Nat} (i j user : Party core n) : List (Party core n × Move Nat) :=
  [(user, .submit (some 7))] ++ accesses j 2 ++ accesses user 5 ++ accesses i 6 ++ accesses j 3 ++
    [(user, .shutdown false)] ++ accesses user 4 ++ accesses i 4 ++ accesses j 4 ++ accesses user 3

theorem tasks_conserved_session :
    ∃ g g' : Ledger 2 1 Nat, g.Extends g' ∧
      Balanced ⟨2, 2, 1⟩ (run (step ⟨2, 2, 1⟩) (start 2 1 Nat) (session 0 1 2)) g ∧
      Balanced ⟨2, 2, 1⟩
        (run (step ⟨2, 2, 1⟩) (start 2 1 Nat) (session 0 1 2 ++ [(2, .submit none)])) g' :=
  tasks_conserved ⟨2, 2, 1⟩ 2 1 Nat rfl (session 0 1 2) [(2, .submit none)]

end Conservation

section Progress

/-- The thread has the mutex. -/
def Pc.holds : Pc T → Bool
  | .test _ => true
  | .unlock _ _ => true
  | .submit _ => true
  | .unlockSubmit _ => true
  | .stop _ => true
  | .unlockStop _ => true
  | _ => false

def Pc.isWorker : Pc T → Bool
  | .lock _ => true
  | .test _ => true
  | .wait => true
  | .unlock _ _ => true
  | .run _ => true
  | .ended => true
  | _ => false

/-- The worker will look at the queue again, or the thread will notify one. -/
def Pc.serves : Pc T → Bool
  | .lock _ => true
  | .test _ => true
  | .wait => true
  | .unlock exit _ => !exit
  | .run _ => true
  | .unlockSubmit result => result.isNone
  | .notify => true
  | _ => false

/-- The thread that stopped the pool has yet to wake all workers. -/
def Pc.rouses : Pc T → Bool
  | .unlockStop first => first
  | .notifyAll => true
  | _ => false

/-- The thread has stopped the pool. -/
def Pc.stopped : Pc T → Bool
  | .unlockStop first => first
  | .notifyAll => true
  | .join _ => true
  | _ => false

/-- Who has the mutex, who sleeps and who has ended, and that nobody sleeps for nothing. -/
structure Waiting (c : System core n T) : Prop where
  ids : ∀ i, (c.locals i).id = i
  owner : ∀ i, c.shared.mutex = some i → (c.locals i).pc.holds = true
  workers : ∀ i, (c.locals i).pc.isWorker = decide (i.val < core)
  ended : ∀ i, (c.locals i).pc = .ended → i ∈ c.shared.ended
  stopped : ∀ i, (c.locals i).pc.stopped = true → c.shared.stop = true
  nodup : c.shared.waiting.Nodup
  asleep : ∀ i ∈ c.shared.waiting, (c.locals i).pc = .wait
  enough : c.shared.waiting = [] ∨ (∃ i, (c.locals i).pc.rouses = true) ∨
    (c.shared.stop = false ∧
      c.shared.queue.length + c.shared.waiting.length ≤ tally (fun t => t.pc.serves) c.locals)

variable {s : Shared (Party core n) T} {t : Thread (Party core n) T} {m : Move T}
  {next : Shared (Party core n) T × Thread (Party core n) T}

theorem Turn.id_eq (h : Turn l s t m next) : next.2.id = t.id := by cases h <;> rfl

theorem Turn.owner (h : Turn l s t m next) (hown : s.mutex = some t.id → t.pc.holds = true) :
    (next.1.mutex = some t.id → next.2.pc.holds = true) ∧
      ∀ i, i ≠ t.id → next.1.mutex = some i → s.mutex = some i := by
  cases h with
  | stay => exact ⟨hown, fun _ _ => id⟩
  | take pc kind free =>
    refine ⟨fun _ => by cases kind <;> rfl, ?_⟩
    intro i hi he
    simp only [Option.some.injEq] at he
    exact absurd he.symm hi
  | pass pc kind =>
    refine ⟨?_, fun _ _ => id⟩
    intro he
    have := hown he
    cases kind <;> simp_all [Pc.holds, Thread.goto]
  | retire | fetch | accept | stop => exact ⟨fun _ => rfl, fun _ _ => id⟩
  | run _ pc | refuse _ _ pc | notify _ pc | notifyAll pc | wake _ pc =>
    exact ⟨fun he => by simpa [pc, Pc.holds] using hown he, fun _ _ => id⟩
  | give | sleep | leave | refuseFull => exact ⟨by simp, by simp⟩

theorem Turn.isWorker (h : Turn l s t m next) : next.2.pc.isWorker = t.pc.isWorker := by
  cases h with
  | stay => rfl
  | take pc kind | give pc kind | pass pc kind =>
    cases kind <;> simp [pc, Thread.goto, Pc.isWorker]
  | sleep _ pc | retire _ pc | fetch _ _ _ pc | leave _ pc | run _ pc | refuse _ _ pc
  | refuseFull _ pc | accept _ pc | notify _ pc | stop _ pc | notifyAll pc | wake _ pc =>
    simp [pc, Thread.goto, Thread.refuse, Pc.isWorker]

theorem Turn.ended (h : Turn l s t m next) (hold : t.pc = .ended → t.id ∈ s.ended) :
    (next.2.pc = .ended → t.id ∈ next.1.ended) ∧ ∀ i ∈ s.ended, i ∈ next.1.ended := by
  cases h with
  | stay => exact ⟨hold, fun _ => id⟩
  | take pc kind | give pc kind | pass pc kind =>
    exact ⟨fun he => (by cases kind <;> cases he), fun _ => id⟩
  | leave => exact ⟨fun _ => List.mem_cons_self, fun _ => List.mem_cons_of_mem _⟩
  | sleep | retire | fetch | run | refuse | refuseFull | accept | notify | stop | notifyAll
  | wake => exact ⟨fun he => (by cases he), fun _ => id⟩

theorem Turn.stopped (h : Turn l s t m next) (hold : t.pc.stopped = true → s.stop = true)
    (hnext : next.2.pc.stopped = true) : next.1.stop = true := by
  cases h with
  | stay => exact hold hnext
  | take pc kind => cases kind <;> cases hnext
  | give pc kind =>
    cases kind with
    | first => exact hold (by rw [pc]; rfl)
    | _ => cases hnext
  | pass pc kind =>
    cases kind with
    | joined => exact hold (by rw [pc]; rfl)
    | _ => cases hnext
  | stop => rfl
  | notifyAll pc => exact hold (by rw [pc]; rfl)
  | sleep | retire | fetch | leave | run | refuse | refuseFull | accept | notify | wake =>
    cases hnext

/-- A worker goes to sleep, or some of those that sleep are let go. -/
theorem Turn.waiting (h : Turn l s t m next) : next.1.waiting.Sublist s.waiting ∨
    (∃ late, t.pc = .test late) ∧ next.2.pc = .wait ∧ s.stop = false ∧ next.1.queue = [] ∧
      next.1.stop = false ∧ next.1.waiting = s.waiting ++ [t.id] := by
  cases h with
  | sleep late pc queue stop => exact .inr ⟨⟨late, pc⟩, rfl, stop, queue, stop, rfl⟩
  | notify choice => exact .inl (notifyOne_sublist ..)
  | notifyAll => exact .inl (List.nil_sublist _)
  | wake => exact .inl List.erase_sublist
  | stay | take | give | pass | retire | fetch | leave | run | refuse | refuseFull | accept
  | stop => exact .inl (List.Sublist.refl _)

/-- A worker that no longer sleeps is not on the list. -/
theorem Turn.left (h : Turn l s t m next) (hnodup : s.waiting.Nodup)
    (hasleep : t.id ∈ s.waiting → t.pc = .wait) (hmem : t.id ∈ next.1.waiting) :
    next.2.pc = .wait := by
  rcases h.waiting with hsub | ⟨_, hpc, _⟩
  · have hwait := hasleep (hsub.subset hmem)
    cases h with
    | stay => exact hwait
    | take pc kind | give pc kind => cases kind <;> simp [hwait] at pc
    | pass pc kind =>
      cases kind with
      | resume gone => exact absurd (hsub.subset hmem) gone
      | _ => simp [hwait] at pc
    | wake => exact absurd hmem hnodup.not_mem_erase
    | sleep _ pc | retire _ pc | fetch _ _ _ pc | leave _ pc | run _ pc | refuse _ _ pc
    | refuseFull _ pc | accept _ pc | notify _ pc | stop _ pc | notifyAll pc => simp [hwait] at pc
  · exact hpc

/-- What a step does to the workers that sleep: none is left, the pool has been stopped and all
will be woken, or nothing is lost. -/
theorem Turn.kept (h : Turn l s t m next) (hactive : s.active ≤ l.coreThreads) :
    next.1.waiting = [] ∨ next.2.pc.rouses = true ∨
      (next.1.stop = false ∧ next.1.queue = [] ∧ next.2.pc.serves = true) ∨
      (next.1.stop = s.stop ∧ t.pc.rouses = false ∧
        (s.waiting = [] → next.1.waiting = []) ∧
        (s.stop = false → next.1.queue.length + next.1.waiting.length + t.pc.serves.toNat ≤
          s.queue.length + s.waiting.length + next.2.pc.serves.toNat)) := by
  cases h with
  | stay =>
    cases hr : t.pc.rouses with
    | true => exact .inr (.inl rfl)
    | false => exact .inr (.inr (.inr ⟨rfl, rfl, id, fun _ => Nat.le_refl _⟩))
  | take pc kind =>
    refine .inr (.inr (.inr ⟨rfl, ?_, id, ?_⟩)) <;>
      cases kind <;> simp [pc, Pc.rouses, Pc.serves, Thread.goto]
  | give pc kind =>
    cases kind with
    | first => exact .inr (.inl rfl)
    | _ =>
      refine .inr (.inr (.inr ⟨rfl, ?_, id, ?_⟩)) <;>
        simp [pc, Pc.rouses, Pc.serves, Thread.goto]
  | pass pc kind =>
    cases kind with
    | exit late queue stop =>
      exact .inr (.inr (.inr ⟨rfl, by rw [pc]; rfl, id, fun hf => by simp [stop] at hf⟩))
    | _ =>
      refine .inr (.inr (.inr ⟨rfl, ?_, id, ?_⟩)) <;>
        simp [pc, Pc.rouses, Pc.serves, Thread.goto]
  | sleep late pc queue stop => exact .inr (.inr (.inl ⟨stop, queue, rfl⟩))
  | retire _ _ many => omega
  | fetch late task rest pc queue =>
    refine .inr (.inr (.inr ⟨rfl, by rw [pc]; rfl, id, ?_⟩))
    simp [pc, Pc.serves, Thread.goto, queue]
  | leave _ pc | run _ pc | refuse _ _ pc | refuseFull _ pc =>
    refine .inr (.inr (.inr ⟨rfl, by rw [pc]; rfl, id, ?_⟩))
    simp [pc, Pc.serves, Thread.goto, Thread.refuse]
  | accept task pc =>
    refine .inr (.inr (.inr ⟨rfl, by rw [pc]; rfl, id, ?_⟩))
    intro _
    simp only [pc, Pc.serves, List.length_append, List.length_singleton, Bool.toNat_false,
      Option.isNone_none, Bool.toNat_true]
    omega
  | notify choice pc =>
    by_cases hnil : s.waiting = []
    · exact .inl (by simp [hnil, notifyOne])
    · have hlen := length_notifyOne hnil choice
      refine .inr (.inr (.inr ⟨rfl, by rw [pc]; rfl, fun h => absurd h hnil, ?_⟩))
      intro _
      simp only [pc, Pc.serves, Thread.goto, Bool.toNat_true, Bool.toNat_false]
      omega
  | stop => exact .inr (.inl rfl)
  | notifyAll => exact .inl rfl
  | wake late pc =>
    have hle : (s.waiting.erase t.id).length ≤ s.waiting.length := List.length_erase_le
    refine .inr (.inr (.inr ⟨rfl, by rw [pc]; rfl, fun h => by simp [h], ?_⟩))
    intro _
    simp only [pc, Pc.serves, Thread.goto]
    omega

theorem Waiting.act {c : System core n T} (h : Waiting c) (hactive : c.shared.active ≤ l.coreThreads)
    (m : Party core n × Move T) : Waiting (act (step l) c m) := by
  obtain ⟨i, m⟩ := m
  have hid := h.ids i
  have hturn : Turn l c.shared (c.locals i) m _ := step_turn _ _ _
  simp only [Interleave.act]
  generalize step l c.shared (c.locals i) m = next at hturn ⊢
  have howner := hturn.owner (hid.symm ▸ h.owner i)
  have hended := hturn.ended (hid.symm ▸ h.ended i)
  rw [hid] at howner hended
  obtain ⟨hnodup, hasleep⟩ : next.1.waiting.Nodup ∧
      ∀ j ∈ next.1.waiting, (Function.update c.locals i next.2 j).pc = .wait := by
    apply sleepers_next (fun t : Thread (Party core n) T => t.pc = .wait) h.nodup h.asleep
    · apply hturn.waiting.imp_right
      rintro ⟨⟨late, hpc⟩, hnext, _, _, _, hwaiting⟩
      exact ⟨by simp [hpc], hnext, hid ▸ hwaiting⟩
    · exact fun _ hi => hturn.left h.nodup (hid.symm ▸ h.asleep i) (hid.symm ▸ hi)
  refine ⟨?_, ?_, ?_, ?_, ?_, hnodup, hasleep, ?_⟩
  · exact fun j => (field_update Thread.id _ hturn.id_eq j).trans (h.ids j)
  · apply (Function.forall_update_iff c.locals fun j t =>
      next.1.mutex = some j → t.pc.holds = true).mpr
    exact ⟨howner.1, fun j hji hj => h.owner j (howner.2 j hji hj)⟩
  · exact fun j => (field_update (fun t : Thread (Party core n) T => t.pc.isWorker) _
      hturn.isWorker j).trans (h.workers j)
  · apply (Function.forall_update_iff c.locals fun j t => t.pc = .ended → j ∈ next.1.ended).mpr
    exact ⟨hended.1, fun j _ hj => hended.2 j (h.ended j hj)⟩
  · apply (Function.forall_update_iff c.locals fun _ t =>
      t.pc.stopped = true → next.1.stop = true).mpr
    exact ⟨hturn.stopped (h.stopped i), fun j _ hj => hturn.stop_active.1 (h.stopped j hj)⟩
  · rcases hturn.kept hactive with hnil | hr | ⟨hstop, hqueue, _⟩ | ⟨hstop, hr, hnil, hle⟩
    · exact .inl hnil
    · exact .inr (.inl ⟨i, by simp only [Function.update_self, hr]⟩)
    · refine .inr (.inr ⟨hstop, ?_⟩)
      simp only [hqueue, List.length_nil, Nat.zero_add]
      refine length_le_tally hnodup ?_
      intro j hj
      simp only [hasleep j hj, Pc.serves]
    · rcases h.enough with hempty | ⟨j, hj⟩ | ⟨hrunning, henough⟩
      · exact .inl (hnil hempty)
      · have hji : j ≠ i := by
          intro he
          rw [he, hr] at hj
          cases hj
        exact .inr (.inl ⟨j, by simp only [Function.update_of_ne hji, hj]⟩)
      · have htally := tally_update (fun t : Thread (Party core n) T => t.pc.serves) c.locals i
          next.2
        have := hle hrunning
        refine .inr (.inr ⟨hstop.trans hrunning, ?_⟩)
        change next.1.queue.length + next.1.waiting.length ≤
          tally _ (Function.update c.locals i next.2)
        omega

theorem start_waiting (core n : Nat) (T : Type) : Waiting (start core n T) := by
  have hpc : ∀ i : Party core n, ((start core n T).locals i).pc =
      if i.val < core then .lock false else .idle := fun _ => rfl
  refine ⟨fun _ => rfl, by simp [start], ?_, ?_, ?_, List.nodup_nil, by simp [start], .inl rfl⟩
  all_goals intro i
  · rw [hpc]
    split <;> simp_all [Pc.isWorker]
  · rw [hpc]
    split <;> simp
  · rw [hpc]
    split <;> simp [Pc.stopped]

/-- No thread can go on unless another does first: it has ended or has nothing to do, waits for
the mutex or for another thread's end, or sleeps. -/
def Stuck (l : Limits) (c : System core n T) : Prop :=
  ∀ i choice, advance l c.shared (c.locals i) choice = (c.shared, c.locals i)

theorem fetch_pc (l : Limits) (s : Shared (Party core n) T) (t : Thread (Party core n) T)
    (late : Bool) : (fetch l s t).2.pc ≠ .test late := by
  simp only [fetch]
  split
  · simp [Thread.goto]
  · split
    · simp [Thread.goto]
    · split <;> simp [Thread.goto]

/-- Of a pool that is stuck, each thread sleeps, has ended, is between its calls or waits for a
worker's end. -/
theorem Stuck.stands {c : System core n T} (hstuck : Stuck l c) (h : Waiting c)
    (i : Party core n) : ((c.locals i).pc = .wait ∧ i ∈ c.shared.waiting) ∨
      (c.locals i).pc = .ended ∨ (c.locals i).pc = .idle ∨
      ∃ worker, ∃ hw : worker < core, (c.locals i).pc = .join worker ∧
        Fin.castAdd n ⟨worker, hw⟩ ∉ c.shared.ended := by
  have hmoves : ∀ j, (advance l c.shared (c.locals j) 0).2.pc = (c.locals j).pc :=
    fun j => congrArg (fun next => next.2.pc) (hstuck j 0)
  have hholds : ∀ j, (c.locals j).pc.holds = false := by
    intro j
    have hpc := hmoves j
    cases hj : (c.locals j).pc with
    | test late =>
      simp only [advance, hj] at hpc
      split at hpc
      · exact absurd hpc (fetch_pc _ _ _ _)
      · simp [Thread.goto] at hpc
    | unlock exit task => cases exit <;> cases task <;> simp [advance, hj, Thread.goto] at hpc
    | submit task =>
      simp only [advance, hj] at hpc
      split at hpc <;> simp [Thread.goto] at hpc
    | unlockSubmit result =>
      cases result <;> simp [advance, hj, Thread.goto, Thread.refuse] at hpc
    | stop now =>
      simp only [advance, hj] at hpc
      split at hpc <;> simp [Thread.goto] at hpc
    | unlockStop first => cases first <;> simp [advance, hj, Thread.goto] at hpc
    | lock | wait | run | ended | idle | readStop | lockSubmit | notify | lockStop | notifyAll
    | join => rfl
  have hfree : c.shared.mutex = none := by
    cases howner : c.shared.mutex with
    | none => rfl
    | some j =>
      have := h.owner j howner
      rw [hholds j] at this
      cases this
  have hpc := hmoves i
  cases hi : (c.locals i).pc with
  | wait =>
    refine .inl ⟨rfl, ?_⟩
    by_contra hgone
    simp [advance, hi, h.ids, hgone, Thread.goto] at hpc
  | ended => exact .inr (.inl rfl)
  | idle => exact .inr (.inr (.inl rfl))
  | join worker =>
    refine .inr (.inr (.inr ?_))
    by_cases hw : worker < core
    · refine ⟨worker, hw, rfl, ?_⟩
      intro hended
      simp only [advance, hi] at hpc
      rw [dif_pos hw, if_pos hended] at hpc
      simp [Thread.goto] at hpc
    · simp [advance, hi, hw, Thread.goto] at hpc
  | readStop task =>
    cases task <;> simp only [advance, hi] at hpc <;> split at hpc <;>
      simp [Thread.goto, Thread.refuse] at hpc
  | lock | lockSubmit | lockStop => simp [advance, hi, hfree, Thread.goto] at hpc
  | run | notify | notifyAll => simp [advance, hi, Thread.goto] at hpc
  | test | unlock | submit | unlockSubmit | stop | unlockStop =>
    have := hholds i
    rw [hi] at this
    cases this

end Progress

end Cppforge.Threads.ThreadPool
