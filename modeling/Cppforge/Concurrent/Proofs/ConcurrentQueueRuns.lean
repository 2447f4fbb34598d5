import Cppforge.Concurrent.ConcurrentQueue
import Mathlib.Data.Fintype.Basic

namespace Cppforge.Concurrent.ConcurrentQueue
open Interleave Monitor

variable {n maxSize : Nat} {I T : Type}

/-- The calls that wait for a condition. -/
def Call.awaits (condition : Condition) : Call T → Bool
  | .push _ => condition = .notFull
  | .pop => condition = .notEmpty
  | .tryPopFor => condition = .notEmpty
  | _ => false

/-- How many waiting threads the queue has room for, or values. -/
def available (maxSize : Nat) (s : Shared I T) : Condition → Nat
  | .notEmpty => s.queue.length
  | .notFull => maxSize - s.queue.length

section Steps
variable [DecidableEq I]

/-- All that a step can do. -/
inductive Turn (maxSize : Nat) (s : Shared I T) (t : Thread I T) (m : Move T) :
    Shared I T × Thread I T → Prop where
  | stay : Turn maxSize s t m (s, t)
  | start (call : Call T) (pc : t.pc = .idle) : Turn maxSize s t m (s, t.goto (.lock call false))
  | acquire (call : Call T) (late : Bool) (pc : t.pc = .lock call late) (free : s.mutex = none) :
    Turn maxSize s t m ({ s with mutex := some t.id }, t.goto (.test call late))
  | block (call : Call T) (late : Bool) (pc : t.pc = .test call late)
    (waits : call.awaits call.condition = true) (short : available maxSize s call.condition = 0) :
    Turn maxSize s t m (block s t call)
  | put (call : Call T) (late : Bool) (value : T) (after : Pc T) (pc : t.pc = .test call late)
    (room : s.queue.length < maxSize)
    (kind : (call = .push value ∧ after = .unlock (some .notEmpty)) ∨
      (call = .tryPush value ∧ after = .notifyOne .notEmpty)) :
    Turn maxSize s t m (put s t value after)
  | take (call : Call T) (late : Bool) (value : T) (rest : List T) (after : Pc T)
    (pc : t.pc = .test call late) (queue : s.queue = value :: rest)
    (kind : ((call = .pop ∨ call = .tryPopFor) ∧ after = .unlock (some .notFull)) ∨
      (call = .tryPop ∧ after = .notifyOne .notFull)) :
    Turn maxSize s t m (take s t value rest after)
  | clear (late : Bool) (pc : t.pc = .test .clear late) :
    Turn maxSize s t m ({ s with queue := [] }, t.goto .notifyAll)
  | giveUp (call : Call T) (late : Bool) (pc : t.pc = .test call late)
    (short : ∀ condition, call.awaits condition = true → available maxSize s condition = 0) :
    Turn maxSize s t m (s, t.goto (.unlock none))
  | throws (value : T) (late : Bool) (pc : t.pc = .test (.push value) late) (choice : Nat)
    (move : m = .access choice true) : Turn maxSize s t m (s, t.goto (.unlock none))
  | notify (condition : Condition) (choice : Nat) (after : Pc T)
    (kind : (t.pc = .notifyOne condition ∧ after = .unlock none) ∨
      (t.pc = .signal condition ∧ after = .idle)) :
    Turn maxSize s t m (s.notify condition choice, t.goto after)
  | notifyAll (pc : t.pc = .notifyAll) :
    Turn maxSize s t m ({ s with notFull := [] }, t.goto (.unlock none))
  | release (condition : Option Condition) (pc : t.pc = .unlock condition) :
    Turn maxSize s t m ({ s with mutex := none }, t.goto (condition.elim .idle .signal))
  | resume (call : Call T) (pc : t.pc = .wait call) (gone : t.id ∉ s.waiting call.condition) :
    Turn maxSize s t m (s, t.goto (.lock call false))
  | wake (call : Call T) (late : Bool) (pc : t.pc = .wait call) :
    Turn maxSize s t m (s.setWaiting ((s.waiting call.condition).erase t.id) call.condition,
      t.goto (.lock call late))

theorem body_turn {s : Shared I T} {t : Thread I T} {call : Call T} {late : Bool}
    (pc : t.pc = .test call late) (choice : Nat) (fail : Bool) :
    Turn maxSize s t (.access choice fail) (body maxSize s t fail late call) := by
  cases call with
  | push value =>
    simp only [body]
    split
    · rename_i hroom
      split
      · rename_i hfail
        exact .throws value late pc choice (by rw [hfail])
      · exact .put _ late value _ pc hroom (.inl ⟨rfl, rfl⟩)
    · exact .block _ late pc rfl (Nat.sub_eq_zero_of_le (by omega))
  | pop =>
    simp only [body]
    split
    · rename_i value rest hqueue
      exact .take _ late value rest _ pc hqueue (.inl ⟨.inl rfl, rfl⟩)
    · rename_i hqueue
      exact .block _ late pc rfl (by simp [available, Call.condition, hqueue])
  | tryPopFor =>
    simp only [body]
    split
    · rename_i value rest hqueue
      exact .take _ late value rest _ pc hqueue (.inl ⟨.inr rfl, rfl⟩)
    · rename_i hqueue
      split
      · refine .giveUp _ late pc ?_
        intro condition hawaits
        cases condition with
        | notEmpty => simp [available, hqueue]
        | notFull => simp [Call.awaits] at hawaits
      · exact .block _ late pc rfl (by simp [available, Call.condition, hqueue])
  | tryPush value =>
    have hgive : Turn maxSize s t (.access choice fail) (s, t.goto (.unlock none)) :=
      .giveUp _ late pc (by simp [Call.awaits])
    simp only [body]
    split
    · rename_i hroom
      split
      · exact hgive
      · exact .put _ late value _ pc hroom (.inr ⟨rfl, rfl⟩)
    · exact hgive
  | tryPop =>
    simp only [body]
    split
    · rename_i value rest hqueue
      exact .take _ late value rest _ pc hqueue (.inr ⟨rfl, rfl⟩)
    · exact .giveUp _ late pc (by simp [Call.awaits])
  | clear => exact .clear late pc

theorem step_turn (s : Shared I T) (t : Thread I T) (m : Move T) :
    Turn maxSize s t m (step maxSize s t m) := by
  cases m with
  | call call =>
    simp only [step]
    split
    · rename_i hpc
      exact .start call hpc
    · exact .stay
  | access choice fail =>
    simp only [step, advance]
    split
    · exact .stay
    · rename_i call late hpc
      split
      · rename_i hfree
        exact .acquire call late hpc (Option.isNone_iff_eq_none.mp hfree)
      · exact .stay
    · rename_i call late hpc
      exact body_turn hpc choice fail
    · rename_i condition hpc
      exact .notify condition choice _ (.inl ⟨hpc, rfl⟩)
    · rename_i hpc
      exact .notifyAll hpc
    · rename_i condition hpc
      cases condition <;> exact .release _ hpc
    · rename_i condition hpc
      exact .notify condition choice _ (.inr ⟨hpc, rfl⟩)
    · rename_i call hpc
      split
      · exact .stay
      · rename_i hgone
        exact .resume call hpc hgone
  | wake timedOut =>
    simp only [step, wake]
    split
    · rename_i call hpc
      exact .wake call _ hpc
    · exact .stay

end Steps

section Fifo

/-- What a step does to the queue and to what its thread has put into it and got out of it. -/
inductive Effect (maxSize : Nat) (s : Shared I T) (t : Thread I T)
    (next : Shared I T × Thread I T) : Prop where
  | quiet (queue : next.1.queue = s.queue) (pushed : next.2.pushed = t.pushed)
      (taken : next.2.taken = t.taken)
  | put (value : T) (room : s.queue.length < maxSize) (queue : next.1.queue = s.queue ++ [value])
      (pushed : next.2.pushed = t.pushed ++ [value]) (taken : next.2.taken = t.taken)
  | take (value : T) (queue : s.queue = value :: next.1.queue) (pushed : next.2.pushed = t.pushed)
      (taken : next.2.taken = t.taken ++ [value])
  | drop (queue : next.1.queue = []) (pushed : next.2.pushed = t.pushed)
      (taken : next.2.taken = t.taken)

@[simp] theorem setWaiting_queue (s : Shared I T) (ids : List I) (condition : Condition) :
    (s.setWaiting ids condition).queue = s.queue := by cases condition <;> rfl

theorem Turn.effect [DecidableEq I] {s : Shared I T} {t : Thread I T} {m : Move T}
    {next : Shared I T × Thread I T} (h : Turn maxSize s t m next) : Effect maxSize s t next := by
  cases h with
  | put _ _ value _ _ room _ => exact .put value room rfl rfl rfl
  | take _ _ value _ _ _ queue _ => exact .take value queue rfl rfl
  | clear => exact .drop rfl rfl rfl
  | block | notify | wake =>
    exact .quiet (by simp [ConcurrentQueue.block, Shared.notify]) rfl rfl
  | stay | start | acquire | giveUp | throws | notifyAll | release | resume =>
    exact .quiet rfl rfl rfl

/-- The values in the order they entered the queue, each with the thread that put it there, and
in the order they left it, each with the thread that got it; `clear` gives them to none. -/
structure Ledger (n : Nat) (T : Type) where
  entered : List (Fin n × T)
  left : List (Option (Fin n) × T)

/-- What a ledger says later: the same and more. -/
def Ledger.Extends (g g' : Ledger n T) : Prop := g.entered <+: g'.entered ∧ g.left <+: g'.left

/-- The queue holds what entered and has not left, and the threads know their own part. -/
structure Balanced (maxSize : Nat) (c : System n T) (g : Ledger n T) : Prop where
  bounded : c.shared.queue.length ≤ maxSize
  flow : g.entered.map Prod.snd = g.left.map Prod.snd ++ c.shared.queue
  pushed : ∀ i, (g.entered.filter fun e => e.1 = i).map Prod.snd = (c.locals i).pushed
  taken : ∀ i, (g.left.filter fun e => e.1 = some i).map Prod.snd = (c.locals i).taken

theorem Balanced.act {c : System n T} {g : Ledger n T} (h : Balanced maxSize c g)
    (m : Fin n × Move T) : ∃ g', g.Extends g' ∧ Balanced maxSize (act (step maxSize) c m) g' := by
  obtain ⟨i, m⟩ := m
  have heffect := (step_turn c.shared (c.locals i) m : Turn maxSize _ _ _ _).effect
  simp only [Interleave.act]
  generalize step maxSize c.shared (c.locals i) m = next at heffect ⊢
  cases heffect with
  | quiet queue pushed taken =>
    refine ⟨g, ⟨List.prefix_rfl, List.prefix_rfl⟩, ?_, ?_, ?_, ?_⟩
    · exact (congrArg List.length queue).trans_le h.bounded
    · exact h.flow.trans (congrArg _ queue.symm)
    · exact fun j => (h.pushed j).trans (field_update _ _ pushed j).symm
    · exact fun j => (h.taken j).trans (field_update _ _ taken j).symm
  | put value room queue pushed taken =>
    refine ⟨{ g with entered := g.entered ++ [(i, value)] },
      ⟨List.prefix_append .., List.prefix_rfl⟩, ?_, ?_, ?_, ?_⟩
    · simp only [queue, List.length_append, List.length_singleton]
      exact room
    · simp [queue, h.flow]
    · exact own_append Function.injective_id h.pushed pushed
    · exact fun j => (h.taken j).trans (field_update _ _ taken j).symm
  | take value queue pushed taken =>
    refine ⟨{ g with left := g.left ++ [(some i, value)] },
      ⟨List.prefix_rfl, List.prefix_append ..⟩, ?_, ?_, ?_, ?_⟩
    · have hbounded := h.bounded
      rw [queue, List.length_cons] at hbounded
      exact Nat.le_of_succ_le hbounded
    · simp [h.flow, queue]
    · exact fun j => (h.pushed j).trans (field_update _ _ pushed j).symm
    · exact own_append (Option.some_injective _) h.taken taken
  | drop queue pushed taken =>
    refine ⟨{ g with left := g.left ++ c.shared.queue.map fun value => (none, value) },
      ⟨List.prefix_rfl, List.prefix_append ..⟩, ?_, ?_, ?_, ?_⟩
    · simp [queue]
    · simp [h.flow, queue, Function.comp_def]
    · exact fun j => (h.pushed j).trans (field_update _ _ pushed j).symm
    · intro j
      rw [List.filter_append, List.map_append, h.taken]
      have hnone : (c.shared.queue.map fun value => ((none : Option (Fin n)), value)).filter
          (fun e => e.1 = some j) = [] := by simp
      rw [hnone, List.map_nil, List.append_nil]
      exact (field_update _ _ taken j).symm

theorem Balanced.run {c : System n T} {g : Ledger n T} (h : Balanced maxSize c g)
    (moves : List (Fin n × Move T)) :
    ∃ g', g.Extends g' ∧ Balanced maxSize (run (step maxSize) c moves) g' := by
  induction moves generalizing c g with
  | nil => exact ⟨g, ⟨List.prefix_rfl, List.prefix_rfl⟩, h⟩
  | cons m moves ih =>
    obtain ⟨g₁, he₁, h₁⟩ := h.act m
    obtain ⟨g₂, he₂, h₂⟩ := ih h₁
    exact ⟨g₂, ⟨he₁.1.trans he₂.1, he₁.2.trans he₂.2⟩, h₂⟩

/-- Whatever the threads do and in whichever order they are scheduled, values leave the queue in
the order they entered it, each once: to one caller of a pop, or to a `clear`. The order grows
at its end only, each thread's own values entered and came back in the order of its calls, and
the queue never holds more than `max_size_`. -/
theorem run_fifo (n maxSize : Nat) (T : Type) (moves more : List (Fin n × Move T)) :
    ∃ g g', g.Extends g' ∧ Balanced maxSize (run (step maxSize) (start n T) moves) g ∧
      Balanced maxSize (run (step maxSize) (start n T) (moves ++ more)) g' := by
  have hstart : Balanced maxSize (start n T) ⟨[], []⟩ :=
    ⟨Nat.zero_le _, rfl, fun _ => rfl, fun _ => rfl⟩
  obtain ⟨g, _, h⟩ := hstart.run moves
  obtain ⟨g', he, h'⟩ := h.run more
  refine ⟨g, g', he, h, ?_⟩
  rw [Interleave.run, List.foldl_append]
  exact h'

end Fifo

section Wakeups

/-- The thread has the mutex. -/
def Pc.holds : Pc T → Bool
  | .test .. => true
  | .notifyOne _ => true
  | .notifyAll => true
  | .unlock _ => true
  | _ => false

/-- The thread will look at a condition, or notify a thread that waits for it. -/
def Pc.serves (condition : Condition) : Pc T → Bool
  | .lock call _ => call.awaits condition
  | .test call _ => call.awaits condition
  | .wait call => call.awaits condition
  | .notifyOne other => other = condition
  | .unlock (some other) => other = condition
  | .signal other => other = condition
  | _ => false

theorem Call.condition_of_awaits {call : Call T} {condition : Condition}
    (h : call.awaits condition = true) : call.condition = condition := by
  cases call <;> simp_all [Call.awaits, Call.condition]

theorem waiting_setWaiting (s : Shared I T) (ids : List I) (condition other : Condition) :
    (s.setWaiting ids condition).waiting other
      = if other = condition then ids else s.waiting other := by
  cases condition <;> cases other <;> rfl

@[simp] theorem setWaiting_mutex (s : Shared I T) (ids : List I) (condition : Condition) :
    (s.setWaiting ids condition).mutex = s.mutex := by cases condition <;> rfl

@[simp] theorem available_setWaiting (s : Shared I T) (ids : List I) (condition other : Condition) :
    available maxSize (s.setWaiting ids condition) other = available maxSize s other := by
  cases other <;> simp [available]

section Turns
variable [DecidableEq I] {s : Shared I T} {t : Thread I T} {m : Move T}
  {next : Shared I T × Thread I T}

theorem Turn.id_eq (h : Turn maxSize s t m next) : next.2.id = t.id := by
  cases h <;> rfl

theorem Turn.owner (h : Turn maxSize s t m next)
    (hown : s.mutex = some t.id ↔ t.pc.holds = true) :
    (next.1.mutex = some t.id ↔ next.2.pc.holds = true) ∧
      ∀ i, i ≠ t.id → (next.1.mutex = some i ↔ s.mutex = some i) := by
  cases h with
  | stay => exact ⟨hown, fun _ _ => Iff.rfl⟩
  | acquire call late pc free =>
    refine ⟨by simp [Thread.goto, Pc.holds], ?_⟩
    intro i hi
    simp [free, Ne.symm hi]
  | block call late pc =>
    refine ⟨by simp [ConcurrentQueue.block, Thread.goto, Pc.holds], ?_⟩
    intro i hi
    simp_all [ConcurrentQueue.block, Pc.holds, Ne.symm hi]
  | put call late value after pc room kind =>
    rcases kind with ⟨rfl, rfl⟩ | ⟨rfl, rfl⟩ <;>
      simp_all [ConcurrentQueue.put, Pc.holds]
  | take call late value rest after pc queue kind =>
    rcases kind with ⟨_, rfl⟩ | ⟨rfl, rfl⟩ <;>
      simp_all [ConcurrentQueue.take, Pc.holds]
  | notify condition choice after kind =>
    rcases kind with ⟨pc, rfl⟩ | ⟨pc, rfl⟩ <;>
      simp_all [Thread.goto, Pc.holds, Shared.notify]
  | release condition pc =>
    refine ⟨by cases condition <;> simp [Thread.goto, Pc.holds], ?_⟩
    intro i hi
    simp_all [Pc.holds, Ne.symm hi]
  | start | clear | giveUp | throws | notifyAll | resume | wake => simp_all [Thread.goto, Pc.holds]

/-- A thread goes to sleep, or some of those that sleep are let go. -/
theorem Turn.waiting (h : Turn maxSize s t m next) (condition : Condition) :
    (next.1.waiting condition).Sublist (s.waiting condition) ∨
      ∃ call late, t.pc = .test call late ∧ next.2.pc = .wait call ∧
        call.awaits condition = true ∧ next.1.waiting condition = s.waiting condition ++ [t.id] := by
  cases h with
  | block call late pc waits short =>
    have hwaiting : (ConcurrentQueue.block s t call).1.waiting condition =
        (s.setWaiting (s.waiting call.condition ++ [t.id]) call.condition).waiting condition := by
      cases condition <;> rfl
    rw [hwaiting, waiting_setWaiting]
    split
    · rename_i he
      subst he
      exact .inr ⟨call, late, pc, rfl, waits, rfl⟩
    · exact .inl (List.Sublist.refl _)
  | notify other choice =>
    left
    rw [Shared.notify, waiting_setWaiting]
    split
    · rename_i he
      exact he ▸ notifyOne_sublist ..
    · exact List.Sublist.refl _
  | notifyAll =>
    left
    cases condition with
    | notEmpty => exact List.Sublist.refl _
    | notFull => exact List.nil_sublist _
  | wake call =>
    left
    rw [waiting_setWaiting]
    split
    · rename_i he
      exact he ▸ List.erase_sublist
    · exact List.Sublist.refl _
  | stay | start | acquire | put | take | clear | giveUp | throws | release | resume =>
    left
    cases condition <;> exact List.Sublist.refl _

/-- A thread that no longer sleeps is on no list. -/
theorem Turn.left (h : Turn maxSize s t m next) {condition : Condition}
    (hnodup : (s.waiting condition).Nodup)
    (hasleep : t.id ∈ s.waiting condition → ∃ call, t.pc = .wait call ∧
      call.awaits condition = true) (hmem : t.id ∈ next.1.waiting condition) :
    ∃ call, next.2.pc = .wait call ∧ call.awaits condition = true := by
  rcases h.waiting condition with hsub | ⟨call, _, _, hpc, hawaits, _⟩
  · obtain ⟨call, hpc, hawaits⟩ := hasleep (hsub.subset hmem)
    have he := Call.condition_of_awaits hawaits
    cases h with
    | stay => exact ⟨call, hpc, hawaits⟩
    | resume call' hpc' gone =>
      rw [hpc] at hpc'
      cases hpc'
      exact absurd (hsub.subset hmem) (he ▸ gone)
    | wake call' late hpc' =>
      rw [hpc] at hpc'
      cases hpc'
      rw [waiting_setWaiting, if_pos he.symm, he] at hmem
      exact absurd hmem hnodup.not_mem_erase
    | notify _ _ _ kind => rcases kind with ⟨hpc', _⟩ | ⟨hpc', _⟩ <;> simp_all
    | start | acquire | block | put | take | clear | giveUp | throws | notifyAll | release => simp_all
  · exact ⟨call, hpc, hawaits⟩

/-- What a step does to those that wait for a condition and to what they wait for: nobody waits,
all are about to be notified, there is nothing for them, or nothing is lost. -/
def Kept (maxSize : Nat) (s : Shared I T) (t : Thread I T) (next : Shared I T × Thread I T)
    (condition : Condition) : Prop :=
  next.1.waiting condition = [] ∨ (condition = .notFull ∧ next.2.pc = .notifyAll) ∨
    available maxSize next.1 condition = 0 ∨
    ((condition = .notFull → t.pc ≠ .notifyAll) ∧
      (s.waiting condition = [] → next.1.waiting condition = []) ∧
      available maxSize next.1 condition + (next.1.waiting condition).length
          + (t.pc.serves condition).toNat ≤
        available maxSize s condition + (s.waiting condition).length
          + (next.2.pc.serves condition).toNat)

omit [DecidableEq I] in
/-- The lists stay, and what the thread takes it was there for. -/
theorem kept_of_eq {s : Shared I T} {t : Thread I T} {next : Shared I T × Thread I T}
    {condition : Condition} (hpc : t.pc ≠ .notifyAll)
    (hwaiting : next.1.waiting condition = s.waiting condition)
    (hle : available maxSize next.1 condition + (t.pc.serves condition).toNat ≤
      available maxSize s condition + (next.2.pc.serves condition).toNat) :
    Kept maxSize s t next condition := by
  refine .inr (.inr (.inr ⟨fun _ => hpc, fun h => hwaiting.trans h, ?_⟩))
  rw [hwaiting]
  omega

theorem Turn.kept (h : Turn maxSize s t m next) (hcalm : ∀ choice, m ≠ .access choice true)
    (condition : Condition) : Kept maxSize s t next condition := by
  cases h with
  | stay =>
    by_cases hpc : condition = .notFull ∧ t.pc = .notifyAll
    · exact .inr (.inl hpc)
    · exact .inr (.inr (.inr ⟨fun hc hp => hpc ⟨hc, hp⟩, id, Nat.le_refl _⟩))
  | start call pc =>
    refine kept_of_eq (by simp [pc]) rfl ?_
    simp [pc, Pc.serves]
  | acquire call late pc =>
    refine kept_of_eq (by simp [pc]) (by cases condition <;> rfl) ?_
    cases condition <;> simp [pc, Pc.serves, Thread.goto, available]
  | block call late pc waits short =>
    by_cases hc : condition = call.condition
    · refine .inr (.inr (.inl ?_))
      rw [hc, ← short]
      cases call.condition <;> simp [ConcurrentQueue.block, available]
    · refine kept_of_eq (by simp [pc]) ?_ ?_
      · have hwaiting : (ConcurrentQueue.block s t call).1.waiting condition =
            (s.setWaiting (s.waiting call.condition ++ [t.id]) call.condition).waiting condition := by
          cases condition <;> rfl
        rw [hwaiting, waiting_setWaiting, if_neg hc]
      · cases condition <;>
          simp [pc, Pc.serves, ConcurrentQueue.block, Thread.goto, available]
  | put call late value after pc room kind =>
    refine kept_of_eq (by simp [pc]) (by cases condition <;> rfl) ?_
    rcases kind with ⟨rfl, rfl⟩ | ⟨rfl, rfl⟩ <;> cases condition <;>
      simp [pc, Pc.serves, Call.awaits, ConcurrentQueue.put, available] <;> omega
  | take call late value rest after pc queue kind =>
    refine kept_of_eq (by simp [pc]) (by cases condition <;> rfl) ?_
    rcases kind with ⟨rfl | rfl, rfl⟩ | ⟨rfl, rfl⟩ <;> cases condition <;>
      simp [pc, Pc.serves, Call.awaits, ConcurrentQueue.take, available, queue] <;> omega
  | clear late pc =>
    cases condition with
    | notEmpty => exact .inr (.inr (.inl rfl))
    | notFull => exact .inr (.inl ⟨rfl, rfl⟩)
  | giveUp call late pc short =>
    cases hawaits : call.awaits condition with
    | true => exact .inr (.inr (.inl (short condition hawaits)))
    | false =>
      refine kept_of_eq (by simp [pc]) rfl ?_
      simp [pc, Pc.serves, hawaits]
  | throws value late pc choice move => exact absurd move (hcalm choice)
  | notify other choice after kind =>
    have hserves : ∀ c, (t.pc.serves c).toNat = (decide (other = c)).toNat := by
      intro c
      rcases kind with ⟨pc, _⟩ | ⟨pc, _⟩ <;> rw [pc] <;> rfl
    have hpc : t.pc ≠ .notifyAll := by
      intro hpc
      rcases kind with ⟨pc, _⟩ | ⟨pc, _⟩ <;> simp [pc] at hpc
    by_cases he : condition = other
    · subst he
      have hwaiting : (s.notify condition choice).waiting condition
          = notifyOne (s.waiting condition) choice := by
        rw [Shared.notify, waiting_setWaiting, if_pos rfl]
      by_cases hnil : s.waiting condition = []
      · left
        simp [hwaiting, hnil, notifyOne]
      · have hlen := length_notifyOne hnil choice
        refine .inr (.inr (.inr ⟨fun _ => hpc, fun h => absurd h hnil, ?_⟩))
        rw [hwaiting, hserves, Shared.notify, available_setWaiting]
        simp only [decide_true, Bool.toNat_true]
        omega
    · refine kept_of_eq hpc ?_ ?_
      · rw [Shared.notify, waiting_setWaiting, if_neg he]
      · simp [hserves, Shared.notify, Ne.symm he]
  | notifyAll pc =>
    cases condition with
    | notEmpty =>
      refine .inr (.inr (.inr ⟨by simp, id, ?_⟩))
      simp [pc, Pc.serves, Shared.waiting, available]
    | notFull => exact .inl rfl
  | release other pc =>
    refine kept_of_eq (by simp [pc]) (by cases condition <;> rfl) ?_
    cases condition <;> cases other <;>
      simp [pc, Pc.serves, Thread.goto, available]
  | resume call pc gone =>
    refine kept_of_eq (by simp [pc]) rfl ?_
    simp [pc, Pc.serves, Thread.goto]
  | wake call late pc =>
    refine .inr (.inr (.inr ⟨fun _ => by simp [pc], ?_, ?_⟩))
    all_goals rw [waiting_setWaiting]
    · intro hnil
      split
      · rename_i he
        rw [← he, hnil]
        rfl
      · exact hnil
    · rw [available_setWaiting]
      have hlen : (if condition = call.condition then (s.waiting call.condition).erase t.id
          else s.waiting condition).length ≤ (s.waiting condition).length := by
        split
        · rename_i he
          exact he ▸ List.length_erase_le
        · exact Nat.le_refl _
      simp [pc, Pc.serves, Thread.goto]
      omega

theorem Turn.awaits (h : Turn maxSize s t m next)
    (hold : ∀ call, t.pc = .wait call → call.awaits call.condition = true) {call : Call T}
    (hpc : next.2.pc = .wait call) : call.awaits call.condition = true := by
  cases h with
  | stay => exact hold call hpc
  | block _ _ _ waits =>
    cases hpc
    exact waits
  | put _ _ _ _ _ _ kind => rcases kind with ⟨_, rfl⟩ | ⟨_, rfl⟩ <;> cases hpc
  | take _ _ _ _ _ _ _ kind => rcases kind with ⟨_, rfl⟩ | ⟨_, rfl⟩ <;> cases hpc
  | notify _ _ _ kind => rcases kind with ⟨_, rfl⟩ | ⟨_, rfl⟩ <;> cases hpc
  | release condition => cases condition <;> cases hpc
  | start | acquire | clear | giveUp | throws | notifyAll | resume | wake => cases hpc

end Turns

/-- Who has the mutex and who sleeps on which condition, and that those who sleep and find what
they wait for are outnumbered by those that are about to look or to notify. -/
structure Waiting (maxSize : Nat) (c : System n T) : Prop where
  ids : ∀ i, (c.locals i).id = i
  owner : ∀ i, c.shared.mutex = some i ↔ (c.locals i).pc.holds = true
  awaits : ∀ i call, (c.locals i).pc = .wait call → call.awaits call.condition = true
  nodup : ∀ condition, (c.shared.waiting condition).Nodup
  asleep : ∀ condition, ∀ i ∈ c.shared.waiting condition,
    ∃ call, (c.locals i).pc = .wait call ∧ call.awaits condition = true
  enough : ∀ condition, c.shared.waiting condition = [] ∨
    (condition = .notFull ∧ ∃ i, (c.locals i).pc = .notifyAll) ∨
    available maxSize c.shared condition + (c.shared.waiting condition).length ≤
      tally (fun t => t.pc.serves condition) c.locals

theorem Waiting.act {c : System n T} (h : Waiting maxSize c) {m : Fin n × Move T}
    (hcalm : ∀ choice, m.2 ≠ .access choice true) :
    Waiting maxSize (act (step maxSize) c m) := by
  obtain ⟨i, m⟩ := m
  have hid := h.ids i
  have hturn : Turn maxSize c.shared (c.locals i) m _ := step_turn _ _ _
  simp only [Interleave.act]
  generalize step maxSize c.shared (c.locals i) m = next at hturn ⊢
  have howner := hturn.owner (hid.symm ▸ h.owner i)
  rw [hid] at howner
  have hsleepers : ∀ condition, (next.1.waiting condition).Nodup ∧
      ∀ j ∈ next.1.waiting condition, ∃ call,
        (Function.update c.locals i next.2 j).pc = .wait call ∧ call.awaits condition = true := by
    intro condition
    apply sleepers_next (fun t : Thread (Fin n) T => ∃ call, t.pc = .wait call ∧
      call.awaits condition = true) (h.nodup condition) (h.asleep condition)
    · apply (hturn.waiting condition).imp_right
      rintro ⟨call, late, hpc, hnext, hawaits, hwaiting⟩
      exact ⟨by simp [hpc], ⟨call, hnext, hawaits⟩, hid ▸ hwaiting⟩
    · exact fun _ hi => hturn.left (h.nodup condition) (hid.symm ▸ h.asleep condition i)
        (hid.symm ▸ hi)
  refine ⟨?_, ?_, ?_, fun condition => (hsleepers condition).1,
    fun condition => (hsleepers condition).2, ?_⟩
  · exact fun j => (field_update Thread.id _ hturn.id_eq j).trans (h.ids j)
  · apply (Function.forall_update_iff c.locals fun j t =>
      next.1.mutex = some j ↔ t.pc.holds = true).mpr
    exact ⟨howner.1, fun j hji => (howner.2 j hji).trans (h.owner j)⟩
  · apply (Function.forall_update_iff c.locals fun _ t =>
      ∀ call, t.pc = .wait call → call.awaits call.condition = true).mpr
    exact ⟨fun _ => hturn.awaits (h.awaits i), fun j _ => h.awaits j⟩
  · intro condition
    rcases hturn.kept hcalm condition with hnil | ⟨hc, hpc⟩ | hzero | ⟨hclear, hnil, hle⟩
    · exact .inl hnil
    · exact .inr (.inl ⟨hc, i, by simp only [Function.update_self, hpc]⟩)
    · refine .inr (.inr ?_)
      rw [hzero, Nat.zero_add]
      refine length_le_tally (hsleepers condition).1 ?_
      intro j hj
      obtain ⟨call, hpc, hawaits⟩ := (hsleepers condition).2 j hj
      rw [hpc]
      exact hawaits
    · rcases h.enough condition with hempty | ⟨hc, j, hpc⟩ | henough
      · exact .inl (hnil hempty)
      · have hji : j ≠ i := fun he => hclear hc (he ▸ hpc)
        exact .inr (.inl ⟨hc, j, by simp only [Function.update_of_ne hji, hpc]⟩)
      · have htally := tally_update (fun t : Thread (Fin n) T => t.pc.serves condition)
          c.locals i next.2
        refine .inr (.inr ?_)
        change available maxSize next.1 condition + (next.1.waiting condition).length ≤
          tally _ (Function.update c.locals i next.2)
        omega

theorem Waiting.run {c : System n T} (h : Waiting maxSize c) {moves : List (Fin n × Move T)}
    (hcalm : ∀ m ∈ moves, ∀ choice, m.2 ≠ .access choice true) :
    Waiting maxSize (run (step maxSize) c moves) := by
  induction moves generalizing c with
  | nil => exact h
  | cons m moves ih =>
    obtain ⟨hm, hrest⟩ := List.forall_mem_cons.mp hcalm
    exact ih (h.act hm) hrest

theorem start_waiting (n maxSize : Nat) (T : Type) : Waiting maxSize (start n T) where
  ids _ := rfl
  owner _ := by simp [start, Pc.holds]
  awaits _ _ h := by cases h
  nodup condition := by cases condition <;> exact List.nodup_nil
  asleep condition i hi := by cases condition <;> exact absurd hi List.not_mem_nil
  enough condition := by cases condition <;> exact .inl rfl

/-- No thread can go on unless another does first: it has nothing to do, waits for the mutex or
sleeps. -/
def Stuck (maxSize : Nat) (c : System n T) : Prop :=
  ∀ i choice, advance maxSize c.shared (c.locals i) choice false = (c.shared, c.locals i)

theorem body_pc (s : Shared I T) (t : Thread I T) (late : Bool) (call : Call T) :
    (body maxSize s t false late call).2.pc ≠ .test call late := by
  cases call with
  | clear => simp [body, Thread.goto]
  | push | tryPush | tryPopFor =>
    simp only [body, Bool.false_eq_true, if_false]
    split
    · simp [put, take]
    · simp only [block, Thread.goto]
      try split
      all_goals simp
  | pop | tryPop =>
    simp only [body]
    split <;> simp [block, take, Thread.goto]

/-- Of a system that is stuck, every thread is between its calls or sleeps. -/
theorem Stuck.sleeps {c : System n T} (hstuck : Stuck maxSize c) (h : Waiting maxSize c)
    (i : Fin n) : (c.locals i).pc = .idle ∨
      ∃ call, (c.locals i).pc = .wait call ∧ i ∈ c.shared.waiting call.condition := by
  have hholds : ∀ j, (c.locals j).pc.holds = false := by
    intro j
    have hpc := congrArg (fun next => next.2.pc) (hstuck j 0)
    cases hj : (c.locals j).pc with
    | test call late =>
      simp only [advance, hj] at hpc
      exact absurd hpc (body_pc _ _ _ _)
    | unlock condition => cases condition <;> simp [advance, hj, Thread.goto] at hpc
    | notifyOne | notifyAll => simp [advance, hj, Thread.goto] at hpc
    | idle | lock | signal | wait => rfl
  have hfree : c.shared.mutex = none := by
    cases howner : c.shared.mutex with
    | none => rfl
    | some j =>
      have := (h.owner j).mp howner
      rw [hholds j] at this
      cases this
  have hpc := congrArg (fun next => next.2.pc) (hstuck i 0)
  cases hi : (c.locals i).pc with
  | idle => exact .inl rfl
  | lock call late => simp [advance, hi, hfree, Thread.goto] at hpc
  | signal condition => simp [advance, hi, Thread.goto] at hpc
  | wait call =>
    refine .inr ⟨call, rfl, ?_⟩
    by_contra hgone
    simp [advance, hi, h.ids, hgone, Thread.goto] at hpc
  | test | notifyOne | notifyAll | unlock =>
    have := hholds i
    rw [hi] at this
    cases this

/-- No wakeup is lost. However calls, notifications and wakeups without one interleave, and
whichever thread a notification reaches: when no thread can go on by itself, each is idle or
sleeps, there are values for nobody who sleeps in a `pop`, and no room for anybody who sleeps in
a `push`. A constructor that throws uses up the notification that woke its thread, so none may. -/
theorem no_lost_wakeup (n maxSize : Nat) (T : Type) (moves : List (Fin n × Move T))
    (hcalm : ∀ m ∈ moves, ∀ choice, m.2 ≠ .access choice true)
    (hstuck : Stuck maxSize (run (step maxSize) (start n T) moves)) (i : Fin n) :
    ((run (step maxSize) (start n T) moves).locals i).pc = .idle ∨
      ∃ call, ((run (step maxSize) (start n T) moves).locals i).pc = .wait call ∧
        call.awaits call.condition = true ∧
        available maxSize (run (step maxSize) (start n T) moves).shared call.condition = 0 := by
  have h := (start_waiting n maxSize T).run hcalm
  generalize run (step maxSize) (start n T) moves = c at hstuck h ⊢
  rcases hstuck.sleeps h i with hidle | ⟨call, hpc, hmem⟩
  · exact .inl hidle
  · refine .inr ⟨call, hpc, h.awaits i call hpc, ?_⟩
    have hserving : tally (fun t : Thread (Fin n) T => t.pc.serves call.condition) c.locals
        ≤ (c.shared.waiting call.condition).length := by
      refine tally_le_length ?_
      intro j hj
      rcases hstuck.sleeps h j with hidle | ⟨call', hpc', hmem'⟩
      · rw [hidle] at hj
        cases hj
      · rw [hpc'] at hj
        exact Call.condition_of_awaits hj ▸ hmem'
    rcases h.enough call.condition with hnil | ⟨_, j, hclear⟩ | henough
    · rw [hnil] at hmem
      cases hmem
    · rcases hstuck.sleeps h j with hidle | ⟨_, hpc', _⟩
      · rw [hidle] at hclear
        cases hclear
      · rw [hpc'] at hclear
        cases hclear
    · omega

/-- A `pop` sleeps until the first `push`; of two more, the second sleeps. -/
def exchange {n : Nat} (i j : Fin n) : List (Fin n × Move Nat) :=
  [(i, .call .pop)] ++ List.replicate 2 (i, .access 0 false) ++
    [(j, .call (.push 7))] ++ List.replicate 4 (j, .access 0 false) ++
    List.replicate 5 (i, .access 0 false) ++
    [(j, .call (.push 8))] ++ List.replicate 4 (j, .access 0 false) ++
    [(j, .call (.push 9))] ++ List.replicate 2 (j, .access 0 false)

theorem no_lost_wakeup_exchange :
    ((run (step 1) (start 2 Nat) (exchange 0 1)).locals 1).pc = .idle ∨
      ∃ call, ((run (step 1) (start 2 Nat) (exchange 0 1)).locals 1).pc = .wait call ∧
        call.awaits call.condition = true ∧
        available 1 (run (step 1) (start 2 Nat) (exchange 0 1)).shared call.condition = 0 :=
  no_lost_wakeup 2 1 Nat (exchange 0 1) (by simp [exchange]) (by
    intro i choice
    match i with
    | 0 => rfl
    | 1 => rfl) 1

end Wakeups

end Cppforge.Concurrent.ConcurrentQueue
