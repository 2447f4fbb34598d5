import Cppforge.Concurrent.SeqLock
import Mathlib.Data.List.OfFn

namespace Cppforge.Concurrent.SeqLock
open Interleave

variable {I α : Type} {w : Nat}

section Specification

/-- Calls of a variable that run one after the other, and the value they leave. -/
inductive Replays (initial : Value w α) : List (Event w α) → Value w α → Prop where
  | start : Replays initial [] initial
  | stored {events old} (value : Value w α) (before : Replays initial events old) :
    Replays initial (events ++ [.stored value]) value
  | loaded {events value} (before : Replays initial events value) :
    Replays initial (events ++ [.loaded (List.ofFn value)]) value
  | missed {events value} (before : Replays initial events value) :
    Replays initial (events ++ [.missed]) value

/-- What a call in progress has done already. -/
def Pc.pending : Pc w α → List (Event w α)
  | .leave event => [event]
  | _ => []

/-- A history of the calls of all threads that a plain variable could have: each thread has made
the calls that are its own, in this order. -/
structure Explains {n : Nat} (initial : Value w α) (c : System n w α)
    (history : List (Fin n × Event w α)) : Prop where
  replays : ∃ value, Replays initial (history.map Prod.snd) value
  calls : ∀ i, (history.filter fun e => e.1 = i).map Prod.snd =
    (c.locals i).calls ++ (c.locals i).pc.pending

def Event.isStored : Event w α → Bool
  | .stored _ => true
  | _ => false

/-- The thread writes, or may before it takes another lock. -/
def Pc.writes : Pc w α → Bool
  | .acquireLoad _ => true
  | .acquireStore _ _ => true
  | .write _ _ => true
  | .guarding => true
  | .releaseLoad _ => true
  | .releaseStore _ _ => true
  | .leave event => event.isStored
  | _ => false

/-- The thread reads, with `mtx_` shared if there is one. -/
def Pc.reads : Pc w α → Bool
  | .readSeq _ => true
  | .copy _ _ _ => true
  | .leave event => !event.isStored
  | _ => false

/-- What the users of a `SeqLock` see to, and a `MutexSeqLock` does for them: a write starts
where no other is in progress. And while a copy is made there are fewer writes than the counter
can tell apart. -/
def proper (mutexed : Bool) {n : Nat} (c : System n w α) (m : Fin n × Move w α) : Bool :=
  mutexed || match m.2, (c.locals m.1).pc with
    | .call (.store _), .idle => decide (∀ i, (c.locals i).pc.writes = false)
    | .call .lock, .idle => decide (∀ i, (c.locals i).pc.writes = false)
    | .access _, .copy _ seq0 _ => decide (c.shared.seq < seq0 + 2 ^ 64)
    | _, _ => true

end Specification

section Invariant

/-- The thread that writes, the value last stored, and the calls that have taken effect. -/
structure Ghost (I : Type) (w : Nat) (α : Type) where
  writer : Option I
  current : Value w α
  history : List (I × Event w α)

structure Inv (mutexed : Bool) (initial : Value w α) (s : Shared I w α) (g : Ghost I w α) :
    Prop where
  even : s.seq % 2 = 0 → s.data = g.current
  rest : g.writer = none → s.seq % 2 = 0
  owner : mutexed = true → s.unique = g.writer
  apart : s.unique ≠ none → s.sharing = []
  nodup : s.sharing.Nodup
  replays : Replays initial (g.history.map Prod.snd) g.current

variable [DecidableEq I]

/-- What a thread relies on from the steps of the others. -/
structure Rely (mutexed : Bool) (i : I) (s : Shared I w α) (g : Ghost I w α) (s' : Shared I w α)
    (g' : Ghost I w α) : Prop where
  seq : s.seq ≤ s'.seq
  data : s'.data = s.data ∨ s.seq % 2 = 1
  mine : g.writer = some i → s'.seq = s.seq ∧ s'.data = s.data
  writer : g'.writer = some i ↔ g.writer = some i
  sharing : i ∈ s'.sharing ↔ i ∈ s.sharing
  still : mutexed = true → i ∈ s.sharing → s'.seq = s.seq
  history : g'.history.filter (fun e => e.1 = i) = g.history.filter (fun e => e.1 = i)

/-- What a step of thread `i` may change. -/
structure Guarantee (i : I) (s : Shared I w α) (g : Ghost I w α) (s' : Shared I w α)
    (g' : Ghost I w α) : Prop where
  seq : s'.seq = s.seq ∨ (g.writer = some i ∧ s.seq ≤ s'.seq) := by exact .inl rfl
  data : s'.data = s.data ∨ (g.writer = some i ∧ s.seq % 2 = 1) := by exact .inl rfl
  writer : g'.writer = g.writer ∨ (g.writer = none ∧ g'.writer = some i) ∨
    (g.writer = some i ∧ g'.writer = none) := by exact .inl rfl
  sharing : ∀ j, j ≠ i → (j ∈ s'.sharing ↔ j ∈ s.sharing) := by exact fun _ _ => Iff.rfl
  history : ∀ j, j ≠ i →
    g'.history.filter (fun e => e.1 = j) = g.history.filter (fun e => e.1 = j) := by
    exact fun _ _ => rfl
  grows : g.history <+: g'.history := by exact List.prefix_rfl

end Invariant

section Effects
variable [DecidableEq I] {mutexed : Bool} {initial : Value w α} {i j : I}
  {s s' : Shared I w α} {g g' : Ghost I w α}

theorem Guarantee.refl (i : I) (s : Shared I w α) (g : Ghost I w α) : Guarantee i s g s g :=
  ⟨.inl rfl, .inl rfl, .inl rfl, fun _ _ => Iff.rfl, fun _ _ => rfl, List.prefix_rfl⟩

theorem Guarantee.rely (hg : Guarantee i s g s' g') (h : Inv mutexed initial s g) (hj : j ≠ i) :
    Rely mutexed j s g s' g' where
  seq := by
    rcases hg.seq with he | ⟨_, hle⟩
    · exact Nat.le_of_eq he.symm
    · exact hle
  data := hg.data.imp_right And.right
  mine := by
    intro hw
    have hne : g.writer ≠ some i := by simp [hw, hj]
    exact ⟨hg.seq.resolve_right fun h => hne h.1, hg.data.resolve_right fun h => hne h.1⟩
  writer := by
    rcases hg.writer with he | ⟨hn, hs⟩ | ⟨hs, hn⟩
    · rw [he]
    · simp [hn, hs, Ne.symm hj]
    · simp [hn, hs, Ne.symm hj]
  sharing := hg.sharing j hj
  still := by
    intro hm hmem
    refine hg.seq.resolve_right ?_
    intro hw
    have hnil := h.apart (by rw [h.owner hm, hw.1]; simp)
    rw [hnil] at hmem
    cases hmem
  history := hg.history j hj

/-- What the effects below establish. -/
def Sound (mutexed : Bool) (initial : Value w α) (i : I) (s : Shared I w α) (g : Ghost I w α)
    (s' : Shared I w α) (g' : Ghost I w α) : Prop :=
  Inv mutexed initial s' g' ∧ Guarantee i s g s' g'

theorem sound_refl (h : Inv mutexed initial s g) (i : I) : Sound mutexed initial i s g s g :=
  ⟨h, .refl i s g⟩

/-- A write starts; a `MutexSeqLock` has taken `mtx_` for it. -/
theorem sound_begin (h : Inv mutexed initial s g) (hw : g.writer = none) (hs : mutexed = true →
    s'.unique = some i) (hfree : s'.unique ≠ none → s'.sharing = [])
    (hrest : s'.seq = s.seq ∧ s'.data = s.data ∧ s'.sharing = s.sharing) :
    Sound mutexed initial i s g s' { g with writer := some i } := by
  obtain ⟨hseq, hdata, hsharing⟩ := hrest
  refine ⟨⟨?_, by simp, hs, hfree, hsharing ▸ h.nodup, h.replays⟩,
    { seq := .inl hseq, data := .inl hdata, writer := .inr (.inl ⟨hw, rfl⟩),
      sharing := fun _ _ => by rw [hsharing] }⟩
  rw [hseq, hdata]
  exact h.even

/-- The counter becomes odd. -/
theorem sound_acquire (h : Inv mutexed initial s g) (hw : g.writer = some i)
    (heven : s.seq % 2 = 0) : Sound mutexed initial i s g { s with seq := s.seq + 1 } g := by
  refine ⟨{ h with even := ?_, rest := by simp [hw] },
    { Guarantee.refl i s g with seq := .inr ⟨hw, Nat.le_succ _⟩ }⟩
  intro hodd
  simp only at hodd
  omega

/-- The writer changes the data. -/
theorem sound_write (h : Inv mutexed initial s g) (hw : g.writer = some i) (hodd : s.seq % 2 = 1)
    (data : Value w α) : Sound mutexed initial i s g { s with data := data } g := by
  refine ⟨{ h with even := ?_ }, { Guarantee.refl i s g with data := .inr ⟨hw, hodd⟩ }⟩
  intro heven
  simp only at heven
  omega

/-- The counter becomes even: the data is the value stored. -/
theorem sound_release (h : Inv mutexed initial s g) (hw : g.writer = some i)
    (hodd : s.seq % 2 = 1) (writer : Option I) (hwriter : writer = some i ∨ (mutexed = false ∧ writer = none)) :
    Sound mutexed initial i s g { s with seq := s.seq + 1 }
      ⟨writer, s.data, g.history ++ [(i, .stored s.data)]⟩ := by
  refine ⟨⟨fun _ => rfl, fun _ => ?_, ?_, h.apart, h.nodup, ?_⟩,
    { seq := .inr ⟨hw, Nat.le_succ _⟩, writer := ?_, history := fun j hj => history_others hj,
      grows := List.prefix_append .. }⟩
  · change (s.seq + 1) % 2 = 0
    omega
  · intro hm
    rcases hwriter with rfl | ⟨hf, _⟩
    · exact (h.owner hm).trans hw
    · rw [hm] at hf
      cases hf
  · rw [List.map_append]
    exact .stored s.data h.replays
  · rcases hwriter with rfl | ⟨_, rfl⟩
    · exact .inl hw.symm
    · exact .inr (.inr ⟨hw, rfl⟩)

/-- `MutexSeqLock` gives `mtx_` back after a write. -/
theorem sound_unlock (h : Inv mutexed initial s g) (hw : g.writer = some i)
    (heven : s.seq % 2 = 0) :
    Sound mutexed initial i s g { s with unique := none } { g with writer := none } :=
  ⟨⟨h.even, fun _ => heven, fun _ => rfl, fun hne => absurd rfl hne, h.nodup, h.replays⟩,
    { Guarantee.refl i s g with writer := .inr (.inr ⟨hw, rfl⟩) }⟩

/-- A reader takes its share of `mtx_`. -/
theorem sound_share (h : Inv mutexed initial s g) (hfree : s.unique = none)
    (hout : i ∉ s.sharing) :
    Sound mutexed initial i s g { s with sharing := i :: s.sharing } g := by
  refine ⟨{ h with apart := fun hne => absurd hfree hne, nodup := ?_ },
    { Guarantee.refl i s g with sharing := ?_ }⟩
  · exact List.nodup_cons.mpr ⟨hout, h.nodup⟩
  · intro j hj
    simp [hj]

/-- A reader gives its share back. -/
theorem sound_unshare (h : Inv mutexed initial s g) (i : I) :
    Sound mutexed initial i s g { s with sharing := s.sharing.erase i } g := by
  refine ⟨{ h with apart := ?_, nodup := h.nodup.erase i },
    { Guarantee.refl i s g with sharing := fun j hj => List.mem_erase_of_ne hj }⟩
  intro hne
  simp [h.apart hne]

/-- A reader finds its copy good. -/
theorem sound_load (h : Inv mutexed initial s g) (i : I) (heven : s.seq % 2 = 0) :
    Sound mutexed initial i s g s
      { g with history := g.history ++ [(i, .loaded (List.ofFn s.data))] } := by
  refine ⟨{ h with replays := ?_ },
    { Guarantee.refl i s g with
      history := fun j hj => history_others hj, grows := List.prefix_append .. }⟩
  rw [List.map_append, h.even heven]
  exact .loaded h.replays

theorem sound_miss (h : Inv mutexed initial s g) (i : I) :
    Sound mutexed initial i s g s { g with history := g.history ++ [(i, .missed)] } := by
  refine ⟨{ h with replays := ?_ },
    { Guarantee.refl i s g with
      history := fun j hj => history_others hj, grows := List.prefix_append .. }⟩
  rw [List.map_append]
  exact .missed h.replays

end Effects

section Assertions
variable [DecidableEq I] {mutexed : Bool} {i : I} {s s' : Shared I w α} {g g' : Ghost I w α}

/-- What holds where a thread stands. A copy is of the data, as far as it goes, unless a write has
started since. -/
def At (mutexed : Bool) (s : Shared I w α) : Pc w α → Prop
  | .idle | .readSeq _ => True
  | .enter _ => mutexed = true
  | .leave event => mutexed = true ∧ (event.isStored = true → s.seq % 2 = 0)
  | .copy _ seq0 copied =>
    seq0 % 2 = 0 ∧ seq0 ≤ s.seq ∧ copied.length ≤ w ∧
      (s.seq = seq0 → copied = (List.ofFn s.data).take copied.length) ∧
      (mutexed = true → s.seq = seq0)
  | .acquireLoad _ => s.seq % 2 = 0
  | .acquireStore _ seq => s.seq % 2 = 0 ∧ seq = s.seq
  | .write value cell => s.seq % 2 = 1 ∧ ∀ k : Fin w, k.val < cell → s.data k = value k
  | .guarding => s.seq % 2 = 1
  | .releaseLoad writing => s.seq % 2 = 1 ∧ writing.value s.data = s.data
  | .releaseStore writing seq =>
    s.seq % 2 = 1 ∧ seq = s.seq ∧ writing.value s.data = s.data

/-- The assertion of a thread: its calls, whether it has the write or a share of `mtx_`, and what
holds where it stands. -/
structure Here (mutexed : Bool) (i : I) (t : Thread I w α) (s : Shared I w α) (g : Ghost I w α) :
    Prop where
  id : t.id = i
  calls : (g.history.filter fun e => e.1 = i).map Prod.snd = t.calls ++ t.pc.pending
  writer : g.writer = some i ↔ t.pc.writes = true
  shares : mutexed = true → (i ∈ s.sharing ↔ t.pc.reads = true)
  stands : At mutexed s t.pc

theorem At.stable {pc : Pc w α} (h : At mutexed s pc) (hr : Rely mutexed i s g s' g')
    (hw : pc.writes = true → g.writer = some i)
    (hs : mutexed = true → pc.reads = true → i ∈ s.sharing) : At mutexed s' pc := by
  cases pc with
  | idle | readSeq => trivial
  | enter => exact h
  | leave event =>
    refine ⟨h.1, ?_⟩
    intro he
    rw [(hr.mine (hw he)).1]
    exact h.2 he
  | copy retry seq0 copied =>
    obtain ⟨heven, hle, hlen, hcopied, hstill⟩ := h
    refine ⟨heven, hle.trans hr.seq, hlen, ?_, ?_⟩
    · intro he
      have hcur : s.seq = seq0 := Nat.le_antisymm (he ▸ hr.seq) hle
      rw [hr.data.resolve_right (by omega)]
      exact hcopied hcur
    · intro hm
      rw [hr.still hm (hs hm rfl)]
      exact hstill hm
  | acquireLoad | acquireStore | write | guarding | releaseLoad | releaseStore =>
    obtain ⟨hseq, hdata⟩ := hr.mine (hw rfl)
    simp only [At, hseq, hdata] at h ⊢
    exact h

theorem Here.stable {t : Thread I w α} (h : Here mutexed i t s g) (hr : Rely mutexed i s g s' g') :
    Here mutexed i t s' g' where
  id := h.id
  calls := by
    rw [hr.history]
    exact h.calls
  writer := hr.writer.trans h.writer
  shares hm := hr.sharing.trans (h.shares hm)
  stands := h.stands.stable hr h.writer.mpr fun hm => (h.shares hm).mpr

def outline (I : Type) [DecidableEq I] (mutexed : Bool) (initial : Value w α) :
    Outline I (Shared I w α) (Thread I w α) (Ghost I w α) where
  inv := Inv mutexed initial
  here := Here mutexed
  rely := Rely mutexed
  stable := Here.stable

end Assertions

section Steps
variable [DecidableEq I] {mutexed fail : Bool} {initial : Value w α} {i : I}
  {s s' : Shared I w α} {g g' : Ghost I w α} {t : Thread I w α}

/-- What a step of a thread to `t` and `s'` owes, with the history longer or the same. -/
def Continues (mutexed : Bool) (initial : Value w α) (i : I) (s : Shared I w α) (g : Ghost I w α)
    (next : Shared I w α × Thread I w α) : Prop :=
  ∃ g', g.history <+: g'.history ∧ (outline I mutexed initial).Owes i s g next.2 next.1 g'

theorem Sound.owes (hs : Sound mutexed initial i s g s' g') (h : Inv mutexed initial s g)
    (hh : Here mutexed i t s' g') : Continues mutexed initial i s g (s', t) :=
  ⟨g', hs.2.grows, hs.1, hh, fun _ hj => hs.2.rely h hj⟩

/-- A step inside a call that changes neither the history nor who may do what. -/
theorem Here.goto (h : Here mutexed i t s g) (pc : Pc w α) (hp : pc.pending = t.pc.pending)
    (hw : pc.writes = t.pc.writes) (hr : pc.reads = t.pc.reads)
    (hsharing : s'.sharing = s.sharing) (hat : At mutexed s' pc) :
    Here mutexed i (t.goto pc) s' g where
  id := h.id
  calls := by
    rw [h.calls]
    simp only [Thread.goto, hp]
  writer := by
    rw [h.writer]
    simp only [Thread.goto, hw]
  shares hm := by
    rw [hsharing, h.shares hm]
    simp only [Thread.goto, hr]
  stands := hat

theorem Here.quiet (hh : Here mutexed i t s g) (h : Inv mutexed initial s g) (pc : Pc w α)
    (hp : pc.pending = t.pc.pending) (hw : pc.writes = t.pc.writes) (hr : pc.reads = t.pc.reads)
    (hat : At mutexed s pc) : Continues mutexed initial i s g (s, t.goto pc) :=
  (sound_refl h i).owes h (hh.goto pc hp hw hr rfl hat)

/-- The call proper is over. -/
theorem Here.done (hh : Here mutexed i t s g) {event : Event w α} (hp : t.pc.pending = [])
    (hhistory : g'.history = g.history ++ [(i, event)])
    (hw : g'.writer = some i ↔ (mutexed && event.isStored) = true)
    (hs : mutexed = true → (i ∈ s'.sharing ↔ event.isStored = false))
    (heven : event.isStored = true → s'.seq % 2 = 0) :
    Here mutexed i (SeqLock.done mutexed t event) s' g' := by
  have hcalls := hh.calls
  rw [hp, List.append_nil] at hcalls
  have hnew : (g'.history.filter fun e => e.1 = i).map Prod.snd = t.calls ++ [event] := by
    rw [hhistory, List.filter_append, List.map_append, hcalls]
    simp
  cases hm : mutexed with
  | true =>
    subst hm
    refine ⟨hh.id, hnew, ?_, ?_, rfl, heven⟩
    · rw [hw]
      rfl
    · intro _
      rw [hs rfl]
      simp [SeqLock.done, Thread.goto, Pc.reads]
  | false =>
    subst hm
    refine ⟨hh.id, ?_, ?_, by simp, trivial⟩
    · rw [hnew]
      simp [SeqLock.done, Thread.finish, Pc.pending]
    · rw [hw]
      simp [SeqLock.done, Thread.finish, Pc.writes]

theorem Here.not_writer (hh : Here mutexed i t s g) (hw : t.pc.writes = false) :
    g.writer ≠ some i := by
  intro he
  rw [hh.writer, hw] at he
  cases he

/-- A read is over, with a copy or without. -/
theorem Here.miss (hh : Here mutexed i t s g) (h : Inv mutexed initial s g)
    (hp : t.pc.pending = []) (hw : t.pc.writes = false) (hr : t.pc.reads = true) :
    Continues mutexed initial i s g (s, SeqLock.done mutexed t .missed) := by
  refine (sound_miss h i).owes h (hh.done hp rfl ?_ ?_ (by simp [Event.isStored]))
  · simp [Event.isStored, hh.not_writer hw]
  · intro hm
    simp [Event.isStored, hh.shares hm, hr]

/-- A reader is let in. -/
theorem keeps_share {call : Call w α} {calls : List (Event w α)} (h : Inv mutexed initial s g)
    (hh : Here mutexed i ⟨i, .enter call, calls⟩ s g) (hfree : s.unique = none)
    (hr : call.begin.reads = true) :
    Continues mutexed initial i s g
      ({ s with sharing := i :: s.sharing }, ⟨i, call.begin, calls⟩) := by
  have hout : i ∉ s.sharing := by
    rw [hh.shares hh.stands]
    simp [Pc.reads]
  refine (sound_share h hfree hout).owes h ⟨rfl, ?_, ?_, fun _ => by simp [hr], ?_⟩
  · rw [hh.calls]
    cases call <;> rfl
  · have := hh.not_writer rfl
    cases call <;> simp_all [Call.begin, Pc.reads, Pc.writes]
  · cases call with
    | load | tryLoad => trivial
    | store | lock => cases hr

theorem keeps_enter {call : Call w α} {calls : List (Event w α)} (h : Inv mutexed initial s g)
    (hh : Here mutexed i ⟨i, .enter call, calls⟩ s g) :
    Continues mutexed initial i s g (enter s ⟨i, .enter call, calls⟩ fail call) := by
  have hm : mutexed = true := hh.stands
  have hout : i ∉ s.sharing := by
    rw [hh.shares hm]
    simp [Pc.reads]
  cases call with
  | store value =>
    simp only [enter]
    split
    · rename_i hfree
      simp only [Bool.and_eq_true, Option.isNone_iff_eq_none, List.isEmpty_iff] at hfree
      have hnone : g.writer = none := (h.owner hm).symm.trans hfree.1
      have hsound : Sound mutexed initial i s g { s with unique := some i }
          { g with writer := some i } :=
        sound_begin h hnone (fun _ => rfl) (fun _ => hfree.2) ⟨rfl, rfl, rfl⟩
      refine hsound.owes h ?_
      refine ⟨rfl, hh.calls, ?_, ?_, h.rest hnone⟩
      · simp [Thread.goto, Call.begin, Pc.writes]
      · intro _
        simp [Thread.goto, Call.begin, Pc.reads, hout]
    · exact (sound_refl h i).owes h hh
  | lock => exact hh.quiet h _ rfl rfl rfl trivial
  | load =>
    simp only [enter]
    split
    · rename_i hfree
      exact keeps_share h hh (Option.isNone_iff_eq_none.mp hfree) rfl
    · exact (sound_refl h i).owes h hh
  | tryLoad =>
    simp only [enter]
    split
    · rename_i hfree
      simp only [Bool.and_eq_true, Option.isNone_iff_eq_none] at hfree
      exact keeps_share h hh hfree.2 rfl
    · refine (sound_miss h i).owes h ⟨rfl, ?_, ?_, ?_, trivial⟩
      · have hcalls := hh.calls
        simp only [Pc.pending, List.append_nil] at hcalls
        simp [List.filter_append, hcalls, Thread.finish, Pc.pending]
      · simp [Thread.finish, Pc.writes, hh.not_writer rfl]
      · intro _
        simp [Thread.finish, Pc.reads, hout]

theorem keeps_leave {event : Event w α} {calls : List (Event w α)} (h : Inv mutexed initial s g)
    (hh : Here mutexed i ⟨i, .leave event, calls⟩ s g) :
    Continues mutexed initial i s g (advance mutexed s ⟨i, .leave event, calls⟩ fail) := by
  obtain ⟨hm, heven⟩ := hh.stands
  have hcalls := hh.calls
  have howner := h.owner hm
  simp only [advance]
  split
  · rename_i hunique
    have hw : g.writer = some i := howner.symm.trans hunique
    have hstored := hh.writer.mp hw
    refine (sound_unlock h hw (heven hstored)).owes h ⟨rfl, ?_, ?_, ?_, trivial⟩
    · simpa [Thread.finish, Pc.pending] using hcalls
    · simp [Thread.finish, Pc.writes]
    · intro _
      have hapart := h.apart (by rw [hunique]; simp)
      simp [Thread.finish, Pc.reads, hapart]
  · rename_i hunique
    have hw : g.writer ≠ some i := howner ▸ hunique
    refine (sound_unshare h i).owes h ?_
    refine ⟨rfl, ?_, ?_, ?_, trivial⟩
    · simpa [Thread.finish, Pc.pending] using hcalls
    · simpa [Thread.finish, Pc.writes] using hw
    · intro _
      simp [Thread.finish, Pc.reads, h.nodup.not_mem_erase]

theorem keeps_readSeq {retry : Bool} {calls : List (Event w α)} (h : Inv mutexed initial s g)
    (hh : Here mutexed i ⟨i, .readSeq retry, calls⟩ s g) :
    Continues mutexed initial i s g (advance mutexed s ⟨i, .readSeq retry, calls⟩ fail) := by
  simp only [advance]
  split
  · split
    · exact (sound_refl h i).owes h hh
    · exact hh.miss h rfl rfl rfl
  · rename_i hodd
    refine hh.quiet h _ rfl rfl rfl ⟨?_, Nat.le_refl _, Nat.zero_le _, fun _ => rfl, fun _ => rfl⟩
    rw [word] at hodd
    omega

/-- The copy goes on, or is found good, or is given up. -/
theorem keeps_copy {retry : Bool} {seq0 : Nat} {copied : List α} {calls : List (Event w α)}
    (h : Inv mutexed initial s g) (hh : Here mutexed i ⟨i, .copy retry seq0 copied, calls⟩ s g)
    (hround : mutexed = false → s.seq < seq0 + 2 ^ 64) :
    Continues mutexed initial i s g
      (advance mutexed s ⟨i, .copy retry seq0 copied, calls⟩ fail) := by
  obtain ⟨heven, hle, hlen, hcopied, hstill⟩ := hh.stands
  simp only [advance]
  split
  · rename_i hlt
    refine hh.quiet h _ rfl rfl rfl ⟨heven, hle, ?_, ?_, hstill⟩
    · simpa using Nat.succ_le_of_lt hlt
    · intro he
      have hcell : (List.ofFn s.data)[copied.length]? = some (s.data ⟨copied.length, hlt⟩) := by
        simp [hlt]
      rw [List.length_append, List.length_singleton, List.take_add_one, hcell, ← hcopied he]
      rfl
  · rename_i hend
    split
    · rename_i hword
      have hseq : s.seq = seq0 := by
        cases hm : mutexed with
        | true => exact hstill hm
        | false =>
          have := hround hm
          simp only [word] at hword
          omega
      have hfull : copied = List.ofFn s.data := by
        rw [hcopied hseq, List.take_of_length_le]
        simp
        omega
      rw [hfull]
      refine (sound_load h i (hseq ▸ heven)).owes h
        (hh.done rfl rfl ?_ ?_ (by simp [Event.isStored]))
      · simp [Event.isStored, hh.not_writer rfl]
      · intro hm
        simp [Event.isStored, hh.shares hm, Pc.reads]
    · split
      · exact hh.quiet h _ rfl rfl rfl trivial
      · exact hh.miss h rfl rfl rfl

theorem keeps_acquireStore {writing : Writing w α} {seq : Nat} {calls : List (Event w α)}
    (h : Inv mutexed initial s g) (hh : Here mutexed i ⟨i, .acquireStore writing seq, calls⟩ s g) :
    Continues mutexed initial i s g
      (advance mutexed s ⟨i, .acquireStore writing seq, calls⟩ fail) := by
  obtain ⟨heven, rfl⟩ := hh.stands
  have hodd : (s.seq + 1) % 2 = 1 := by omega
  have hsound := sound_acquire h (hh.writer.mpr rfl) heven
  cases writing with
  | whole value =>
    exact hsound.owes h (hh.goto _ rfl rfl rfl rfl ⟨hodd, fun _ hk => absurd hk (Nat.not_lt_zero _)⟩)
  | guarded => exact hsound.owes h (hh.goto _ rfl rfl rfl rfl hodd)

theorem keeps_write {value : Value w α} {cell : Nat} {calls : List (Event w α)}
    (h : Inv mutexed initial s g) (hh : Here mutexed i ⟨i, .write value cell, calls⟩ s g) :
    Continues mutexed initial i s g (advance mutexed s ⟨i, .write value cell, calls⟩ fail) := by
  obtain ⟨hodd, hcells⟩ := hh.stands
  simp only [advance]
  split
  · rename_i hlt
    refine (sound_write h (hh.writer.mpr rfl) hodd _).owes h (hh.goto _ rfl rfl rfl rfl ⟨hodd, ?_⟩)
    intro k hk
    by_cases he : k = ⟨cell, hlt⟩
    · subst he
      exact Function.update_self ..
    · have hne : k.val ≠ cell := fun hv => he (Fin.ext hv)
      simp only [Function.update_of_ne he]
      exact hcells k (by omega)
  · rename_i hend
    refine hh.quiet h _ rfl rfl rfl ⟨hodd, rfl, ?_⟩
    funext k
    exact (hcells k (by omega)).symm

theorem keeps_releaseStore {writing : Writing w α} {seq : Nat} {calls : List (Event w α)}
    (h : Inv mutexed initial s g) (hh : Here mutexed i ⟨i, .releaseStore writing seq, calls⟩ s g) :
    Continues mutexed initial i s g
      (advance mutexed s ⟨i, .releaseStore writing seq, calls⟩ fail) := by
  obtain ⟨hodd, rfl, hvalue⟩ := hh.stands
  have hw := hh.writer.mpr rfl
  simp only [advance, hvalue]
  refine (sound_release h hw hodd (if mutexed = true then some i else none) ?_).owes h
    (hh.done rfl rfl ?_ ?_ ?_)
  · cases mutexed <;> simp
  · cases mutexed <;> simp [Event.isStored]
  · intro hm
    have hapart := h.apart (by rw [h.owner hm, hw]; simp)
    simp [Event.isStored, hapart]
  · intro _
    change (s.seq + 1) % 2 = 0
    omega

/-- One case per program point. -/
theorem keeps_advance (h : Inv mutexed initial s g) (hh : Here mutexed i t s g)
    (hround : ∀ retry seq0 copied, t.pc = .copy retry seq0 copied → mutexed = false →
      s.seq < seq0 + 2 ^ 64) : Continues mutexed initial i s g (advance mutexed s t fail) := by
  obtain ⟨id, pc, calls⟩ := t
  obtain rfl : id = i := hh.id
  cases pc with
  | idle => exact (sound_refl h id).owes h hh
  | enter => exact keeps_enter h hh
  | leave => exact keeps_leave h hh
  | readSeq => exact keeps_readSeq h hh
  | copy => exact keeps_copy h hh (hround _ _ _ rfl)
  | acquireLoad => exact hh.quiet h _ rfl rfl rfl ⟨hh.stands, rfl⟩
  | acquireStore => exact keeps_acquireStore h hh
  | write => exact keeps_write h hh
  | guarding => exact (sound_refl h id).owes h hh
  | releaseLoad => exact hh.quiet h _ rfl rfl rfl ⟨hh.stands.1, rfl, hh.stands.2⟩
  | releaseStore => exact keeps_releaseStore h hh

/-- A write of a `SeqLock` starts. -/
theorem keeps_begin {pc : Pc w α} {calls : List (Event w α)} (h : Inv false initial s g)
    (hh : Here false i ⟨i, .idle, calls⟩ s g) (hnone : g.writer = none) (hw : pc.writes = true)
    (hp : pc.pending = []) (hat : At false s pc) :
    Continues false initial i s g (s, ⟨i, pc, calls⟩) := by
  have hsound : Sound false initial i s g s { g with writer := some i } :=
    sound_begin h hnone (by simp) h.apart ⟨rfl, rfl, rfl⟩
  refine hsound.owes h ⟨rfl, ?_, by simp [hw], by simp, hat⟩
  rw [hh.calls, hp]
  rfl

/-- A call starts. A `MutexSeqLock` makes it wait for `mtx_` first. -/
theorem keeps_call {call : Call w α} (h : Inv mutexed initial s g) (hh : Here mutexed i t s g)
    (halone : mutexed = false → t.pc = .idle → call.begin.reads = false → g.writer = none) :
    Continues mutexed initial i s g (step mutexed s t (.call call)) := by
  obtain ⟨id, pc, calls⟩ := t
  obtain rfl : id = i := hh.id
  cases pc with
  | idle =>
    cases hm : mutexed with
    | true =>
      subst hm
      exact hh.quiet h (.enter call) rfl rfl rfl rfl
    | false =>
      subst hm
      cases call with
      | store | lock =>
        have hnone := halone rfl rfl rfl
        exact keeps_begin h hh hnone rfl rfl (h.rest hnone)
      | load | tryLoad =>
        exact (sound_refl h id).owes h ⟨rfl, hh.calls, hh.writer, by simp, trivial⟩
  | _ => exact (sound_refl h id).owes h hh

/-- The use of a `WriteGuard`, and its end. -/
theorem keeps_guard {m : Move w α} (h : Inv mutexed initial s g) (hh : Here mutexed i t s g)
    (hm : m = .unlock ∨ ∃ cell value, m = .assign cell value) :
    Continues mutexed initial i s g (step mutexed s t m) := by
  obtain ⟨id, pc, calls⟩ := t
  rcases hm with rfl | ⟨cell, value, rfl⟩
  · cases pc with
    | guarding => exact hh.quiet h (.releaseLoad .guarded) rfl rfl rfl ⟨hh.stands, rfl⟩
    | _ => exact (sound_refl h i).owes h hh
  · cases pc with
    | guarding =>
      have hodd : s.seq % 2 = 1 := hh.stands
      exact (sound_write h (hh.writer.mpr rfl) hodd _).owes h
        ⟨hh.id, hh.calls, hh.writer, hh.shares, hodd⟩
    | _ => exact (sound_refl h i).owes h hh

end Steps

section Runs
variable {n : Nat} {mutexed : Bool} {initial : Value w α}

theorem proper_keeps (mutexed : Bool) (initial : Value w α) (c : System n w α)
    (g : Ghost (Fin n) w α) (m : Fin n × Move w α)
    (h : (outline (Fin n) mutexed initial).Holds c g) (hm : proper mutexed c m = true) :
    Continues mutexed initial m.1 c.shared g (step mutexed c.shared (c.locals m.1) m.2) := by
  obtain ⟨hinv, hhere⟩ := h
  obtain ⟨i, m⟩ := m
  cases m with
  | call call =>
    refine keeps_call hinv (hhere i) ?_
    intro hmutexed hpc hr
    have hnone : ∀ j, (c.locals j).pc.writes = false := by
      subst hmutexed
      cases call with
      | store | lock => simpa [proper, hpc] using hm
      | load | tryLoad => cases hr
    cases hw : g.writer with
    | none => rfl
    | some j =>
      have := (hhere j).writer.mp hw
      rw [hnone j] at this
      cases this
  | access fail =>
    refine keeps_advance hinv (hhere i) ?_
    intro retry seq0 copied hpc hmutexed
    subst hmutexed
    simpa [proper, hpc] using hm
  | assign cell value => exact keeps_guard hinv (hhere i) (.inr ⟨cell, value, rfl⟩)
  | unlock => exact keeps_guard hinv (hhere i) (.inl rfl)

theorem start_holds (n : Nat) (mutexed : Bool) (initial : Value w α) :
    (outline (Fin n) mutexed initial).Holds (start n initial) ⟨none, initial, []⟩ := by
  refine ⟨⟨fun _ => rfl, fun _ => rfl, fun _ => rfl, fun _ => rfl, List.nodup_nil, .start⟩, ?_⟩
  intro i
  exact ⟨rfl, rfl, by simp [start, Pc.writes], by simp [start, Pc.reads], trivial⟩

theorem explained (mutexed : Bool) (n : Nat) (initial : Value w α)
    (moves more : List (Fin n × Move w α))
    (hproper : allowedRun (step mutexed) (proper mutexed) (start n initial) (moves ++ more) = true) :
    ∃ history later, history <+: later ∧
      Explains initial (run (step mutexed) (start n initial) moves) history ∧
      Explains initial (run (step mutexed) (start n initial) (moves ++ more)) later := by
  have hexplains : ∀ {c : System n w α} {g}, (outline (Fin n) mutexed initial).Holds c g →
      Explains initial c g.history := by
    intro c g h
    have hinv : Inv mutexed initial c.shared g := h.1
    exact ⟨⟨g.current, hinv.replays⟩, fun i => (h.2 i).calls⟩
  obtain ⟨g, g', hgrows, h, h'⟩ :=
    (start_holds n mutexed initial).extends (proper_keeps mutexed initial) hproper
  exact ⟨g.history, g'.history, hgrows, hexplains h, hexplains h'⟩

/-- No reader of a `SeqLock` sees a torn value. However the accesses of readers and writers to
single cells and to the counter are scheduled, there is one history of all calls that a plain
variable could have had: each `load` and each `try_load` that gives a copy gives the value last
stored. Writes must not overlap, and a copy must not take as long as 2^63 writes. -/
theorem seqLock_linearizable (n : Nat) (initial : Value w α) (moves more : List (Fin n × Move w α))
    (hproper : allowedRun (step false) (proper false) (start n initial) (moves ++ more) = true) :
    ∃ history later, history <+: later ∧
      Explains initial (run (step false) (start n initial) moves) history ∧
      Explains initial (run (step false) (start n initial) (moves ++ more)) later :=
  explained false n initial moves more hproper

/-- A `load` copies one cell, waits for a whole `store`, and copies the other. -/
def overlapped {n : Nat} (i j : Fin n) : List (Fin n × Move 2 Nat) :=
  [(i, .call .load), (i, .access false), (i, .access false), (j, .call (.store fun _ => 7))] ++
    List.replicate 7 (j, .access false) ++ List.replicate 6 (i, .access false)

theorem seqLock_linearizable_overlapped :
    ∃ history later, history <+: later ∧
      Explains (fun _ => 0) (run (step false) (start 2 fun _ => 0) (overlapped 0 1)) history ∧
      Explains (fun _ => 0)
        (run (step false) (start 2 fun _ => 0) (overlapped 0 1 ++ [(1, .call .lock)])) later :=
  seqLock_linearizable 2 (fun _ => 0) (overlapped 0 1) [(1, .call .lock)] (by decide +kernel)

theorem always_proper {n : Nat} (c : System n w α) (moves : List (Fin n × Move w α)) :
    allowedRun (step true) (proper true) c moves = true := by
  induction moves generalizing c with
  | nil => rfl
  | cons m moves ih => simp [allowedRun, proper, ih]

/-- A `MutexSeqLock` needs no such care of its users: any number of threads may write and read,
for any time. -/
theorem mutexSeqLock_linearizable (n : Nat) (initial : Value w α)
    (moves more : List (Fin n × Move w α)) :
    ∃ history later, history <+: later ∧
      Explains initial (run (step true) (start n initial) moves) history ∧
      Explains initial (run (step true) (start n initial) (moves ++ more)) later :=
  explained true n initial moves more (always_proper _ _)

end Runs

end Cppforge.Concurrent.SeqLock
