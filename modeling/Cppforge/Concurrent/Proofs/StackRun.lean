import Cppforge.Concurrent.TreiberStack
import Cppforge.Concurrent.Proofs.QueueEffects
import Mathlib.Data.List.Perm.Subperm

namespace Cppforge.Concurrent.TreiberStack
open Interleave Links
open MichaelScottQueue (Addr Slot Node nullWord Place update_place)

variable {I V : Type}

namespace Shared
variable (s : Shared V) (node a : Addr)

@[simp] theorem setNext_nextOf (next : Tagged) :
    (s.setNext node next).nextOf = Function.update s.nextOf node next.ptr :=
  Function.comp_update (fun n : Node V => n.next.ptr) s.nodes node _

@[simp] theorem setNext_valueOf (next : Tagged) : (s.setNext node next).valueOf = s.valueOf :=
  (Function.comp_update Node.value s.nodes node _).trans (Function.update_eq_self node s.valueOf)

@[simp] theorem setValue_nextOf (value : Slot V) : (s.setValue node value).nextOf = s.nextOf :=
  (Function.comp_update (fun n : Node V => n.next.ptr) s.nodes node _).trans
    (Function.update_eq_self node s.nextOf)

@[simp] theorem setValue_valueOf (value : Slot V) :
    (s.setValue node value).valueOf = Function.update s.valueOf node value :=
  Function.comp_update Node.value s.nodes node _

end Shared

section Specification

/-- Calls of a stack that run one after the other, and the values they leave, the top first. -/
inductive Replays : List (Event V) → List V → Prop where
  | empty : Replays [] []
  | pushed {events values} (value : V) (before : Replays events values) :
    Replays (events ++ [.pushed value]) (value :: values)
  | popped {events value values} (before : Replays events (value :: values)) :
    Replays (events ++ [.popped (some value)]) values
  | missed {events} (before : Replays events []) : Replays (events ++ [.missed]) []

/-- What a call in progress has done already. -/
def After.pending : After V → List (Event V)
  | .deliver value => [.popped value]
  | _ => []

def Pc.pending (s : Shared V) : Pc V → List (Event V)
  | .countUp value => [.pushed value]
  | .pushLoad _ after => after.pending
  | .pushStore _ _ after => after.pending
  | .pushExchange _ _ after => after.pending
  | .countDown value => [.popped value]
  | .recheckValue node => [.popped (s.valueOf node).content]
  | .moveValue node => [.popped (s.valueOf node).content]
  | _ => []

/-- A history of the calls of all threads that a plain stack could have, with the same values
left: each thread has made the calls that are its own, in this order. -/
structure Explains {n : Nat} (c : System n V) (history : List (Fin n × Event V)) : Prop where
  stack : ∃ values, Replays (history.map Prod.snd) values ∧ c.shared.contents = values.map some
  calls : ∀ i, (history.filter fun e => e.1 = i).map Prod.snd =
    (c.locals i).calls ++ (c.locals i).pc.pending c.shared

/-- The word an exchange is about to change, and what it is expected to be. -/
def Pc.exchanges (s : Shared V) : Pc V → Option (Tagged × Tagged)
  | .popExchange _ oldHead _ => some (s.freeHead, oldHead)
  | .pushExchange _ oldHead _ => some (s.freeHead, oldHead)
  | .link _ _ oldTop => some (s.top, oldTop)
  | .takeCopied oldTop _ _ => some (s.top, oldTop)
  | .takeUnread oldTop _ => some (s.top, oldTop)
  | _ => none

end Specification

section Invariant

/-- The nodes of the stack with their values, the nodes of the free pool, who may write which
node, and the calls that have taken effect. -/
structure Ghost (I V : Type) where
  place : Addr → Place I
  stack : List Addr
  values : List V
  pool : List Addr
  history : List (I × Event V)

structure Inv (s : Shared V) (g : Ghost I V) : Prop where
  path : Path s.nextOf 0 s.top.ptr g.stack
  free : Path s.nextOf 0 s.freeHead.ptr g.pool
  stacked : ∀ a, a ∈ g.stack ↔ g.place a = .queued
  pooled : ∀ a, a ∈ g.pool ↔ g.place a = .pooled
  fresh : ∀ a : Nat, g.place a = .fresh ↔ a = 0 ∨ s.allocated < a
  distinct : g.stack.Nodup
  distinctPool : g.pool.Nodup
  values : g.stack.map s.valueOf = g.values.map .full
  replays : Replays (g.history.map Prod.snd) g.values

variable [DecidableEq I]

/-- What a thread relies on from the steps of the others. -/
structure Rely (i : I) (s : Shared V) (g : Ghost I V) (s' : Shared V) (g' : Ghost I V) : Prop where
  top : Advances s.top s'.top
  free : Advances s.freeHead s'.freeHead
  held : ∀ a, g.place a = .held i →
    g'.place a = .held i ∧ s'.nextOf a = s.nextOf a ∧ s'.valueOf a = s.valueOf a
  poolLink : s'.freeHead = s.freeHead → s.freeHead.ptr ≠ 0 →
    s'.nextOf s.freeHead.ptr = s.nextOf s.freeHead.ptr
  topLink : s'.top = s.top → s.top.ptr ≠ 0 →
    s'.nextOf s.top.ptr = s.nextOf s.top.ptr ∧ s'.valueOf s.top.ptr = s.valueOf s.top.ptr
  history : g'.history.filter (fun e => e.1 = i) = g.history.filter (fun e => e.1 = i)

/-- What a step of thread `i` may change. -/
structure Guarantee (i : I) (s : Shared V) (g : Ghost I V) (s' : Shared V) (g' : Ghost I V) :
    Prop where
  top : Advances s.top s'.top := by exact .inl rfl
  free : Advances s.freeHead s'.freeHead := by exact .inl rfl
  next : ∀ a, s'.nextOf a = s.nextOf a ∨ g.place a = .held i ∨ g.place a = .fresh := by
    exact fun _ => .inl rfl
  value : ∀ a, s'.valueOf a = s.valueOf a ∨ g.place a = .held i ∨ g.place a = .fresh := by
    exact fun _ => .inl rfl
  place : ∀ a j, j ≠ i → g.place a = .held j → g'.place a = .held j := by exact fun _ _ _ h => h
  history : ∀ j, j ≠ i →
    g'.history.filter (fun e => e.1 = j) = g.history.filter (fun e => e.1 = j) := by
    exact fun _ _ => rfl
  grows : g.history <+: g'.history := by exact List.prefix_rfl

end Invariant

section Effects
variable {s s' : Shared V} {g g' : Ghost I V}

theorem Inv.place_top (h : Inv s g) (hn : s.top.ptr ≠ 0) : g.place s.top.ptr = .queued := by
  obtain ⟨l, hl, _⟩ := h.path.first hn
  exact (h.stacked _).mp (hl ▸ List.mem_cons_self)

theorem Inv.place_free (h : Inv s g) (hn : s.freeHead.ptr ≠ 0) :
    g.place s.freeHead.ptr = .pooled := by
  obtain ⟨l, hl, _⟩ := h.free.first hn
  exact (h.pooled _).mp (hl ▸ List.mem_cons_self)

theorem Inv.held_ne_zero {i : I} (h : Inv s g) {a : Addr} (ha : g.place a = .held i) : a ≠ 0 := by
  intro hz
  have := (h.fresh a).mpr (.inl hz)
  rw [ha] at this
  cases this

theorem Inv.stack_nil (h : Inv s g) (hn : s.top.ptr = 0) : g.values = [] := by
  have hstack : g.stack = [] := by
    cases hs : g.stack with
    | nil => rfl
    | cons a l =>
      have hpath := h.path
      rw [hs] at hpath
      exact absurd (hpath.1 ▸ hn) hpath.2.1
  have hvalues := h.values
  rw [hstack] at hvalues
  simpa using hvalues.symm

/-- The top node holds the top value. -/
theorem Inv.first (h : Inv s g) (hn : s.top.ptr ≠ 0) :
    ∃ stack v values, g.stack = s.top.ptr :: stack ∧ g.values = v :: values ∧
      Path s.nextOf 0 (s.nextOf s.top.ptr) stack ∧ s.valueOf s.top.ptr = .full v ∧
      stack.map s.valueOf = values.map .full := by
  obtain ⟨stack, hstack, hpath⟩ := h.path.first hn
  have hvalues := h.values
  rw [hstack, List.map_cons] at hvalues
  obtain ⟨v, values, hc, hv, hm⟩ := List.map_eq_cons_iff.mp hvalues.symm
  exact ⟨stack, v, values, hstack, hc, hpath, hv.symm, hm.symm⟩

variable [DecidableEq I] {i j : I}

theorem Guarantee.refl (i : I) (s : Shared V) (g : Ghost I V) : Guarantee i s g s g :=
  ⟨.inl rfl, .inl rfl, fun _ => .inl rfl, fun _ => .inl rfl, fun _ _ _ h => h, fun _ _ => rfl,
    List.prefix_rfl⟩

theorem Guarantee.rely (hg : Guarantee i s g s' g') (h : Inv s g) (hj : j ≠ i) :
    Rely j s g s' g' := by
  have hsame : ∀ a, g.place a ≠ .held i → g.place a ≠ .fresh →
      s'.nextOf a = s.nextOf a ∧ s'.valueOf a = s.valueOf a := by
    intro a hheld hfresh
    exact ⟨(hg.next a).resolve_right (by simp [hheld, hfresh]),
      (hg.value a).resolve_right (by simp [hheld, hfresh])⟩
  refine ⟨hg.top, hg.free, ?_, ?_, ?_, hg.history j hj⟩
  · intro a ha
    refine ⟨hg.place a j hj ha, ?_⟩
    exact hsame a (by simp [ha, hj]) (by simp [ha])
  · intro _ hn
    exact (hsame _ (by simp [h.place_free hn]) (by simp [h.place_free hn])).1
  · intro _ hn
    exact hsame _ (by simp [h.place_top hn]) (by simp [h.place_top hn])

/-- What the effects below establish. -/
def Sound (i : I) (s : Shared V) (g : Ghost I V) (s' : Shared V) (g' : Ghost I V) : Prop :=
  Inv s' g' ∧ Guarantee i s g s' g'

/-- A step that writes nothing the proof looks at. -/
theorem sound_size (h : Inv s g) (i : I) (size : UInt64) : Sound i s g { s with size := size } g :=
  ⟨⟨h.path, h.free, h.stacked, h.pooled, h.fresh, h.distinct, h.distinctPool, h.values,
    h.replays⟩, { Guarantee.refl i s g with }⟩

theorem sound_refl (h : Inv s g) (i : I) : Sound i s g s g := ⟨h, .refl i s g⟩

/-- A thread writes a node it holds. -/
theorem sound_write (h : Inv s g) {n : Addr} (hn : g.place n = .held i)
    (hnext : ∀ a, a ≠ n → s'.nextOf a = s.nextOf a)
    (hvalue : ∀ a, a ≠ n → s'.valueOf a = s.valueOf a)
    (hrest : s'.top = s.top ∧ s'.freeHead = s.freeHead ∧ s'.allocated = s.allocated) :
    Sound i s g s' g := by
  obtain ⟨htop, hfree, hallocated⟩ := hrest
  have hout : ∀ a, g.place a = .queued ∨ g.place a = .pooled → a ≠ n := by
    intro a ha he
    subst he
    rw [hn] at ha
    rcases ha with ha | ha <;> cases ha
  refine ⟨⟨?_, ?_, h.stacked, h.pooled, ?_, h.distinct, h.distinctPool, ?_, h.replays⟩,
    { Guarantee.refl i s g with
      top := .inl htop, free := .inl hfree, next := ?_, value := ?_ }⟩
  · rw [htop]
    exact h.path.congr fun b hb => hnext b (hout b (.inl ((h.stacked b).mp hb)))
  · rw [hfree]
    exact h.free.congr fun b hb => hnext b (hout b (.inr ((h.pooled b).mp hb)))
  · rw [hallocated]
    exact h.fresh
  · rw [← h.values]
    exact List.map_congr_left fun a ha => hvalue a (hout a (.inl ((h.stacked a).mp ha)))
  · intro a
    by_cases ha : a = n
    · exact .inr (.inl (ha ▸ hn))
    · exact .inl (hnext a ha)
  · intro a
    by_cases ha : a = n
    · exact .inr (.inl (ha ▸ hn))
    · exact .inl (hvalue a ha)

theorem sound_setNext (h : Inv s g) {n : Addr} (hn : g.place n = .held i) (next : Tagged) :
    Sound i s g (s.setNext n next) g := by
  refine sound_write h hn ?_ ?_ ⟨rfl, rfl, rfl⟩
  · intro a ha
    rw [Shared.setNext_nextOf, Function.update_of_ne ha]
  · intro a _
    rw [Shared.setNext_valueOf]

theorem sound_setValue (h : Inv s g) {n : Addr} (hn : g.place n = .held i) (value : Slot V) :
    Sound i s g (s.setValue n value) g := by
  refine sound_write h hn ?_ ?_ ⟨rfl, rfl, rfl⟩
  · intro a _
    rw [Shared.setValue_nextOf]
  · intro a ha
    rw [Shared.setValue_valueOf, Function.update_of_ne ha]

omit [DecidableEq I] in
/-- A node that no other thread holds may change hands. -/
theorem keep_place {place : Addr → Place I} {n : Addr} {p q : Place I} (hp : place n = p)
    (hold : ∀ j, j ≠ i → p ≠ .held j) :
    ∀ a j, j ≠ i → place a = .held j → Function.update place n q a = .held j := by
  intro a j hj ha
  have hne : a ≠ n := by
    intro he
    rw [he, hp] at ha
    exact hold j hj ha
  rw [Function.update_of_ne hne, ha]

/-- `new Node()`. -/
theorem sound_alloc (h : Inv s g) (i : I) :
    Sound i s g
      { s with
        allocated := s.allocated + 1
        nodes := Function.update s.nodes (s.allocated + 1) {} }
      { g with place := Function.update g.place (s.allocated + 1) (.held i) } := by
  have hfresh : g.place (s.allocated + 1) = .fresh :=
    (h.fresh _).mpr (.inr (Nat.lt_succ_self _))
  have hsame : ∀ a, a ≠ s.allocated + 1 →
      Function.update s.nodes (s.allocated + 1) ({} : Node V) a = s.nodes a :=
    fun a ha => Function.update_of_ne ha _ _
  have hout : ∀ a, g.place a = .queued ∨ g.place a = .pooled → a ≠ s.allocated + 1 := by
    intro a ha he
    subst he
    rw [hfresh] at ha
    rcases ha with ha | ha <;> cases ha
  refine ⟨⟨?_, ?_, ?_, ?_, ?_, h.distinct, h.distinctPool, ?_, h.replays⟩,
    { Guarantee.refl i s g with
      next := ?_, value := ?_, place := keep_place hfresh (by simp) }⟩
  · refine h.path.congr ?_
    intro b hb
    simp only [Shared.nextOf, hsame b (hout b (.inl ((h.stacked b).mp hb)))]
  · refine h.free.congr ?_
    intro b hb
    simp only [Shared.nextOf, hsame b (hout b (.inr ((h.pooled b).mp hb)))]
  · exact fun a => (h.stacked a).trans (update_place (by simp [hfresh]) (by simp) a).symm
  · exact fun a => (h.pooled a).trans (update_place (by simp [hfresh]) (by simp) a).symm
  · intro (a : Nat)
    change Function.update g.place (s.allocated + 1) (.held i) a = .fresh ↔
      a = 0 ∨ s.allocated + 1 < a
    by_cases ha : a = s.allocated + 1
    · simp [ha]
    · rw [Function.update_of_ne ha, h.fresh]
      omega
  · rw [← h.values]
    refine List.map_congr_left ?_
    intro a ha
    simp only [Shared.valueOf, hsame a (hout a (.inl ((h.stacked a).mp ha)))]
  · intro a
    by_cases ha : a = s.allocated + 1
    · exact .inr (.inr (ha ▸ hfresh))
    · left
      simp only [Shared.nextOf, hsame a ha]
  · intro a
    by_cases ha : a = s.allocated + 1
    · exact .inr (.inr (ha ▸ hfresh))
    · left
      simp only [Shared.valueOf, hsame a ha]

/-- The pool gives its first node to a thread. -/
theorem sound_pop (h : Inv s g) (i : I) (hn : s.freeHead.ptr ≠ 0) :
    Sound i s g
      { s with freeHead := ⟨s.nextOf s.freeHead.ptr, s.freeHead.tag + 1⟩ }
      { g with
        place := Function.update g.place s.freeHead.ptr (.held i)
        pool := g.pool.tail } := by
  obtain ⟨l, hl, hpath⟩ := h.free.first hn
  have hpool := h.place_free hn
  have hnodup := h.distinctPool
  rw [hl, List.nodup_cons] at hnodup
  have hfresh := update_place (q := .held i) (show g.place s.freeHead.ptr ≠ .fresh by simp [hpool])
    (by simp)
  refine ⟨⟨h.path, by rw [hl]; exact hpath, ?_, ?_, fun a => (hfresh a).trans (h.fresh a),
    h.distinct, by rw [hl]; exact hnodup.2, h.values, h.replays⟩,
    { Guarantee.refl i s g with
      free := .inr rfl, place := keep_place hpool (by simp) }⟩
  · exact fun a => (h.stacked a).trans (update_place (by simp [hpool]) (by simp) a).symm
  · intro a
    by_cases ha : a = s.freeHead.ptr
    · subst ha
      simp [hl, hnodup.1]
    · have := h.pooled a
      rw [hl, List.mem_cons] at this
      simp only [hl, List.tail_cons, Function.update_of_ne ha, ← this, ha, false_or]

omit [DecidableEq I] in
/-- A node that a thread holds is on neither list. -/
theorem Inv.held_out (h : Inv s g) {n : Addr} (hn : g.place n = .held i) :
    n ∉ g.stack ∧ n ∉ g.pool := by
  refine ⟨?_, ?_⟩
  · intro hm
    have := (h.stacked n).mp hm
    rw [hn] at this
    cases this
  · intro hm
    have := (h.pooled n).mp hm
    rw [hn] at this
    cases this

/-- A thread gives the node it holds to the pool. -/
theorem sound_push (h : Inv s g) {n : Addr} (hn : g.place n = .held i)
    (hnext : s.nextOf n = s.freeHead.ptr) :
    Sound i s g { s with freeHead := ⟨n, s.freeHead.tag + 1⟩ }
      { g with place := Function.update g.place n .pooled, pool := n :: g.pool } := by
  have hfresh := update_place (q := .pooled) (show g.place n ≠ .fresh by simp [hn]) (by simp)
  refine ⟨⟨h.path, ⟨rfl, h.held_ne_zero hn, ?_⟩, ?_, ?_,
    fun a => (hfresh a).trans (h.fresh a), h.distinct,
    List.nodup_cons.mpr ⟨(h.held_out hn).2, h.distinctPool⟩, h.values, h.replays⟩,
    { Guarantee.refl i s g with
      free := .inr rfl, place := keep_place hn (fun j hj he => hj (by cases he; rfl)) }⟩
  · change Path s.nextOf 0 (s.nextOf n) g.pool
    rw [hnext]
    exact h.free
  · exact fun a => (h.stacked a).trans (update_place (by simp [hn]) (by simp) a).symm
  · intro a
    by_cases ha : a = n
    · simp [ha]
    · simp only [List.mem_cons, ha, false_or, Function.update_of_ne ha, h.pooled]

/-- A thread puts the node it holds, which points to the top, on the stack. -/
theorem sound_link (h : Inv s g) {n : Addr} (hn : g.place n = .held i)
    (hnext : s.nextOf n = s.top.ptr) {v : V} (hv : s.valueOf n = .full v) :
    Sound i s g { s with top := ⟨n, s.top.tag + 1⟩ }
      { g with
        place := Function.update g.place n .queued
        stack := n :: g.stack
        values := v :: g.values
        history := g.history ++ [(i, .pushed v)] } := by
  have hfresh := update_place (q := .queued) (show g.place n ≠ .fresh by simp [hn]) (by simp)
  refine ⟨⟨⟨rfl, h.held_ne_zero hn, ?_⟩, h.free, ?_, ?_,
    fun a => (hfresh a).trans (h.fresh a),
    List.nodup_cons.mpr ⟨(h.held_out hn).1, h.distinct⟩, h.distinctPool, ?_, ?_⟩,
    { Guarantee.refl i s g with
      top := .inr rfl, place := keep_place hn (fun j hj he => hj (by cases he; rfl)),
      history := fun j hj => history_others hj, grows := List.prefix_append .. }⟩
  · change Path s.nextOf 0 (s.nextOf n) g.stack
    rw [hnext]
    exact h.path
  · intro a
    by_cases ha : a = n
    · simp [ha]
    · simp only [List.mem_cons, ha, false_or, Function.update_of_ne ha, h.stacked]
  · exact fun a => (h.pooled a).trans (update_place (by simp [hn]) (by simp) a).symm
  · exact congrArg₂ List.cons hv h.values
  · rw [List.map_append]
    exact .pushed v h.replays

/-- A thread takes the top node, and from then on holds it. -/
theorem sound_take (h : Inv s g) (i : I) (hn : s.top.ptr ≠ 0) {v : V}
    (hv : s.valueOf s.top.ptr = .full v) :
    Sound i s g { s with top := ⟨s.nextOf s.top.ptr, s.top.tag + 1⟩ }
      { g with
        place := Function.update g.place s.top.ptr (.held i)
        stack := g.stack.tail
        values := g.values.tail
        history := g.history ++ [(i, .popped (some v))] } := by
  obtain ⟨stack, w, values, hstack, hvalues, hpath, hw, hrest⟩ := h.first hn
  have hwv : w = v := by
    rw [hv] at hw
    exact (Slot.full.inj hw).symm
  have htop := h.place_top hn
  have hdistinct := h.distinct
  rw [hstack, List.nodup_cons] at hdistinct
  have hfresh := update_place (q := .held i) (show g.place s.top.ptr ≠ .fresh by simp [htop])
    (by simp)
  have hreplays := h.replays
  rw [hvalues, hwv] at hreplays
  refine ⟨⟨by rw [hstack]; exact hpath, h.free, ?_, ?_, fun a => (hfresh a).trans (h.fresh a),
    by rw [hstack]; exact hdistinct.2, h.distinctPool, by rw [hstack, hvalues]; exact hrest, ?_⟩,
    { Guarantee.refl i s g with
      top := .inr rfl, place := keep_place htop (by simp),
      history := fun j hj => history_others hj, grows := List.prefix_append .. }⟩
  · intro a
    by_cases ha : a = s.top.ptr
    · subst ha
      simp [hstack, hdistinct.1]
    · have := h.stacked a
      rw [hstack, List.mem_cons] at this
      simp only [hstack, List.tail_cons, Function.update_of_ne ha, ← this, ha, false_or]
  · exact fun a => (h.pooled a).trans (update_place (by simp [htop]) (by simp) a).symm
  · rw [List.map_append, hvalues]
    exact .popped hreplays

/-- A thread finds the stack empty. -/
theorem sound_miss (h : Inv s g) (i : I) (hn : s.top.ptr = 0) :
    Sound i s g s { g with history := g.history ++ [(i, .missed)] } := by
  have hvalues := h.stack_nil hn
  have hreplays := h.replays
  rw [hvalues] at hreplays
  refine ⟨{ h with replays := ?_ },
    { Guarantee.refl i s g with
      history := fun j hj => history_others hj, grows := List.prefix_append .. }⟩
  rw [List.map_append, hvalues]
  exact .missed hreplays

end Effects

section Assertions
variable [DecidableEq I] {i : I} {s s' : Shared V} {g g' : Ghost I V}

/-- A copy of `top_`; if it is current, `m` comes next. -/
def Ahead (s : Shared V) (oldTop : Tagged) (m : Addr) : Prop :=
  oldTop.ptr ≠ 0 ∧ Copied s.top oldTop ∧ (s.top = oldTop → s.nextOf oldTop.ptr = m)

/-- A node with its value, ready to be put on the stack. -/
def Filled (i : I) (s : Shared V) (g : Ghost I V) (v : V) (n : Addr) : Prop :=
  g.place n = .held i ∧ s.valueOf n = .full v

theorem Ahead.stable {oldTop : Tagged} {m : Addr} (h : Ahead s oldTop m) (hr : Rely i s g s' g') :
    Ahead s' oldTop m := by
  obtain ⟨hn, hc, hnext⟩ := h
  refine ⟨hn, hc.advances hr.top, ?_⟩
  intro he
  obtain ⟨rfl, hsame⟩ := hc.current hr.top he
  exact (hr.topLink hsame hn).1.trans (hnext rfl)

theorem Filled.stable {v : V} {n : Addr} (h : Filled i s g v n) (hr : Rely i s g s' g') :
    Filled i s' g' v n := by
  obtain ⟨hp, _, hv⟩ := hr.held n h.1
  exact ⟨hp, hv.trans h.2⟩

/-- What holds where a thread stands. -/
def At (i : I) (s : Shared V) (g : Ghost I V) : Pc V → Prop
  | .idle | .popLoad _ | .loadOldTop | .countUp _ | .countDown _ => True
  | .popNext _ oldHead => Copied s.freeHead oldHead
  | .popExchange _ oldHead next =>
    oldHead.ptr ≠ 0 ∧ Copied s.freeHead oldHead ∧
      (s.freeHead = oldHead → s.nextOf oldHead.ptr = next.ptr)
  | .popReset _ node | .emplace _ node | .construct _ node | .pushLoad node _ =>
    g.place node = .held i
  | .loadTop value node => Filled i s g value node
  | .storeNext value node oldTop => Filled i s g value node ∧ Copied s.top oldTop
  | .link value node oldTop =>
    Filled i s g value node ∧ Copied s.top oldTop ∧ s.nextOf node = oldTop.ptr
  | .pushStore node oldHead _ => g.place node = .held i ∧ Copied s.freeHead oldHead
  | .pushExchange node oldHead _ =>
    g.place node = .held i ∧ Copied s.freeHead oldHead ∧ s.nextOf node = oldHead.ptr
  | .loadNext oldTop => oldTop.ptr ≠ 0 ∧ Copied s.top oldTop
  | .checkValue oldTop next | .copyValue oldTop next | .takeUnread oldTop next =>
    Ahead s oldTop next.ptr
  | .takeCopied oldTop next value =>
    Ahead s oldTop next.ptr ∧ (s.top = oldTop → (s.valueOf oldTop.ptr).content = value)
  | .recheckValue node | .moveValue node => ∃ v, Filled i s g v node

/-- The assertion of a thread: its calls, and what holds where it stands. -/
structure Here (i : I) (t : Thread V) (s : Shared V) (g : Ghost I V) : Prop where
  calls : (g.history.filter fun e => e.1 = i).map Prod.snd = t.calls ++ t.pc.pending s
  stands : At i s g t.pc

theorem At.stable {pc : Pc V} (h : At i s g pc) (hr : Rely i s g s' g') : At i s' g' pc := by
  cases pc with
  | idle | popLoad | loadOldTop | countUp | countDown => trivial
  | popNext => exact Copied.advances h hr.free
  | popExchange v oldHead next =>
    obtain ⟨hn, hc, hnext⟩ := h
    refine ⟨hn, hc.advances hr.free, ?_⟩
    intro he
    obtain ⟨rfl, hsame⟩ := hc.current hr.free he
    exact (hr.poolLink hsame hn).trans (hnext rfl)
  | popReset | emplace | construct | pushLoad => exact (hr.held _ h).1
  | loadTop => exact Filled.stable h hr
  | storeNext => exact ⟨h.1.stable hr, h.2.advances hr.top⟩
  | link =>
    exact ⟨h.1.stable hr, h.2.1.advances hr.top, (hr.held _ h.1.1).2.1.trans h.2.2⟩
  | pushStore => exact ⟨(hr.held _ h.1).1, h.2.advances hr.free⟩
  | pushExchange =>
    obtain ⟨hp, hn, _⟩ := hr.held _ h.1
    exact ⟨hp, h.2.1.advances hr.free, hn.trans h.2.2⟩
  | loadNext => exact ⟨h.1, h.2.advances hr.top⟩
  | checkValue | copyValue | takeUnread => exact Ahead.stable h hr
  | takeCopied oldTop next v =>
    obtain ⟨hahead, hv⟩ := h
    refine ⟨hahead.stable hr, ?_⟩
    intro he
    obtain ⟨rfl, hsame⟩ := hahead.2.1.current hr.top he
    rw [(hr.topLink hsame hahead.1).2]
    exact hv rfl
  | recheckValue | moveValue =>
    obtain ⟨v, hv⟩ := h
    exact ⟨v, hv.stable hr⟩

theorem Here.stable {t : Thread V} (h : Here i t s g) (hr : Rely i s g s' g') :
    Here i t s' g' where
  calls := by
    rw [hr.history, h.calls]
    congr 1
    -- only the value of a node it holds is read from shared memory
    have hstands := h.stands
    cases hpc : t.pc with
    | recheckValue node | moveValue node =>
      rw [hpc] at hstands
      obtain ⟨v, hfilled⟩ := hstands
      simp only [Pc.pending, (hr.held node hfilled.1).2.2]
    | _ => rfl
  stands := h.stands.stable hr

def outline (I V : Type) [DecidableEq I] : Outline I (Shared V) (Thread V) (Ghost I V) where
  inv := Inv
  here := Here
  rely := Rely
  stable := Here.stable

end Assertions

section Steps
variable [DecidableEq I] {i : I} {s s' : Shared V} {g g' : Ghost I V}
  {t : Thread V} {calls : List (Event V)} {copyable fail : Bool}

/-- What a step of a thread to `t` and `s'` owes, with the history longer or the same. -/
def Continues (i : I) (s : Shared V) (g : Ghost I V) (t : Thread V) (s' : Shared V) : Prop :=
  ∃ g', g.history <+: g'.history ∧ (outline I V).Owes i s g t s' g'

/-- The thread's next access keeps the outline. -/
def Keeps (copyable fail : Bool) (i : I) (s : Shared V) (g : Ghost I V) (t : Thread V) : Prop :=
  Continues i s g (advance copyable s t fail).2 (advance copyable s t fail).1

theorem Sound.owes (hs : Sound i s g s' g') (h : Inv s g) (hh : Here i t s' g') :
    Continues i s g t s' :=
  ⟨g', hs.2.grows, hs.1, hh, fun _ hj => hs.2.rely h hj⟩

/-- A step inside a call, none that takes effect. -/
theorem Here.goto (h : Here i t s g) (pc : Pc V) (hp : pc.pending s' = t.pc.pending s)
    (hhistory : g'.history = g.history) (hat : At i s' g' pc) : Here i (t.goto pc) s' g' where
  calls := by
    rw [hhistory, h.calls]
    simp only [Thread.goto, hp]
  stands := hat

/-- A step that only reads. -/
theorem Here.quiet (hh : Here i t s g) (h : Inv s g) (pc : Pc V)
    (hp : pc.pending s = t.pc.pending s) (hat : At i s g pc) :
    Continues i s g (t.goto pc) s :=
  (sound_refl h i).owes h (hh.goto pc hp rfl hat)

/-- An exchange that finds the packed word it expects finds the word it read. -/
theorem matching_current {word expected : Tagged} (hm : matching fail word expected = true)
    (hc : Copied word expected) (hround : word.tag < expected.tag + 2 ^ tagBits) :
    word = expected := by
  simp only [matching, Bool.and_eq_true, decide_eq_true_eq] at hm
  exact hc.of_packed hm.2 hround

theorem keeps_popNext {v : V} {oldHead : Tagged} (h : Inv s g)
    (hh : Here i ⟨.popNext v oldHead, calls⟩ s g) :
    Keeps copyable fail i s g ⟨.popNext v oldHead, calls⟩ := by
  simp only [Keeps, advance]
  split
  · refine (sound_alloc h i).owes h (hh.goto _ rfl rfl ?_)
    simp [At]
  · rename_i hn
    exact hh.quiet h _ rfl ⟨hn, hh.stands, fun _ => rfl⟩

theorem keeps_popExchange {v : V} {oldHead next : Tagged} (h : Inv s g)
    (hh : Here i ⟨.popExchange v oldHead next, calls⟩ s g)
    (hround : s.freeHead.tag < oldHead.tag + 2 ^ tagBits) :
    Keeps copyable fail i s g ⟨.popExchange v oldHead next, calls⟩ := by
  obtain ⟨hn, hc, hnext⟩ := hh.stands
  simp only [Keeps, advance]
  split
  · rename_i hm
    obtain rfl := matching_current hm hc hround
    rw [← hnext rfl]
    refine (sound_pop h i hn).owes h (hh.goto _ rfl rfl ?_)
    simp [At]
  · exact hh.quiet h _ rfl (Copied.self _)

theorem keeps_construct {v : V} {node : Addr} (h : Inv s g)
    (hh : Here i ⟨.construct v node, calls⟩ s g) :
    Keeps copyable fail i s g ⟨.construct v node, calls⟩ := by
  have hheld : g.place node = .held i := hh.stands
  simp only [Keeps, advance]
  split
  · exact hh.quiet h _ rfl hheld
  · refine (sound_setValue h hheld (.full v)).owes h (hh.goto _ rfl rfl ⟨hheld, ?_⟩)
    simp

theorem keeps_storeNext {v : V} {node : Addr} {oldTop : Tagged} (h : Inv s g)
    (hh : Here i ⟨.storeNext v node oldTop, calls⟩ s g) :
    Keeps copyable fail i s g ⟨.storeNext v node oldTop, calls⟩ := by
  obtain ⟨⟨hheld, hv⟩, hc⟩ := hh.stands
  refine (sound_setNext h hheld oldTop).owes h (hh.goto _ rfl rfl ⟨⟨hheld, ?_⟩, hc, ?_⟩)
  · rw [Shared.setNext_valueOf]
    exact hv
  · simp

/-- The exchange that makes `push` take effect. -/
theorem keeps_link {v : V} {node : Addr} {oldTop : Tagged} (h : Inv s g)
    (hh : Here i ⟨.link v node oldTop, calls⟩ s g)
    (hround : s.top.tag < oldTop.tag + 2 ^ tagBits) :
    Keeps copyable fail i s g ⟨.link v node oldTop, calls⟩ := by
  obtain ⟨⟨hheld, hv⟩, hc, hnext⟩ := hh.stands
  simp only [Keeps, advance]
  split
  · rename_i hm
    obtain rfl := matching_current hm hc hround
    refine (sound_link h hheld hnext hv).owes h ⟨?_, trivial⟩
    simpa [List.filter_append, Thread.goto, Pc.pending] using hh.calls
  · exact hh.quiet h _ rfl ⟨⟨hheld, hv⟩, Copied.self _⟩

theorem keeps_pushStore {node : Addr} {oldHead : Tagged} {after : After V} (h : Inv s g)
    (hh : Here i ⟨.pushStore node oldHead after, calls⟩ s g) :
    Keeps copyable fail i s g ⟨.pushStore node oldHead after, calls⟩ := by
  obtain ⟨hheld, hc⟩ := hh.stands
  refine (sound_setNext h hheld oldHead).owes h (hh.goto _ rfl rfl ⟨hheld, hc, ?_⟩)
  simp

theorem keeps_pushExchange {node : Addr} {oldHead : Tagged} {after : After V} (h : Inv s g)
    (hh : Here i ⟨.pushExchange node oldHead after, calls⟩ s g)
    (hround : s.freeHead.tag < oldHead.tag + 2 ^ tagBits) :
    Keeps copyable fail i s g ⟨.pushExchange node oldHead after, calls⟩ := by
  obtain ⟨hheld, hc, hnext⟩ := hh.stands
  simp only [Keeps, advance]
  split
  · rename_i hm
    obtain rfl := matching_current hm hc hround
    have hsound := sound_push h hheld hnext
    cases after <;> exact hsound.owes h (hh.goto _ rfl rfl trivial)
  · exact hh.quiet h _ rfl ⟨hheld, Copied.self _⟩

/-- An iteration of `try_pop` starts with the top as it is. -/
theorem Here.tryPop (hh : Here i t s g) (h : Inv s g) (hp : t.pc.pending s = []) :
    Continues i s g (TreiberStack.tryPop t s.top) s := by
  simp only [TreiberStack.tryPop]
  split
  · rename_i hn
    refine (sound_miss h i hn).owes h ⟨?_, trivial⟩
    have hcalls := hh.calls
    rw [hp, List.append_nil] at hcalls
    simp [List.filter_append, hcalls, Thread.finish, Pc.pending]
  · rename_i hn
    exact hh.quiet h _ hp.symm ⟨hn, Copied.self _⟩

theorem keeps_loadNext {oldTop : Tagged} (h : Inv s g) (hh : Here i ⟨.loadNext oldTop, calls⟩ s g) :
    Keeps copyable fail i s g ⟨.loadNext oldTop, calls⟩ := by
  obtain ⟨hn, hc⟩ := hh.stands
  cases copyable <;> exact hh.quiet h _ rfl ⟨hn, hc, fun _ => rfl⟩

theorem keeps_checkValue {oldTop next : Tagged} (h : Inv s g)
    (hh : Here i ⟨.checkValue oldTop next, calls⟩ s g) :
    Keeps copyable fail i s g ⟨.checkValue oldTop next, calls⟩ := by
  simp only [Keeps, advance]
  split
  · exact hh.quiet h _ rfl hh.stands
  · exact hh.quiet h _ rfl trivial

/-- The exchange of `top_` for copyable types: the copy is the value taken. -/
theorem keeps_takeCopied {oldTop next : Tagged} {value : Option V} (h : Inv s g)
    (hh : Here i ⟨.takeCopied oldTop next value, calls⟩ s g)
    (hround : s.top.tag < oldTop.tag + 2 ^ tagBits) :
    Keeps copyable fail i s g ⟨.takeCopied oldTop next value, calls⟩ := by
  obtain ⟨⟨hn, hc, hnext⟩, hvalue⟩ := hh.stands
  simp only [Keeps, advance]
  split
  · rename_i hm
    obtain rfl := matching_current hm hc hround
    obtain ⟨_, v, _, _, _, _, hv, _⟩ := h.first hn
    have hcopy : value = some v := by rw [← hvalue rfl, hv, Slot.content]
    rw [← hnext rfl]
    refine (sound_take h i hn hv).owes h ⟨?_, ?_⟩
    · simpa [List.filter_append, Thread.goto, Pc.pending, After.pending, hcopy] using hh.calls
    · simp [Thread.goto, At]
  · exact hh.tryPop h rfl

/-- The exchange of `top_` for move-only types: the value is taken, but still in its node. -/
theorem keeps_takeUnread {oldTop next : Tagged} (h : Inv s g)
    (hh : Here i ⟨.takeUnread oldTop next, calls⟩ s g)
    (hround : s.top.tag < oldTop.tag + 2 ^ tagBits) :
    Keeps copyable fail i s g ⟨.takeUnread oldTop next, calls⟩ := by
  obtain ⟨hn, hc, hnext⟩ := hh.stands
  simp only [Keeps, advance]
  split
  · rename_i hm
    obtain rfl := matching_current hm hc hround
    obtain ⟨_, v, _, _, _, _, hv, _⟩ := h.first hn
    rw [← hnext rfl]
    refine (sound_take h i hn hv).owes h ⟨?_, v, ?_, hv⟩
    · have hcontent : (s.valueOf s.top.ptr).content = some v := by rw [hv, Slot.content]
      have hcalls := hh.calls
      simp only [Pc.pending, List.append_nil] at hcalls
      rw [List.filter_append, List.map_append, hcalls]
      change _ = calls ++ [Event.popped (s.valueOf s.top.ptr).content]
      simp [hcontent]
    · simp
  · exact hh.tryPop h rfl

theorem keeps_recheckValue {node : Addr} (h : Inv s g)
    (hh : Here i ⟨.recheckValue node, calls⟩ s g) :
    Keeps copyable fail i s g ⟨.recheckValue node, calls⟩ := by
  obtain ⟨v, hfilled⟩ := hh.stands
  simp only [Keeps, advance, hfilled.2, Slot.hasValue, if_true]
  exact hh.quiet h _ rfl ⟨v, hfilled⟩

theorem keeps_moveValue {node : Addr} (h : Inv s g) (hh : Here i ⟨.moveValue node, calls⟩ s g) :
    Keeps copyable fail i s g ⟨.moveValue node, calls⟩ := by
  obtain ⟨v, hheld, hv⟩ := hh.stands
  exact (sound_setValue h hheld .movedFrom).owes h ⟨hh.calls, hheld⟩

/-- One case per program point. -/
theorem keeps_advance (h : Inv s g) (hh : Here i t s g)
    (hround : ∀ word expected, t.pc.exchanges s = some (word, expected) →
      word.tag < expected.tag + 2 ^ tagBits) : Keeps copyable fail i s g t := by
  obtain ⟨pc, calls⟩ := t
  cases pc with
  | idle => exact (sound_refl h i).owes h hh
  | popLoad => exact hh.quiet h _ rfl (Copied.self _)
  | popNext => exact keeps_popNext h hh
  | popExchange => exact keeps_popExchange h hh (hround _ _ rfl)
  | popReset v node =>
    have hheld : g.place node = .held i := hh.stands
    exact (sound_setNext h hheld nullWord).owes h (hh.goto _ rfl rfl hheld)
  | emplace v node =>
    have hheld : g.place node = .held i := hh.stands
    exact (sound_setValue h hheld .empty).owes h (hh.goto _ rfl rfl hheld)
  | construct => exact keeps_construct h hh
  | loadTop => exact hh.quiet h _ rfl ⟨hh.stands, Copied.self _⟩
  | storeNext => exact keeps_storeNext h hh
  | link => exact keeps_link h hh (hround _ _ rfl)
  | pushLoad => exact hh.quiet h _ rfl ⟨hh.stands, Copied.self _⟩
  | pushStore => exact keeps_pushStore h hh
  | pushExchange => exact keeps_pushExchange h hh (hround _ _ rfl)
  | loadOldTop => exact hh.tryPop h rfl
  | loadNext => exact keeps_loadNext h hh
  | countUp | countDown =>
    refine (sound_size h i _).owes h ⟨?_, trivial⟩
    simpa [advance, Thread.finish, Pc.pending] using hh.calls
  | checkValue => exact keeps_checkValue h hh
  | copyValue => exact hh.quiet h _ rfl ⟨hh.stands, fun _ => rfl⟩
  | takeCopied => exact keeps_takeCopied h hh (hround _ _ rfl)
  | takeUnread => exact keeps_takeUnread h hh (hround _ _ rfl)
  | recheckValue => exact keeps_recheckValue h hh
  | moveValue => exact keeps_moveValue h hh

/-- A call starts. -/
theorem keeps_call (h : Inv s g) (hh : Here i t s g) {m : Move V} (hm : ∀ fail, m ≠ .access fail) :
    Continues i s g (step copyable s t m).2 (step copyable s t m).1 := by
  obtain ⟨pc, calls⟩ := t
  cases m with
  | push | tryPop =>
    cases pc with
    | idle => exact hh.quiet h _ rfl trivial
    | _ => exact (sound_refl h i).owes h hh
  | access fail => exact absurd rfl (hm fail)

end Steps

section Runs
variable {s : Shared V} {g : Ghost I V}

theorem Inv.contents_eq (h : Inv s g) : s.contents = g.values.map some := by
  have hwalk : walk s.nextOf 0 s.allocated s.top.ptr = g.stack := by
    refine h.path.walk_eq ?_
    have hsub : g.stack ⊆ (List.range s.allocated).map (· + 1) := by
      intro (a : Nat) ha
      have hout : ¬ (a = 0 ∨ s.allocated < a) := by
        intro hout
        have hfresh := (h.fresh a).mpr hout
        rw [(h.stacked a).mp ha] at hfresh
        cases hfresh
      have hpos : 1 ≤ a := by omega
      exact List.mem_map.mpr ⟨a - 1, List.mem_range.mpr (by omega), Nat.sub_add_cancel hpos⟩
    simpa using (List.subperm_of_subset h.distinct hsub).length_le
  have hcontent : g.stack.map (fun a => (s.valueOf a).content) =
      (g.stack.map s.valueOf).map Slot.content := by
    rw [List.map_map]
    rfl
  rw [Shared.contents, hwalk, hcontent, h.values, List.map_map]
  rfl

variable {n : Nat}

theorem start_holds (n : Nat) (V : Type) :
    (outline (Fin n) V).Holds (start n V) ⟨fun _ => .fresh, [], [], [], []⟩ := by
  refine ⟨⟨rfl, rfl, by simp, by simp, ?_, List.nodup_nil, List.nodup_nil, rfl, .empty⟩, ?_⟩
  · intro (a : Nat)
    simp only [start, true_iff]
    omega
  · exact fun i => ⟨rfl, trivial⟩

/-- A thread makes some accesses in a row. -/
def accesses {n : Nat} (i : Fin n) (k : Nat) : List (Fin n × Move V) :=
  List.replicate k (i, .access false)

end Runs

end Cppforge.Concurrent.TreiberStack
