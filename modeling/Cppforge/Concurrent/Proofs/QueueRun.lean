import Cppforge.Concurrent.Proofs.QueueEffects
import Mathlib.Data.List.Perm.Subperm

namespace Cppforge.Concurrent.MichaelScottQueue
open Interleave Links

section Observations
variable {V : Type}

/-- The value of a call of `enqueue` that has linked its node and not yet returned. -/
def Pc.linked : Pc V → List V
  | .countUp value _ _ | .swingTail value _ _ => [value]
  | _ => []

def After.delivered : After V → List (Option V)
  | .rethrow => []
  | .deliver value => [value]

/-- The value of a call of `try_dequeue` that has won `head_` and not yet returned. -/
def Pc.taken (s : Shared V) : Pc V → List (Option V)
  | .pushLoad _ after | .pushStore _ _ after | .pushExchange _ _ after => after.delivered
  | .countDown value => [value]
  | .recheckValue _ next | .moveValue _ next => [(s.valueOf next.ptr).content]
  | _ => []

/-- The node a thread has won and still has to move the value from. -/
def Pc.moves : Pc V → Option Addr
  | .recheckValue _ next | .moveValue _ next => some next.ptr
  | _ => none

variable {n : Nat}

/-- A linking exchange that would succeed has its node in the queue, and a value
is put in a node only if no thread has yet to move the old value from it. -/
def harmless (c : Queue n V) (m : Fin n × Move V) : Bool :=
  match m.2, (c.locals m.1).pc with
  | .access false, .link _ _ tail =>
    (c.shared.nodes tail.ptr).next != nullWord || c.shared.reachable.contains tail.ptr
  | .access _, .emplace _ node => decide (∀ i, (c.locals i).pc.moves ≠ some node)
  | _, _ => true

/-- Nothing is lost, doubled or reordered: the values linked are, in this order, the
values taken and the values in the queue; a producer's values are linked in the order
of its calls, and a consumer returns the values it takes. -/
def Conserved (c : Queue n V) : Prop :=
  ∃ links takes : List (Fin n × V),
    links.map (fun e => some e.2) = takes.map (fun e => some e.2) ++ c.shared.contents ∧
    (∀ i, (links.filter (fun e => e.1 = i)).map Prod.snd =
      (c.locals i).enqueued ++ (c.locals i).pc.linked) ∧
    ∀ i, (takes.filter (fun e => e.1 = i)).map (fun e => some e.2) =
      (c.locals i).returned ++ (c.locals i).pc.taken c.shared

end Observations

section Assertions
variable {I V : Type} [DecidableEq I] {i : I} {s s' : Shared V} {g g' : Ghost I V}

/-- A node taken out of the pool or newly made. -/
def Blank (i : I) (s : Shared V) (g : Ghost I V) (n : Addr) : Prop :=
  g.place n = .held i ∧ s.nextOf n = 0

/-- A node ready to be linked. -/
def Filled (i : I) (s : Shared V) (g : Ghost I V) (v : V) (n : Addr) : Prop :=
  Blank i s g n ∧ g.mover n = none ∧ s.valueOf n = .full v

/-- A copy of `tail_`, whose node has the successor `m` if it is current. -/
def Lagging (s : Shared V) (tail : Tagged) (m : Addr) : Prop :=
  m ≠ 0 ∧ Copied s.tail tail ∧ (s.tail = tail → s.nextOf tail.ptr = m)

/-- A copy of `head_`; if it is current, `tail_` is not there and `m` comes next. -/
def Ahead (s : Shared V) (head : Tagged) (m : Addr) : Prop :=
  Copied s.head head ∧ (s.head = head → m ≠ 0 ∧ s.tail.ptr ≠ head.ptr ∧ s.nextOf head.ptr = m)

theorem Blank.stable {n : Addr} (h : Blank i s g n) (hr : Rely i s g s' g') : Blank i s' g' n := by
  obtain ⟨hp, hn⟩ := hr.held n h.1
  exact ⟨hp, hn.trans h.2⟩

theorem Filled.stable {v : V} {n : Addr} (h : Filled i s g v n) (hr : Rely i s g s' g') :
    Filled i s' g' v n := by
  obtain ⟨hb, hm, hv⟩ := h
  obtain ⟨hm', hv'⟩ := hr.filled n hb.1 hm
  exact ⟨hb.stable hr, hm', hv'.trans hv⟩

theorem Lagging.stable {tail : Tagged} {m : Addr} (h : Lagging s tail m)
    (hr : Rely i s g s' g') : Lagging s' tail m := by
  obtain ⟨hm, hc, hnext⟩ := h
  refine ⟨hm, hc.advances hr.tail, ?_⟩
  intro he
  obtain ⟨hcur, hsame⟩ := hc.current hr.tail he
  have hn := hnext hcur
  rw [← hcur] at hn ⊢
  exact (hr.tailLink hsame (hn ▸ hm)).trans hn

theorem Ahead.stable {head : Tagged} {m : Addr} (h : Ahead s head m) (hr : Rely i s g s' g') :
    Ahead s' head m := by
  obtain ⟨hc, hcur⟩ := h
  refine ⟨hc.advances hr.head, ?_⟩
  intro he
  obtain ⟨rfl, hsame⟩ := hc.current hr.head he
  obtain ⟨hm, hne, hn⟩ := hcur rfl
  exact ⟨hm, hr.gap hsame hne, (hr.headLink hsame (hn ▸ hm)).1.trans hn⟩

/-- What holds where a thread stands. -/
def At (i : I) (s : Shared V) (g : Ghost I V) : Pc V → Prop
  | .idle | .popLoad _ | .loadHead | .countDown _ => True
  | .popNext _ oldHead => Copied s.freeHead oldHead
  | .popExchange _ oldHead next =>
    oldHead.ptr ≠ 0 ∧ Copied s.freeHead oldHead ∧
      (s.freeHead = oldHead → s.nextOf oldHead.ptr = next.ptr)
  | .popReset _ node => g.place node = .held i
  | .emplace _ node => Blank i s g node
  | .construct _ node => Blank i s g node ∧ g.mover node = none
  | .loadTail value node => Filled i s g value node
  | .loadTailNext value node tail => Filled i s g value node ∧ Copied s.tail tail
  | .checkTail value node tail next =>
    Filled i s g value node ∧ (next.ptr ≠ 0 → Lagging s tail next.ptr) ∧ Copied s.tail tail
  | .link value node tail => Filled i s g value node ∧ Copied s.tail tail
  | .countUp _ node tail | .swingTail _ node tail => Lagging s tail node
  | .helpEnqueue value node tail next => Filled i s g value node ∧ Lagging s tail next.ptr
  | .pushLoad node _ => g.place node = .held i
  | .pushStore node oldHead _ => g.place node = .held i ∧ Copied s.freeHead oldHead
  | .pushExchange node oldHead _ =>
    g.place node = .held i ∧ Copied s.freeHead oldHead ∧ s.nextOf node = oldHead.ptr
  | .loadHeadTail head => Copied s.head head
  | .loadHeadNext head tail =>
    Copied s.head head ∧ Copied s.tail tail ∧
      (tail.ptr ≠ head.ptr → s.head = head → s.tail.ptr ≠ head.ptr)
  | .checkHead head tail next =>
    (tail.ptr ≠ head.ptr → Ahead s head next.ptr) ∧
      (tail.ptr = head.ptr → next.ptr ≠ 0 → Lagging s tail next.ptr)
  | .helpDequeue tail next => Lagging s tail next.ptr
  | .checkValue head next | .copyValue head next | .takeUnread head next => Ahead s head next.ptr
  | .takeCopied head next value =>
    Ahead s head next.ptr ∧ (s.head = head → (s.valueOf next.ptr).content = value)
  | .recheckValue head next | .moveValue head next =>
    g.place head.ptr = .held i ∧ ∃ v, s.valueOf next.ptr = .full v

/-- The assertion of a thread: its calls' values, the node it has to move a value
from, and what holds where it stands. -/
structure Here (i : I) (t : Thread V) (s : Shared V) (g : Ghost I V) : Prop where
  links : (g.links.filter (fun e => e.1 = i)).map Prod.snd = t.enqueued ++ t.pc.linked
  takes : (g.takes.filter (fun e => e.1 = i)).map (fun e => some e.2) =
    t.returned ++ t.pc.taken s
  mover : ∀ a, g.mover a = some i ↔ t.pc.moves = some a
  stands : At i s g t.pc

theorem At.stable {pc : Pc V} (h : At i s g pc) (hr : Rely i s g s' g')
    (hm : ∀ a, pc.moves = some a → g.mover a = some i) : At i s' g' pc := by
  cases pc with
  | idle | popLoad | loadHead | countDown => trivial
  | popNext => exact Copied.advances h hr.free
  | popExchange v oldHead next =>
    obtain ⟨hn, hc, hnext⟩ := h
    refine ⟨hn, hc.advances hr.free, ?_⟩
    intro he
    obtain ⟨rfl, hsame⟩ := hc.current hr.free he
    exact (hr.poolLink hsame hn).trans (hnext rfl)
  | popReset | pushLoad => exact (hr.held _ h).1
  | emplace => exact Blank.stable h hr
  | construct => exact ⟨h.1.stable hr, (hr.filled _ h.1.1 h.2).1⟩
  | loadTail => exact Filled.stable h hr
  | loadTailNext | link => exact ⟨h.1.stable hr, h.2.advances hr.tail⟩
  | checkTail =>
    exact ⟨h.1.stable hr, fun hn => (h.2.1 hn).stable hr, h.2.2.advances hr.tail⟩
  | countUp | swingTail | helpDequeue => exact Lagging.stable h hr
  | helpEnqueue => exact ⟨h.1.stable hr, h.2.stable hr⟩
  | pushStore => exact ⟨(hr.held _ h.1).1, h.2.advances hr.free⟩
  | pushExchange =>
    obtain ⟨hp, hn⟩ := hr.held _ h.1
    exact ⟨hp, h.2.1.advances hr.free, hn.trans h.2.2⟩
  | loadHeadTail => exact Copied.advances h hr.head
  | loadHeadNext head tail =>
    obtain ⟨hc, hc', hgap⟩ := h
    refine ⟨hc.advances hr.head, hc'.advances hr.tail, ?_⟩
    intro hne he
    obtain ⟨rfl, hsame⟩ := hc.current hr.head he
    exact hr.gap hsame (hgap hne rfl)
  | checkHead => exact ⟨fun hne => (h.1 hne).stable hr, fun he hn => (h.2 he hn).stable hr⟩
  | checkValue | copyValue | takeUnread => exact Ahead.stable h hr
  | takeCopied head next v =>
    obtain ⟨hahead, hv⟩ := h
    refine ⟨hahead.stable hr, ?_⟩
    intro he
    obtain ⟨rfl, hsame⟩ := hahead.1.current hr.head he
    obtain ⟨hm, _, hn⟩ := hahead.2 rfl
    rw [← hn, (hr.headLink hsame (hn ▸ hm)).2, hn]
    exact hv rfl
  | recheckValue head next | moveValue head next =>
    obtain ⟨hp, v, hv⟩ := h
    exact ⟨(hr.held _ hp).1, v, (hr.moving _ (hm _ rfl)).trans hv⟩

theorem Here.stable {t : Thread V} (h : Here i t s g) (hr : Rely i s g s' g') :
    Here i t s' g' where
  links := by
    rw [hr.links]
    exact h.links
  takes := by
    rw [hr.takes, h.takes]
    congr 1
    -- only a value still to be moved is read from shared memory
    have hmoving : ∀ a, t.pc.moves = some a → s'.valueOf a = s.valueOf a :=
      fun a ha => hr.moving a ((h.mover a).mpr ha)
    cases hpc : t.pc with
    | recheckValue head next | moveValue head next =>
      rw [Pc.taken, Pc.taken, hmoving next.ptr (by rw [hpc]; rfl)]
    | _ => rfl
  mover := fun a => (hr.mover a).trans (h.mover a)
  stands := h.stands.stable hr (fun a ha => (h.mover a).mpr ha)

def outline (I V : Type) [DecidableEq I] : Outline I (Shared V) (Thread V) (Ghost I V) where
  inv := Inv
  here := Here
  rely := Rely
  stable := Here.stable

end Assertions

section Steps
variable {I V : Type} [DecidableEq I] {i : I} {s s' : Shared V} {g g' : Ghost I V}
  {t : Thread V} {enqueued : List V} {returned : List (Option V)} {copyable fail : Bool}

/-- The thread's next access keeps the outline. -/
def Keeps (copyable fail : Bool) (i : I) (s : Shared V) (g : Ghost I V) (t : Thread V) : Prop :=
  ∃ g', (outline I V).Owes i s g (advance copyable s t fail).2 (advance copyable s t fail).1 g'

theorem Sound.owes (hs : Sound i s g s' g') (h : Inv s g) (hh : Here i t s' g') :
    ∃ g', (outline I V).Owes i s g t s' g' :=
  ⟨g', hs.1, hh, fun _ hj => hs.2.rely h hj⟩

/-- A step inside a call, between its exchanges. -/
theorem Here.goto (h : Here i t s g) (pc : Pc V) (hl : pc.linked = t.pc.linked)
    (ht : pc.taken s' = t.pc.taken s) (hm : pc.moves = t.pc.moves) (hlinks : g'.links = g.links)
    (htakes : g'.takes = g.takes) (hmover : g'.mover = g.mover) (hat : At i s' g' pc) :
    Here i (t.goto pc) s' g' where
  links := by
    rw [hlinks, h.links]
    simp only [Thread.goto, hl]
  takes := by
    rw [htakes, h.takes]
    simp only [Thread.goto, ht]
  mover := by
    intro a
    rw [hmover, h.mover]
    simp only [Thread.goto, hm]
  stands := hat

/-- A step that only reads. -/
theorem Here.quiet (hh : Here i t s g) (h : Inv s g) (pc : Pc V) (hl : pc.linked = t.pc.linked)
    (ht : pc.taken s = t.pc.taken s) (hm : pc.moves = t.pc.moves) (hat : At i s g pc) :
    ∃ g', (outline I V).Owes i s g (t.goto pc) s g' :=
  (sound_refl h i).owes h (hh.goto pc hl ht hm rfl rfl rfl hat)

theorem keeps_popNext {v : V} {oldHead : Tagged} (h : Inv s g)
    (hh : Here i ⟨.popNext v oldHead, enqueued, returned⟩ s g) :
    Keeps copyable fail i s g ⟨.popNext v oldHead, enqueued, returned⟩ := by
  simp only [Keeps, advance]
  split
  · refine (sound_alloc h i).owes h (hh.goto _ rfl rfl rfl rfl rfl rfl ⟨?_, ?_⟩)
    · simp
    · simp [Shared.nextOf, nullWord]
  · rename_i hn
    exact hh.quiet h _ rfl rfl rfl ⟨hn, hh.stands, fun _ => rfl⟩

theorem keeps_popExchange {v : V} {oldHead next : Tagged} (h : Inv s g)
    (hh : Here i ⟨.popExchange v oldHead next, enqueued, returned⟩ s g) :
    Keeps copyable fail i s g ⟨.popExchange v oldHead next, enqueued, returned⟩ := by
  obtain ⟨hn, _, hnext⟩ := hh.stands
  simp only [Keeps, advance]
  split
  · rename_i hc
    simp only [Bool.and_eq_true, decide_eq_true_eq] at hc
    obtain ⟨-, rfl⟩ := hc
    rw [← hnext rfl]
    refine (sound_pop h i hn).owes h (hh.goto _ rfl rfl rfl rfl rfl rfl ?_)
    simp [At]
  · exact hh.quiet h _ rfl rfl rfl (Copied.self _)

theorem keeps_popReset {v : V} {node : Addr} (h : Inv s g)
    (hh : Here i ⟨.popReset v node, enqueued, returned⟩ s g) :
    Keeps copyable fail i s g ⟨.popReset v node, enqueued, returned⟩ := by
  have hheld : g.place node = .held i := hh.stands
  refine (sound_setNext h hheld nullWord).owes h (hh.goto _ rfl rfl rfl rfl rfl rfl ⟨hheld, ?_⟩)
  simp [nullWord]

theorem keeps_emplace {v : V} {node : Addr} (h : Inv s g)
    (hh : Here i ⟨.emplace v node, enqueued, returned⟩ s g) (hm : g.mover node = none) :
    Keeps copyable fail i s g ⟨.emplace v node, enqueued, returned⟩ := by
  obtain ⟨hheld, hnext⟩ := hh.stands
  refine (sound_setValue h hheld hm .empty).owes h
    (hh.goto _ rfl rfl rfl rfl rfl rfl ⟨⟨hheld, ?_⟩, hm⟩)
  rw [Shared.setValue_nextOf]
  exact hnext

theorem keeps_construct {v : V} {node : Addr} (h : Inv s g)
    (hh : Here i ⟨.construct v node, enqueued, returned⟩ s g) :
    Keeps copyable fail i s g ⟨.construct v node, enqueued, returned⟩ := by
  obtain ⟨⟨hheld, hnext⟩, hm⟩ := hh.stands
  simp only [Keeps, advance]
  split
  · exact hh.quiet h _ rfl rfl rfl hheld
  · refine (sound_setValue h hheld hm (.full v)).owes h
      (hh.goto _ rfl rfl rfl rfl rfl rfl ⟨⟨hheld, ?_⟩, hm, ?_⟩)
    · rw [Shared.setValue_nextOf]
      exact hnext
    · simp

theorem keeps_checkTail {v : V} {node : Addr} {tail next : Tagged} (h : Inv s g)
    (hh : Here i ⟨.checkTail v node tail next, enqueued, returned⟩ s g) :
    Keeps copyable fail i s g ⟨.checkTail v node tail next, enqueued, returned⟩ := by
  obtain ⟨hfilled, hlag, hc⟩ := hh.stands
  simp only [Keeps, advance]
  split
  · split
    · exact hh.quiet h _ rfl rfl rfl ⟨hfilled, hc⟩
    · rename_i hn
      exact hh.quiet h _ rfl rfl rfl ⟨hfilled, hlag hn⟩
  · exact hh.quiet h _ rfl rfl rfl hfilled

/-- The linking exchange. Its copy of `tail_` may be old, but its node is in the
queue and has no successor. -/
theorem keeps_link {v : V} {node : Addr} {tail : Tagged} (h : Inv s g)
    (hh : Here i ⟨.link v node tail, enqueued, returned⟩ s g)
    (hmem : fail = false → (s.nodes tail.ptr).next = nullWord →
      tail.ptr ∈ s.head.ptr :: g.rest) :
    Keeps copyable fail i s g ⟨.link v node tail, enqueued, returned⟩ := by
  obtain ⟨hfilled, hc⟩ := hh.stands
  obtain ⟨⟨hheld, hnext⟩, hm, hv⟩ := hfilled
  simp only [Keeps, advance]
  split
  · rename_i hcas
    simp only [Bool.and_eq_true, Bool.not_eq_true', decide_eq_true_eq] at hcas
    have hend : s.nextOf tail.ptr = 0 := by rw [Shared.nextOf, hcas.2, nullWord]
    have hsound := sound_link h (hmem hcas.1 hcas.2) hend hheld hnext hm hv
    refine hsound.owes h ⟨?_, hh.takes, hh.mover, h.held_ne_zero hheld, hc, ?_⟩
    · simpa [List.filter_append, Thread.goto, Pc.linked] using hh.links
    · intro _
      simp
  · exact hh.quiet h _ rfl rfl rfl ⟨⟨hheld, hnext⟩, hm, hv⟩

/-- An exchange that moves `tail_` on, by whichever thread. -/
theorem sound_advance {tail : Tagged} {m : Addr} (h : Inv s g) (i : I) (hlag : Lagging s tail m)
    (fail : Bool) :
    Sound i s g
      (if !fail && s.tail = tail then { s with tail := ⟨m, tail.tag + 1⟩ } else s) g := by
  obtain ⟨hm, _, hnext⟩ := hlag
  split
  · rename_i hcas
    simp only [Bool.and_eq_true, decide_eq_true_eq] at hcas
    obtain ⟨-, rfl⟩ := hcas
    have hn := hnext rfl
    rw [← hn] at hm ⊢
    exact sound_swing h i hm
  · exact sound_refl h i

theorem keeps_countUp {v : V} {node : Addr} {tail : Tagged} (h : Inv s g)
    (hh : Here i ⟨.countUp v node tail, enqueued, returned⟩ s g) :
    Keeps copyable fail i s g ⟨.countUp v node tail, enqueued, returned⟩ :=
  (sound_size h i _).owes h (hh.goto _ rfl rfl rfl rfl rfl rfl hh.stands)

theorem keeps_swingTail {v : V} {node : Addr} {tail : Tagged} (h : Inv s g)
    (hh : Here i ⟨.swingTail v node tail, enqueued, returned⟩ s g) :
    Keeps copyable fail i s g ⟨.swingTail v node tail, enqueued, returned⟩ := by
  refine (sound_advance h i hh.stands fail).owes h ⟨?_, hh.takes, hh.mover, trivial⟩
  simpa [advance, Pc.linked] using hh.links

theorem keeps_helpEnqueue {v : V} {node : Addr} {tail next : Tagged} (h : Inv s g)
    (hh : Here i ⟨.helpEnqueue v node tail next, enqueued, returned⟩ s g) :
    Keeps copyable fail i s g ⟨.helpEnqueue v node tail next, enqueued, returned⟩ := by
  obtain ⟨hfilled, hlag⟩ := hh.stands
  refine (sound_advance h i hlag fail).owes h (hh.goto _ rfl rfl rfl rfl rfl rfl ?_)
  split <;> exact hfilled

theorem keeps_helpDequeue {tail next : Tagged} (h : Inv s g)
    (hh : Here i ⟨.helpDequeue tail next, enqueued, returned⟩ s g) :
    Keeps copyable fail i s g ⟨.helpDequeue tail next, enqueued, returned⟩ :=
  (sound_advance h i hh.stands fail).owes h (hh.goto _ rfl rfl rfl rfl rfl rfl trivial)

theorem keeps_pushStore {node : Addr} {oldHead : Tagged} {after : After V} (h : Inv s g)
    (hh : Here i ⟨.pushStore node oldHead after, enqueued, returned⟩ s g) :
    Keeps copyable fail i s g ⟨.pushStore node oldHead after, enqueued, returned⟩ := by
  obtain ⟨hheld, hc⟩ := hh.stands
  refine (sound_setNext h hheld oldHead).owes h
    (hh.goto _ rfl rfl rfl rfl rfl rfl ⟨hheld, hc, ?_⟩)
  simp

theorem keeps_pushExchange {node : Addr} {oldHead : Tagged} {after : After V} (h : Inv s g)
    (hh : Here i ⟨.pushExchange node oldHead after, enqueued, returned⟩ s g) :
    Keeps copyable fail i s g ⟨.pushExchange node oldHead after, enqueued, returned⟩ := by
  obtain ⟨hheld, hc, hnext⟩ := hh.stands
  simp only [Keeps, advance]
  split
  · rename_i hcas
    simp only [Bool.and_eq_true, decide_eq_true_eq] at hcas
    obtain ⟨-, rfl⟩ := hcas
    have hsound := sound_push h hheld hnext
    cases after with
    | rethrow => exact hsound.owes h (hh.goto _ rfl rfl rfl rfl rfl rfl trivial)
    | deliver v => exact hsound.owes h (hh.goto _ rfl rfl rfl rfl rfl rfl trivial)
  · exact hh.quiet h _ rfl rfl rfl ⟨hheld, Copied.self _⟩

theorem keeps_countDown {v : Option V} (h : Inv s g)
    (hh : Here i ⟨.countDown v, enqueued, returned⟩ s g) :
    Keeps copyable fail i s g ⟨.countDown v, enqueued, returned⟩ := by
  refine (sound_size h i _).owes h ⟨hh.links, ?_, hh.mover, trivial⟩
  simpa [advance, Pc.taken] using hh.takes

theorem keeps_loadHeadTail {head : Tagged} (h : Inv s g)
    (hh : Here i ⟨.loadHeadTail head, enqueued, returned⟩ s g) :
    Keeps copyable fail i s g ⟨.loadHeadTail head, enqueued, returned⟩ :=
  hh.quiet h _ rfl rfl rfl ⟨hh.stands, Copied.self _, fun hne _ => hne⟩

theorem keeps_loadHeadNext {head tail : Tagged} (h : Inv s g)
    (hh : Here i ⟨.loadHeadNext head tail, enqueued, returned⟩ s g) :
    Keeps copyable fail i s g ⟨.loadHeadNext head tail, enqueued, returned⟩ := by
  obtain ⟨hc, hct, hgap⟩ := hh.stands
  refine hh.quiet h _ rfl rfl rfl ⟨?_, ?_⟩
  · intro hne
    refine ⟨hc, ?_⟩
    intro he
    subst he
    exact ⟨h.head_next (hgap hne rfl), hgap hne rfl, rfl⟩
  · intro he hn
    refine ⟨hn, hct, ?_⟩
    intro _
    rw [he]
    rfl

theorem keeps_checkHead {head tail next : Tagged} (h : Inv s g)
    (hh : Here i ⟨.checkHead head tail next, enqueued, returned⟩ s g) :
    Keeps copyable fail i s g ⟨.checkHead head tail next, enqueued, returned⟩ := by
  obtain ⟨hahead, hlag⟩ := hh.stands
  simp only [Keeps, advance]
  split
  · split
    · rename_i he
      split
      · exact hh.quiet h _ rfl rfl rfl trivial
      · rename_i hn
        exact hh.quiet h _ rfl rfl rfl (hlag he.symm hn)
    · rename_i hne
      split
      · exact hh.quiet h _ rfl rfl rfl (hahead (Ne.symm hne))
      · exact hh.quiet h _ rfl rfl rfl (hahead (Ne.symm hne))
  · exact hh.quiet h _ rfl rfl rfl trivial

omit [DecidableEq I] in
/-- What is next to take is full when the copy of `head_` is still current. -/
theorem Ahead.full {m : Addr} (hahead : Ahead s s.head m) (h : Inv s g) :
    s.tail.ptr ≠ s.head.ptr ∧ s.nextOf s.head.ptr = m ∧
      ∃ v, s.valueOf (s.nextOf s.head.ptr) = .full v := by
  obtain ⟨hm, hne, hn⟩ := hahead.2 rfl
  rw [← hn] at hm
  exact ⟨hne, hn, h.second_full hm⟩

/-- The exchange of `head_` for copyable types: the copy is the value taken. -/
theorem keeps_takeCopied {head next : Tagged} {value : Option V} (h : Inv s g)
    (hh : Here i ⟨.takeCopied head next value, enqueued, returned⟩ s g) :
    Keeps copyable fail i s g ⟨.takeCopied head next value, enqueued, returned⟩ := by
  obtain ⟨hahead, hvalue⟩ := hh.stands
  simp only [Keeps, advance]
  split
  · rename_i hcas
    simp only [Bool.and_eq_true, decide_eq_true_eq] at hcas
    obtain ⟨-, rfl⟩ := hcas
    obtain ⟨hne, hn, v, hv⟩ := hahead.full h
    have hcopy : value = some v := by
      rw [← hvalue rfl, ← hn, hv, Slot.content]
    rw [← hn]
    refine (sound_take h i hne hv (.inl rfl)).owes h ⟨hh.links, ?_, hh.mover, ?_⟩
    · simpa [List.filter_append, Thread.goto, Pc.taken, After.delivered, hcopy] using hh.takes
    · simp [Thread.goto, At]
  · exact hh.quiet h _ rfl rfl rfl trivial

/-- The exchange of `head_` for move-only types: the value is taken, but still in its node. -/
theorem keeps_takeUnread {head next : Tagged} (h : Inv s g)
    (hh : Here i ⟨.takeUnread head next, enqueued, returned⟩ s g) :
    Keeps copyable fail i s g ⟨.takeUnread head next, enqueued, returned⟩ := by
  have hahead := hh.stands
  simp only [Keeps, advance]
  split
  · rename_i hcas
    simp only [Bool.and_eq_true, decide_eq_true_eq] at hcas
    obtain ⟨-, rfl⟩ := hcas
    obtain ⟨hne, hn, v, hv⟩ := hahead.full h
    rw [← hn]
    refine (sound_take h i hne hv (.inr rfl)).owes h ⟨hh.links, ?_, ?_, ?_, v, ?_⟩
    · have hread : s.valueOf next.ptr = .full v := hn ▸ hv
      have htakes := hh.takes
      simp only [Pc.taken, List.append_nil] at htakes
      rw [List.filter_append, List.map_append, htakes]
      change _ = returned ++ [(s.valueOf next.ptr).content]
      simp [hread, Slot.content]
    · intro a
      have hnone := hh.mover a
      simp only [Pc.moves, reduceCtorEq, iff_false] at hnone
      simp only [Thread.goto, Pc.moves, Option.some.injEq, hn]
      by_cases ha : a = next.ptr
      · simp [ha]
      · simp [Function.update_of_ne ha, hnone, Ne.symm ha]
    · simp
    · exact hn ▸ hv
  · exact hh.quiet h _ rfl rfl rfl trivial

theorem keeps_recheckValue {head next : Tagged} (h : Inv s g)
    (hh : Here i ⟨.recheckValue head next, enqueued, returned⟩ s g) :
    Keeps copyable fail i s g ⟨.recheckValue head next, enqueued, returned⟩ := by
  obtain ⟨hheld, v, hv⟩ := hh.stands
  simp only [Keeps, advance, hv, Slot.hasValue, if_true]
  exact hh.quiet h _ rfl rfl rfl ⟨hheld, v, hv⟩

theorem keeps_moveValue {head next : Tagged} (h : Inv s g)
    (hh : Here i ⟨.moveValue head next, enqueued, returned⟩ s g) :
    Keeps copyable fail i s g ⟨.moveValue head next, enqueued, returned⟩ := by
  obtain ⟨hheld, v, hv⟩ := hh.stands
  have hm := (hh.mover next.ptr).mpr rfl
  refine (sound_move h hm).owes h ⟨hh.links, hh.takes, ?_, hheld⟩
  intro a
  have hmover := hh.mover a
  simp only [Pc.moves, Option.some.injEq] at hmover
  simp only [advance, Thread.goto, Pc.moves, reduceCtorEq, iff_false]
  by_cases ha : a = next.ptr
  · simp [ha]
  · rw [Function.update_of_ne ha, hmover]
    exact Ne.symm ha

/-- One case per program point. -/
theorem keeps_advance (h : Inv s g) (hh : Here i t s g)
    (hlink : ∀ v node tail, t.pc = .link v node tail → fail = false →
      (s.nodes tail.ptr).next = nullWord → tail.ptr ∈ s.head.ptr :: g.rest)
    (hmove : ∀ v node, t.pc = .emplace v node → g.mover node = none) :
    Keeps copyable fail i s g t := by
  obtain ⟨pc, enqueued, returned⟩ := t
  cases pc with
  | idle => exact (sound_refl h i).owes h hh
  | popLoad => exact hh.quiet h _ rfl rfl rfl (Copied.self _)
  | popNext => exact keeps_popNext h hh
  | popExchange => exact keeps_popExchange h hh
  | popReset => exact keeps_popReset h hh
  | emplace v node => exact keeps_emplace h hh (hmove v node rfl)
  | construct => exact keeps_construct h hh
  | loadTail => exact hh.quiet h _ rfl rfl rfl ⟨hh.stands, Copied.self _⟩
  | loadTailNext =>
    obtain ⟨hfilled, hc⟩ := hh.stands
    exact hh.quiet h _ rfl rfl rfl ⟨hfilled, fun hn => ⟨hn, hc, fun _ => rfl⟩, hc⟩
  | checkTail => exact keeps_checkTail h hh
  | link v node tail => exact keeps_link h hh (hlink v node tail rfl)
  | countUp => exact keeps_countUp h hh
  | swingTail => exact keeps_swingTail h hh
  | helpEnqueue => exact keeps_helpEnqueue h hh
  | pushLoad => exact hh.quiet h _ rfl rfl rfl ⟨hh.stands, Copied.self _⟩
  | pushStore => exact keeps_pushStore h hh
  | pushExchange => exact keeps_pushExchange h hh
  | loadHead => exact hh.quiet h _ rfl rfl rfl (Copied.self _)
  | loadHeadTail => exact keeps_loadHeadTail h hh
  | loadHeadNext => exact keeps_loadHeadNext h hh
  | checkHead => exact keeps_checkHead h hh
  | helpDequeue => exact keeps_helpDequeue h hh
  | countDown => exact keeps_countDown h hh
  | checkValue =>
    simp only [Keeps, advance]
    split
    · exact hh.quiet h _ rfl rfl rfl hh.stands
    · exact hh.quiet h _ rfl rfl rfl trivial
  | copyValue => exact hh.quiet h _ rfl rfl rfl ⟨hh.stands, fun _ => rfl⟩
  | takeCopied => exact keeps_takeCopied h hh
  | takeUnread => exact keeps_takeUnread h hh
  | recheckValue => exact keeps_recheckValue h hh
  | moveValue => exact keeps_moveValue h hh

/-- A call starts. -/
theorem keeps_call (h : Inv s g) (hh : Here i t s g) {m : Move V} (hm : ∀ fail, m ≠ .access fail) :
    ∃ g', (outline I V).Owes i s g (step copyable s t m).2 (step copyable s t m).1 g' := by
  obtain ⟨pc, enqueued, returned⟩ := t
  cases m with
  | enqueue v =>
    cases pc with
    | idle => exact hh.quiet h _ rfl rfl rfl trivial
    | _ => exact (sound_refl h i).owes h hh
  | tryDequeue =>
    cases pc with
    | idle => exact hh.quiet h _ rfl rfl rfl trivial
    | _ => exact (sound_refl h i).owes h hh
  | access fail => exact absurd rfl (hm fail)

end Steps

section Runs
variable {I V : Type} {s : Shared V} {g : Ghost I V}

theorem Inv.reachable_eq (h : Inv s g) : s.reachable = s.head.ptr :: g.rest := by
  refine h.path.walk_eq ?_
  have hsub : s.head.ptr :: g.rest ⊆ List.range (s.allocated + 1) := by
    intro a ha
    by_contra hout
    have hfresh := (h.fresh a).mpr (.inr (by simpa [Nat.succ_le_iff] using hout))
    rw [(h.queued a).mp ha] at hfresh
    cases hfresh
  simpa using (List.subperm_of_subset h.distinct hsub).length_le

theorem Inv.contents_eq (h : Inv s g) : s.contents = g.waiting.map some := by
  have hcontent : g.rest.map (fun a => (s.valueOf a).content) =
      (g.rest.map s.valueOf).map Slot.content := by
    rw [List.map_map]
    rfl
  rw [Shared.contents, h.reachable_eq, List.tail_cons, hcontent, h.values, List.map_map]
  rfl

variable {n : Nat}

theorem harmless_keeps (copyable : Bool) (c : Queue n V) (g : Ghost (Fin n) V)
    (m : Fin n × Move V) (h : (outline (Fin n) V).Holds c g) (hm : harmless c m = true) :
    ∃ g', (outline (Fin n) V).Owes m.1 c.shared g
      (step copyable c.shared (c.locals m.1) m.2).2
      (step copyable c.shared (c.locals m.1) m.2).1 g' := by
  obtain ⟨hinv, hhere⟩ := h
  obtain ⟨i, m⟩ := m
  cases m with
  | enqueue v => exact keeps_call hinv (hhere i) (fun _ he => nomatch he)
  | tryDequeue => exact keeps_call hinv (hhere i) (fun _ he => nomatch he)
  | access fail =>
    refine keeps_advance hinv (hhere i) ?_ ?_
    · intro v node tail hpc hfail hnull
      subst hfail
      have hinv' : Inv c.shared g := hinv
      rw [← hinv'.reachable_eq]
      simpa [harmless, hpc, hnull] using hm
    · intro v node hpc
      have hnone : ∀ j, (c.locals j).pc.moves ≠ some node := by
        cases fail <;> simpa [harmless, hpc] using hm
      cases hmover : g.mover node with
      | none => rfl
      | some j => exact absurd (((hhere j).mover node).mp hmover) (hnone j)

theorem start_holds (n : Nat) (V : Type) :
    ∃ g, (outline (Fin n) V).Holds (start n V) g := by
  refine ⟨⟨fun a => if a = 1 then .queued else .fresh, [], [], [], fun _ => none, [], []⟩,
    ⟨?_, ?_, ?_, ?_, ?_, ?_, ?_, ?_, ?_, ?_, ?_, ?_⟩, ?_⟩
  · exact ⟨rfl, Nat.one_ne_zero, rfl⟩
  · exact rfl
  · exact List.mem_cons_self
  · intro a
    by_cases ha : a = 1 <;> simp [start, create, ha]
  · intro a
    by_cases ha : a = 1 <;> simp [ha]
  · intro a
    by_cases ha : a = 1
    · simp [start, create, ha]
    · simp only [start, create, ha, if_false, true_iff]
      omega
  · exact List.nodup_singleton _
  · exact List.nodup_nil
  · rfl
  · exact fun _ _ => rfl
  · exact fun _ _ => rfl
  · rfl
  · intro i
    exact ⟨rfl, rfl, fun a => by simp [start, Pc.moves], trivial⟩

theorem Outline.Holds.conserved {c : Queue n V} {g : Ghost (Fin n) V}
    (h : (outline (Fin n) V).Holds c g) : Conserved c := by
  obtain ⟨hinv, hhere⟩ := h
  refine ⟨g.links, g.takes, ?_, fun i => (hhere i).links, fun i => (hhere i).takes⟩
  have horder := congrArg (List.map some) hinv.order
  rw [List.map_append, List.map_map, List.map_map] at horder
  rw [hinv.contents_eq]
  exact horder

/-- Every run in which no exchange links a node behind one that has left the queue,
and no value is overwritten that a thread has taken and not yet moved. -/
theorem run_conserved (copyable : Bool) (n : Nat) (moves : List (Fin n × Move V))
    (hmoves : allowedRun (step copyable) harmless (start n V) moves = true) :
    Conserved (run (step copyable) (start n V) moves) := by
  obtain ⟨g, hstart⟩ := start_holds n V
  obtain ⟨g', hend⟩ := hstart.run (harmless_keeps copyable) moves hmoves
  exact Outline.Holds.conserved hend

/-- A thread makes some accesses in a row. -/
def accesses {n : Nat} (i : Fin n) (k : Nat) : List (Fin n × Move V) :=
  List.replicate k (i, .access false)

/-- An enqueue and a dequeue that are each overtaken by one of the other thread, and
an enqueue that takes its node from the free pool. -/
def recycled : List (Fin 2 × Move Nat) :=
  (0, .enqueue 7) :: accesses 0 7 ++ (1, .enqueue 8) :: accesses 1 10 ++ accesses 0 7 ++
    (1, .tryDequeue) :: accesses 1 6 ++ (0, .tryDequeue) :: accesses 0 11 ++ accesses 1 12 ++
    (1, .enqueue 9) :: accesses 1 12

theorem run_conserved_recycled : Conserved (run (step true) (start 2 Nat) recycled) :=
  run_conserved true 2 recycled (by decide +kernel)

theorem Conserved.enqueued_kept {c : Queue n V} (h : Conserved c) {i : Fin n} {v : V}
    (hv : v ∈ (c.locals i).enqueued) : some v ∈ c.shared.contents ∨
      ∃ j, some v ∈ (c.locals j).returned ++ (c.locals j).pc.taken c.shared := by
  obtain ⟨links, takes, horder, hlinks, htakes⟩ := h
  have hmem : v ∈ (links.filter (fun e => e.1 = i)).map Prod.snd := by
    rw [hlinks]
    exact List.mem_append_left _ hv
  obtain ⟨e, he, rfl⟩ := List.mem_map.mp hmem
  have hlinked : some e.2 ∈ links.map (fun e => some e.2) :=
    List.mem_map_of_mem (List.mem_of_mem_filter he)
  rw [horder, List.mem_append] at hlinked
  rcases hlinked with htaken | hwaits
  · right
    obtain ⟨d, hd, hde⟩ := List.mem_map.mp htaken
    refine ⟨d.1, ?_⟩
    rw [← htakes, ← hde]
    exact List.mem_map_of_mem (List.mem_filter.mpr ⟨hd, by simp⟩)
  · exact .inl hwaits

/-- Thread 0 stops before it links its node behind the dummy; thread 1 enqueues and
dequeues 8, which puts the dummy into the pool with the link 0; thread 0 goes on and
links its node there. Both are idle then and 7 is nowhere. -/
theorem lost_behind_recycled : ¬ Conserved (run (step true) (start 2 Nat)
    ((0, .enqueue 7) :: accesses 0 7 ++ (1, .enqueue 8) :: accesses 1 10 ++
      (1, .tryDequeue) :: accesses 1 11 ++ accesses 0 3)) := by
  intro h
  have hlost := h.enqueued_kept (i := 0) (v := 7) (by decide +kernel)
  revert hlost
  decide +kernel

end Runs

end Cppforge.Concurrent.MichaelScottQueue
