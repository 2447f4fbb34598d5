import Cppforge.Concurrent.MichaelScottQueue

namespace Cppforge.Concurrent.MichaelScottQueue
open Interleave Links

variable {I V : Type}

namespace Shared
variable (s : Shared V) (node a : Addr)

@[simp] theorem setNext_nextOf (next : Tagged) :
    (s.setNext node next).nextOf = Function.update s.nextOf node next.ptr := by
  funext b
  by_cases hb : b = node
  · subst hb
    simp [nextOf, setNext]
  · simp [nextOf, setNext, Function.update_of_ne hb]

@[simp] theorem setNext_valueOf (next : Tagged) : (s.setNext node next).valueOf = s.valueOf := by
  funext b
  by_cases hb : b = node
  · subst hb
    simp [valueOf, setNext]
  · simp [valueOf, setNext, Function.update_of_ne hb]

@[simp] theorem setValue_nextOf (value : Slot V) : (s.setValue node value).nextOf = s.nextOf := by
  funext b
  by_cases hb : b = node
  · subst hb
    simp [nextOf, setValue]
  · simp [nextOf, setValue, Function.update_of_ne hb]

@[simp] theorem setValue_valueOf (value : Slot V) :
    (s.setValue node value).valueOf = Function.update s.valueOf node value := by
  funext b
  by_cases hb : b = node
  · subst hb
    simp [valueOf, setValue]
  · simp [valueOf, setValue, Function.update_of_ne hb]

end Shared

section Invariant

/-- Who may write a node. -/
inductive Place (I : Type) where
  | fresh
  | queued
  | pooled
  | held (thread : I)

/-- The nodes behind the dummy with their values, the nodes of the free pool, the
thread that has yet to move the value out of a node it took, and the values in the
order of the exchanges that linked and that took them. -/
structure Ghost (I V : Type) where
  place : Addr → Place I
  rest : List Addr
  waiting : List V
  pool : List Addr
  mover : Addr → Option I
  links : List (I × V)
  takes : List (I × V)

structure Inv (s : Shared V) (g : Ghost I V) : Prop where
  path : Path s.nextOf 0 s.head.ptr (s.head.ptr :: g.rest)
  free : Path s.nextOf 0 s.freeHead.ptr g.pool
  tail : s.tail.ptr ∈ s.head.ptr :: g.rest
  queued : ∀ a, a ∈ s.head.ptr :: g.rest ↔ g.place a = .queued
  pooled : ∀ a, a ∈ g.pool ↔ g.place a = .pooled
  fresh : ∀ a : Nat, g.place a = .fresh ↔ a = 0 ∨ s.allocated < a
  distinct : (s.head.ptr :: g.rest).Nodup
  distinctPool : g.pool.Nodup
  values : g.rest.map s.valueOf = g.waiting.map .full
  unmoved : ∀ a ∈ g.rest, g.mover a = none
  untaken : ∀ a, g.place a = .fresh → g.mover a = none
  order : g.links.map Prod.snd = g.takes.map Prod.snd ++ g.waiting

variable [DecidableEq I]

/-- What a thread relies on from the steps of the others. -/
structure Rely (i : I) (s : Shared V) (g : Ghost I V) (s' : Shared V) (g' : Ghost I V) : Prop where
  head : Advances s.head s'.head
  tail : Advances s.tail s'.tail
  free : Advances s.freeHead s'.freeHead
  held : ∀ a, g.place a = .held i → g'.place a = .held i ∧ s'.nextOf a = s.nextOf a
  mover : ∀ a, g'.mover a = some i ↔ g.mover a = some i
  moving : ∀ a, g.mover a = some i → s'.valueOf a = s.valueOf a
  filled : ∀ a, g.place a = .held i → g.mover a = none →
    g'.mover a = none ∧ s'.valueOf a = s.valueOf a
  poolLink : s'.freeHead = s.freeHead → s.freeHead.ptr ≠ 0 →
    s'.nextOf s.freeHead.ptr = s.nextOf s.freeHead.ptr
  headLink : s'.head = s.head → s.nextOf s.head.ptr ≠ 0 →
    s'.nextOf s.head.ptr = s.nextOf s.head.ptr ∧
      s'.valueOf (s.nextOf s.head.ptr) = s.valueOf (s.nextOf s.head.ptr)
  tailLink : s'.tail = s.tail → s.nextOf s.tail.ptr ≠ 0 →
    s'.nextOf s.tail.ptr = s.nextOf s.tail.ptr
  gap : s'.head = s.head → s.tail.ptr ≠ s.head.ptr → s'.tail.ptr ≠ s.head.ptr
  links : g'.links.filter (fun e => e.1 = i) = g.links.filter (fun e => e.1 = i)
  takes : g'.takes.filter (fun e => e.1 = i) = g.takes.filter (fun e => e.1 = i)

end Invariant

section Facts
variable {s : Shared V} {g : Ghost I V}

theorem Inv.place_tail (h : Inv s g) : g.place s.tail.ptr = .queued := (h.queued _).mp h.tail

theorem Inv.place_head (h : Inv s g) : g.place s.head.ptr = .queued :=
  (h.queued _).mp List.mem_cons_self

theorem Inv.place_free (h : Inv s g) (hn : s.freeHead.ptr ≠ 0) :
    g.place s.freeHead.ptr = .pooled := by
  obtain ⟨l, hl, _⟩ := h.free.first hn
  exact (h.pooled _).mp (hl ▸ List.mem_cons_self)

/-- The node behind the dummy. -/
theorem Inv.second (h : Inv s g) (hn : s.nextOf s.head.ptr ≠ 0) :
    ∃ rest, g.rest = s.nextOf s.head.ptr :: rest ∧
      Path s.nextOf 0 (s.nextOf (s.nextOf s.head.ptr)) rest :=
  h.path.2.2.first hn

theorem Inv.second_mem (h : Inv s g) (hn : s.nextOf s.head.ptr ≠ 0) :
    s.nextOf s.head.ptr ∈ g.rest := by
  obtain ⟨rest, hr, _⟩ := h.second hn
  exact hr ▸ List.mem_cons_self

theorem Inv.place_rest (h : Inv s g) {a : Addr} (ha : a ∈ g.rest) : g.place a = .queued :=
  (h.queued a).mp (List.mem_cons_of_mem _ ha)

theorem Inv.held_ne_zero (h : Inv s g) {a : Addr} {i : I} (ha : g.place a = .held i) : a ≠ 0 := by
  intro hz
  have := (h.fresh a).mpr (.inl hz)
  rw [ha] at this
  cases this

/-- A tail that is not the head lies behind it, so the head has a successor. -/
theorem Inv.head_next (h : Inv s g) (hne : s.tail.ptr ≠ s.head.ptr) :
    s.nextOf s.head.ptr ≠ 0 := by
  intro hz
  have hrest : g.rest = [] := by
    have := h.path.2.2
    rw [hz] at this
    cases hr : g.rest with
    | nil => rfl
    | cons b l =>
      rw [hr] at this
      exact absurd this.1.symm this.2.1
  have := h.tail
  rw [hrest, List.mem_singleton] at this
  exact hne this

theorem Inv.second_full (h : Inv s g) (hn : s.nextOf s.head.ptr ≠ 0) :
    ∃ v, s.valueOf (s.nextOf s.head.ptr) = .full v := by
  have hmem : s.valueOf (s.nextOf s.head.ptr) ∈ g.waiting.map Slot.full := by
    rw [← h.values]
    exact List.mem_map_of_mem (h.second_mem hn)
  obtain ⟨v, _, hv⟩ := List.mem_map.mp hmem
  exact ⟨v, hv.symm⟩

end Facts

section Guarantee
variable [DecidableEq I] {i j : I} {s s' : Shared V} {g g' : Ghost I V}

/-- What a step of thread `i` may change. -/
structure Guarantee (i : I) (s : Shared V) (g : Ghost I V) (s' : Shared V) (g' : Ghost I V) :
    Prop where
  head : Advances s.head s'.head := by exact .inl rfl
  tail : Advances s.tail s'.tail := by exact .inl rfl
  free : Advances s.freeHead s'.freeHead := by exact .inl rfl
  next : ∀ a, s'.nextOf a = s.nextOf a ∨ g.place a = .held i ∨ g.place a = .fresh ∨
    (g.place a = .queued ∧ s.nextOf a = 0) := by exact fun _ => .inl rfl
  value : ∀ a, s'.valueOf a = s.valueOf a ∨ g.mover a = some i ∨
    (g.mover a = none ∧ (g.place a = .held i ∨ g.place a = .fresh)) := by exact fun _ => .inl rfl
  place : ∀ a j, j ≠ i → g.place a = .held j → g'.place a = .held j := by exact fun _ _ _ h => h
  mover : ∀ a, g'.mover a = g.mover a ∨ (g.mover a = some i ∧ g'.mover a = none) ∨
    (g.mover a = none ∧ g.place a = .queued ∧ g'.mover a = some i) := by exact fun _ => .inl rfl
  gap : s'.head = s.head → s.tail.ptr ≠ s.head.ptr → s'.tail.ptr ≠ s.head.ptr := by
    exact fun _ h => h
  links : ∀ j, j ≠ i → g'.links.filter (fun e => e.1 = j) = g.links.filter (fun e => e.1 = j) := by
    exact fun _ _ => rfl
  takes : ∀ j, j ≠ i → g'.takes.filter (fun e => e.1 = j) = g.takes.filter (fun e => e.1 = j) := by
    exact fun _ _ => rfl

theorem Guarantee.refl (i : I) (s : Shared V) (g : Ghost I V) : Guarantee i s g s g :=
  ⟨.inl rfl, .inl rfl, .inl rfl, fun _ => .inl rfl, fun _ => .inl rfl, fun _ _ _ h => h,
    fun _ => .inl rfl, fun _ h => h, fun _ _ => rfl, fun _ _ => rfl⟩

theorem Guarantee.rely (hg : Guarantee i s g s' g') (h : Inv s g) (hj : j ≠ i) :
    Rely j s g s' g' where
  head := hg.head
  tail := hg.tail
  free := hg.free
  held := by
    intro a ha
    refine ⟨hg.place a j hj ha, ?_⟩
    rcases hg.next a with hn | hn | hn | ⟨hn, _⟩
    · exact hn
    all_goals rw [ha] at hn; cases hn
    exact absurd rfl hj
  mover := by
    intro a
    rcases hg.mover a with hm | ⟨hm, hm'⟩ | ⟨hm, _, hm'⟩
    · rw [hm]
    · simp [hm, hm', Ne.symm hj]
    · simp [hm, hm', Ne.symm hj]
  moving := by
    intro a ha
    rcases hg.value a with hv | hv | ⟨hv, _⟩
    · exact hv
    all_goals rw [ha] at hv; cases hv
    exact absurd rfl hj
  filled := by
    intro a ha hm
    refine ⟨?_, ?_⟩
    · rcases hg.mover a with hm' | ⟨_, hm'⟩ | ⟨_, hq, _⟩
      · rw [hm', hm]
      · exact hm'
      · rw [ha] at hq
        cases hq
    · rcases hg.value a with hv | hv | ⟨_, hv | hv⟩
      · exact hv
      · rw [hm] at hv
        cases hv
      all_goals rw [ha] at hv; cases hv
      exact absurd rfl hj
  poolLink := by
    intro _ hn
    have hp := h.place_free hn
    rcases hg.next s.freeHead.ptr with hq | hq | hq | ⟨hq, _⟩
    · exact hq
    all_goals rw [hp] at hq; cases hq
  headLink := by
    intro _ hn
    have hsecond := h.second_mem hn
    refine ⟨?_, ?_⟩
    · rcases hg.next s.head.ptr with hq | hq | hq | ⟨_, hq⟩
      · exact hq
      · rw [h.place_head] at hq
        cases hq
      · rw [h.place_head] at hq
        cases hq
      · exact absurd hq hn
    · rcases hg.value (s.nextOf s.head.ptr) with hv | hv | ⟨_, hv | hv⟩
      · exact hv
      · rw [h.unmoved _ hsecond] at hv
        cases hv
      all_goals rw [h.place_rest hsecond] at hv; cases hv
  tailLink := by
    intro _ hn
    rcases hg.next s.tail.ptr with hq | hq | hq | ⟨_, hq⟩
    · exact hq
    · rw [h.place_tail] at hq
      cases hq
    · rw [h.place_tail] at hq
      cases hq
    · exact absurd hq hn
  gap := hg.gap
  links := hg.links j hj
  takes := hg.takes j hj

/-- What the effects below establish. -/
def Sound (i : I) (s : Shared V) (g : Ghost I V) (s' : Shared V) (g' : Ghost I V) : Prop :=
  Inv s' g' ∧ Guarantee i s g s' g'

/-- A step that writes nothing the proof looks at. -/
theorem sound_size (h : Inv s g) (i : I) (size : UInt64) : Sound i s g { s with size := size } g :=
  ⟨⟨h.path, h.free, h.tail, h.queued, h.pooled, h.fresh, h.distinct, h.distinctPool, h.values,
    h.unmoved, h.untaken, h.order⟩, { Guarantee.refl i s g with }⟩

theorem sound_refl (h : Inv s g) (i : I) : Sound i s g s g := ⟨h, .refl i s g⟩

/-- A thread writes the link of a node it holds. -/
theorem sound_setNext (h : Inv s g) {n : Addr} (hn : g.place n = .held i) (next : Tagged) :
    Sound i s g (s.setNext n next) g := by
  have hout : ∀ a, g.place a = .queued ∨ g.place a = .pooled → a ≠ n := by
    intro a ha he
    subst he
    rw [hn] at ha
    rcases ha with ha | ha <;> cases ha
  refine ⟨{ h with path := ?_, free := ?_, values := ?_ },
    { Guarantee.refl i s g with
      next := ?_, value := ?_ }⟩
  · refine h.path.congr ?_
    intro b hb
    have hbn := hout b (.inl ((h.queued b).mp hb))
    rw [Shared.setNext_nextOf, Function.update_of_ne hbn]
  · refine h.free.congr ?_
    intro b hb
    have hbn := hout b (.inr ((h.pooled b).mp hb))
    rw [Shared.setNext_nextOf, Function.update_of_ne hbn]
  · rw [Shared.setNext_valueOf]
    exact h.values
  · intro a
    by_cases ha : a = n
    · exact .inr (.inl (ha ▸ hn))
    · left
      rw [Shared.setNext_nextOf, Function.update_of_ne ha]
  · intro a
    left
    rw [Shared.setNext_valueOf]

/-- A thread writes the value of a node it holds and nobody has to move it from. -/
theorem sound_setValue (h : Inv s g) {n : Addr} (hn : g.place n = .held i)
    (hm : g.mover n = none) (value : Slot V) : Sound i s g (s.setValue n value) g := by
  refine ⟨{ h with path := ?_, free := ?_, values := ?_ },
    { Guarantee.refl i s g with
      next := ?_, value := ?_ }⟩
  · rw [Shared.setValue_nextOf]
    exact h.path
  · rw [Shared.setValue_nextOf]
    exact h.free
  · rw [← h.values]
    refine List.map_congr_left ?_
    intro a ha
    have han : a ≠ n := by
      intro he
      have := h.place_rest ha
      rw [he, hn] at this
      cases this
    rw [Shared.setValue_valueOf, Function.update_of_ne han]
  · intro a
    left
    rw [Shared.setValue_nextOf]
  · intro a
    by_cases ha : a = n
    · subst ha
      exact .inr (.inr ⟨hm, .inl hn⟩)
    · left
      rw [Shared.setValue_valueOf, Function.update_of_ne ha]

omit [DecidableEq I] in
theorem update_place {place : Addr → Place I} {n : Addr} {p q : Place I} (hold : place n ≠ p)
    (hnew : q ≠ p) (a : Addr) : Function.update place n q a = p ↔ place a = p := by
  by_cases ha : a = n
  · subst ha
    simp [hold, hnew]
  · rw [Function.update_of_ne ha]

omit [DecidableEq I] in
/-- A node that no other thread holds may change hands. -/
theorem keep_place {n : Addr} {p q : Place I} (hp : g.place n = p)
    (hold : ∀ j, j ≠ i → p ≠ .held j) :
    ∀ a j, j ≠ i → g.place a = .held j → Function.update g.place n q a = .held j := by
  intro a j hj ha
  have hne : a ≠ n := by
    intro he
    rw [he, hp] at ha
    exact hold j hj ha
  rw [Function.update_of_ne hne, ha]

/-- `new Node()`. -/
theorem sound_alloc (h : Inv s g) (i : I) :
    Sound i s g
      { s with
        allocated := s.allocated + 1
        nodes := Function.update s.nodes (s.allocated + 1) {} }
      { g with place := Function.update g.place (s.allocated + 1) (.held i) } := by
  have hfresh : g.place (s.allocated + 1) = .fresh :=
    (h.fresh _).mpr (.inr (Nat.lt_succ_self _))
  have hsame : ∀ a, a ≠ s.allocated + 1 →
      Function.update s.nodes (s.allocated + 1) ({} : Node V) a = s.nodes a :=
    fun a ha => Function.update_of_ne ha _ _
  have hout : ∀ a, g.place a = .queued ∨ g.place a = .pooled → a ≠ s.allocated + 1 := by
    intro a ha he
    subst he
    rw [hfresh] at ha
    rcases ha with ha | ha <;> cases ha
  refine ⟨⟨?_, ?_, h.tail, ?_, ?_, ?_, h.distinct, h.distinctPool, ?_, h.unmoved, ?_, h.order⟩,
    { Guarantee.refl i s g with
      next := ?_, value := ?_, place := keep_place hfresh (fun _ _ he => nomatch he) }⟩
  · refine h.path.congr ?_
    intro b hb
    simp only [Shared.nextOf, hsame b (hout b (.inl ((h.queued b).mp hb)))]
  · refine h.free.congr ?_
    intro b hb
    simp only [Shared.nextOf, hsame b (hout b (.inr ((h.pooled b).mp hb)))]
  · exact fun a => (h.queued a).trans (update_place (by simp [hfresh]) (by simp) a).symm
  · exact fun a => (h.pooled a).trans (update_place (by simp [hfresh]) (by simp) a).symm
  · intro (a : Nat)
    change Function.update g.place (s.allocated + 1) (.held i) a = .fresh ↔
      a = 0 ∨ s.allocated + 1 < a
    by_cases ha : a = s.allocated + 1
    · simp [ha]
    · rw [Function.update_of_ne ha, h.fresh]
      omega
  · rw [← h.values]
    refine List.map_congr_left ?_
    intro a ha
    simp only [Shared.valueOf, hsame a (hout a (.inl (h.place_rest ha)))]
  · intro a ha
    refine h.untaken a ?_
    by_cases he : a = s.allocated + 1
    · rw [he, hfresh]
    · exact (Function.update_of_ne he _ _).symm.trans ha
  · intro a
    by_cases ha : a = s.allocated + 1
    · exact .inr (.inr (.inl (ha ▸ hfresh)))
    · left
      simp only [Shared.nextOf, hsame a ha]
  · intro a
    by_cases ha : a = s.allocated + 1
    · subst ha
      exact .inr (.inr ⟨h.untaken _ hfresh, .inr hfresh⟩)
    · left
      simp only [Shared.valueOf, hsame a ha]

/-- The pool gives its first node to a thread. -/
theorem sound_pop (h : Inv s g) (i : I) (hn : s.freeHead.ptr ≠ 0) :
    Sound i s g
      { s with freeHead := ⟨s.nextOf s.freeHead.ptr, s.freeHead.tag + 1⟩ }
      { g with
        place := Function.update g.place s.freeHead.ptr (.held i)
        pool := g.pool.tail } := by
  obtain ⟨l, hl, hpath⟩ := h.free.first hn
  have hpool := h.place_free hn
  have hnodup := h.distinctPool
  rw [hl, List.nodup_cons] at hnodup
  have hfresh := update_place (q := .held i) (show g.place s.freeHead.ptr ≠ .fresh by simp [hpool])
    (by simp)
  refine ⟨⟨h.path, by rw [hl]; exact hpath, h.tail, ?_, ?_, fun a => (hfresh a).trans (h.fresh a),
    h.distinct, by rw [hl]; exact hnodup.2, h.values, h.unmoved,
    fun a ha => h.untaken a ((hfresh a).mp ha), h.order⟩,
    { Guarantee.refl i s g with
      free := .inr rfl, place := keep_place hpool (fun _ _ he => nomatch he) }⟩
  · exact fun a => (h.queued a).trans (update_place (by simp [hpool]) (by simp) a).symm
  · intro a
    by_cases ha : a = s.freeHead.ptr
    · subst ha
      simp [hl, hnodup.1]
    · have := h.pooled a
      rw [hl, List.mem_cons] at this
      simp only [hl, List.tail_cons, Function.update_of_ne ha, ← this, ha, false_or]

/-- A thread gives the node it holds to the pool. -/
theorem sound_push (h : Inv s g) {n : Addr} (hn : g.place n = .held i)
    (hnext : s.nextOf n = s.freeHead.ptr) :
    Sound i s g { s with freeHead := ⟨n, s.freeHead.tag + 1⟩ }
      { g with place := Function.update g.place n .pooled, pool := n :: g.pool } := by
  have hout : n ∉ g.pool := by
    intro hm
    have := (h.pooled n).mp hm
    rw [hn] at this
    cases this
  have hfresh := update_place (q := .pooled) (show g.place n ≠ .fresh by simp [hn]) (by simp)
  refine ⟨⟨h.path, ⟨rfl, h.held_ne_zero hn, ?_⟩, h.tail, ?_, ?_,
    fun a => (hfresh a).trans (h.fresh a), h.distinct,
    List.nodup_cons.mpr ⟨hout, h.distinctPool⟩, h.values, h.unmoved,
    fun a ha => h.untaken a ((hfresh a).mp ha), h.order⟩,
    { Guarantee.refl i s g with
      free := .inr rfl, place := keep_place hn (fun j hj he => hj (by cases he; rfl)) }⟩
  · change Path s.nextOf 0 (s.nextOf n) g.pool
    rw [hnext]
    exact h.free
  · exact fun a => (h.queued a).trans (update_place (by simp [hn]) (by simp) a).symm
  · intro a
    by_cases ha : a = n
    · simp [ha]
    · simp only [List.mem_cons, ha, false_or, Function.update_of_ne ha, h.pooled]

/-- `tail_` moves on to the next node. -/
theorem sound_swing (h : Inv s g) (i : I) (hn : s.nextOf s.tail.ptr ≠ 0) :
    Sound i s g { s with tail := ⟨s.nextOf s.tail.ptr, s.tail.tag + 1⟩ } g := by
  have hmem : s.nextOf s.tail.ptr ∈ g.rest := h.path.next_mem h.tail hn
  refine ⟨{ h with tail := List.mem_cons_of_mem _ hmem },
    { Guarantee.refl i s g with
      tail := .inr rfl, gap := ?_ }⟩
  intro _ _ he
  exact (List.nodup_cons.mp h.distinct).1 (he ▸ hmem)

/-- A thread takes the value behind the dummy, whose node becomes the dummy, and
holds the old one. A thread that has not read the value yet has it to move. -/
theorem sound_take (h : Inv s g) (i : I) (hne : s.tail.ptr ≠ s.head.ptr) {v : V}
    (hv : s.valueOf (s.nextOf s.head.ptr) = .full v) {mover : Addr → Option I}
    (hmover : mover = g.mover ∨
      mover = Function.update g.mover (s.nextOf s.head.ptr) (some i)) :
    Sound i s g { s with head := ⟨s.nextOf s.head.ptr, s.head.tag + 1⟩ }
      { g with
        place := Function.update g.place s.head.ptr (.held i)
        rest := g.rest.tail
        waiting := g.waiting.tail
        mover := mover
        takes := g.takes ++ [(i, v)] } := by
  have hn := h.head_next hne
  obtain ⟨rest, hrest, hpath⟩ := h.second hn
  have hhead := h.place_head
  have hsecond := h.place_rest (h.second_mem hn)
  have hdistinct := h.distinct
  rw [hrest, List.nodup_cons] at hdistinct
  obtain ⟨w, waiting, hwaiting, hw, hvalues⟩ : ∃ w waiting, g.waiting = w :: waiting ∧
      s.valueOf (s.nextOf s.head.ptr) = .full w ∧ rest.map s.valueOf = waiting.map .full := by
    have := h.values
    rw [hrest, List.map_cons] at this
    obtain ⟨w, waiting, hc, hw, hm⟩ := List.map_eq_cons_iff.mp this.symm
    exact ⟨w, waiting, hc, hw.symm, hm.symm⟩
  have hwv : w = v := by
    rw [hv] at hw
    exact (Slot.full.inj hw).symm
  have hfresh := update_place (q := .held i) (show g.place s.head.ptr ≠ .fresh by simp [hhead])
    (by simp)
  have hmover' : ∀ a, a ≠ s.nextOf s.head.ptr → mover a = g.mover a := by
    intro a ha
    rcases hmover with rfl | rfl
    · rfl
    · rw [Function.update_of_ne ha]
  refine ⟨⟨?_, h.free, ?_, ?_, ?_, fun a => (hfresh a).trans (h.fresh a), ?_, h.distinctPool,
    ?_, ?_, ?_, ?_⟩,
    { Guarantee.refl i s g with
      head := .inr rfl, place := keep_place hhead (fun _ _ he => nomatch he), mover := ?_,
      gap := ?_, takes := ?_ }⟩
  · rw [hrest]
    exact ⟨rfl, hn, hpath⟩
  · have := h.tail
    rw [hrest, List.mem_cons] at this
    rw [hrest]
    exact this.resolve_left hne
  · intro a
    by_cases ha : a = s.head.ptr
    · subst ha
      simpa [hrest] using hdistinct.1
    · have := h.queued a
      rw [hrest, List.mem_cons] at this
      simp only [hrest, List.tail_cons, Function.update_of_ne ha, ← this, ha, false_or]
  · exact fun a => (h.pooled a).trans (update_place (by simp [hhead]) (by simp) a).symm
  · rw [hrest]
    exact hdistinct.2
  · rw [hrest, hwaiting]
    exact hvalues
  · intro a ha
    rw [hrest, List.tail_cons] at ha
    have hne : a ≠ s.nextOf s.head.ptr := fun he => (List.nodup_cons.mp hdistinct.2).1 (he ▸ ha)
    exact (hmover' a hne).trans (h.unmoved a (hrest ▸ List.mem_cons_of_mem _ ha))
  · intro a ha
    have hplace := (hfresh a).mp ha
    have hne : a ≠ s.nextOf s.head.ptr := by
      intro he
      rw [he, hsecond] at hplace
      cases hplace
    exact (hmover' a hne).trans (h.untaken a hplace)
  · rw [h.order, hwaiting, hwv]
    simp
  · intro a
    by_cases ha : a = s.nextOf s.head.ptr
    · subst ha
      rcases hmover with rfl | rfl
      · exact .inl rfl
      · exact .inr (.inr ⟨h.unmoved _ (h.second_mem hn), hsecond, by simp⟩)
    · exact .inl (hmover' a ha)
  · intro he _
    have := congrArg Tagged.tag he
    simp at this
  · intro j hj
    simp [List.filter_append, Ne.symm hj]

/-- A thread moves the value it took out of its node. -/
theorem sound_move (h : Inv s g) {n : Addr} (hm : g.mover n = some i) :
    Sound i s g (s.setValue n .movedFrom) { g with mover := Function.update g.mover n none } := by
  refine ⟨⟨?_, ?_, h.tail, h.queued, h.pooled, h.fresh, h.distinct, h.distinctPool, ?_, ?_, ?_,
    h.order⟩, { Guarantee.refl i s g with next := ?_, value := ?_, mover := ?_ }⟩
  · rw [Shared.setValue_nextOf]
    exact h.path
  · rw [Shared.setValue_nextOf]
    exact h.free
  · rw [← h.values]
    refine List.map_congr_left ?_
    intro a ha
    have han : a ≠ n := by
      intro he
      have := h.unmoved a ha
      rw [he, hm] at this
      cases this
    rw [Shared.setValue_valueOf, Function.update_of_ne han]
  · intro a ha
    by_cases han : a = n
    · simp [han]
    · simp only [Function.update_of_ne han, h.unmoved a ha]
  · intro a ha
    by_cases han : a = n
    · simp [han]
    · simp only [Function.update_of_ne han, h.untaken a ha]
  · intro a
    left
    rw [Shared.setValue_nextOf]
  · intro a
    by_cases han : a = n
    · exact .inr (.inl (han ▸ hm))
    · left
      rw [Shared.setValue_valueOf, Function.update_of_ne han]
  · intro a
    by_cases han : a = n
    · subst han
      exact .inr (.inl ⟨hm, by simp⟩)
    · left
      simp only [Function.update_of_ne han]

/-- A thread links the node it holds behind a node of the queue that has no successor. -/
theorem sound_link (h : Inv s g) {a n : Addr} (ha : a ∈ s.head.ptr :: g.rest)
    (hend : s.nextOf a = 0) (hn : g.place n = .held i) (hnext : s.nextOf n = 0)
    (hm : g.mover n = none) {v : V} (hv : s.valueOf n = .full v) :
    Sound i s g (s.setNext a ⟨n, 0⟩)
      { g with
        place := Function.update g.place n .queued
        rest := g.rest ++ [n]
        waiting := g.waiting ++ [v]
        links := g.links ++ [(i, v)] } := by
  have hqueued := (h.queued a).mp ha
  have hout : n ∉ s.head.ptr :: g.rest := by
    intro hmem
    have := (h.queued n).mp hmem
    rw [hn] at this
    cases this
  have hfresh := update_place (q := .queued) (show g.place n ≠ .fresh by simp [hn]) (by simp)
  refine ⟨⟨?_, ?_, ?_, ?_, ?_, fun b => (hfresh b).trans (h.fresh b), ?_, h.distinctPool, ?_, ?_,
    fun b hb => h.untaken b ((hfresh b).mp hb), ?_⟩,
    { Guarantee.refl i s g with
      next := ?_, value := ?_, place := keep_place hn (fun j hj he => hj (by cases he; rfl)),
      links := ?_ }⟩
  · rw [Shared.setNext_nextOf]
    exact h.path.link ha hend h.distinct hout (h.held_ne_zero hn) hnext
  · refine h.free.congr ?_
    intro b hb
    have hba : b ≠ a := by
      intro he
      have := (h.pooled b).mp hb
      rw [he, hqueued] at this
      cases this
    rw [Shared.setNext_nextOf, Function.update_of_ne hba]
  · exact List.mem_append_left _ h.tail
  · intro b
    change b ∈ (s.head.ptr :: g.rest) ++ [n] ↔ Function.update g.place n .queued b = .queued
    by_cases hb : b = n
    · simp [hb]
    · rw [Function.update_of_ne hb, ← h.queued, List.mem_append, List.mem_singleton]
      simp [hb]
  · exact fun b => (h.pooled b).trans (update_place (by simp [hn]) (by simp) b).symm
  · exact List.nodup_append.mpr ⟨h.distinct, List.nodup_singleton n, by
      intro b hb c hc he
      rw [List.mem_singleton] at hc
      exact hout (hc ▸ he ▸ hb)⟩
  · rw [Shared.setNext_valueOf, List.map_append, h.values]
    simp [hv]
  · intro b hb
    rcases List.mem_append.mp hb with hb | hb
    · exact h.unmoved b hb
    · rw [List.mem_singleton] at hb
      exact hb ▸ hm
  · rw [List.map_append, h.order]
    simp
  · intro b
    by_cases hb : b = a
    · exact .inr (.inr (.inr (hb ▸ ⟨hqueued, hend⟩)))
    · left
      rw [Shared.setNext_nextOf, Function.update_of_ne hb]
  · intro b
    left
    rw [Shared.setNext_valueOf]
  · intro j hj
    simp [List.filter_append, Ne.symm hj]

end Guarantee

end Cppforge.Concurrent.MichaelScottQueue
