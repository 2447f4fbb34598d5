import Cppforge.Lib.Run
import Cppforge.Lists.CircularBuffers

namespace Cppforge.Lists.Deque
open Circular

variable {T : Type} {d : Deque T} {l rest : List T} {v : T}

section Invariant

/-- The deque is the circular buffer of a list, with both indices wrapped. -/
structure Holds (d : Deque T) (l : List T) : Prop where
  capacity : d.buffer.length = d.capacity
  size : d.dequeSize = l.length
  head : 0 < d.capacity → d.head < d.capacity
  tail : d.tail = (d.head + l.length) % d.capacity
  contents : Circular.Holds d.buffer d.head l

theorem holds_create : Holds (create : Deque T) [] :=
  ⟨rfl, rfl, fun h => absurd h (Nat.lt_irrefl 0), rfl, holds_nil _ _⟩

theorem Holds.room (h : Holds d l) : l.length ≤ d.capacity := h.capacity ▸ h.contents.room

theorem Holds.empty_iff (h : Holds d l) : d.empty = true ↔ l = [] := by
  simp [empty, h.size]

theorem Holds.get (h : Holds d l) {i : Nat} (hi : i < l.length) : d.get i = l[i]? := by
  have hpos : d.capacity ≠ 0 := by
    have := h.room
    omega
  rw [Deque.get, wrap, if_neg hpos, ← h.contents.read i hi, h.capacity]
  rfl

/-- The loop lays the list out from the first place on. -/
theorem unroll_spec (hget : ∀ i < l.length, d.get i = l[i]?) (n i : Nat)
    (hi : i + n = l.length) (hroom : n ≤ rest.length) :
    d.unroll n i (l.take i ++ rest) = some (l ++ rest.drop n) := by
  induction n generalizing i rest with
  | zero =>
    rw [Nat.add_zero] at hi
    simp [unroll, hi]
  | succ n ih =>
    cases rest with
    | nil => simp at hroom
    | cons r rest =>
      have hlt : i < l.length := by omega
      have htake : (l.take i).length = i := List.length_take_of_le (Nat.le_of_lt hlt)
      have hwrite : write (l.take i ++ r :: rest) i l[i] = some (l.take (i + 1) ++ rest) := by
        rw [write, if_pos (by simp; omega), List.set_append_right _ _ (Nat.le_of_eq htake), htake,
          List.take_succ_eq_append_getElem hlt, Nat.sub_self, List.set_cons_zero,
          List.append_assoc]
        rfl
      rw [unroll, hget i hlt, List.getElem?_eq_getElem hlt]
      simpa [hwrite] using ih (i + 1) (by omega) (by simpa using hroom)

end Invariant

section Copies
variable [Inhabited T]

theorem Holds.unroll (h : Holds d l) {n : Nat} (hn : l.length ≤ n) :
    d.unroll d.dequeSize 0 (List.replicate n default) =
      some (l ++ List.replicate (n - l.length) default) := by
  have hrun := @unroll_spec T d l (List.replicate n default) (fun i hi => h.get hi) l.length 0
    (Nat.zero_add _) (by simpa using hn)
  rw [h.size]
  simpa using hrun

/-- A list that is laid out from the first place on, and does not fill the buffer. -/
theorem holds_straight {n : Nat} (hn : l.length < n) :
    Holds ⟨l ++ List.replicate (n - l.length) default, 0, l.length, l.length, n⟩ l where
  capacity := by
    rw [List.length_append, List.length_replicate]
    exact Nat.add_sub_cancel' hn.le
  size := rfl
  head hpos := hpos
  tail := by
    rw [Nat.zero_add]
    exact (Nat.mod_eq_of_lt hn).symm
  contents := holds_append l _

/-- Its elements fill the buffer. -/
def Full (d : Deque T) : Prop := 0 < d.dequeSize ∧ d.dequeSize = d.capacity

instance : Decidable (Full d) := inferInstanceAs (Decidable (_ ∧ _))

theorem Holds.copy_eq (h : Holds d l) (hl : l ≠ []) :
    d.copy = some ⟨l ++ List.replicate (d.capacity - l.length) default, 0, l.length, l.length,
      d.capacity⟩ := by
  have hpos : d.dequeSize > 0 := h.size ▸ List.length_pos_of_ne_nil hl
  rw [copy, if_pos hpos, h.unroll h.room, h.size]
  rfl

theorem Holds.copy (h : Holds d l) (hfull : ¬ Full d) : ∃ d', d.copy = some d' ∧ Holds d' l := by
  by_cases hl : l = []
  · subst hl
    refine ⟨create, ?_, holds_create⟩
    rw [Deque.copy, if_neg]
    rw [h.size]
    exact Nat.lt_irrefl 0
  · have hlt : l.length < d.capacity := by
      apply Nat.lt_of_le_of_ne h.room
      intro heq
      exact hfull ⟨h.size ▸ List.length_pos_of_ne_nil hl, h.size.trans heq⟩
    exact ⟨_, h.copy_eq hl, holds_straight hlt⟩

/-- The copy of a full deque has its tail behind the buffer. -/
theorem Holds.copy_full (h : Holds d l) (hfull : Full d) :
    ∃ d', d.copy = some d' ∧ 0 < d'.capacity ∧ d'.tail = d'.capacity := by
  obtain ⟨hpos, heq⟩ := hfull
  have hl : l ≠ [] := by
    apply List.ne_nil_of_length_pos
    exact h.size ▸ hpos
  exact ⟨_, h.copy_eq hl, heq ▸ hpos, h.size.symm.trans heq⟩

theorem Holds.grow (h : Holds d l) (hfull : d.dequeSize = d.capacity) :
    ∃ d', d.grow = some d' ∧ Holds d' l ∧ l.length < d'.capacity := by
  have hlen := h.size.symm.trans hfull
  have hmore : d.capacity < if d.capacity = 0 then minCapacity else d.capacity * 2 := by
    split
    · simp [*, minCapacity]
    · omega
  refine ⟨_, ?_, holds_straight (hlen.trans_lt hmore), hlen.trans_lt hmore⟩
  rw [Deque.grow, reserve, if_neg (Nat.not_le.mpr hmore), h.unroll (hlen.trans_lt hmore).le, h.size]
  rfl

theorem Holds.makeRoom (h : Holds d l) :
    ∃ d', d.makeRoom = some d' ∧ Holds d' l ∧ l.length < d'.capacity := by
  by_cases hfull : d.dequeSize = d.capacity
  · rw [Deque.makeRoom, if_pos hfull]
    exact h.grow hfull
  · refine ⟨d, if_neg hfull, h, Nat.lt_of_le_of_ne h.room ?_⟩
    intro heq
    exact hfull (h.size.trans heq)

theorem Holds.pushFront (h : Holds d l) (v : T) :
    ∃ d', d.pushFront v = some d' ∧ Holds d' (v :: l) := by
  obtain ⟨d₁, hroom, h₁, hlt⟩ := h.makeRoom
  have hhead := h₁.head (Nat.zero_lt_of_lt hlt)
  have hcap := h₁.capacity
  have hprev := prev_lt hhead
  refine ⟨{ d₁ with
    buffer := d₁.buffer.set (prev d₁.capacity d₁.head) v
    head := prev d₁.capacity d₁.head
    dequeSize := d₁.dequeSize + 1 }, ?_, ?_⟩
  · simp [Deque.pushFront, hroom, write, hcap, hprev]
  · refine ⟨by simpa using hcap, by simp [h₁.size], fun _ => hprev, ?_, ?_⟩
    · change d₁.tail = (prev d₁.capacity d₁.head + (l.length + 1)) % d₁.capacity
      rw [h₁.tail, ← place_next, next_prev hhead]
    · have hpush := h₁.contents.pushFront (hcap ▸ hhead) (hcap ▸ hlt) v
      rwa [hcap] at hpush

theorem Holds.pushBack (h : Holds d l) (v : T) :
    ∃ d', d.pushBack v = some d' ∧ Holds d' (l ++ [v]) := by
  obtain ⟨d₁, hroom, h₁, hlt⟩ := h.makeRoom
  have hpos := Nat.zero_lt_of_lt hlt
  have hcap := h₁.capacity
  have htail : d₁.tail < d₁.capacity := h₁.tail ▸ Nat.mod_lt _ hpos
  refine ⟨{ d₁ with
    buffer := d₁.buffer.set d₁.tail v
    tail := (d₁.tail + 1) % d₁.capacity
    dequeSize := d₁.dequeSize + 1 }, ?_, ?_⟩
  · simp [Deque.pushBack, hroom, write, wrap, hcap, htail, hpos.ne']
  · refine ⟨by simpa using hcap, by simp [h₁.size], h₁.head, ?_, ?_⟩
    · change (d₁.tail + 1) % d₁.capacity = _
      rw [h₁.tail, Nat.mod_add_mod, List.length_append]
      rfl
    · have hpush := h₁.contents.pushBack (hcap ▸ hlt) v
      rwa [hcap, ← h₁.tail] at hpush

end Copies

section Pops

theorem Holds.popFront (h : Holds d (v :: l)) :
    ∃ d', d.popFront = some (.ok d') ∧ Holds d' l := by
  have hpos : 0 < d.capacity := Nat.zero_lt_of_lt h.room
  have hempty : d.empty = false := by simp [empty, h.size]
  refine ⟨{ d with head := (d.head + 1) % d.capacity, dequeSize := d.dequeSize - 1 }, ?_, ?_⟩
  · simp [Deque.popFront, hempty, wrap, hpos.ne']
  · refine ⟨h.capacity, by simp [h.size], fun _ => Nat.mod_lt _ hpos, ?_, ?_⟩
    · change d.tail = ((d.head + 1) % d.capacity + l.length) % d.capacity
      rw [place_next]
      exact h.tail
    · have hpop := h.contents.popFront
      rwa [h.capacity] at hpop

/-- The last element lies before the tail. -/
theorem Holds.prev_tail (h : Holds d (l ++ [v])) :
    prev d.capacity d.tail = (d.head + l.length) % d.capacity := by
  have hroom := h.room
  rw [List.length_append, List.length_singleton] at hroom
  have htail : d.tail = ((d.head + l.length) % d.capacity + 1) % d.capacity := by
    rw [Nat.mod_add_mod, h.tail, List.length_append]
    rfl
  rw [htail, prev_next (Nat.mod_lt _ (Nat.zero_lt_of_lt hroom))]

theorem Holds.popBack (h : Holds d (l ++ [v])) :
    ∃ d', d.popBack = some (.ok d') ∧ Holds d' l := by
  have hempty : ¬ d.empty = true := by simp [empty, h.size]
  exact ⟨_, if_neg hempty, h.capacity, by simp [h.size], h.head, h.prev_tail, h.contents.popBack⟩

end Pops

section Reading

/-- What a checked read at an index gives for a list. -/
def atList (l : List T) (i : Nat) : Except String T :=
  match l[i]? with
  | some v => .ok v
  | none => .error "Deque index out of range"

/-- What a read at an end gives for a list. -/
def endList : Option T → Except String T
  | some v => .ok v
  | none => .error "Deque is empty"

/-- The indices lie inside the buffer, and all reads give the elements of the list. -/
structure Shows (d : Deque T) (l : List T) : Prop where
  below : 0 < d.capacity → d.head < d.capacity ∧ d.tail < d.capacity
  size : d.dequeSize = l.length
  get : ∀ i < l.length, d.get i = l[i]?
  atIndex : ∀ i, d.atIndex i = some (atList l i)
  front : d.front = some (endList l.head?)
  back : d.back = some (endList l.getLast?)

theorem Holds.atIndex (h : Holds d l) (i : Nat) : d.atIndex i = some (atList l i) := by
  by_cases hi : i < l.length
  · have hlt : ¬ i ≥ d.dequeSize := by
      rw [h.size]
      omega
    rw [Deque.atIndex, if_neg hlt, h.get hi, atList, List.getElem?_eq_getElem hi]
    rfl
  · rw [Deque.atIndex, if_pos (by rw [h.size]; omega), atList, List.getElem?_eq_none (by omega)]

theorem Holds.front (h : Holds d l) : d.front = some (endList l.head?) := by
  cases l with
  | nil => simp [Deque.front, empty, h.size, endList]
  | cons v l =>
    have hread := h.contents.read 0 (Nat.zero_lt_succ _)
    have hpos : 0 < d.capacity := Nat.zero_lt_of_lt h.room
    rw [Nat.add_zero, h.capacity, Nat.mod_eq_of_lt (h.head hpos)] at hread
    simp [Deque.front, empty, h.size, hread, endList]

theorem Holds.back (h : Holds d l) : d.back = some (endList l.getLast?) := by
  rcases List.eq_nil_or_concat' l with rfl | ⟨l, v, rfl⟩
  · simp [Deque.back, empty, h.size, endList]
  · have hread := h.contents.read l.length (by simp)
    rw [h.capacity, ← h.prev_tail] at hread
    simp [Deque.back, empty, h.size, hread, endList]

theorem Holds.shows (h : Holds d l) : Shows d l where
  below hpos := ⟨h.head hpos, h.tail ▸ Nat.mod_lt _ hpos⟩
  size := h.size
  get _ hi := h.get hi
  atIndex := h.atIndex
  front := h.front
  back := h.back

end Reading

section Runs
variable {V : Type} [DecidableEq V]

/-- The same statements on lists. -/
def spec (m : V → List T) : Op V T → (V → List T) × Except String Unit
  | .pushFront x value => (Function.update m x (value :: m x), .ok ())
  | .pushBack x value => (Function.update m x (m x ++ [value]), .ok ())
  | .popFront x =>
    if m x = [] then (m, .error "Deque is empty")
    else (Function.update m x (m x).tail, .ok ())
  | .popBack x =>
    if m x = [] then (m, .error "Deque is empty")
    else (Function.update m x (m x).dropLast, .ok ())
  | .clear x => (Function.update m x [], .ok ())
  | .copyConstruct x y => (Function.update m x (m y), .ok ())
  | .copyAssign x y => (Function.update m x (m y), .ok ())

/-- No full deque is copied. -/
def CopiesRoom (s : V → Deque T) : Op V T → Prop
  | .copyConstruct _ y => ¬ Full (s y)
  | .copyAssign x y => x = y ∨ ¬ Full (s y)
  | _ => True

/-- Every variable shows its list. -/
def ShowsAll (s : V → Deque T) (m : V → List T) : Prop := ∀ x, Shows (s x) (m x)

variable {s : V → Deque T} {m : V → List T} {x : V}

variable [Inhabited T]

theorem step_follows (s : V → Deque T) (m : V → List T) (op : Op V T)
    (h : ∀ x, Holds (s x) (m x)) (hop : CopiesRoom s op) :
    ∃ s', step s op = some (s', (spec m op).2) ∧ ∀ x, Holds (s' x) ((spec m op).1 x) := by
  cases op with
  | pushFront x value =>
    obtain ⟨d, hpush, hd⟩ := (h x).pushFront value
    exact ⟨_, by simp [step, hpush, settle, spec], Run.each_update h hd x⟩
  | pushBack x value =>
    obtain ⟨d, hpush, hd⟩ := (h x).pushBack value
    exact ⟨_, by simp [step, hpush, settle, spec], Run.each_update h hd x⟩
  | popFront x =>
    cases hm : m x with
    | nil =>
      have hempty := (h x).empty_iff.mpr hm
      exact ⟨s, by simp [step, Deque.popFront, hempty, settle, spec, hm], by simpa [spec, hm] using h⟩
    | cons v l =>
      obtain ⟨d, hpop, hd⟩ := (hm ▸ h x).popFront
      exact ⟨Function.update s x d, by simp [step, hpop, settle, spec, hm],
        by simpa [spec, hm] using Run.each_update h hd x⟩
  | popBack x =>
    rcases List.eq_nil_or_concat' (m x) with hm | ⟨l, v, hm⟩
    · have hempty := (h x).empty_iff.mpr hm
      exact ⟨s, by simp [step, Deque.popBack, hempty, settle, spec, hm], by simpa [spec, hm] using h⟩
    · obtain ⟨d, hpop, hd⟩ := (hm ▸ h x).popBack
      exact ⟨Function.update s x d, by simp [step, hpop, settle, spec, hm],
        by simpa [spec, hm] using Run.each_update h hd x⟩
  | clear x => exact ⟨_, rfl, Run.each_update h holds_create x⟩
  | copyConstruct x y =>
    obtain ⟨d, hcopy, hd⟩ := (h y).copy hop
    exact ⟨_, by simp [step, hcopy, settle, spec], Run.each_update h hd x⟩
  | copyAssign x y =>
    by_cases hxy : x = y
    · subst hxy
      exact ⟨_, by simp [step, settle, spec], Run.each_update h (h x) x⟩
    · obtain ⟨d, hcopy, hd⟩ := (h y).copy (hop.resolve_left hxy)
      exact ⟨_, by simp [step, hxy, assign, swap, hcopy, settle, spec], Run.each_update h hd x⟩

theorem copy_lost (h : ∀ x, Holds (s x) (m x)) (x : V) {y : V} (hfull : Full (s y)) :
    ∃ d, (s y).copy = some d ∧ ∀ l, ¬ Shows (Function.update s x d x) l := by
  obtain ⟨d, hcopy, hpos, htail⟩ := (h y).copy_full hfull
  refine ⟨d, hcopy, ?_⟩
  intro l hl
  rw [Function.update_self] at hl
  exact absurd (hl.below hpos).2 htail.not_lt

theorem step_lost (s : V → Deque T) (m : V → List T) (op : Op V T)
    (h : ∀ x, Holds (s x) (m x)) (hop : ¬ CopiesRoom s op) (s' : V → Deque T)
    (hstep : step s op = some (s', (spec m op).2)) : ¬ ShowsAll s' (spec m op).1 := by
  intro hall
  cases op with
  | copyConstruct x y =>
    obtain ⟨d, hcopy, hlost⟩ := copy_lost h x (not_not.mp hop)
    simp only [step, hcopy, settle, Option.bind_eq_bind, Option.bind_some, Option.pure_def,
      Option.some.injEq, Prod.mk.injEq] at hstep
    exact hlost _ (hstep.1 ▸ hall x)
  | copyAssign x y =>
    rw [CopiesRoom, not_or, not_not] at hop
    obtain ⟨d, hcopy, hlost⟩ := copy_lost h x hop.2
    simp only [step, hop.1, assign, swap, hcopy, settle, Option.bind_eq_bind, Option.bind_some,
      Option.pure_def, Option.some.injEq, Prod.mk.injEq, if_false] at hstep
    exact hlost _ (hstep.1 ▸ hall x)
  | _ => exact hop trivial

/-- The variables of a program show their lists after every statement exactly if no
statement copies a full deque. -/
theorem run_deques_iff (ops : List (Op V T)) :
    Run.Refines step spec ShowsAll (fun _ : V => (create : Deque T)) (fun _ => []) ops ↔
      Run.Meets step CopiesRoom (fun _ : V => (create : Deque T)) ops :=
  Run.refines_iff (fun _ _ h x => (h x).shows) step_follows step_lost ops fun _ => holds_create

/-- Eight elements fill the buffer; the second push to the copy writes behind it. -/
theorem push_behind_copy :
    let ops : List (Op Bool Nat) := (List.range 8).map (.pushBack false) ++
      [.copyConstruct true false, .popFront true, .pushBack true 8]
    Run.exec step (fun _ => create) ops = none ∧
      ¬ Run.Refines step spec ShowsAll (fun _ => create) (fun _ => []) ops := by
  intro ops
  have hrun : Run.exec step (fun _ => create) ops = none := by rfl
  refine ⟨hrun, ?_⟩
  intro hall
  obtain ⟨s', hsome, _⟩ := hall ops (List.prefix_refl ops)
  rw [hrun] at hsome
  cases hsome

end Runs

end Cppforge.Lists.Deque
