import Cppforge.Lib.Circular
import Cppforge.Lib.Run
import Cppforge.Lists.CircularBuffers
import Mathlib.Data.List.DropRight

namespace Cppforge.Lists.RingBuffer
open Circular

variable {T : Type} {b : RingBuffer T} {l rest : List T} {v : T} {cap i n : Nat}

section Invariant

/-- The buffer holds a list with one slot to spare, and both indices are wrapped. -/
structure Holds (b : RingBuffer T) (l : List T) (cap : Nat) : Prop where
  pos : 0 < cap
  slots : b.slots = cap + 1
  small : b.slots < 2 ^ 63
  length : b.buffer.length = b.slots
  head : b.head < b.slots
  tail : b.tail = (b.head + l.length) % b.slots
  room : l.length ≤ cap
  contents : Circular.Holds b.buffer b.head l

theorem Holds.slots_pos (h : Holds b l cap) : 0 < b.slots := Nat.zero_lt_of_lt h.head

theorem Holds.tail_lt (h : Holds b l cap) : b.tail < b.slots :=
  h.tail ▸ Nat.mod_lt _ h.slots_pos

theorem Holds.wrap (h : Holds b l cap) (i : Nat) : b.wrap i = some (i % b.slots) :=
  if_neg h.slots_pos.ne'

theorem Holds.next (h : Holds b l cap) (i : Nat) : b.next i = some ((i + 1) % b.slots) := h.wrap _

theorem Holds.prev (h : Holds b l cap) (hi : i < b.slots) :
    b.prev i = some (Circular.prev b.slots i) := by
  have hsame : (i + b.slots - 1) % b.slots = Circular.prev b.slots i := by
    unfold Circular.prev
    split
    · rw [Nat.mod_eq_of_lt (by omega)]
      omega
    · have hback : i + b.slots - 1 = i - 1 + b.slots := by omega
      rw [hback, Nat.add_mod_right, Nat.mod_eq_of_lt (by omega)]
  rw [RingBuffer.prev, h.wrap, hsame]

theorem Holds.size (h : Holds b l cap) : b.size = some l.length := by
  have hlen : l.length < b.slots := by
    have := h.room
    have := h.slots
    omega
  have hhead := h.head
  rw [RingBuffer.size, h.wrap, h.tail]
  congr 1
  rcases Nat.lt_or_ge (b.head + l.length) b.slots with hlt | hge
  · have hsum : (b.head + l.length) + b.slots - b.head = l.length + b.slots := by omega
    rw [Nat.mod_eq_of_lt hlt, hsum, Nat.add_mod_right, Nat.mod_eq_of_lt hlen]
  · have hmod : (b.head + l.length) % b.slots = b.head + l.length - b.slots := by
      rw [Nat.mod_eq_sub_mod hge, Nat.mod_eq_of_lt (by omega)]
    have hsum : b.head + l.length - b.slots + b.slots - b.head = l.length := by omega
    rw [hmod, hsum, Nat.mod_eq_of_lt hlen]

theorem Holds.capacity (h : Holds b l cap) : b.capacity = cap := by
  have hslots := h.slots
  have hsmall := h.small
  rw [RingBuffer.capacity]
  omega

/-- The tail meets the head exactly without elements, and the place before it with the most. -/
theorem Holds.empty (h : Holds b l cap) : b.empty = l.isEmpty := by
  have hroom := h.room
  have hslots := h.slots
  rw [RingBuffer.empty, h.tail, Bool.eq_iff_iff, beq_iff_eq, List.isEmpty_iff_length_eq_zero]
  constructor
  · intro heq
    have hplace : (b.head + l.length) % b.slots = (b.head + 0) % b.slots := by
      rw [← heq, Nat.add_zero, Nat.mod_eq_of_lt h.head]
    exact place_inj (by omega) (by omega) hplace
  · intro hzero
    rw [hzero, Nat.add_zero, Nat.mod_eq_of_lt h.head]

theorem Holds.meets (h : Holds b l cap) :
    (b.tail + 1) % b.slots = b.head ↔ l.length = cap := by
  have hroom := h.room
  have hslots := h.slots
  rw [h.tail, Nat.mod_add_mod]
  constructor
  · intro heq
    by_contra hless
    have hplace : (b.head + (l.length + 1)) % b.slots = (b.head + 0) % b.slots := by
      rw [← Nat.add_assoc, heq, Nat.add_zero, Nat.mod_eq_of_lt h.head]
    have := place_inj (by omega) (by omega) hplace
    omega
  · intro hfull
    rw [hfull, Nat.add_assoc, ← h.slots, Nat.add_mod_right, Nat.mod_eq_of_lt h.head]

theorem Holds.full (h : Holds b l cap) : b.full = some (decide (l.length = cap)) := by
  have hsame : ((b.tail + 1) % b.slots == b.head) = decide (l.length = cap) := by
    rw [Bool.eq_iff_iff, beq_iff_eq, decide_eq_true_eq]
    exact h.meets
  rw [RingBuffer.full, h.next, ← hsame]
  rfl

theorem Holds.get (h : Holds b l cap) (hi : i < l.length) : b.get i = l[i]? := by
  rw [RingBuffer.get, h.wrap, ← h.contents.read i hi, h.length]
  rfl

theorem readFrom_eq (hget : ∀ i < l.length, b.get i = l[i]?) (hi : i + n = l.length) :
    b.readFrom n i = some (l.drop i) := by
  induction n generalizing i with
  | zero => rw [readFrom, List.drop_eq_nil_of_le (by omega)]
  | succ n ih =>
    have hlt : i < l.length := by omega
    rw [readFrom, hget i hlt, List.getElem?_eq_getElem hlt, ih (by omega),
      List.drop_eq_getElem_cons hlt]
    rfl

theorem Holds.contents_eq (h : Holds b l cap) : b.contents = some l := by
  rw [RingBuffer.contents, h.size]
  exact readFrom_eq (fun i hi => h.get hi) (Nat.zero_add _)

end Invariant

section Changes

theorem store_some {buffer : List T} (h : i < buffer.length) :
    store buffer i v = some (buffer.set i v) := if_pos h

theorem Holds.pushBack (h : Holds b l cap) (v : T) :
    ∃ b', b.pushBack v = some b' ∧
      Holds b' (if l.length = cap then l.tail ++ [v] else l ++ [v]) cap := by
  have hroom := h.room
  have hpos := h.pos
  have hslots := h.slots
  have hstore : store b.buffer b.tail v = some (b.buffer.set b.tail v) :=
    store_some (by rw [h.length]; exact h.tail_lt)
  have hpush := h.contents.pushBack (by rw [h.length]; omega) v
  rw [h.length, ← h.tail] at hpush
  have htail : (b.tail + 1) % b.slots = (b.head + (l.length + 1)) % b.slots := by
    rw [h.tail, Nat.mod_add_mod, Nat.add_assoc]
  by_cases hfull : l.length = cap
  · have hmeets := h.meets.mpr hfull
    refine ⟨⟨b.buffer.set b.tail v, (b.head + 1) % b.slots, b.head, b.slots⟩, ?_, ?_⟩
    · simp [RingBuffer.pushBack, hstore, h.next, hmeets]
    · rw [if_pos hfull]
      cases l with
      | nil =>
        rw [List.length_nil] at hfull
        omega
      | cons x l =>
        have hpop := hpush.popFront
        rw [List.length_set, h.length] at hpop
        rw [List.length_cons] at hfull hroom
        refine ⟨hpos, hslots, h.small, by rw [List.length_set, h.length],
          Nat.mod_lt _ h.slots_pos, ?_, by simpa using hroom, hpop⟩
        change b.head = ((b.head + 1) % b.slots + (l ++ [v]).length) % b.slots
        rw [List.length_append, List.length_singleton, hfull, place_next, ← hslots,
          Nat.add_mod_right, Nat.mod_eq_of_lt h.head]
  · have hmeets : (b.tail + 1) % b.slots ≠ b.head := fun heq => hfull (h.meets.mp heq)
    refine ⟨⟨b.buffer.set b.tail v, b.head, (b.tail + 1) % b.slots, b.slots⟩, ?_, ?_⟩
    · simp [RingBuffer.pushBack, hstore, h.next, hmeets]
    · rw [if_neg hfull]
      refine ⟨hpos, hslots, h.small, by rw [List.length_set, h.length], h.head, ?_, ?_, hpush⟩
      · rw [List.length_append]
        exact htail
      · rw [List.length_append, List.length_singleton]
        omega

/-- Before the last element lies the new tail. -/
theorem Holds.prev_tail (h : Holds b (l ++ [v]) cap) :
    Circular.prev b.slots b.tail = (b.head + l.length) % b.slots := by
  have htail : b.tail = ((b.head + l.length) % b.slots + 1) % b.slots := by
    rw [Nat.mod_add_mod, h.tail, List.length_append]
    rfl
  rw [htail, prev_next (Nat.mod_lt _ h.slots_pos)]

theorem Holds.pushFront (h : Holds b l cap) (v : T) :
    ∃ b', b.pushFront v = some b' ∧
      Holds b' (if l.length = cap then v :: l.dropLast else v :: l) cap := by
  have hroom := h.room
  have hpos := h.pos
  have hslots := h.slots
  have hlt := prev_lt h.head
  have hstore : store b.buffer (Circular.prev b.slots b.head) v =
      some (b.buffer.set (Circular.prev b.slots b.head) v) :=
    store_some (by rw [h.length]; exact hlt)
  have hpush := h.contents.pushFront (by rw [h.length]; exact h.head) (by rw [h.length]; omega) v
  rw [h.length] at hpush
  have htail : b.tail = (Circular.prev b.slots b.head + (l.length + 1)) % b.slots := by
    rw [h.tail, ← place_next, next_prev h.head]
  by_cases hfull : l.length = cap
  · have hmeets : Circular.prev b.slots b.head = b.tail := by
      rw [htail, hfull, ← hslots, Nat.add_mod_right, Nat.mod_eq_of_lt hlt]
    have hne : l ≠ [] := by
      rintro rfl
      rw [List.length_nil] at hfull
      omega
    refine ⟨⟨b.buffer.set (Circular.prev b.slots b.head) v, Circular.prev b.slots b.head,
      Circular.prev b.slots b.tail, b.slots⟩, ?_, ?_⟩
    · rw [hmeets] at hstore
      simp [RingBuffer.pushFront, hstore, h.prev h.head, h.prev h.tail_lt, hmeets]
    · rw [if_pos hfull]
      rw [← List.dropLast_append_getLast hne, ← List.cons_append] at hpush
      refine ⟨hpos, hslots, h.small, by rw [List.length_set, h.length], hlt, ?_, ?_, hpush.popBack⟩
      · change Circular.prev b.slots b.tail = _
        have hlast : (v :: l.dropLast).length = l.length := by
          rw [List.length_cons, List.length_dropLast]
          omega
        have hnext : b.tail =
            ((Circular.prev b.slots b.head + l.length) % b.slots + 1) % b.slots := by
          rw [Nat.mod_add_mod, htail, Nat.add_assoc]
        rw [hlast]
        calc
          Circular.prev b.slots b.tail
          _ = Circular.prev b.slots
              (((Circular.prev b.slots b.head + l.length) % b.slots + 1) % b.slots) := by
            rw [← hnext]
          _ = (Circular.prev b.slots b.head + l.length) % b.slots :=
            prev_next (Nat.mod_lt _ h.slots_pos)
      · rw [List.length_cons, List.length_dropLast]
        omega
  · have hmeets : Circular.prev b.slots b.head ≠ b.tail := by
      intro heq
      have hplace : (Circular.prev b.slots b.head + (l.length + 1)) % b.slots =
          (Circular.prev b.slots b.head + 0) % b.slots := by
        rw [← htail, Nat.add_zero, Nat.mod_eq_of_lt hlt, heq]
      have := place_inj (by omega) (by omega) hplace
      omega
    refine ⟨⟨b.buffer.set (Circular.prev b.slots b.head) v, Circular.prev b.slots b.head, b.tail,
      b.slots⟩, ?_, ?_⟩
    · simp [RingBuffer.pushFront, hstore, h.prev h.head, hmeets]
    · rw [if_neg hfull]
      refine ⟨hpos, hslots, h.small, by rw [List.length_set, h.length], hlt, htail, ?_, hpush⟩
      rw [List.length_cons]
      omega

theorem Holds.popFront (h : Holds b (v :: l) cap) :
    ∃ b', b.popFront = some (.ok b') ∧ Holds b' l cap := by
  have hempty : b.empty = false := h.empty
  have hroom := h.room
  have hpop := h.contents.popFront
  rw [h.length] at hpop
  refine ⟨{ b with head := (b.head + 1) % b.slots }, ?_, h.pos, h.slots, h.small, h.length,
    Nat.mod_lt _ h.slots_pos, ?_, ?_, hpop⟩
  · simp [RingBuffer.popFront, hempty, h.next]
  · change b.tail = ((b.head + 1) % b.slots + l.length) % b.slots
    rw [place_next]
    exact h.tail
  · rw [List.length_cons] at hroom
    omega

theorem Holds.popBack (h : Holds b (l ++ [v]) cap) :
    ∃ b', b.popBack = some (.ok b') ∧ Holds b' l cap := by
  have hempty : b.empty = false := by simp [h.empty]
  have hroom := h.room
  refine ⟨{ b with tail := Circular.prev b.slots b.tail }, ?_, h.pos, h.slots, h.small, h.length,
    h.head, h.prev_tail, ?_, h.contents.popBack⟩
  · simp [RingBuffer.popBack, hempty, h.prev h.tail_lt]
  · rw [List.length_append] at hroom
    omega

theorem Holds.clear (h : Holds b l cap) : Holds b.clear [] cap :=
  ⟨h.pos, h.slots, h.small, h.length, h.slots_pos, (Nat.zero_mod _).symm, Nat.zero_le _,
    holds_nil _ _⟩

/-- The loop lays the first elements out from the first place on. -/
theorem copyFrom_take (hget : ∀ i < l.length, b.get i = l[i]?) (hi : i + n ≤ l.length)
    (hroom : n ≤ rest.length) :
    b.copyFrom n i (l.take i ++ rest) = some (l.take (i + n) ++ rest.drop n) := by
  induction n generalizing i rest with
  | zero => simp [copyFrom]
  | succ n ih =>
    cases rest with
    | nil => simp at hroom
    | cons r rest =>
      have hlt : i < l.length := by omega
      have htake : (l.take i).length = i := List.length_take_of_le (Nat.le_of_lt hlt)
      have hstore : store (l.take i ++ r :: rest) i l[i] = some (l.take (i + 1) ++ rest) := by
        rw [store_some (by simp; omega), List.set_append_right _ _ (Nat.le_of_eq htake), htake,
          List.take_succ_eq_append_getElem hlt, Nat.sub_self, List.set_cons_zero, List.append_assoc]
        rfl
      have hrest : b.copyFrom n (i + 1) (l.take (i + 1) ++ rest) =
          some (l.take (i + 1 + n) ++ rest.drop n) := ih (by omega) (by simpa using hroom)
      rw [copyFrom, hget i hlt, List.getElem?_eq_getElem hlt]
      simp only [Option.bind_eq_bind, Option.bind_some, hstore, hrest, List.drop_succ_cons]
      rw [Nat.add_right_comm, Nat.add_assoc]

end Changes

section Model

/-- A bounded deque: its elements from front to back, and its capacity. -/
abbrev Bounded (T : Type) := List T × Nat

/-- What the calls do to a bounded deque, and throw. A capacity that no vector has is refused. -/
def spec (m : Bounded T) : Op T → Bounded T × Except String Unit
  | .pushBack value =>
    ((if m.1.length = m.2 then m.1.tail ++ [value] else m.1 ++ [value], m.2), .ok ())
  | .pushFront value =>
    ((if m.1.length = m.2 then value :: m.1.dropLast else value :: m.1, m.2), .ok ())
  | .popFront => if m.1 = [] then (m, .error "RingBuffer is empty") else ((m.1.tail, m.2), .ok ())
  | .popBack =>
    if m.1 = [] then (m, .error "RingBuffer is empty") else ((m.1.dropLast, m.2), .ok ())
  | .clear => (([], m.2), .ok ())
  | .resize c =>
    if c.toNat = m.2 then (m, .ok ())
    else if c.toNat = 0 then (m, .error "RingBuffer capacity must be > 0")
    else if c.toNat + 1 < 2 ^ 63 then ((m.1.drop (m.1.length - c.toNat), c.toNat), .ok ())
    else (m, .error "std::length_error")

/-- All that can be read agrees with a bounded deque. -/
structure Shows (b : RingBuffer T) (m : Bounded T) : Prop where
  contents : b.contents = some m.1
  size : b.size = some m.1.length
  empty : b.empty = m.1.isEmpty
  full : b.full = some (decide (m.1.length = m.2))
  capacity : b.capacity = m.2

theorem Holds.shows (h : Holds b l cap) : Shows b (l, cap) :=
  ⟨h.contents_eq, h.size, h.empty, h.full, h.capacity⟩

/-- A new capacity is not the largest number, and the elements it leaves room for from the front
on are those up to the back. -/
def Keeps (b : RingBuffer T) : Op T → Prop
  | .resize c => c.toNat ≠ 2 ^ 64 - 1 ∧
    ∀ l ∈ b.contents, l.take c.toNat = l.drop (l.length - c.toNat)
  | _ => True

instance [DecidableEq T] (b : RingBuffer T) : ∀ op, Decidable (Keeps b op)
  | .resize c => inferInstanceAs (Decidable (c.toNat ≠ 2 ^ 64 - 1 ∧
      ∀ l ∈ b.contents, l.take c.toNat = l.drop (l.length - c.toNat)))
  | .pushBack _ | .pushFront _ | .popFront | .popBack | .clear => isTrue trivial

end Model

section Resizes
variable [Inhabited T] {c : UInt64}

theorem wrap_capacity (hc : c.toNat ≠ 2 ^ 64 - 1) : (c.toNat + 1) % 2 ^ 64 = c.toNat + 1 :=
  Nat.mod_eq_of_lt (by have := c.toNat_lt; omega)

/-- The first elements from the first place on, in a buffer with a slot to spare. -/
theorem holds_straight {k : Nat} (hk : k ≤ l.length) (hfit : k ≤ n) (hn : 0 < n)
    (hsmall : n + 1 < 2 ^ 63) :
    Holds ⟨l.take k ++ List.replicate (n + 1 - k) default, 0, k, n + 1⟩ (l.take k) n where
  pos := hn
  slots := rfl
  small := hsmall
  length := by
    simp only [List.length_append, List.length_take, List.length_replicate]
    omega
  head := Nat.succ_pos n
  tail := by
    change k = (0 + (l.take k).length) % (n + 1)
    rw [List.length_take_of_le hk, Nat.zero_add]
    exact (Nat.mod_eq_of_lt (Nat.lt_succ_of_le hfit)).symm
  room := by rwa [List.length_take_of_le hk]
  contents := holds_append _ _

/-- The elements kept are the first ones. -/
theorem Holds.resize (h : Holds b l cap) (hne : c.toNat ≠ cap) (hpos : 0 < c.toNat)
    (hsmall : c.toNat + 1 < 2 ^ 63) :
    ∃ b', b.resize c = some (.ok b') ∧ Holds b' (l.take c.toNat) c.toNat := by
  have hwrap : (c.toNat + 1) % 2 ^ 64 = c.toNat + 1 := wrap_capacity (by omega)
  have hcopy : b.copyFrom (min l.length c.toNat) 0
    (l.take 0 ++ List.replicate (c.toNat + 1) default) =
      some (l.take (0 + min l.length c.toNat) ++
        (List.replicate (c.toNat + 1) default).drop (min l.length c.toNat)) :=
    copyFrom_take (fun i hi => h.get hi) (by omega) (by rw [List.length_replicate]; omega)
  rw [List.take_zero, List.nil_append, Nat.zero_add, List.drop_replicate] at hcopy
  have htake : l.take (min l.length c.toNat) = l.take c.toNat := by
    rcases Nat.le_total l.length c.toNat with hle | hle
    · rw [Nat.min_eq_left hle, List.take_length, List.take_of_length_le hle]
    · rw [Nat.min_eq_right hle]
  refine ⟨⟨l.take (min l.length c.toNat) ++
    List.replicate (c.toNat + 1 - min l.length c.toNat) default, 0, min l.length c.toNat,
    c.toNat + 1⟩, ?_, ?_⟩
  · rw [RingBuffer.resize, h.capacity, if_neg hne, if_neg hpos.ne', hwrap, makeBuffer,
      if_pos hsmall]
    simp only [h.size, hcopy, Option.bind_eq_bind, Option.bind_some, Option.pure_def]
  · rw [← htake]
    exact holds_straight (Nat.min_le_left _ _) (Nat.min_le_right _ _) hpos hsmall

theorem holds_create (hpos : 0 < c.toNat) (hsmall : c.toNat + 1 < 2 ^ 63) :
    Holds (⟨List.replicate (c.toNat + 1) (default : T), 0, 0, c.toNat + 1⟩ : RingBuffer T)
      [] c.toNat := by
  have hempty := holds_straight (l := ([] : List T)) (k := 0) (n := c.toNat) (Nat.zero_le _)
    (Nat.zero_le _) hpos hsmall
  simpa using hempty

end Resizes

end Cppforge.Lists.RingBuffer
