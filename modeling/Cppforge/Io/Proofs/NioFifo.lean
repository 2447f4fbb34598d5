import Cppforge.Io.NioBuffer
import Cppforge.Lib.Run

namespace Cppforge.Io
open Run

section Windows
variable {α β γ : Type} {b : IBuffer α} {gone mid rest ys : List α} {x y : α} {n p : Nat}

/-- The elements in front of the position, from there to the limit, and behind it. -/
structure IBuffer.Window (b : IBuffer α) (gone mid rest : List α) : Prop where
  elements : b.buffer = gone ++ mid ++ rest
  position : b.position = gone.length
  limit : b.limit = gone.length + mid.length
  capacity : b.capacity = gone.length + mid.length + rest.length

namespace IBuffer

theorem Window.bounds (h : b.Window gone mid rest) :
    b.position ≤ b.limit ∧ b.limit ≤ b.capacity := by
  rw [h.position, h.limit, h.capacity]
  omega

theorem Window.remaining (h : b.Window gone mid rest) : b.remaining = mid.length := by
  unfold IBuffer.remaining
  rw [h.position, h.limit]
  omega

theorem Window.hasRemaining (h : b.Window gone mid rest) : b.hasRemaining = !mid.isEmpty := by
  unfold IBuffer.hasRemaining
  rw [h.position, h.limit]
  cases mid <;> simp

theorem create_window (zero : α) (capacity : Nat) :
    (create zero capacity).Window [] (List.replicate capacity zero) [] := by
  constructor <;> simp [create]

theorem Window.clear (h : b.Window gone mid rest) : b.clear.Window [] (gone ++ mid ++ rest) [] := by
  constructor <;> simp [IBuffer.clear, h.elements, h.capacity, Nat.add_assoc]

theorem Window.flip (h : b.Window gone mid rest) : b.flip.Window [] gone (mid ++ rest) := by
  constructor <;> simp [IBuffer.flip, h.elements, h.position, h.capacity, Nat.add_assoc]

theorem Window.rewind (h : b.Window gone mid rest) : b.rewind.Window [] (gone ++ mid) rest := by
  constructor <;> simp [IBuffer.rewind, h.elements, h.limit, h.capacity]

/-- What was left comes to the front, and the room behind it is free. -/
theorem Window.compact (h : b.Window gone mid rest) :
    ∃ b' free, b.compact = some b' ∧ b'.Window mid free [] := by
  have hcount : b.limit - b.position = mid.length := h.remaining
  by_cases hmove : 0 < mid.length ∧ 0 < b.position
  · obtain ⟨free, hfree⟩ := Ranges.move_down [] gone mid rest
    have hlen := Ranges.length_move hfree
    rw [List.nil_append, List.length_nil, Nat.zero_add, ← h.elements, ← h.position] at hfree
    refine ⟨_, free, by simp only [IBuffer.compact, hcount, if_pos hmove, hfree]; rfl, ?_⟩
    simp only [List.length_append, List.length_nil] at hlen
    have hcapacity : b.capacity = mid.length + free.length := by
      rw [h.capacity]
      omega
    constructor <;> simp [hcapacity]
  · have hfree : ∃ free, b.buffer = mid ++ free := by
      rw [h.position] at hmove
      rw [h.elements]
      cases mid with
      | nil => exact ⟨gone ++ rest, by simp⟩
      | cons x mid =>
        have hgone : gone = [] := by
          apply List.eq_nil_of_length_eq_zero
          simp only [List.length_cons, Nat.zero_lt_succ, true_and] at hmove
          omega
        exact ⟨rest, by simp [hgone]⟩
    obtain ⟨free, hfree⟩ := hfree
    refine ⟨_, free, by simp only [IBuffer.compact, hcount, if_neg hmove]; rfl, ?_⟩
    have hlen := congrArg List.length hfree
    rw [h.elements] at hlen
    simp only [List.length_append] at hlen
    have hcapacity : b.capacity = mid.length + free.length := by
      rw [h.capacity]
      omega
    constructor <;> simp [hfree, hcapacity]

/-- Any two indices in their order are a window. -/
theorem window_of_bounds (hlen : b.buffer.length = b.capacity) (hlim : b.limit ≤ b.capacity)
    (hpos : b.position ≤ b.limit) : ∃ gone mid rest, b.Window gone mid rest := by
  obtain ⟨gone, mid, rest, helements, hgone, hmid⟩ :=
    Ranges.cut (l := b.buffer) (i := b.position) (n := b.limit - b.position) (by omega)
  refine ⟨gone, mid, rest, helements, hgone.symm, by omega, ?_⟩
  rw [← hlen, helements, List.length_append, List.length_append]

theorem Window.length (h : b.Window gone mid rest) : b.buffer.length = b.capacity := by
  rw [h.elements, h.capacity, List.length_append, List.length_append]

/-- The call ends, a window shows, and where it threw nothing has changed. -/
def Sound (b : IBuffer α) (call : Option (IBuffer α × Except Failure β)) : Prop :=
  ∃ b' r, call = some (b', r) ∧ (∃ gone mid rest, b'.Window gone mid rest) ∧
    ∀ e, r = .error e → b' = b

theorem Sound.thrown (h : b.Window gone mid rest) (e : Failure) :
    Sound (β := β) b (some (b, .error e)) :=
  ⟨b, _, rfl, ⟨gone, mid, rest, h⟩, fun _ _ => rfl⟩

theorem Sound.done {b' : IBuffer α} (h : ∃ gone mid rest, b'.Window gone mid rest) (v : β) :
    Sound b (some (b', .ok v)) :=
  ⟨b', _, rfl, h, fun _ he => nomatch he⟩

theorem Sound.map {call : Option (IBuffer α × Except Failure β)} (h : Sound b call) (f : β → γ) :
    Sound b (call.map fun r => (r.1, r.2.map f)) := by
  obtain ⟨b', r, rfl, hb', hsame⟩ := h
  refine ⟨b', r.map f, rfl, hb', ?_⟩
  intro e he
  cases r with
  | ok v => cases he
  | error e' => exact hsame e' rfl

theorem Window.setPosition (h : b.Window gone mid rest) (text : String) (p : Nat) :
    Sound b (some (b.setPosition text p)) := by
  unfold IBuffer.setPosition
  split
  · exact Sound.thrown h _
  · rename_i hle
    have hmoved := window_of_bounds (b := { b with position := p }) h.length h.bounds.2
      (Nat.not_lt.mp hle)
    exact Sound.done hmoved ()

theorem Window.setLimit (h : b.Window gone mid rest) (text : String) (l : Nat) :
    Sound b (some (b.setLimit text l)) := by
  unfold IBuffer.setLimit
  split
  · exact Sound.thrown h _
  · rename_i hle
    have hmoved := window_of_bounds (b := { b with limit := l, position := min b.position l })
      h.length (Nat.not_lt.mp hle) (Nat.min_le_right _ _)
    exact Sound.done hmoved ()

theorem Window.write (h : b.Window gone (ys ++ mid) rest) (xs : List α)
    (hlen : ys.length = xs.length) :
    ∃ buffer, Ranges.write b.buffer b.position xs = some buffer ∧
      Window { b with buffer := buffer, position := b.position + xs.length } (gone ++ xs) mid
        rest := by
  refine ⟨gone ++ xs ++ (mid ++ rest), ?_, ?_⟩
  · rw [h.elements, h.position, ← Ranges.write_mid rfl hlen]
    simp
  · have hlimit := h.limit
    have hcapacity := h.capacity
    rw [List.length_append] at hlimit hcapacity
    constructor
    · simp
    · simp [h.position]
    · simp only [List.length_append]
      omega
    · simp only [List.length_append]
      omega

theorem Window.advance {vs : List α} (h : b.Window gone (vs ++ mid) rest) :
    Window { b with position := b.position + vs.length } (gone ++ vs) mid rest := by
  have hlimit := h.limit
  have hcapacity := h.capacity
  rw [List.length_append] at hlimit hcapacity
  constructor
  · simp [h.elements]
  · simp [h.position]
  · simp only [List.length_append]
    omega
  · simp only [List.length_append]
    omega

/-- The front of what is left, read and passed. -/
theorem Window.front (h : b.Window gone mid rest) (hn : n ≤ mid.length) :
    Ranges.read b.buffer b.position n = some (mid.take n) ∧
      Window { b with position := b.position + n } (gone ++ mid.take n) (mid.drop n) rest := by
  have hlen : (mid.take n).length = n := List.length_take_of_le hn
  have hread : Ranges.read (gone ++ mid.take n ++ (mid.drop n ++ rest)) gone.length n =
      some (mid.take n) := Ranges.read_mid rfl hlen
  rw [← List.take_append_drop n mid] at h
  refine ⟨?_, ?_⟩
  · rw [h.elements, h.position, ← hread]
    simp only [List.append_assoc]
  · have hmoved := h.advance
    rwa [hlen] at hmoved

/-- Values put over the front of what is left. -/
theorem Window.fill (h : b.Window gone mid rest) {xs : List α} (hlen : xs.length ≤ mid.length) :
    ∃ buffer, Ranges.write b.buffer b.position xs = some buffer ∧
      Window { b with buffer := buffer, position := b.position + xs.length } (gone ++ xs)
        (mid.drop xs.length) rest := by
  rw [← List.take_append_drop xs.length mid] at h
  exact h.write xs (List.length_take_of_le hlen)

theorem Window.putValue (h : b.Window gone mid rest) (text : String) (x : α) :
    ∃ b' r, b.putValue text x = some (b', r) ∧
      (mid = [] ∧ b' = b ∧ (∃ e, r = .error e) ∨
        ∃ y mid', mid = y :: mid' ∧ r = .ok () ∧ b'.Window (gone ++ [x]) mid' rest) := by
  unfold IBuffer.putValue
  rw [h.hasRemaining]
  cases mid with
  | nil => exact ⟨b, _, rfl, .inl ⟨rfl, rfl, _, rfl⟩⟩
  | cons y mid =>
    rw [← List.singleton_append] at h
    obtain ⟨buffer, hwrite, h'⟩ := h.write [x] rfl
    refine ⟨_, _, by simp only [hwrite]; rfl, .inr ⟨y, mid, rfl, rfl, h'⟩⟩

theorem Window.getValue (h : b.Window gone mid rest) (text : String) :
    ∃ b' r, b.getValue text = some (b', r) ∧
      (mid = [] ∧ b' = b ∧ (∃ e, r = .error e) ∨
        ∃ x mid', mid = x :: mid' ∧ r = .ok x ∧ b'.Window (gone ++ [x]) mid' rest) := by
  unfold IBuffer.getValue
  rw [h.hasRemaining]
  cases mid with
  | nil => exact ⟨b, _, rfl, .inl ⟨rfl, rfl, _, rfl⟩⟩
  | cons x mid =>
    have hread : b.buffer[b.position]? = some x := by
      rw [h.elements, h.position]
      simp
    rw [← List.singleton_append] at h
    exact ⟨_, _, by simp only [hread]; rfl, .inr ⟨x, mid, rfl, rfl, h.advance⟩⟩

end IBuffer

end Windows

/-- The indices stay in their order through any calls, and a call that throws changes nothing. -/
def Bounded {ι α : Type} (step : IBuffer α → ι → Option (IBuffer α × Except Failure (List α)))
    (b : IBuffer α) : Prop :=
  ∀ ops : List ι, ∃ b' rs, exec step b ops = some (b', rs) ∧
    b'.position ≤ b'.limit ∧ b'.limit ≤ b'.capacity ∧ b'.buffer.length = b'.capacity ∧
    ∀ op b'' e, step b' op = some (b'', .error e) → b'' = b'

/-- The values of a call that did not throw. -/
def values {ι α : Type} (f : ι → List α → List α) (op : ι) : Except Failure (List α) → List α
  | .ok vs => f op vs
  | .error _ => []

/-- What has been got over whole phases is the front of what has been put. -/
def BoundedFifo {ι α P G : Type}
    (step : IBuffer α → ι → Option (IBuffer α × Except Failure (List α)))
    (given taken : ι → List α → List α) (put : P → ι) (get : G → ι) (flip compact : ι)
    (b : IBuffer α) : Prop :=
  ∀ phases : List (List P × List G), ∃ b' rs,
    exec step b (phases.flatMap (Phases.calls put get flip compact)) = some (b', rs) ∧
    Phases.moved (values taken) (phases.flatMap (Phases.calls put get flip compact)) rs <+:
      Phases.moved (values given) (phases.flatMap (Phases.calls put get flip compact)) rs

section Runs
variable {ι α P G : Type} {step : IBuffer α → ι → Option (IBuffer α × Except Failure (List α))}
  {b : IBuffer α}

theorem bounded_of_sound (h : ∀ b gone mid rest op, b.Window gone mid rest →
      IBuffer.Sound b (step b op))
    {gone mid rest : List α} (hb : b.Window gone mid rest) : Bounded step b := by
  intro ops
  have hkeeps : ∀ (b : IBuffer α) op, (∃ gone mid rest, b.Window gone mid rest) →
      ∃ b' r, step b op = some (b', r) ∧ ∃ gone mid rest, b'.Window gone mid rest := by
    intro b op hb
    obtain ⟨gone, mid, rest, hb⟩ := hb
    obtain ⟨b', r, hstep, hb', _⟩ := h b gone mid rest op hb
    exact ⟨b', r, hstep, hb'⟩
  obtain ⟨b', rs, hrun, gone, mid, rest, hb'⟩ := exec_keeps hkeeps ops ⟨gone, mid, rest, hb⟩
  refine ⟨b', rs, hrun, hb'.bounds.1, hb'.bounds.2, hb'.length, ?_⟩
  intro op b'' e hstep
  obtain ⟨_, _, hstep', _, hsame⟩ := h b' gone mid rest op hb'
  rw [hstep, Option.some.injEq, Prod.mk.injEq] at hstep'
  rw [hstep'.1]
  exact hsame e hstep'.2.symm

/-- A buffer filled from its front, with values to be got. -/
def Filling (b : IBuffer α) (q : List α) : Prop := ∃ free, b.Window q free []

/-- A buffer that has been flipped, with the values still to be got. -/
def Draining (b : IBuffer α) (q : List α) : Prop := ∃ gone rest, b.Window gone q rest

theorem boundedFifo_of_fifo {given taken : ι → List α → List α} {put : P → ι} {get : G → ι}
    {flip compact : ι}
    (h : Phases.Fifo step (values given) (values taken) put get flip compact Filling Draining)
    (hb : Filling b []) : BoundedFifo step given taken put get flip compact b := by
  intro phases
  obtain ⟨b', ins, outs, rest, hmoves, _, hq⟩ := h.run phases hb
  obtain ⟨rs, hrun, rfl, rfl⟩ := hmoves
  exact ⟨b', rs, hrun, rest, hq.symm⟩

end Runs

namespace IBuffer
variable {α β : Type} {b : IBuffer α} {gone mid rest : List α}

theorem Window.sound_putValue (h : b.Window gone mid rest) (text : String) (x : α) :
    Sound b (b.putValue text x) := by
  obtain ⟨b', r, hput, hresult⟩ := h.putValue text x
  rw [hput]
  rcases hresult with ⟨_, rfl, e, rfl⟩ | ⟨y, mid', _, rfl, h'⟩
  · exact Sound.thrown h e
  · exact Sound.done ⟨_, _, _, h'⟩ ()

theorem Window.sound_getValue (h : b.Window gone mid rest) (text : String) :
    Sound b (b.getValue text) := by
  obtain ⟨b', r, hget, hresult⟩ := h.getValue text
  rw [hget]
  rcases hresult with ⟨_, rfl, e, rfl⟩ | ⟨x, mid', _, rfl, h'⟩
  · exact Sound.thrown h e
  · exact Sound.done ⟨_, _, _, h'⟩ x

theorem Window.sound_compact (h : b.Window gone mid rest) (v : β) :
    Sound b (b.compact.map fun b => (b, .ok v)) := by
  obtain ⟨b', free, hcompact, h'⟩ := h.compact
  rw [hcompact]
  exact Sound.done ⟨_, _, _, h'⟩ v

end IBuffer

namespace ByteBuffer
open IBuffer
variable {b : ByteBuffer} {gone mid rest q : List UInt8}

/-- The values that a call puts. -/
def given : Op → List UInt8 → List UInt8
  | .put (.value value), _ => [value]
  | .put (.all src), _ => src
  | _, _ => []

/-- The values that a call gets. -/
def taken : Op → List UInt8 → List UInt8
  | .get _, vs => vs
  | _, _ => []

theorem putAll_window (h : b.Window gone mid rest) (src : List UInt8) :
    ∃ b' r, b.putAll src = some (b', r) ∧
      (b' = b ∧ (∃ e, r = .error e) ∨
        ∃ ys mid', mid = ys ++ mid' ∧ r = .ok () ∧ b'.Window (gone ++ src) mid' rest) := by
  unfold putAll
  split
  · rename_i hempty
    obtain rfl := List.isEmpty_iff.mp hempty
    exact ⟨b, _, rfl, .inr ⟨[], mid, rfl, rfl, by rwa [List.append_nil]⟩⟩
  · rw [h.remaining]
    split
    · exact ⟨b, _, rfl, .inl ⟨rfl, _, rfl⟩⟩
    · rename_i hroom
      obtain ⟨buffer, hwrite, h'⟩ := h.fill (Nat.not_lt.mp hroom)
      exact ⟨_, _, by simp only [hwrite]; rfl,
        .inr ⟨_, _, (List.take_append_drop _ _).symm, rfl, h'⟩⟩

theorem getMany_window (h : b.Window gone mid rest) (length : Nat) :
    ∃ b' r, b.getMany length = some (b', r) ∧
      (b' = b ∧ (∃ e, r = .error e) ∨
        ∃ vs mid', mid = vs ++ mid' ∧ r = .ok vs ∧ b'.Window (gone ++ vs) mid' rest) := by
  unfold getMany
  split
  · exact ⟨b, _, rfl, .inr ⟨[], mid, rfl, rfl, by rwa [List.append_nil]⟩⟩
  · rw [h.remaining]
    split
    · exact ⟨b, _, rfl, .inl ⟨rfl, _, rfl⟩⟩
    · rename_i hroom
      obtain ⟨hread, h'⟩ := h.front (Nat.not_lt.mp hroom)
      exact ⟨_, _, by simp only [hread]; rfl,
        .inr ⟨_, _, (List.take_append_drop _ _).symm, rfl, h'⟩⟩

theorem step_sound (b : ByteBuffer) (gone mid rest : List UInt8) (op : Op)
    (h : b.Window gone mid rest) : Sound b (step b op) := by
  cases op with
  | put p =>
    cases p with
    | value value => exact (h.sound_putValue _ value).map _
    | all src =>
      obtain ⟨b', r, hput, hresult⟩ := putAll_window h src
      have hsound : Sound b (b.putAll src) := by
        rw [hput]
        rcases hresult with ⟨rfl, e, rfl⟩ | ⟨ys, mid', _, rfl, h'⟩
        · exact Sound.thrown h e
        · exact Sound.done ⟨_, _, _, h'⟩ ()
      exact hsound.map _
  | get g =>
    cases g with
    | one => exact (h.sound_getValue _).map _
    | many length =>
      obtain ⟨b', r, hget, hresult⟩ := getMany_window h length
      change Sound b (b.getMany length)
      rw [hget]
      rcases hresult with ⟨rfl, e, rfl⟩ | ⟨vs, mid', _, rfl, h'⟩
      · exact Sound.thrown h e
      · exact Sound.done ⟨_, _, _, h'⟩ vs
  | flip => exact Sound.done ⟨_, _, _, h.flip⟩ []
  | clear => exact Sound.done ⟨_, _, _, h.clear⟩ []
  | rewind => exact Sound.done ⟨_, _, _, h.rewind⟩ []
  | compact => exact h.sound_compact []
  | position newPosition => exact (h.setPosition _ newPosition).map _
  | limit newLimit => exact (h.setLimit _ newLimit).map _

theorem fifo : Phases.Fifo step (values given) (values taken) Op.put Op.get .flip .compact
    Filling Draining := by
  constructor
  · intro b q p hb
    obtain ⟨free, h⟩ := hb
    cases p with
    | value value =>
      obtain ⟨b', r, hput, hresult⟩ := h.putValue "ByteBuffer::put: Buffer overflow" value
      refine ⟨b', r.map fun _ => [], by simp [step, put, hput, noValues], ?_⟩
      rcases hresult with ⟨_, rfl, e, rfl⟩ | ⟨y, free', _, rfl, h'⟩
      · exact ⟨⟨free, by simpa [values, Except.map] using h⟩, rfl⟩
      · exact ⟨⟨free', h'⟩, rfl⟩
    | all src =>
      obtain ⟨b', r, hput, hresult⟩ := putAll_window h src
      refine ⟨b', r.map fun _ => [], by simp [step, hput, noValues], ?_⟩
      rcases hresult with ⟨rfl, e, rfl⟩ | ⟨ys, free', _, rfl, h'⟩
      · exact ⟨⟨free, by simpa [values, Except.map] using h⟩, rfl⟩
      · exact ⟨⟨free', h'⟩, rfl⟩
  · intro b q g hb
    obtain ⟨gone, rest, h⟩ := hb
    cases g with
    | one =>
      obtain ⟨b', r, hget, hresult⟩ := h.getValue "ByteBuffer::get: Buffer underflow"
      refine ⟨b', r.map fun value => [value], ?_⟩
      rcases hresult with ⟨_, rfl, e, rfl⟩ | ⟨x, q', rfl, rfl, h'⟩
      · exact ⟨q, by simp [step, get, hget], ⟨gone, rest, h⟩, rfl, rfl⟩
      · exact ⟨q', by simp [step, get, hget], ⟨_, rest, h'⟩, rfl, rfl⟩
    | many length =>
      obtain ⟨b', r, hget, hresult⟩ := getMany_window h length
      refine ⟨b', r, ?_⟩
      rcases hresult with ⟨rfl, e, rfl⟩ | ⟨vs, q', rfl, rfl, h'⟩
      · exact ⟨q, hget, ⟨gone, rest, h⟩, rfl, rfl⟩
      · exact ⟨q', hget, ⟨_, rest, h'⟩, rfl, rfl⟩
  · intro b q hb
    obtain ⟨free, h⟩ := hb
    exact ⟨b.flip, .ok [], rfl, ⟨_, _, h.flip⟩, rfl, rfl⟩
  · intro b q hb
    obtain ⟨gone, rest, h⟩ := hb
    obtain ⟨b', free, hcompact, h'⟩ := h.compact
    exact ⟨b', .ok [], by simp [step, hcompact], ⟨free, h'⟩, rfl, rfl⟩

end ByteBuffer

namespace IntBuffer
open IBuffer
variable {b : IntBuffer} {gone mid rest q : List Int32}

/-- The values that a call puts behind the others. -/
def given : Op → List Int32 → List Int32
  | .put value, _ => [value]
  | _, _ => []

/-- The values that a call gets from the front. -/
def taken : Op → List Int32 → List Int32
  | .get, vs => vs
  | _, _ => []

theorem sound_putAt (h : b.Window gone mid rest) (index : Nat) (value : Int32) :
    Sound b (b.putAt index value) := by
  unfold putAt
  split
  · exact Sound.thrown h _
  · rename_i hindex
    have hroom : index + 1 ≤ b.buffer.length := by
      have hbounds := h.bounds
      rw [h.length]
      omega
    obtain ⟨A, B, C, hbuffer, hA, hB⟩ := Ranges.cut hroom
    have hwrite := Ranges.write_mid (C := C) hA (hB.trans (List.length_singleton (a := value)).symm)
    rw [← hbuffer] at hwrite
    have hlen : (A ++ [value] ++ C).length = b.capacity := by
      rw [← h.length, hbuffer]
      simp [hB, Nat.add_comm]
    have hshown := window_of_bounds (b := { b with buffer := A ++ [value] ++ C }) hlen h.bounds.2
      h.bounds.1
    rw [hwrite]
    exact Sound.done hshown ()

theorem sound_getAt (h : b.Window gone mid rest) (index : Nat) : Sound b (b.getAt index) := by
  unfold getAt
  split
  · exact Sound.thrown h _
  · rename_i hindex
    have hinside : index < b.buffer.length := by
      have hbounds := h.bounds
      rw [h.length]
      omega
    rw [List.getElem?_eq_getElem hinside]
    exact Sound.done ⟨_, _, _, h⟩ _

theorem step_sound (b : IntBuffer) (gone mid rest : List Int32) (op : Op)
    (h : b.Window gone mid rest) : Sound b (step b op) := by
  cases op with
  | put value => exact (h.sound_putValue _ value).map _
  | putAt index value => exact (sound_putAt h index value).map _
  | get => exact (h.sound_getValue _).map _
  | getAt index => exact (sound_getAt h index).map _
  | flip => exact Sound.done ⟨_, _, _, h.flip⟩ []
  | clear => exact Sound.done ⟨_, _, _, h.clear⟩ []
  | rewind => exact Sound.done ⟨_, _, _, h.rewind⟩ []
  | compact => exact h.sound_compact []
  | position newPosition => exact (h.setPosition _ newPosition).map _
  | limit newLimit => exact (h.setLimit _ newLimit).map _

theorem fifo : Phases.Fifo step (values given) (values taken) Op.put (fun _ : Unit => Op.get) .flip
    .compact Filling Draining := by
  constructor
  · intro b q value hb
    obtain ⟨free, h⟩ := hb
    obtain ⟨b', r, hput, hresult⟩ := h.putValue "IntBuffer::put: Buffer overflow." value
    refine ⟨b', r.map fun _ => [], by simp [step, put, hput, noValues], ?_⟩
    rcases hresult with ⟨_, rfl, e, rfl⟩ | ⟨y, free', _, rfl, h'⟩
    · exact ⟨⟨free, by simpa [values, Except.map] using h⟩, rfl⟩
    · exact ⟨⟨free', h'⟩, rfl⟩
  · intro b q _ hb
    obtain ⟨gone, rest, h⟩ := hb
    obtain ⟨b', r, hget, hresult⟩ := h.getValue "IntBuffer::get: Buffer underflow."
    refine ⟨b', r.map fun value => [value], ?_⟩
    rcases hresult with ⟨_, rfl, e, rfl⟩ | ⟨x, q', rfl, rfl, h'⟩
    · exact ⟨q, by simp [step, get, hget, oneValue], ⟨gone, rest, h⟩, rfl, rfl⟩
    · exact ⟨q', by simp [step, get, hget, oneValue], ⟨_, rest, h'⟩, rfl, rfl⟩
  · intro b q hb
    obtain ⟨free, h⟩ := hb
    exact ⟨b.flip, .ok [], rfl, ⟨_, _, h.flip⟩, rfl, rfl⟩
  · intro b q hb
    obtain ⟨gone, rest, h⟩ := hb
    obtain ⟨b', free, hcompact, h'⟩ := h.compact
    exact ⟨b', .ok [], by simp [step, hcompact], ⟨free, h'⟩, rfl, rfl⟩

end IntBuffer

/-- Both buffers keep their indices in order, and give their values back in the order put. -/
theorem buffers_bounded_fifo (capacity : Nat) :
    (Bounded ByteBuffer.step (ByteBuffer.create capacity) ∧
      BoundedFifo ByteBuffer.step ByteBuffer.given ByteBuffer.taken ByteBuffer.Op.put
        ByteBuffer.Op.get .flip .compact (ByteBuffer.create capacity)) ∧
    (Bounded IntBuffer.step (IntBuffer.create capacity) ∧
      BoundedFifo IntBuffer.step IntBuffer.given IntBuffer.taken IntBuffer.Op.put
        (fun _ : Unit => IntBuffer.Op.get) .flip .compact (IntBuffer.create capacity)) :=
  ⟨⟨bounded_of_sound ByteBuffer.step_sound (IBuffer.create_window 0 capacity),
    boundedFifo_of_fifo ByteBuffer.fifo ⟨_, IBuffer.create_window 0 capacity⟩⟩,
   ⟨bounded_of_sound IntBuffer.step_sound (IBuffer.create_window 0 capacity),
    boundedFifo_of_fifo IntBuffer.fifo ⟨_, IBuffer.create_window 0 capacity⟩⟩⟩

end Cppforge.Io
