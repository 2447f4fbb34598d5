import Cppforge.Io.BufferedStreams
import Cppforge.Lib.Run

namespace Cppforge.Io.BufferedOutputStream
open Run

variable {S : Type} {out : AbstractOutputStream S} {received : S → List UInt8} {size : Nat}
  {s s' : BufferedOutputStream S} {m data : List UInt8} {op : Op}

/-- An underlying stream that appends exactly what it is given to what it has received. -/
structure Appends (out : AbstractOutputStream S) (received : S → List UInt8) : Prop where
  vector : ∀ s data, received (out.writeVector s data) = received s ++ data
  range : ∀ s data offset len, offset + len ≤ data.length →
    received (out.writeRange s data offset len) = received s ++ (data.drop offset).take len
  pointer : ∀ s bytes len, len ≤ bytes.length →
    received (out.writePointer s bytes len) = received s ++ bytes.take len
  flush : ∀ s, received (out.flush s) = received s

/-- The bytes that wait in the buffer. -/
def buffered (s : BufferedOutputStream S) : List UInt8 := s.buffer.take s.bufferPosition

/-- A range that does not lie in the data. -/
def Outside (data : List UInt8) (offset len : Nat) : Prop :=
  len ≠ 0 ∧ (data.length < offset ∨ data.length - offset < len)

instance (data : List UInt8) (offset len : Nat) : Decidable (Outside data offset len) :=
  inferInstanceAs (Decidable (_ ∧ _))

/-- The data that a call writes. -/
def written : Op → List UInt8
  | .byte b => [b]
  | .vector data => data
  | .range data offset len => if Outside data offset len then [] else (data.drop offset).take len
  | .pointer bytes => bytes
  | .null _ => []
  | .flush => []

def outcome : Op → Except StreamError Unit
  | .range data offset len =>
    if Outside data offset len then .error (.outOfRange "Data offset/length out of range")
    else .ok ()
  | .null length => if length = 0 then .ok () else .error (.invalidArgument "Buffer cannot be null")
  | _ => .ok ()

/-- A call on the data written so far. -/
def append (m : List UInt8) (op : Op) : List UInt8 × Except StreamError Unit :=
  (m ++ written op, outcome op)

/-- The data has been received or waits in the buffer, in its order, and a flush hands it all on. -/
def InOrder (out : AbstractOutputStream S) (received : S → List UInt8)
    (s : BufferedOutputStream S) (m : List UInt8) : Prop :=
  received s.outputStream ++ buffered s = m ∧ received (s.flush out).outputStream = m

/-- A vector goes past the bytes in the buffer, so they must be none, or commute with it. -/
def Unbypassed (s : BufferedOutputStream S) : Op → Prop
  | .vector data => buffered s ++ data = data ++ buffered s
  | _ => True

/-- An open stream with data in order. -/
structure Holds (received : S → List UInt8) (size : Nat) (s : BufferedOutputStream S)
    (m : List UInt8) : Prop where
  filterOpen : s.filterClosed = false
  streamOpen : s.closed = false
  bufferSize : s.bufferSize = size
  cells : s.buffer.length = size
  room : s.bufferPosition ≤ size
  order : received s.outputStream ++ buffered s = m

theorem create_holds (received : S → List UInt8) (h : 1 ≤ size) (store : S) :
    ∃ s, create store size = .ok s ∧ Holds received size s (received store) := by
  refine ⟨_, if_neg (by omega), rfl, rfl, rfl, List.length_replicate, Nat.zero_le _, ?_⟩
  simp [buffered]

theorem flushBuffer_holds (happends : Appends out received) (h : Holds received size s m) :
    Holds received size (s.flushBuffer out) m ∧ (s.flushBuffer out).bufferPosition = 0 ∧
      received (s.flushBuffer out).outputStream = m := by
  obtain ⟨hfilter, hopen, hsize, hcells, hroom, horder⟩ := h
  unfold flushBuffer
  split
  · have hreceived : received (out.writeRange s.outputStream s.buffer 0 s.bufferPosition) = m := by
      rw [happends.range _ _ _ _ (by omega), List.drop_zero]
      exact horder
    refine ⟨⟨hfilter, hopen, hsize, hcells, Nat.zero_le _, ?_⟩, rfl, hreceived⟩
    simpa [buffered] using hreceived
  · rename_i hempty
    have hzero : s.bufferPosition = 0 := by omega
    refine ⟨⟨hfilter, hopen, hsize, hcells, hroom, horder⟩, hzero, ?_⟩
    simpa [buffered, hzero] using horder

theorem Holds.push (h : Holds received size s m) (xs : List UInt8)
    (hroom : s.bufferPosition + xs.length ≤ size) :
    ∃ buffer, Ranges.write s.buffer s.bufferPosition xs = some buffer ∧
      Holds received size
        { s with buffer := buffer, bufferPosition := s.bufferPosition + xs.length } (m ++ xs) := by
  obtain ⟨hfilter, hopen, hsize, hcells, _, horder⟩ := h
  obtain ⟨A, B, C, hbuffer, hA, hB⟩ := Ranges.cut (hcells ▸ hroom)
  refine ⟨A ++ xs ++ C, ?_, hfilter, hopen, hsize, ?_, hroom, ?_⟩
  · rw [hbuffer]
    exact Ranges.write_mid hA hB
  · rw [← hcells, hbuffer]
    simp [hB]
  · rw [buffered, hbuffer, List.append_assoc, ← hA, List.take_left] at horder
    rw [buffered, ← hA, ← List.length_append, List.take_left, ← List.append_assoc, horder]

/-- The loop takes the rest of the range through the buffer, flushed whenever it is full. -/
theorem copyLoop_holds (happends : Appends out received) (hsize : 1 ≤ size) {offset len : Nat}
    (hdata : offset + len ≤ data.length) {fuel : Nat} :
    ∀ s m bytesWritten, Holds received size s m → bytesWritten ≤ len →
      len - bytesWritten < fuel →
      ∃ s', copyLoop out data offset len fuel s bytesWritten = some s' ∧
        Holds received size s'
          (m ++ (data.drop (offset + bytesWritten)).take (len - bytesWritten)) := by
  induction fuel with
  | zero => exact fun _ _ _ _ _ hfuel => absurd hfuel (Nat.not_lt_zero _)
  | succ fuel ih =>
    intro s m bytesWritten h hle hfuel
    unfold copyLoop
    split
    · rename_i hmore
      -- After the flush of a full buffer there is room for a byte at least.
      have hready : ∃ s₁, (if s.bufferPosition = s.bufferSize then s.flushBuffer out else s) = s₁ ∧
          Holds received size s₁ m ∧ s₁.bufferPosition < size := by
        refine ⟨_, rfl, ?_⟩
        split
        · obtain ⟨h₁, hzero, _⟩ := flushBuffer_holds happends h
          exact ⟨h₁, by omega⟩
        · rename_i hfull
          have hroom := h.room
          rw [h.bufferSize] at hfull
          exact ⟨h, by omega⟩
      obtain ⟨s₁, hs₁, h₁, hlt⟩ := hready
      have hsame := h₁.bufferSize
      obtain ⟨n, hn⟩ : ∃ n, min (len - bytesWritten) (s₁.bufferSize - s₁.bufferPosition) = n :=
        ⟨_, rfl⟩
      have hread : Ranges.read data (offset + bytesWritten) n =
          some ((data.drop (offset + bytesWritten)).take n) := if_pos (by omega)
      have hlength : ((data.drop (offset + bytesWritten)).take n).length = n := by
        rw [List.length_take, List.length_drop]
        omega
      obtain ⟨buffer, hwrite, h₂⟩ := h₁.push ((data.drop (offset + bytesWritten)).take n) (by omega)
      rw [hlength] at h₂
      obtain ⟨s', hloop, h'⟩ := ih _ _ (bytesWritten + n) h₂ (by omega) (by omega)
      refine ⟨s', ?_, ?_⟩
      · simp only [hs₁, hn, hread, hwrite, Option.bind_eq_bind, Option.bind_some]
        exact hloop
      · have hsplit : len - bytesWritten = n + (len - (bytesWritten + n)) := by omega
        rw [hsplit, List.take_add, List.drop_drop, ← List.append_assoc, Nat.add_assoc]
        exact h'
    · rename_i hend
      obtain rfl : bytesWritten = len := by omega
      exact ⟨s, rfl, by simpa using h⟩

/-- Data that a call hands on past an empty buffer, or takes through it. -/
theorem copy_holds (happends : Appends out received) (hsize : 1 ≤ size)
    (h : Holds received size s m) {offset len : Nat} (hdata : offset + len ≤ data.length) :
    ∃ s', copyLoop out data offset len (len + 1) s 0 = some s' ∧
      Holds received size s' (m ++ (data.drop offset).take len) := by
  obtain ⟨s', hloop, h'⟩ := copyLoop_holds happends hsize hdata s m 0 h (Nat.zero_le _)
    (Nat.lt_succ_self _)
  exact ⟨s', hloop, h'⟩

theorem Holds.through (happends : Appends out received) (h : Holds received size s m) {store : S}
    (hstore : received store = m ++ data) :
    Holds received size { s.flushBuffer out with outputStream := store } (m ++ data) := by
  obtain ⟨⟨hfilter, hopen, hsize, hcells, hroom, _⟩, hzero, _⟩ := flushBuffer_holds happends h
  exact ⟨hfilter, hopen, hsize, hcells, hroom, by simp [buffered, hzero, hstore]⟩

theorem writeRange_holds (happends : Appends out received) (hsize : 1 ≤ size)
    (h : Holds received size s m) (data : List UInt8) (offset len : Nat) :
    ∃ s', s.writeRange out data offset len = some (s', outcome (.range data offset len)) ∧
      Holds received size s' (m ++ written (.range data offset len)) := by
  by_cases hout : Outside data offset len
  · have houtcome : outcome (.range data offset len) =
        .error (.outOfRange "Data offset/length out of range") := if_pos hout
    have hwritten : written (.range data offset len) = [] := if_pos hout
    refine ⟨s, ?_, by rwa [hwritten, List.append_nil]⟩
    simp [writeRange, h.streamOpen, hout.1, hout.2, houtcome]
  · have houtcome : outcome (.range data offset len) = .ok () := if_neg hout
    have hwritten : written (.range data offset len) = (data.drop offset).take len := if_neg hout
    rw [houtcome, hwritten]
    unfold writeRange
    split
    · rename_i hnone
      rw [h.streamOpen, or_iff_left Bool.false_ne_true] at hnone
      exact ⟨s, rfl, by simpa [hnone] using h⟩
    · rename_i hsome
      rw [not_or] at hsome
      have hinside : ¬ (data.length < offset ∨ data.length - offset < len) :=
        fun hbad => hout ⟨hsome.1, hbad⟩
      have hdata : offset + len ≤ data.length := by omega
      rw [if_neg hinside]
      split
      · obtain ⟨_, _, hreceived⟩ := flushBuffer_holds happends h
        refine ⟨_, rfl, h.through happends ?_⟩
        rw [happends.range _ _ _ _ hdata, hreceived]
      · obtain ⟨s', hloop, h'⟩ := copy_holds happends hsize h hdata
        exact ⟨s', by rw [hloop, Option.map_some], h'⟩

theorem writePointer_holds (happends : Appends out received) (hsize : 1 ≤ size)
    (h : Holds received size s m) (bytes : List UInt8) :
    ∃ s', s.writePointer out (some bytes) bytes.length = some (s', .ok ()) ∧
      Holds received size s' (m ++ bytes) := by
  unfold writePointer
  split
  · rename_i hnone
    rw [h.streamOpen, or_iff_left Bool.false_ne_true] at hnone
    exact ⟨s, rfl, by simpa [List.eq_nil_of_length_eq_zero hnone] using h⟩
  · dsimp only
    split
    · obtain ⟨_, _, hreceived⟩ := flushBuffer_holds happends h
      refine ⟨_, rfl, h.through happends ?_⟩
      rw [happends.pointer _ _ _ (Nat.le_refl _), hreceived, List.take_length]
    · have hdata : 0 + bytes.length ≤ bytes.length := Nat.le_of_eq (Nat.zero_add _)
      obtain ⟨s', hloop, h'⟩ := copy_holds happends hsize h hdata
      exact ⟨s', by rw [hloop, Option.map_some], by simpa using h'⟩

theorem write_holds (happends : Appends out received) (hsize : 1 ≤ size)
    (h : Holds received size s m) (b : UInt8) :
    ∃ s', s.write out b = some s' ∧ Holds received size s' (m ++ [b]) := by
  have hready : ∃ s₁, (if s.bufferSize ≤ s.bufferPosition then s.flushBuffer out else s) = s₁ ∧
      Holds received size s₁ m ∧ s₁.bufferPosition < size := by
    refine ⟨_, rfl, ?_⟩
    split
    · obtain ⟨h₁, hzero, _⟩ := flushBuffer_holds happends h
      exact ⟨h₁, by omega⟩
    · rename_i hfull
      rw [h.bufferSize] at hfull
      exact ⟨h, by omega⟩
  obtain ⟨s₁, hs₁, h₁, hlt⟩ := hready
  obtain ⟨buffer, hwrite, h'⟩ := h₁.push [b] hlt
  refine ⟨_, ?_, h'⟩
  simp only [write, h.streamOpen, hs₁, hwrite]
  rfl

theorem flush_holds (happends : Appends out received) (h : Holds received size s m) :
    Holds received size (s.flush out) m ∧ received (s.flush out).outputStream = m := by
  obtain ⟨_, _, hreceived⟩ := flushBuffer_holds happends h
  have hflush : received (out.flush (s.flushBuffer out).outputStream) = m := by
    rw [happends.flush, hreceived]
  refine ⟨?_, hflush⟩
  rw [← List.append_nil m] at hflush ⊢
  exact h.through happends hflush

theorem Holds.inOrder (happends : Appends out received) (h : Holds received size s m) :
    InOrder out received s m := ⟨h.order, (flush_holds happends h).2⟩

theorem step_holds (happends : Appends out received) (hsize : 1 ≤ size)
    (s : BufferedOutputStream S) (m : List UInt8) (op : Op) (h : Holds received size s m)
    (hop : Unbypassed s op) :
    ∃ s', step out s op = some (s', (append m op).2) ∧ Holds received size s' (append m op).1 := by
  cases op with
  | byte b =>
    obtain ⟨s', hwrite, h'⟩ := write_holds happends hsize h b
    exact ⟨s', by rw [step, hwrite]; rfl, h'⟩
  | vector data =>
    refine ⟨{ s with outputStream := out.writeVector s.outputStream data }, ?_, h.filterOpen,
      h.streamOpen, h.bufferSize, h.cells, h.room, ?_⟩
    · rw [step, writeVector, h.filterOpen, if_neg Bool.false_ne_true]
      rfl
    · change received (out.writeVector s.outputStream data) ++ buffered s = m ++ data
      rw [happends.vector, List.append_assoc, ← hop, ← List.append_assoc, h.order]
  | range data offset len => exact writeRange_holds happends hsize h data offset len
  | pointer bytes => exact writePointer_holds happends hsize h bytes
  | null length =>
    refine ⟨s, ?_, by simpa [append, written] using h⟩
    simp only [step, writePointer, append, outcome, h.streamOpen, or_iff_left Bool.false_ne_true]
    split <;> rfl
  | flush => exact ⟨_, rfl, by simpa [append, written] using (flush_holds happends h).1⟩

/-- A vector that does not commute with the bytes in the buffer comes before them. -/
theorem bypassed_order (happends : Appends out received) (h : Holds received size s m)
    (hop : ¬ Unbypassed s op) (hstep : step out s op = some (s', (append m op).2)) :
    ¬ InOrder out received s' (append m op).1 := by
  cases op with
  | vector data =>
    intro horder
    rw [step, writeVector, h.filterOpen, if_neg Bool.false_ne_true, Option.some.injEq,
      Prod.mk.injEq] at hstep
    have hreceived := horder.1
    rw [← hstep.1] at hreceived
    change received (out.writeVector s.outputStream data) ++ buffered s = m ++ data at hreceived
    rw [happends.vector, ← h.order, List.append_assoc, List.append_assoc,
      List.append_cancel_left_eq] at hreceived
    exact hop hreceived.symm
  | byte | range | pointer | null | flush => exact absurd trivial hop

/-- Through a whole run the data stays in the order of the calls exactly where each vector
commutes with the bytes that it finds in the buffer. -/
theorem written_in_order_iff (happends : Appends out received) (hsize : 1 ≤ size) (store : S) :
    ∃ s, create store size = .ok s ∧ ∀ ops : List Op,
      (Refines (step out) append (InOrder out received) s (received store) ops ↔
        Meets (step out) Unbypassed s ops) := by
  obtain ⟨s, hcreate, h⟩ := create_holds received hsize store
  refine ⟨s, hcreate, ?_⟩
  intro ops
  exact refines_iff (fun _ _ h => h.inOrder happends) (step_holds happends hsize)
    (fun _ _ _ h hop _ hstep => bypassed_order happends h hop hstep) ops h

/-- A stream that is the list of what it has received. -/
def listStream : AbstractOutputStream (List UInt8) where
  writeVector s data := s ++ data
  writeRange s data offset len := s ++ (data.drop offset).take len
  writePointer s bytes len := s ++ bytes.take len
  flush s := s

theorem listStream_appends : Appends listStream id :=
  ⟨fun _ _ => rfl, fun _ _ _ _ _ => rfl, fun _ _ _ _ => rfl, fun _ => rfl⟩

/-- A byte that waits in the buffer, and a vector that does not. -/
theorem vector_overtakes : ∃ s s' rs, create ([] : List UInt8) 4 = .ok s ∧
    exec (step listStream) s [.byte 1, .vector [2], .flush] = some (s', rs) ∧
    s'.outputStream = [2, 1] :=
  ⟨_, _, _, rfl, rfl, rfl⟩

/-- A vector written to an empty buffer, and a range longer than the buffer. -/
theorem written_in_order_iff_calls : ∃ s, create ([] : List UInt8) 2 = .ok s ∧
    (Refines (step listStream) append (InOrder listStream id) s []
        [.vector [1], .byte 2, .range [0, 3, 4, 5] 1 3] ↔
      Meets (step listStream) Unbypassed s [.vector [1], .byte 2, .range [0, 3, 4, 5] 1 3]) := by
  obtain ⟨s, hcreate, hruns⟩ := written_in_order_iff listStream_appends (Nat.le_succ 1) []
  exact ⟨s, hcreate, hruns _⟩

end Cppforge.Io.BufferedOutputStream
