import Cppforge.Io.BufferedStreams
import Cppforge.Lib.Run

namespace Cppforge.Io.BufferedInputStream
open Run

variable {S : Type} {inp : AbstractInputStream S} {rest : S → List UInt8} {size n : Nat}
  {s s' : BufferedInputStream S} {m buffer : List UInt8} {op : Op}

/-- Bytes read from the front of a sequence into a range of a vector, as many as there are: what is
left, the vector, and their number. -/
def deliver (m buffer : List UInt8) (offset len : Nat) : List UInt8 × List UInt8 × Nat :=
  let n := min len m.length
  (m.drop n, buffer.take offset ++ m.take n ++ buffer.drop (offset + n), n)

theorem deliver_left (m buffer : List UInt8) (offset len : Nat) :
    (deliver m buffer offset len).1 = m.drop len := by
  rw [deliver, List.drop_eq_drop_iff]
  omega

/-- An underlying stream whose bulk reads deliver from a sequence, `rest` being what is left. -/
structure Yields (inp : AbstractInputStream S) (rest : S → List UInt8) : Prop where
  vector : ∀ s buffer, (rest (inp.readVector s buffer).1, (inp.readVector s buffer).2) =
    deliver (rest s) buffer 0 buffer.length
  range : ∀ s buffer offset len, offset + len ≤ buffer.length →
    (rest (inp.readRange s buffer offset len).1, (inp.readRange s buffer offset len).2) =
      deliver (rest s) buffer offset len

/-- A call on the sequence itself. -/
def serve (m : List UInt8) : Op → List UInt8 × Answer
  | .read =>
    match m with
    | [] => ([], .byte 255)
    | b :: m => (m, .byte b)
  | .vector buffer =>
    let d := deliver m buffer 0 buffer.length
    (d.1, .filled d.2.1 d.2.2)
  | .range buffer offset len =>
    if buffer.length < offset ∨ buffer.length - offset < len then
      (m, .thrown (.outOfRange "BufferedInputStream::read: Buffer offset/length out of range"))
    else
      let d := deliver m buffer offset len
      (d.1, .filled d.2.1 d.2.2)
  | .skip n => (m.drop n.toNat, .skipped (min n.toNat m.length : Nat))

/-- The bytes of the buffer that no call has had yet. -/
def unread (s : BufferedInputStream S) : List UInt8 := (s.buf.take s.count).drop s.pos

/-- What the calls to come will see. -/
def Transparent (rest : S → List UInt8) (s : BufferedInputStream S) (m : List UInt8) : Prop :=
  unread s ++ rest s.inputStream = m

/-- A vector is read past the bytes in the buffer, so they must be none, or commute with those that
it gets in their stead. -/
def Unbypassed (rest : S → List UInt8) (s : BufferedInputStream S) : Op → Prop
  | .vector buffer => unread s = [] ∨ buffer.length ≤ (rest s.inputStream).length ∧
      unread s ++ (rest s.inputStream).take buffer.length =
        (rest s.inputStream).take buffer.length ++ unread s
  | _ => True

structure Holds (rest : S → List UInt8) (size : Nat) (s : BufferedInputStream S)
    (m : List UInt8) : Prop where
  cells : s.buf.length = size
  filled : s.count ≤ size
  bounds : s.pos ≤ s.count
  order : Transparent rest s m

theorem create_holds (rest : S → List UInt8) (h : 1 ≤ size) (store : S) :
    ∃ s, create store size = .ok s ∧ Holds rest size s (rest store) :=
  ⟨_, if_neg (by omega), List.length_replicate, Nat.zero_le _, Nat.le_refl _, rfl⟩

theorem Holds.available (h : Holds rest size s m) : s.available = s.count - s.pos :=
  if_pos h.bounds

theorem Holds.length_unread (h : Holds rest size s m) : (unread s).length = s.count - s.pos := by
  rw [unread, List.length_drop, List.length_take, h.cells, Nat.min_eq_left h.filled]

theorem Holds.unread_eq_nil (h : Holds rest size s m) : unread s = [] ↔ s.count - s.pos = 0 := by
  rw [← h.length_unread, List.length_eq_zero_iff]

/-- Filling the buffer takes as much from the sequence as there is and has room. -/
theorem fillBuffer_eq (hyields : Yields inp rest) (hcells : s.buf.length = size)
    (hrest : rest s.inputStream = m) :
    s.fillBuffer inp = ⟨(inp.readRange s.inputStream s.buf 0 size).1, s.eof,
        m.take (min size m.length) ++ s.buf.drop (min size m.length), min size m.length, 0⟩ ∧
      rest (inp.readRange s.inputStream s.buf 0 size).1 = m.drop size := by
  have hrange := hyields.range s.inputStream s.buf 0 s.buf.length (Nat.le_of_eq (Nat.zero_add _))
  rw [Prod.ext_iff, hrest, deliver_left, hcells] at hrange
  obtain ⟨hleft, hgot⟩ := hrange
  have hbuf := congrArg Prod.fst hgot
  have hcount := congrArg Prod.snd hgot
  simp only [deliver, List.take_zero, List.nil_append, Nat.zero_add] at hbuf hcount
  exact ⟨by rw [fillBuffer, hcells, hbuf, hcount], hleft⟩

/-- Filling an empty buffer takes nothing from what is to come. -/
theorem fillBuffer_holds (hyields : Yields inp rest) (h : Holds rest size s m)
    (hempty : s.count - s.pos = 0) :
    Holds rest size (s.fillBuffer inp) m ∧ (s.fillBuffer inp).pos = 0 ∧
      (s.fillBuffer inp).count = min size m.length := by
  have hrest : rest s.inputStream = m := by
    have horder := h.order
    rw [Transparent, h.unread_eq_nil.mpr hempty] at horder
    exact horder
  have hcells := h.cells
  obtain ⟨hfilled, hleft⟩ := fillBuffer_eq hyields hcells hrest
  have htake : (m.take (min size m.length)).length = min size m.length := by
    rw [List.length_take]
    omega
  rw [hfilled]
  refine ⟨⟨?_, Nat.min_le_left _ _, Nat.zero_le _, ?_⟩, rfl, rfl⟩
  · simp only [List.length_append, htake, List.length_drop, hcells]
    omega
  · have hunread : (m.take (min size m.length) ++ s.buf.drop (min size m.length)).take
        (min size m.length) = m.take size := by
      rw [List.take_left' htake, List.take_eq_take_iff]
      omega
    simp only [Transparent, unread, hunread, List.drop_zero, hleft, List.take_append_drop]

/-- Only at the end of the sequence does the buffer stay empty. -/
theorem refill_holds (hsize : 1 ≤ size) (hyields : Yields inp rest) (h : Holds rest size s m) :
    Holds rest size (s.refill inp) m ∧
      ((s.refill inp).count - (s.refill inp).pos = 0 → m = []) := by
  unfold refill
  rw [h.available]
  split
  · rename_i hempty
    obtain ⟨h', hpos, hcount⟩ := fillBuffer_holds hyields h hempty
    refine ⟨h', ?_⟩
    intro hnone
    apply List.eq_nil_of_length_eq_zero
    omega
  · rename_i hsome
    exact ⟨h, fun hnone => absurd hnone hsome⟩

/-- Bytes taken from the buffer are the next of the sequence. -/
theorem Holds.take (h : Holds rest size s m) (hn : n ≤ s.count - s.pos) :
    Ranges.read s.buf s.pos n = some (m.take n) ∧ n ≤ m.length ∧
      Holds rest size { s with pos := s.pos + n } (m.drop n) := by
  have hlen := h.length_unread
  have horder := h.order
  unfold Transparent at horder
  have hcells := h.cells
  have hfilled := h.filled
  have hbounds := h.bounds
  have hpos : s.pos + n ≤ s.count := by omega
  refine ⟨?_, ?_, h.cells, h.filled, hpos, ?_⟩
  · rw [Ranges.read, if_pos (by omega), ← horder, List.take_append_of_le_length (by omega), unread,
      List.take_drop, List.take_drop, List.take_take, Nat.min_eq_left (by omega)]
  · rw [← horder, List.length_append]
    omega
  · rw [← horder, List.drop_append_of_le_length (by omega)]
    simp only [Transparent, unread, List.drop_drop]

/-- Some bytes delivered first, and the others behind them. -/
theorem deliver_add {offset : Nat} (len : Nat) (hn : n ≤ len) (hm : n ≤ m.length)
    (hroom : offset + len ≤ buffer.length) :
    ∃ buffer', Ranges.write buffer offset (m.take n) = some buffer' ∧
      buffer'.length = buffer.length ∧
      ∀ d, deliver (m.drop n) buffer' (offset + n) (len - n) = d →
        deliver m buffer offset len = (d.1, d.2.1, n + d.2.2) := by
  have htake : (m.take n).length = n := by
    rw [List.length_take]
    omega
  obtain ⟨A, B, C, rfl, hA, hB⟩ := Ranges.cut (l := buffer) (i := offset) (n := n) (by omega)
  refine ⟨A ++ m.take n ++ C, Ranges.write_mid hA (hB.trans htake.symm), by simp [hB, htake], ?_⟩
  rintro d rfl
  obtain ⟨k, hk⟩ : ∃ k, min (len - n) (m.drop n).length = k := ⟨_, rfl⟩
  have hmin : min len m.length = n + k := by
    rw [← hk, List.length_drop]
    omega
  have hbehind : ∀ xs : List UInt8, xs.length = n →
      (A ++ xs ++ C).drop (offset + n + k) = C.drop k := by
    intro xs hxs
    rw [← hA, ← hxs, ← List.length_append, List.drop_length_add_append]
  have hfront : (A ++ m.take n ++ C).take (offset + n) = A ++ m.take n := by
    rw [← hA]
    exact List.take_left' (by rw [List.length_append, htake])
  simp only [deliver, hmin, hk, hfront, hbehind _ htake, ← Nat.add_assoc, hbehind B hB,
    List.drop_drop]
  rw [List.append_assoc A B C, List.take_left' hA, List.take_add]
  simp only [List.append_assoc]

theorem deliver_nil (buffer : List UInt8) (offset len : Nat) :
    deliver [] buffer offset len = ([], buffer, 0) := by
  simp [deliver]

theorem deliver_zero (m buffer : List UInt8) (offset : Nat) :
    deliver m buffer offset 0 = (m, buffer, 0) := by
  simp [deliver]

/-- The loop delivers the range, from one filling of the buffer after the other. -/
theorem readLoop_holds (hsize : 1 ≤ size) (hyields : Yields inp rest) {fuel : Nat} :
    ∀ s m buffer currentOffset remainingLen totalBytesRead, Holds rest size s m →
      currentOffset + remainingLen ≤ buffer.length → remainingLen < fuel →
      ∃ s', readLoop inp fuel s buffer currentOffset remainingLen totalBytesRead =
          some (s', (deliver m buffer currentOffset remainingLen).2.1,
            totalBytesRead + (deliver m buffer currentOffset remainingLen).2.2) ∧
        Holds rest size s' (deliver m buffer currentOffset remainingLen).1 := by
  induction fuel with
  | zero => exact fun _ _ _ _ _ _ _ _ hfuel => absurd hfuel (Nat.not_lt_zero _)
  | succ fuel ih =>
    intro s m buffer currentOffset remainingLen totalBytesRead h hroom hfuel
    unfold readLoop
    split
    · rename_i hmore
      obtain ⟨h₁, hend⟩ := refill_holds hsize hyields h
      generalize s.refill inp = s₁ at h₁ hend
      dsimp only
      rw [h₁.available]
      split
      · rename_i hnone
        obtain rfl := hend hnone
        rw [deliver_nil]
        exact ⟨s₁, rfl, h₁⟩
      · rename_i hsome
        obtain ⟨n, hn⟩ : ∃ n, min remainingLen (s₁.count - s₁.pos) = n := ⟨_, rfl⟩
        obtain ⟨hread, hm, h₂⟩ := h₁.take (n := n) (by omega)
        obtain ⟨buffer', hwrite, hlength, hdeliver⟩ :=
          deliver_add remainingLen (by omega) hm hroom
        obtain ⟨s', hloop, h'⟩ := ih { s₁ with pos := s₁.pos + n } (m.drop n) buffer'
          (currentOffset + n) (remainingLen - n) (totalBytesRead + n) h₂ (by omega) (by omega)
        rw [hdeliver _ rfl]
        refine ⟨s', ?_, h'⟩
        simp only [hn, hread, hwrite, Option.bind_eq_bind, Option.bind_some]
        rw [hloop, Nat.add_assoc]
    · rename_i hend
      obtain rfl : remainingLen = 0 := by omega
      rw [deliver_zero]
      exact ⟨s, rfl, h⟩

/-- The loop passes over as many bytes as there are, up to the number asked for. -/
theorem skipLoop_holds (hsize : 1 ≤ size) (hyields : Yields inp rest) {fuel : Nat} :
    ∀ s m (remaining skipped : Int), Holds rest size s m → remaining.toNat < fuel →
      ∃ s', skipLoop inp fuel s remaining skipped =
          some (s', skipped + (min remaining.toNat m.length : Nat)) ∧
        Holds rest size s' (m.drop remaining.toNat) := by
  induction fuel with
  | zero => exact fun _ _ _ _ _ hfuel => absurd hfuel (Nat.not_lt_zero _)
  | succ fuel ih =>
    intro s m remaining skipped h hfuel
    unfold skipLoop
    split
    · rename_i hmore
      obtain ⟨h₁, hend⟩ := refill_holds hsize hyields h
      generalize s.refill inp = s₁ at h₁ hend
      dsimp only
      rw [h₁.available]
      split
      · rename_i hnone
        obtain rfl := hend hnone
        exact ⟨s₁, by simp, by simpa using h₁⟩
      · rename_i hsome
        obtain ⟨n, hn⟩ : ∃ n, min remaining.toNat (s₁.count - s₁.pos) = n := ⟨_, rfl⟩
        obtain ⟨_, hm, h₂⟩ := h₁.take (n := n) (by omega)
        obtain ⟨s', hloop, h'⟩ := ih { s₁ with pos := s₁.pos + n } (m.drop n) (remaining - n)
          (skipped + n) h₂ (by omega)
        rw [hn]
        refine ⟨s', ?_, ?_⟩
        · rw [hloop, List.length_drop]
          congr 2
          omega
        · rw [List.drop_drop] at h'
          have hsum : n + (remaining - n).toNat = remaining.toNat := by omega
          rwa [hsum] at h'
    · rename_i hend
      have hzero : remaining.toNat = 0 := by omega
      exact ⟨s, by simp [hzero], by simpa [hzero] using h⟩

/-- `read` fills the buffer where the other calls do. -/
theorem refill_eq (h : Holds rest size s m) :
    (if s.count ≤ s.pos then s.fillBuffer inp else s) = s.refill inp := by
  have hbounds := h.bounds
  unfold refill
  rw [h.available]
  by_cases hempty : s.count ≤ s.pos
  · rw [if_pos hempty, if_pos (by omega)]
  · rw [if_neg hempty, if_neg (by omega)]

theorem read_holds (hsize : 1 ≤ size) (hyields : Yields inp rest) (h : Holds rest size s m) :
    ∃ s', s.read inp = some (s', (serve m .read).2) ∧ Holds rest size s' (serve m .read).1 := by
  obtain ⟨h₁, hend⟩ := refill_holds hsize hyields h
  unfold read
  rw [refill_eq h]
  generalize s.refill inp = s₁ at h₁ hend
  dsimp only
  split
  · rename_i hnone
    obtain rfl := hend (by omega)
    exact ⟨_, rfl, h₁.cells, h₁.filled, h₁.bounds, h₁.order⟩
  · rename_i hsome
    obtain ⟨hread, hm, h'⟩ := h₁.take (n := 1) (by omega)
    cases m with
    | nil => exact absurd hm (Nat.not_succ_le_zero _)
    | cons b m =>
      have hcell : s₁.buf[s₁.pos]? = some b := Ranges.read_one hread
      exact ⟨_, by rw [hcell]; rfl, h'⟩

theorem readRange_holds (hsize : 1 ≤ size) (hyields : Yields inp rest) (h : Holds rest size s m)
    (buffer : List UInt8) (offset len : Nat) :
    ∃ s', s.readRange inp buffer offset len = some (s', (serve m (.range buffer offset len)).2) ∧
      Holds rest size s' (serve m (.range buffer offset len)).1 := by
  unfold readRange
  by_cases hbad : buffer.length < offset ∨ buffer.length - offset < len
  · have hserve : serve m (.range buffer offset len) = (m, .thrown
        (.outOfRange "BufferedInputStream::read: Buffer offset/length out of range")) := if_pos hbad
    rw [hserve, if_pos hbad]
    exact ⟨s, rfl, h⟩
  · have hserve : serve m (.range buffer offset len) = ((deliver m buffer offset len).1,
        .filled (deliver m buffer offset len).2.1 (deliver m buffer offset len).2.2) := if_neg hbad
    rw [hserve, if_neg hbad]
    split
    · rename_i hzero
      rw [hzero, deliver_zero]
      exact ⟨s, rfl, h⟩
    · obtain ⟨s', hloop, h'⟩ := readLoop_holds hsize hyields s m buffer offset len 0 h (by omega)
        (Nat.lt_succ_self _)
      rw [Nat.zero_add] at hloop
      exact ⟨s', by rw [hloop, Option.map_some], h'⟩

theorem skip_holds (hsize : 1 ≤ size) (hyields : Yields inp rest) (h : Holds rest size s m)
    (n : Int) :
    ∃ s', s.skip inp n = some (s', (serve m (.skip n)).2) ∧
      Holds rest size s' (serve m (.skip n)).1 := by
  unfold skip
  split
  · rename_i hnone
    have hzero : n.toNat = 0 := by omega
    exact ⟨s, by simp [serve, hzero], by simpa [serve, hzero] using h⟩
  · obtain ⟨s', hloop, h'⟩ := skipLoop_holds hsize hyields s m n 0 h (Nat.lt_succ_self _)
    rw [Int.zero_add] at hloop
    exact ⟨s', by rw [hloop, Option.map_some]; rfl, h'⟩

/-- A vector is read from the sequence behind the bytes in the buffer, which stay there. -/
theorem readVector_past (hyields : Yields inp rest) (s : BufferedInputStream S)
    (buffer : List UInt8) :
    let d := deliver (rest s.inputStream) buffer 0 buffer.length
    (s.readVector inp buffer).2 = .filled d.2.1 d.2.2 ∧
      unread (s.readVector inp buffer).1 = unread s ∧
      rest (s.readVector inp buffer).1.inputStream = (rest s.inputStream).drop buffer.length := by
  have hvector := hyields.vector s.inputStream buffer
  rw [Prod.mk.injEq] at hvector
  obtain ⟨hleft, hgot⟩ := hvector
  refine ⟨?_, rfl, ?_⟩
  · rw [← hgot]
    rfl
  · change rest (inp.readVector s.inputStream buffer).1 = _
    rw [hleft, deliver_left]

/-- With bytes `q` waiting in front of `u` it makes no difference to read past them exactly where
there are none, or where enough others come to replace them and the two commute. -/
theorem bypass_iff {q u : List UInt8} (buffer : List UInt8) :
    (deliver u buffer 0 buffer.length).2 = (deliver (q ++ u) buffer 0 buffer.length).2 ∧
        q ++ u.drop buffer.length = (q ++ u).drop buffer.length ↔
      q = [] ∨ buffer.length ≤ u.length ∧
        q ++ u.take buffer.length = u.take buffer.length ++ q := by
  have hsplit : q ++ u = q ++ u.take buffer.length ++ u.drop buffer.length := by
    rw [List.append_assoc, List.take_append_drop]
  constructor
  · intro h
    obtain ⟨hgot, hleft⟩ := h
    by_cases hq : q = []
    · exact .inl hq
    · have hpos : 0 < q.length := List.length_pos_of_ne_nil hq
      simp only [deliver, Prod.mk.injEq, List.length_append, List.take_zero, List.nil_append,
        Nat.zero_add] at hgot
      have hle : buffer.length ≤ u.length := by omega
      obtain ⟨hbytes, _⟩ := hgot
      rw [Nat.min_eq_left hle, Nat.min_eq_left (by omega), List.append_cancel_right_eq] at hbytes
      refine .inr ⟨hle, ?_⟩
      have hall : q ++ u.take buffer.length ++ u.drop buffer.length =
          u.take buffer.length ++ q ++ u.drop buffer.length := by
        rw [← hsplit, List.append_assoc, hleft, hbytes, List.take_append_drop]
      exact List.append_cancel_right hall
  · intro h
    rcases h with rfl | ⟨hle, hcommute⟩
    · exact ⟨rfl, rfl⟩
    · have htake : (u.take buffer.length).length = buffer.length := by
        rw [List.length_take, Nat.min_eq_left hle]
      rw [hcommute, List.append_assoc] at hsplit
      have hbytes : (q ++ u).take buffer.length = u.take buffer.length := by
        rw [hsplit]
        exact List.take_left' htake
      have hleft : (q ++ u).drop buffer.length = q ++ u.drop buffer.length := by
        rw [hsplit]
        exact List.drop_left' htake
      have hmin : min buffer.length (q ++ u).length = buffer.length := by
        rw [List.length_append]
        omega
      refine ⟨?_, hleft.symm⟩
      simp only [deliver, hmin, Nat.min_eq_left hle, hbytes]

/-- A vector is served as from the sequence itself exactly where it is read past nothing, or past
bytes that commute with those it gets. -/
theorem readVector_iff (hyields : Yields inp rest) (h : Holds rest size s m)
    (buffer : List UInt8) :
    (s.readVector inp buffer).2 = (serve m (.vector buffer)).2 ∧
        Transparent rest (s.readVector inp buffer).1 (serve m (.vector buffer)).1 ↔
      Unbypassed rest s (.vector buffer) := by
  obtain ⟨hanswer, hunread, hrest⟩ := readVector_past hyields s buffer
  have horder := h.order
  unfold Transparent at horder
  rw [hanswer, Transparent, hunread, hrest, serve, deliver_left, Answer.filled.injEq,
    ← Prod.ext_iff, ← horder]
  exact bypass_iff buffer

theorem step_holds (hsize : 1 ≤ size) (hyields : Yields inp rest) (s : BufferedInputStream S)
    (m : List UInt8) (op : Op) (h : Holds rest size s m) (hop : Unbypassed rest s op) :
    ∃ s', step inp s op = some (s', (serve m op).2) ∧ Holds rest size s' (serve m op).1 := by
  cases op with
  | read => exact read_holds hsize hyields h
  | vector buffer =>
    obtain ⟨hanswer, horder⟩ := (readVector_iff hyields h buffer).mpr hop
    exact ⟨(s.readVector inp buffer).1, by rw [step, ← hanswer], h.cells, h.filled, h.bounds,
      horder⟩
  | range buffer offset len => exact readRange_holds hsize hyields h buffer offset len
  | skip n => exact skip_holds hsize hyields h n

theorem bypassed_serve (hyields : Yields inp rest) (h : Holds rest size s m)
    (hop : ¬ Unbypassed rest s op) (hstep : step inp s op = some (s', (serve m op).2)) :
    ¬ Transparent rest s' (serve m op).1 := by
  cases op with
  | vector buffer =>
    intro horder
    rw [step, Option.some.injEq] at hstep
    apply hop
    rw [← readVector_iff hyields h buffer, hstep]
    exact ⟨rfl, horder⟩
  | read | range | skip => exact absurd trivial hop

/-- Through a whole run the calls are served as from the sequence itself, and leave the same of it,
exactly where each vector is read past nothing or past bytes that commute with those it gets. -/
theorem transparent_iff (hyields : Yields inp rest) (hsize : 1 ≤ size) (store : S) :
    ∃ s, create store size = .ok s ∧ ∀ ops : List Op,
      (Refines (step inp) serve (Transparent rest) s (rest store) ops ↔
        Meets (step inp) (Unbypassed rest) s ops) := by
  obtain ⟨s, hcreate, h⟩ := create_holds rest hsize store
  refine ⟨s, hcreate, ?_⟩
  intro ops
  exact refines_iff (fun _ _ h => h.order) (step_holds hsize hyields)
    (fun _ _ _ h hop _ hstep => bypassed_serve hyields h hop hstep) ops h

/-- A stream that is the list of the bytes still to be read. -/
def listStream : AbstractInputStream (List UInt8) where
  readVector m buffer := deliver m buffer 0 buffer.length
  readRange m buffer offset len := deliver m buffer offset len
  isEof m := m.isEmpty

theorem listStream_yields : Yields listStream id := ⟨fun _ _ => rfl, fun _ _ _ _ _ => rfl⟩

/-- A byte read through the buffer, and a vector read past the others in it. -/
theorem vector_bypasses : ∃ s s' : BufferedInputStream (List UInt8),
    create [1, 2, 3, 4, 5, 6] 4 = .ok s ∧
    exec (step listStream) s [.read, .vector [0, 0]] =
      some (s', [.byte 1, .filled [5, 6] 2]) ∧
    (execModel serve [1, 2, 3, 4, 5, 6] [.read, .vector [0, 0]]).2 =
      [.byte 1, .filled [2, 3] 2] :=
  ⟨_, _, rfl, rfl, rfl⟩

/-- A vector read before any byte waits in the buffer. -/
theorem transparent_iff_calls : ∃ s : BufferedInputStream (List UInt8),
    create [1, 2, 3, 4, 5] 2 = .ok s ∧
    (Refines (step listStream) serve (Transparent id) s [1, 2, 3, 4, 5]
        [.vector [0, 0], .read, .skip 2] ↔
      Meets (step listStream) (Unbypassed id) s [.vector [0, 0], .read, .skip 2]) := by
  obtain ⟨s, hcreate, hruns⟩ := transparent_iff listStream_yields (Nat.le_succ 1) [1, 2, 3, 4, 5]
  exact ⟨s, hcreate, hruns _⟩

end Cppforge.Io.BufferedInputStream
