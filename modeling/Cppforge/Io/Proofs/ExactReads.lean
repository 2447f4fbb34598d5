import Cppforge.Io.InputStreams
import Cppforge.Io.Proofs.BufferedInput
import Cppforge.Io.Proofs.NioFifo

namespace Cppforge.Io
open Run

section Ranges
variable {α : Type}

/-- The range that is asked for, where it ends in front of the limit, and otherwise an exception
and nothing changed. -/
def ExactGet (b : IBuffer α) (length : Nat) (call : Option (IBuffer α × Except Failure (List α))) :
    Prop :=
  if b.position + length ≤ b.limit then
    call = some ({ b with position := b.position + length },
      .ok ((b.buffer.drop b.position).take length))
  else ∃ e, call = some (b, .error e)

/-- A reader of the range, where that ends in the vector, and otherwise an exception. -/
def ExactRange (buffer : List UInt8) (offset length : Nat)
    (made : Option (Except StreamError CharArrayReader)) : Prop :=
  if offset + length ≤ buffer.length then
    made = some (.ok (CharArrayReader.ofVector ((buffer.drop offset).take length)))
  else ∃ e, made = some (.error e)

end Ranges

section Gets
variable {α : Type} {b : IBuffer α} {gone mid rest : List α} {length : Nat}

/-- What the front of a window is, in terms of the indices. -/
theorem IBuffer.Window.range (h : b.Window gone mid rest) (hle : b.position + length ≤ b.limit) :
    Ranges.read b.buffer b.position length = some ((b.buffer.drop b.position).take length) := by
  rw [Ranges.read, if_pos]
  have hbounds := h.bounds
  rw [h.length]
  omega

theorem IBuffer.Window.range_le (h : b.Window gone mid rest) :
    b.position + length ≤ b.limit ↔ length ≤ b.remaining := by
  have hbounds := h.bounds
  unfold IBuffer.remaining
  omega

variable {b' : IBuffer α} {text : String}

theorem IBuffer.putValue_capacity {x : α} {r : Except Failure Unit}
    (h : b.putValue text x = some (b', r)) : b'.capacity = b.capacity := by
  unfold IBuffer.putValue at h
  split at h
  · obtain ⟨buffer, _, h⟩ := Option.bind_eq_some_iff.mp h
    cases h
    rfl
  · cases h
    rfl

theorem IBuffer.getValue_capacity {r : Except Failure α} (h : b.getValue text = some (b', r)) :
    b'.capacity = b.capacity := by
  unfold IBuffer.getValue at h
  split at h
  · obtain ⟨value, _, h⟩ := Option.bind_eq_some_iff.mp h
    cases h
    rfl
  · cases h
    rfl

theorem IBuffer.compact_capacity (h : b.compact = some b') : b'.capacity = b.capacity := by
  simp only [IBuffer.compact] at h
  split at h <;>
    obtain ⟨buffer, _, h⟩ := Option.bind_eq_some_iff.mp h <;>
    cases h <;>
    rfl

end Gets

theorem ByteBuffer.exactGet {b : ByteBuffer} {gone mid rest : List UInt8}
    (h : b.Window gone mid rest) (length : Nat) : ExactGet b length (b.getMany length) := by
  unfold ExactGet ByteBuffer.getMany
  by_cases hzero : length = 0
  · subst hzero
    simp [h.bounds.1]
  · rw [if_neg hzero]
    split
    · rename_i hle
      rw [if_neg (Nat.not_lt.mpr (h.range_le.mp hle)), h.range hle]
      rfl
    · rename_i hgt
      rw [if_pos (Nat.lt_of_not_le (mt h.range_le.mpr hgt))]
      exact ⟨_, rfl⟩

namespace FloatBuffer
open IBuffer
variable {b : FloatBuffer} {gone mid rest : List UInt32} {length : UInt64}

/-- The end of the range, where it is not too large for a `size_t`. -/
theorem exactGet (h : b.Window gone mid rest) (hfits : b.position + length.toNat < 2 ^ 64) :
    ExactGet b length.toNat (b.getMany length) := by
  unfold ExactGet getMany
  by_cases hzero : length = 0
  · subst hzero
    simp [h.bounds.1]
  · rw [if_neg hzero, Nat.mod_eq_of_lt hfits]
    split
    · rename_i hle
      have hread := h.range hle
      simp only [Nat.not_lt.mpr hle, Nat.not_lt.mpr (Nat.le_add_right _ _), if_false,
        Nat.add_sub_cancel_left, hread]
      rfl
    · rename_i hgt
      rw [if_pos (Nat.lt_of_not_le hgt)]
      exact ⟨_, rfl⟩

/-- An end that wraps around is in front of the position, and passes the check. -/
theorem getMany_wraps (h : b.Window gone mid rest) (hcap : b.capacity < 2 ^ 64)
    (hwraps : 2 ^ 64 ≤ b.position + length.toNat) : b.getMany length = none := by
  have hbounds := h.bounds
  have hlength := length.toNat_lt
  have hlast : (b.position + length.toNat) % 2 ^ 64 < b.position := by omega
  have hzero : length ≠ 0 := by
    intro h
    subst h
    simp only [UInt64.toNat_zero] at hwraps
    omega
  unfold getMany
  simp only [hzero, if_false, Nat.not_lt.mpr (Nat.le_of_lt (Nat.lt_of_lt_of_le hlast hbounds.1)),
    hlast, if_true]

theorem exactGet_iff (h : b.Window gone mid rest) (hcap : b.capacity < 2 ^ 64) :
    ExactGet b length.toNat (b.getMany length) ↔ b.position + length.toNat < 2 ^ 64 := by
  refine ⟨?_, exactGet h⟩
  intro hexact
  by_contra hwraps
  have hbounds := h.bounds
  rw [getMany_wraps h hcap (Nat.le_of_not_lt hwraps), ExactGet, if_neg (by omega)] at hexact
  obtain ⟨e, he⟩ := hexact
  cases he

theorem sound_putAll (h : b.Window gone mid rest) (values : List UInt32) :
    Sound b (b.putAll values) := by
  unfold putAll
  split
  · exact Sound.done ⟨_, _, _, h⟩ ()
  · rw [h.remaining]
    split
    · exact Sound.thrown h _
    · rename_i hroom
      obtain ⟨buffer, hwrite, h'⟩ := h.fill (Nat.not_lt.mp hroom)
      simp only [hwrite]
      exact Sound.done ⟨_, _, _, h'⟩ ()

theorem step_capacity {b' : FloatBuffer} {r : Except Failure (List UInt32)} {op : Op}
    (hstep : step b op = some (b', r)) : b'.capacity = b.capacity := by
  cases op with
  | put value =>
    obtain ⟨⟨b', r⟩, hput, heq⟩ := Option.map_eq_some_iff.mp hstep
    cases heq
    exact putValue_capacity hput
  | putAll values => grind [step, putAll, noValues, Option.bind_eq_some_iff]
  | get =>
    obtain ⟨⟨b', r⟩, hget, heq⟩ := Option.map_eq_some_iff.mp hstep
    cases heq
    exact getValue_capacity hget
  | getMany length => grind [step, getMany, Option.bind_eq_some_iff]
  | compact =>
    obtain ⟨b', hcompact, heq⟩ := Option.map_eq_some_iff.mp hstep
    cases heq
    exact compact_capacity hcompact
  | position newPosition => grind [step, setPosition, IBuffer.setPosition, noValues]
  | limit newLimit => grind [step, setLimit, IBuffer.setLimit, noValues]
  | flip | clear | rewind =>
    cases hstep
    rfl

/-- The buffers that any calls lead to. -/
theorem step_window (hb : ∃ gone mid rest, b.Window gone mid rest) (hcap : b.capacity < 2 ^ 64)
    {b' : FloatBuffer} {r : Except Failure (List UInt32)} {op : Op}
    (hstep : step b op = some (b', r)) : ∃ gone mid rest, b'.Window gone mid rest := by
  obtain ⟨gone, mid, rest, h⟩ := hb
  have hsound : Sound b (step b op) ∨ step b op = none := by
    cases op with
    | put value => exact .inl ((h.sound_putValue _ value).map _)
    | putAll values => exact .inl ((sound_putAll h values).map _)
    | get => exact .inl ((h.sound_getValue _).map _)
    | getMany length =>
      by_cases hfits : b.position + length.toNat < 2 ^ 64
      · have hexact := exactGet h hfits
        unfold ExactGet at hexact
        split at hexact
        · rename_i hle
          have hmoved := (h.front (h.remaining ▸ h.range_le.mp hle)).2
          exact .inl ⟨_, _, hexact, ⟨_, _, _, hmoved⟩, fun _ he => nomatch he⟩
        · obtain ⟨e, hthrown⟩ := hexact
          exact .inl ⟨_, _, hthrown, ⟨_, _, _, h⟩, fun _ _ => rfl⟩
      · exact .inr (getMany_wraps h hcap (Nat.le_of_not_lt hfits))
    | flip => exact .inl (Sound.done ⟨_, _, _, h.flip⟩ [])
    | clear => exact .inl (Sound.done ⟨_, _, _, h.clear⟩ [])
    | rewind => exact .inl (Sound.done ⟨_, _, _, h.rewind⟩ [])
    | compact => exact .inl (h.sound_compact [])
    | position newPosition => exact .inl ((h.setPosition _ newPosition).map _)
    | limit newLimit => exact .inl ((h.setLimit _ newLimit).map _)
  rcases hsound with ⟨b'', r'', hstep', hwindow, _⟩ | hnone
  · rw [hstep, Option.some.injEq, Prod.mk.injEq] at hstep'
    exact hstep'.1 ▸ hwindow
  · rw [hnone] at hstep
    cases hstep

theorem reached_window {capacity : Nat} (hcap : capacity < 2 ^ 64) {ops : List Op}
    {rs : List (Except Failure (List UInt32))}
    (hrun : exec step (create capacity) ops = some (b, rs)) :
    (∃ gone mid rest, b.Window gone mid rest) ∧ b.capacity = capacity := by
  have hkeeps : ∀ (b : FloatBuffer) op b' r,
      (∃ gone mid rest, b.Window gone mid rest) ∧ b.capacity = capacity → step b op = some (b', r) →
        (∃ gone mid rest, b'.Window gone mid rest) ∧ b'.capacity = capacity := by
    intro b op b' r hb hstep
    exact ⟨step_window hb.1 (hb.2 ▸ hcap) hstep, (step_capacity hstep).trans hb.2⟩
  have hreached := exec_inv hkeeps hrun ⟨⟨_, _, _, create_window 0 capacity⟩, rfl⟩
  exact hreached

end FloatBuffer

namespace CharArrayReader
variable {buffer : List UInt8} {offset length : UInt64}

/-- An end that wraps around is in front of the start, and passes the check. -/
theorem ofRange_wraps (hle : offset.toNat ≤ buffer.length)
    (hwraps : 2 ^ 64 ≤ offset.toNat + length.toNat) : ofRange buffer offset length = none := by
  have hoffset := offset.toNat_lt
  have hlength := length.toNat_lt
  have hlast : (offset + length).toNat < offset.toNat := by
    rw [UInt64.toNat_add]
    omega
  unfold ofRange
  rw [if_neg (by omega), if_pos hlast]

theorem ofRange_exact_iff (hbuffer : buffer.length < 2 ^ 64) :
    ExactRange buffer offset.toNat length.toNat (ofRange buffer offset length) ↔
      buffer.length < offset.toNat ∨ offset.toNat + length.toNat < 2 ^ 64 := by
  by_cases hout : buffer.length < offset.toNat
  · have hoffset : ¬offset.toNat + length.toNat ≤ buffer.length := by omega
    simp [ExactRange, ofRange, hout, hoffset]
  · by_cases hfits : offset.toNat + length.toNat < 2 ^ 64
    · have hlast : (offset + length).toNat = offset.toNat + length.toNat := by
        rw [UInt64.toNat_add, Nat.mod_eq_of_lt hfits]
      simp only [hfits, or_true, iff_true]
      unfold ExactRange ofRange
      rw [hlast, Nat.add_sub_cancel_left]
      split
      · rename_i hle
        have hnowrap : ¬offset.toNat + length.toNat < offset.toNat := by omega
        simp only [hout, Nat.not_lt.mpr hle, or_self, if_false, hnowrap, Ranges.read, hle, if_true]
        have hlen : ((buffer.drop offset.toNat).take length.toNat).length = length.toNat := by
          rw [List.length_take, List.length_drop]
          omega
        simp only [ofVector, hlen]
        rfl
      · rename_i hgt
        rw [if_pos (.inr (Nat.lt_of_not_le hgt))]
        exact ⟨_, rfl⟩
    · have hgt : ¬offset.toNat + length.toNat ≤ buffer.length := by omega
      simp only [hout, hfits, or_self, iff_false]
      rw [ofRange_wraps (Nat.le_of_not_lt hout) (Nat.le_of_not_lt hfits), ExactRange, if_neg hgt]
      intro h
      obtain ⟨e, he⟩ := h
      cases he

end CharArrayReader

/-- The sums of the checks are exact where they fit; the check without a sum always is. -/
theorem range_checks_iff (capacity : Nat) (hcap : capacity < 2 ^ 64) :
    (∀ ops b rs, exec FloatBuffer.step (FloatBuffer.create capacity) ops = some (b, rs) →
      ∀ length : UInt64, ExactGet b length.toNat (b.getMany length) ↔
        b.position + length.toNat < 2 ^ 64) ∧
    (∀ (buffer : List UInt8), buffer.length < 2 ^ 64 → ∀ offset length : UInt64,
      ExactRange buffer offset.toNat length.toNat (CharArrayReader.ofRange buffer offset length) ↔
        buffer.length < offset.toNat ∨ offset.toNat + length.toNat < 2 ^ 64) ∧
    (∀ ops b rs, exec ByteBuffer.step (ByteBuffer.create capacity) ops = some (b, rs) →
      ∀ length : UInt64, ExactGet b length.toNat (ByteBuffer.getMany b length.toNat)) := by
  refine ⟨?_, ?_, ?_⟩
  · intro ops b rs hrun length
    obtain ⟨⟨gone, mid, rest, h⟩, hcapacity⟩ := FloatBuffer.reached_window hcap hrun
    exact FloatBuffer.exactGet_iff h (hcapacity ▸ hcap)
  · intro buffer hbuffer offset length
    exact CharArrayReader.ofRange_exact_iff hbuffer
  · intro ops b rs hrun length
    have hkeeps : ∀ (b : ByteBuffer) op b' r, (∃ gone mid rest, b.Window gone mid rest) →
        ByteBuffer.step b op = some (b', r) → ∃ gone mid rest, b'.Window gone mid rest := by
      intro b op b' r hb hstep
      obtain ⟨gone, mid, rest, hb⟩ := hb
      obtain ⟨_, _, hstep', hwindow, _⟩ := ByteBuffer.step_sound b gone mid rest op hb
      rw [hstep, Option.some.injEq, Prod.mk.injEq] at hstep'
      exact hstep'.1 ▸ hwindow
    obtain ⟨gone, mid, rest, h⟩ :=
      exec_inv hkeeps hrun ⟨_, _, _, IBuffer.create_window 0 capacity⟩
    exact ByteBuffer.exactGet h length.toNat


/-- A length of all but one of the numbers of a `size_t` passes both checks. -/
theorem range_checks_wrap :
    (∃ b rs, exec FloatBuffer.step (FloatBuffer.create 1) [.position 1] = some (b, rs) ∧
      ¬ExactGet b (18446744073709551615 : UInt64).toNat (b.getMany 18446744073709551615)) ∧
    ¬ExactRange [97] (1 : UInt64).toNat (18446744073709551615 : UInt64).toNat
      (CharArrayReader.ofRange [97] 1 18446744073709551615) := by
  refine ⟨⟨_, _, rfl, ?_⟩, ?_⟩
  · intro h
    obtain ⟨e, he⟩ := h
    cases he
  · intro h
    obtain ⟨e, he⟩ := h
    cases he

theorem range_checks_of_one :
    ExactGet (FloatBuffer.create 1) (1 : UInt64).toNat ((FloatBuffer.create 1).getMany 1) ∧
    ExactRange [97, 98] (1 : UInt64).toNat (1 : UInt64).toNat
      (CharArrayReader.ofRange [97, 98] 1 1) ∧
    ExactGet (ByteBuffer.create 1) (1 : UInt64).toNat
      (ByteBuffer.getMany (ByteBuffer.create 1) (1 : UInt64).toNat) := by
  obtain ⟨hget, hrange, hbytes⟩ := range_checks_iff 1 (by decide)
  exact ⟨(hget [] _ _ rfl 1).mpr (by decide), (hrange [97, 98] (by decide) 1 1).mpr (by decide),
    hbytes [] _ _ rfl 1⟩

/-- A source of the bytes of a finite sequence, `rest` being what is left of it. -/
structure ByteSource.Delivers {S : Type} (src : ByteSource S) (rest : S → List UInt8) : Prop where
  next : ∀ s b bs, rest s = b :: bs → (src.read s).2 = (b, false) ∧ rest (src.read s).1 = bs
  done : ∀ s, rest s = [] → (src.read s).2 = (255, true) ∧ rest (src.read s).1 = []

namespace SourceStream
open BufferedInputStream (deliver deliver_left deliver_zero deliver_add)
variable {S : Type} {src : ByteSource S} {rest : S → List UInt8} {s : SourceStream S}
  {buffer : List UInt8} {offset turns : Nat}

/-- The bytes that are next, as many as there are up to the length, in the range, and no others
taken. -/
def ExactRead (src : ByteSource S) (rest : S → List UInt8) (s : SourceStream S)
    (buffer : List UInt8) (offset len : Nat) : Prop :=
  ∃ s', s.readRange src buffer offset len = some (s',
      .filled (deliver (rest s.source) buffer offset len).2.1
        (deliver (rest s.source) buffer offset len).2.2) ∧
    rest s'.source = (deliver (rest s.source) buffer offset len).1

def ExactSkip (src : ByteSource S) (rest : S → List UInt8) (s : SourceStream S) (n : Int) : Prop :=
  ∃ s', s.skip src n = (s', .skipped (min n (rest s.source).length)) ∧
    rest s'.source = (rest s.source).drop n.toNat

theorem read_next (h : src.Delivers rest) {b : UInt8} {bs : List UInt8}
    (hrest : rest s.source = b :: bs) :
    (s.read src).2 = b ∧ (s.read src).1.eof = s.eof ∧ rest (s.read src).1.source = bs := by
  obtain ⟨hread, hleft⟩ := h.next s.source b bs hrest
  simp [read, hread, hleft]

theorem read_done (h : src.Delivers rest) (hrest : rest s.source = []) :
    (s.read src).2 = 255 ∧ (s.read src).1.eof = true ∧ rest (s.read src).1.source = [] := by
  obtain ⟨hread, hleft⟩ := h.done s.source hrest
  simp [read, hread, hleft]

/-- Once the flag is set the loop stops, whatever turns are left. -/
theorem readLoop_eof (heof : s.eof = true) (bytesRead : Nat) :
    readLoop src offset turns s buffer bytesRead = some (s, buffer, bytesRead) := by
  cases turns with
  | zero => rfl
  | succ turns => rw [readLoop, if_pos heof]

/-- The loop reads once too often where the sequence is too short, and otherwise delivers. -/
theorem readLoop_eq (h : src.Delivers rest) (turns : Nat) :
    ∀ (s : SourceStream S) buffer bytesRead, s.eof = false →
      offset + bytesRead + turns ≤ buffer.length →
      ∃ s' buffer', readLoop src offset turns s buffer bytesRead =
          some (s', buffer', bytesRead + min turns ((rest s.source).length + 1)) ∧
        rest s'.source = (rest s.source).drop turns ∧
        (turns ≤ (rest s.source).length →
          buffer' = (deliver (rest s.source) buffer (offset + bytesRead) turns).2.1) := by
  induction turns with
  | zero =>
    intro s buffer bytesRead _ _
    refine ⟨s, buffer, by simp [readLoop], rfl, ?_⟩
    intro _
    rw [deliver_zero]
  | succ turns ih =>
    intro s buffer bytesRead heof hroom
    have hopen : ¬s.eof = true := by simp [heof]
    cases hrest : rest s.source with
    | nil =>
      obtain ⟨hbyte, heof', hleft⟩ := read_done h hrest
      obtain ⟨A, B, C, rfl, hA, hB⟩ :=
        Ranges.cut (l := buffer) (i := offset + bytesRead) (n := 1) (by omega)
      have hwrite : Ranges.write (A ++ B ++ C) (offset + bytesRead) [255] =
          some (A ++ [255] ++ C) := Ranges.write_mid hA hB
      refine ⟨(s.read src).1, A ++ [255] ++ C, ?_, by simpa using hleft, by simp⟩
      rw [readLoop, if_neg hopen]
      simp only [hbyte, hwrite, Option.bind_eq_bind, Option.bind_some, readLoop_eof heof']
      simp
    | cons b bs =>
      obtain ⟨hbyte, heof', hleft⟩ := read_next h hrest
      obtain ⟨buffer₁, hwrite, hlength, hdeliver⟩ :=
        deliver_add (m := b :: bs) (n := 1) (turns + 1) (by omega) (by simp)
          (show offset + bytesRead + (turns + 1) ≤ buffer.length by omega)
      obtain ⟨s', buffer', hloop, hrest', hbytes⟩ :=
        ih (s.read src).1 buffer₁ (bytesRead + 1) (heof'.trans heof) (by omega)
      rw [hleft] at hloop hrest' hbytes
      refine ⟨s', buffer', ?_, hrest', ?_⟩
      · have hcount : bytesRead + 1 + min turns (bs.length + 1) =
            bytesRead + min (turns + 1) ((b :: bs).length + 1) := by
          rw [List.length_cons]
          omega
        rw [hcount] at hloop
        simp only [List.take_succ_cons, List.take_zero] at hwrite
        rw [readLoop, if_neg hopen]
        simp only [hbyte, hwrite, Option.bind_eq_bind, Option.bind_some, hloop]
      · intro hle
        rw [hdeliver _ rfl, hbytes (Nat.le_of_succ_le_succ hle)]
        rfl

theorem skipLoop_eof (heof : s.eof = true) (skipped : Int) :
    skipLoop src turns s skipped = (s, skipped) := by
  cases turns with
  | zero => rfl
  | succ turns => rw [skipLoop, if_pos heof]

/-- So does the loop of `skip`. -/
theorem skipLoop_eq (h : src.Delivers rest) (turns : Nat) :
    ∀ (s : SourceStream S) (skipped : Int), s.eof = false →
      ∃ s', skipLoop src turns s skipped =
          (s', skipped + (min turns ((rest s.source).length + 1) : Nat)) ∧
        rest s'.source = (rest s.source).drop turns := by
  induction turns with
  | zero =>
    intro s skipped _
    exact ⟨s, by simp [skipLoop], rfl⟩
  | succ turns ih =>
    intro s skipped heof
    have hopen : ¬s.eof = true := by simp [heof]
    rw [skipLoop, if_neg hopen]
    cases hrest : rest s.source with
    | nil =>
      obtain ⟨_, heof', hleft⟩ := read_done h hrest
      exact ⟨(s.read src).1, by simp [skipLoop_eof heof'], by simpa using hleft⟩
    | cons b bs =>
      obtain ⟨_, heof', hleft⟩ := read_next h hrest
      obtain ⟨s', hloop, hrest'⟩ := ih (s.read src).1 (skipped + 1) (heof'.trans heof)
      rw [hleft] at hloop hrest'
      refine ⟨s', ?_, hrest'⟩
      rw [hloop, List.length_cons]
      congr 1
      omega

theorem exactRead_iff (h : src.Delivers rest) {len : Nat} (hrange : offset + len ≤ buffer.length) :
    ExactRead src rest s buffer offset len ↔ len ≤ (rest s.source).length := by
  obtain ⟨s', buffer', hloop, hleft, hbytes⟩ :=
    readLoop_eq h len { s with eof := false } buffer 0 rfl hrange
  have hread : s.readRange src buffer offset len =
      some (s', .filled buffer' (min len ((rest s.source).length + 1))) := by
    rw [readRange, if_neg (by omega), hloop, Option.map_some, Nat.zero_add]
  unfold ExactRead
  rw [hread]
  constructor
  · intro h
    obtain ⟨s'', hexact, _⟩ := h
    simp only [deliver, Option.some.injEq, Prod.mk.injEq, Answer.filled.injEq] at hexact
    omega
  · intro hle
    refine ⟨s', ?_, ?_⟩
    · rw [hbytes hle]
      simp only [deliver, Nat.min_eq_left hle, Nat.min_eq_left (Nat.le_succ_of_le hle),
        Nat.add_zero]
    · rw [hleft, deliver_left]

theorem exactSkip_iff (h : src.Delivers rest) (n : Int) :
    ExactSkip src rest s n ↔ 0 ≤ n ∧ n ≤ (rest s.source).length := by
  unfold ExactSkip skip
  split
  · rename_i hn
    constructor
    · intro h
      obtain ⟨s', hexact, _⟩ := h
      simp only [Prod.mk.injEq, Answer.skipped.injEq] at hexact
      omega
    · intro hbounds
      obtain rfl : n = 0 := by omega
      exact ⟨s, by rw [Int.min_eq_left (Int.natCast_nonneg _)], rfl⟩
  · rename_i hn
    obtain ⟨s', hloop, hleft⟩ := skipLoop_eq h n.toNat { s with eof := false } 0 rfl
    rw [hloop]
    dsimp only
    constructor
    · intro h
      obtain ⟨s'', hexact, _⟩ := h
      simp only [Prod.mk.injEq, Answer.skipped.injEq] at hexact
      omega
    · intro hbounds
      refine ⟨s', ?_, hleft⟩
      simp only [Prod.mk.injEq, Answer.skipped.injEq, true_and]
      omega

/-- Only where the bytes last are the default reads and skips exact. -/
theorem default_reads_iff (h : src.Delivers rest) (s : SourceStream S) :
    (∀ buffer offset len, offset + len ≤ buffer.length →
      (ExactRead src rest s buffer offset len ↔ len ≤ (rest s.source).length)) ∧
    (∀ n, ExactSkip src rest s n ↔ 0 ≤ n ∧ n ≤ (rest s.source).length) :=
  ⟨fun _ _ _ hrange => exactRead_iff h hrange, exactSkip_iff h⟩

/-- A source that is the list of the bytes still to be read. -/
def listSource : ByteSource (List UInt8) where
  read
    | [] => ([], 255, true)
    | b :: bs => (bs, b, false)

theorem listSource_delivers : listSource.Delivers id := by
  constructor
  · rintro _ b bs rfl
    exact ⟨rfl, rfl⟩
  · rintro _ rfl
    exact ⟨rfl, rfl⟩

/-- With one byte left a range of two gets two, and so does `skip`. -/
theorem default_reads_beyond_end :
    (⟨[97], false⟩ : SourceStream (List UInt8)).readRange listSource [0, 0] 0 2 =
      some (⟨[], true⟩, .filled [97, 255] 2) ∧
    (⟨[97], false⟩ : SourceStream (List UInt8)).skip listSource 2 = (⟨[], true⟩, .skipped 2) ∧
    ¬ExactRead listSource id ⟨[97], false⟩ [0, 0] 0 2 ∧
    ¬ExactSkip listSource id ⟨[97], false⟩ 2 := by
  refine ⟨rfl, rfl, ?_, ?_⟩
  · intro h
    obtain ⟨s', hexact, _⟩ := h
    cases hexact
  · intro h
    obtain ⟨s', hexact, _⟩ := h
    cases hexact

theorem default_reads_of_two :
    ExactRead listSource id ⟨[97, 98], false⟩ [0, 0, 0] 1 2 ∧
    ExactSkip listSource id ⟨[97, 98], false⟩ 2 ∧ ¬ExactSkip listSource id ⟨[97, 98], false⟩ 3 := by
  obtain ⟨hread, hskip⟩ := default_reads_iff listSource_delivers ⟨[97, 98], false⟩
  exact ⟨(hread _ 1 2 (by decide)).mpr (by decide), (hskip 2).mpr (by decide),
    mt (hskip 3).mp (by decide)⟩

end SourceStream

open BufferedInputStream (deliver deliver_left)

/-- Bytes read from the front of a sequence into a range of a vector; the number of them is -1
where there are none left. -/
def fetch (m buf : List UInt8) (off len : Nat) : List UInt8 × List UInt8 × Int :=
  if m = [] then ([], buf, -1)
  else
    let d := deliver m buf off len
    (d.1, d.2.1, d.2.2)

theorem fetch_left (m buf : List UInt8) (off len : Nat) : (fetch m buf off len).1 = m.drop len := by
  unfold fetch
  split
  · rename_i hnil
    rw [hnil, List.drop_nil]
  · exact deliver_left m buf off len

/-- An underlying reader of a sequence, `rest` being what is left. -/
structure Reads {S : Type} (inp : AbstractReader S) (rest : S → List UInt8) : Prop where
  read : ∀ s, (rest (inp.read s).1, (inp.read s).2) = ((rest s).tail, (rest s).head?)
  range : ∀ s buf off len, off + len ≤ buf.length →
    (rest (inp.readRange s buf off len).1, (inp.readRange s buf off len).2) =
      fetch (rest s) buf off len
  vector : ∀ s buf, (rest (inp.readVector s buf).1, (inp.readVector s buf).2) =
    fetch (rest s) buf 0 buf.length
  skip : ∀ s n, (rest (inp.skip s n).1, (inp.skip s n).2) =
    ((rest s).drop n, min n (rest s).length)

/-- All reads and skips of an underlying stream are exact, `rest` being what is left. -/
structure Streams {S : Type} (inp : InputStream S) (rest : S → List UInt8) : Prop extends
    BufferedInputStream.Yields inp.toAbstractInputStream rest where
  read : ∀ s, (rest (inp.read s).1, (inp.read s).2) = ((rest s).tail, (rest s).head?.getD 255)
  skip : ∀ s n, (rest (inp.skip s n).1, (inp.skip s n).2) =
    ((rest s).drop n.toNat, ((min n.toNat (rest s).length : Nat) : Int))

/-- The bytes still to be read, and those that were when the mark was set. -/
structure Tape where
  left : List UInt8
  marked : List UInt8

/-- A reader that is a list. -/
def tapeReader : AbstractReader Tape where
  read t := ({ t with left := t.left.tail }, t.left.head?)
  readVector t buf :=
    let f := fetch t.left buf 0 buf.length
    ({ t with left := f.1 }, f.2)
  readRange t buf off len :=
    let f := fetch t.left buf off len
    ({ t with left := f.1 }, f.2)
  skip t n := ({ t with left := t.left.drop n }, min n t.left.length)
  mark t _ := { t with marked := t.left }
  reset t := { t with left := t.marked }

theorem tapeReader_reads : Reads tapeReader Tape.left :=
  ⟨fun _ => rfl, fun _ _ _ _ _ => rfl, fun _ _ => rfl, fun _ _ => rfl⟩

/-- A stream that is a list. -/
def tapeInput : InputStream Tape where
  readVector t buffer :=
    let d := deliver t.left buffer 0 buffer.length
    ({ t with left := d.1 }, d.2)
  readRange t buffer offset len :=
    let d := deliver t.left buffer offset len
    ({ t with left := d.1 }, d.2)
  isEof t := t.left.isEmpty
  read t := ({ t with left := t.left.tail }, t.left.head?.getD 255)
  skip t n := ({ t with left := t.left.drop n.toNat }, (min n.toNat t.left.length : Nat))
  mark t _ := { t with marked := t.left }
  reset t := { t with left := t.marked }

theorem tapeInput_streams : Streams tapeInput Tape.left :=
  ⟨⟨fun _ _ => rfl, fun _ _ _ _ _ => rfl⟩, fun _ => rfl, fun _ _ => rfl⟩

end Cppforge.Io
