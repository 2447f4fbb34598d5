import Cppforge.Io.Proofs.ExactReads
import Cppforge.Lib.Ranges

namespace Cppforge.Io
open Run Prefetch
open BufferedInputStream (deliver deliver_left deliver_zero deliver_nil deliver_add)

/-- Exact marks of an underlying stream: what was left when the mark was set is left again after a
reset, whatever is read in between. -/
structure Marks {S L : Type} (mark : S → L → S) (reset : S → S)
    (read : S → List UInt8 → Nat → Nat → S) (rest marked : S → List UInt8) : Prop where
  mark : ∀ s limit, rest (mark s limit) = rest s ∧ marked (mark s limit) = rest s
  read : ∀ s buf off len, marked (read s buf off len) = marked s
  reset : ∀ s, rest (reset s) = marked s

section Runs
variable {σ ι ρ : Type} {step : σ → ι → Option (σ × ρ)}
  {serve : List UInt8 → ι → List UInt8 × ρ} {demand : List UInt8 → ι → Nat} {size : Nat}
  {Fetched : σ → Chunked UInt8 → Prop} {s : σ} {c : Chunked UInt8}

/-- How many elements a run of calls asks for, with what is left of the sequence at each of
them. -/
def total (demand : List UInt8 → ι → Nat) : List UInt8 → List ι → Nat
  | _, [] => 0
  | m, op :: ops => demand m op + total demand (m.drop (demand m op)) ops

/-- A step serves the call from the sequence, and keeps the chunk that the demand leads to. -/
def Serves (step : σ → ι → Option (σ × ρ)) (serve : List UInt8 → ι → List UInt8 × ρ)
    (demand : List UInt8 → ι → Nat) (size : Nat) (Fetched : σ → Chunked UInt8 → Prop) : Prop :=
  ∀ s c op, Fetched s c → ∃ s', step s op = some (s', (serve c.left op).2) ∧
    Fetched s' (c.advance size (demand c.left op))

theorem Serves.exec (h : Serves step serve demand size Fetched) (hsize : 1 ≤ size)
    (hserve : ∀ m op, (serve m op).1 = m.drop (demand m op)) (ops : List ι) (hs : Fetched s c) :
    ∃ s', exec step s ops = some (s', (execModel serve c.left ops).2) ∧
      Fetched s' (c.advance size (total demand c.left ops)) ∧
      (execModel serve c.left ops).1 = c.left.drop (total demand c.left ops) := by
  induction ops generalizing s c with
  | nil => exact ⟨s, rfl, hs, rfl⟩
  | cons op ops ih =>
    obtain ⟨s₁, hstep, hs₁⟩ := h s c op hs
    obtain ⟨s', hrun, hs', hleft⟩ := ih hs₁
    rw [Chunked.left_advance hsize] at hrun hs' hleft
    rw [← Chunked.advance_add] at hs'
    rw [List.drop_drop] at hleft
    have hcons : execModel serve c.left (op :: ops) =
        ((execModel serve (c.left.drop (demand c.left op)) ops).1,
          (serve c.left op).2 :: (execModel serve (c.left.drop (demand c.left op)) ops).2) := by
      rw [← hserve]
      rfl
    rw [hcons]
    exact ⟨s', by rw [exec_cons hstep, hrun, Option.map_some], hs', hleft⟩

/-- From a state of which the chunks are known, all runs are served as from the sequence. -/
theorem Serves.refines (h : Serves step serve demand size Fetched) (hsize : 1 ≤ size)
    (hserve : ∀ m op, (serve m op).1 = m.drop (demand m op)) (chunked : σ → Chunked UInt8)
    (hchunked : ∀ s c, Fetched s c → chunked s = c) (hs : Fetched s c) (ops : List ι) :
    Refines step serve (fun s m => (chunked s).left = m) s c.left ops := by
  intro done _
  obtain ⟨s', hrun, hs', hleft⟩ := h.exec hsize hserve done hs
  refine ⟨s', hrun, ?_⟩
  change (chunked s').left = _
  rw [hchunked s' _ hs', Chunked.left_advance hsize, hleft]

end Runs

namespace MarkableInputStream
open BufferedInputStream (Holds Transparent step_holds unread)
variable {S : Type} {inp : InputStream S} {rest marked : S → List UInt8} {size n : Nat}
  {u : List UInt8} {s s' : BufferedInputStream S} {c : Chunked UInt8}

/-- A call on the sequence itself. -/
def serve (m : List UInt8) (op : Op) : List UInt8 × Answer := BufferedInputStream.serve m op.call

/-- How many bytes a call asks for. -/
def demand (_ : List UInt8) : Op → Nat
  | .read => 1
  | .range buffer offset len =>
    if buffer.length < offset ∨ buffer.length - offset < len then 0 else len
  | .skip n => n.toNat

def chunked (rest : S → List UInt8) (s : BufferedInputStream S) : Chunked UInt8 :=
  ⟨s.buf.take s.count, s.pos, rest s.inputStream⟩

structure Fetched (rest marked : S → List UInt8) (size : Nat) (u : List UInt8)
    (s : BufferedInputStream S) (c : Chunked UInt8) : Prop where
  cells : s.buf.length = size
  filled : s.count ≤ size
  bounds : s.pos ≤ s.count
  chunks : chunked rest s = c
  marked : marked s.inputStream = u

theorem serve_left (m : List UInt8) (op : Op) : (serve m op).1 = m.drop (demand m op) := by
  cases op with
  | read => cases m <;> rfl
  | range buffer offset len =>
    simp only [serve, Op.call, BufferedInputStream.serve, demand]
    split
    · rfl
    · exact BufferedInputStream.deliver_left m buffer offset len
  | skip n => rfl

theorem Fetched.holds (h : Fetched rest marked size u s c) : Holds rest size s c.left :=
  ⟨h.cells, h.filled, h.bounds, by rw [← h.chunks]; rfl⟩

theorem Fetched.length_chunk (h : Fetched rest marked size u s c) : c.chunk.length = s.count := by
  rw [← h.chunks, chunked, List.length_take, h.cells]
  exact Nat.min_eq_left h.filled

theorem Fetched.pos (h : Fetched rest marked size u s c) : c.pos = s.pos := by
  rw [← h.chunks]
  rfl

theorem Fetched.available (h : Fetched rest marked size u s c) :
    s.available = c.chunk.length - c.pos := by
  rw [h.holds.available, h.length_chunk, h.pos]

/-- The buffer is filled where there is nothing left of the chunk. -/
theorem Fetched.refill (h : Fetched rest marked size u s c)
    (hyields : BufferedInputStream.Yields inp.toAbstractInputStream rest)
    (hmarked : ∀ s buf off len, marked (inp.readRange s buf off len).1 = marked s) :
    Fetched rest marked size u (s.refill inp.toAbstractInputStream) (c.refill size) := by
  have hlen := h.length_chunk
  have hpos := h.pos
  have hbounds := h.bounds
  unfold BufferedInputStream.refill Chunked.refill
  rw [h.available]
  by_cases hempty : c.chunk.length - c.pos = 0
  · rw [if_pos hempty, if_neg (by omega)]
    have hrest : rest s.inputStream = c.rest := by
      rw [← h.chunks]
      rfl
    obtain ⟨hfilled, hleft⟩ := BufferedInputStream.fillBuffer_eq hyields h.cells hrest
    have htake : (c.rest.take (min size c.rest.length)).length = min size c.rest.length := by
      rw [List.length_take]
      omega
    have hcells := h.cells
    rw [hfilled]
    refine ⟨?_, Nat.min_le_left _ _, Nat.zero_le _, ?_, (hmarked _ _ _ _).trans h.marked⟩
    · simp only [List.length_append, htake, List.length_drop, hcells]
      omega
    · have hchunk : (c.rest.take (min size c.rest.length) ++
          s.buf.drop (min size c.rest.length)).take (min size c.rest.length) =
            c.rest.take size := by
        rw [List.take_left' htake, List.take_eq_take_iff]
        omega
      simp only [chunked, hchunk, hleft]
  · rw [if_neg hempty, if_pos (by omega)]
    exact h

theorem Fetched.take (h : Fetched rest marked size u s c) (hn : n ≤ c.chunk.length - c.pos) :
    Fetched rest marked size u { s with pos := s.pos + n } (c.advance size n) := by
  have hlen := h.length_chunk
  have hpos := h.pos
  have hbounds := h.bounds
  rw [Chunked.advance_within (by omega)]
  refine ⟨h.cells, h.filled, ?_, ?_, h.marked⟩
  · dsimp only
    omega
  · rw [← h.chunks]
    rfl

/-- An underlying stream as it is needed: exact bulk reads that keep the mark. -/
structure Underlying (inp : InputStream S) (rest marked : S → List UInt8) : Prop where
  yields : BufferedInputStream.Yields inp.toAbstractInputStream rest
  keeps : ∀ s buf off len, marked (inp.readRange s buf off len).1 = marked s

/-- What the loops do before each turn. -/
theorem Fetched.turn (h : Fetched rest marked size u s c) (hinp : Underlying inp rest marked)
    (hsize : 1 ≤ size) (hn : 0 < n) :
    ∃ c₁, Fetched rest marked size u (s.refill inp.toAbstractInputStream) c₁ ∧
      c.advance size n = c₁.advance size n ∧
      ((s.refill inp.toAbstractInputStream).available = 0 → c₁.advance size n = c₁) := by
  have h₁ := h.refill hinp.yields hinp.keeps
  refine ⟨c.refill size, h₁, (Chunked.advance_refill hn c).symm, ?_⟩
  intro hnone
  rw [h₁.available] at hnone
  rw [Chunked.refill_done hsize (by omega), Chunked.advance_done]

theorem readLoop_fetched (hinp : Underlying inp rest marked) (hsize : 1 ≤ size) {fuel : Nat} :
    ∀ s c buffer currentOffset remainingLen totalBytesRead last,
      Fetched rest marked size u s c →
      BufferedInputStream.readLoop inp.toAbstractInputStream fuel s buffer currentOffset
        remainingLen totalBytesRead = some last →
      Fetched rest marked size u last.1 (c.advance size remainingLen) := by
  induction fuel with
  | zero => exact fun _ _ _ _ _ _ _ _ hloop => nomatch hloop
  | succ fuel ih =>
    intro s c buffer currentOffset remainingLen totalBytesRead last h hloop
    unfold BufferedInputStream.readLoop at hloop
    split at hloop
    · rename_i hmore
      obtain ⟨c₁, h₁, hsame, hdone⟩ := h.turn hinp hsize hmore
      generalize s.refill inp.toAbstractInputStream = s₁ at h₁ hdone hloop
      dsimp only at hloop
      rw [hsame]
      split at hloop
      · rename_i hnone
        cases hloop
        rw [hdone hnone]
        exact h₁
      · obtain ⟨bytes, _, hloop⟩ := Option.bind_eq_some_iff.mp hloop
        obtain ⟨buffer', _, hloop⟩ := Option.bind_eq_some_iff.mp hloop
        have havailable := h₁.available
        have h₂ := h₁.take (n := min remainingLen s₁.available) (by omega)
        have hlast := ih _ _ _ _ _ _ _ h₂ hloop
        rwa [← Chunked.advance_add, Nat.add_sub_cancel' (Nat.min_le_left _ _)] at hlast
    · rename_i hend
      cases hloop
      obtain rfl : remainingLen = 0 := by omega
      exact h

theorem skipLoop_fetched (hinp : Underlying inp rest marked) (hsize : 1 ≤ size) {fuel : Nat} :
    ∀ s c (remaining skipped : Int) last, Fetched rest marked size u s c →
      BufferedInputStream.skipLoop inp.toAbstractInputStream fuel s remaining skipped = some last →
      Fetched rest marked size u last.1 (c.advance size remaining.toNat) := by
  induction fuel with
  | zero => exact fun _ _ _ _ _ _ hloop => nomatch hloop
  | succ fuel ih =>
    intro s c remaining skipped last h hloop
    unfold BufferedInputStream.skipLoop at hloop
    split at hloop
    · rename_i hmore
      obtain ⟨c₁, h₁, hsame, hdone⟩ := h.turn hinp hsize (n := remaining.toNat) (by omega)
      generalize s.refill inp.toAbstractInputStream = s₁ at h₁ hdone hloop
      dsimp only at hloop
      rw [hsame]
      split at hloop
      · rename_i hnone
        cases hloop
        rw [hdone hnone]
        exact h₁
      · have havailable := h₁.available
        have h₂ := h₁.take (n := min remaining.toNat s₁.available) (by omega)
        have hlast := ih _ _ _ _ _ h₂ hloop
        have hsum : min remaining.toNat s₁.available +
            (remaining - (min remaining.toNat s₁.available : Nat)).toNat = remaining.toNat := by
          omega
        rwa [← Chunked.advance_add, hsum] at hlast
    · rename_i hend
      cases hloop
      have hzero : remaining.toNat = 0 := by omega
      rw [hzero]
      exact h

theorem read_fetched (hinp : Underlying inp rest marked) (hsize : 1 ≤ size)
    (h : Fetched rest marked size u s c) {answer : Answer}
    (hread : s.read inp.toAbstractInputStream = some (s', answer)) :
    Fetched rest marked size u s' (c.advance size 1) := by
  obtain ⟨c₁, h₁, hsame, hdone⟩ := h.turn hinp hsize (n := 1) Nat.one_pos
  unfold BufferedInputStream.read at hread
  rw [BufferedInputStream.refill_eq h.holds] at hread
  generalize s.refill inp.toAbstractInputStream = s₁ at h₁ hdone hread
  dsimp only at hread
  have havailable := h₁.available
  have hbounds := h₁.holds.available
  rw [hsame]
  split at hread
  · rename_i hnone
    cases hread
    rw [hdone (by omega)]
    exact ⟨h₁.cells, h₁.filled, h₁.bounds, h₁.chunks, h₁.marked⟩
  · obtain ⟨b, _, hread⟩ := Option.bind_eq_some_iff.mp hread
    cases hread
    exact h₁.take (by omega)

theorem step_fetched (hinp : Underlying inp rest marked) (hsize : 1 ≤ size)
    (h : Fetched rest marked size u s c) {op : Op} {answer : Answer}
    (hstep : s.step inp.toAbstractInputStream op.call = some (s', answer)) (m : List UInt8) :
    Fetched rest marked size u s' (c.advance size (demand m op)) := by
  cases op with
  | read => exact read_fetched hinp hsize h hstep
  | range buffer offset len =>
    simp only [Op.call, BufferedInputStream.step, BufferedInputStream.readRange] at hstep
    simp only [demand]
    split at hstep
    · rename_i hbad
      cases hstep
      rw [if_pos hbad]
      exact h
    · rename_i hgood
      rw [if_neg hgood]
      split at hstep
      · rename_i hzero
        cases hstep
        rw [hzero]
        exact h
      · obtain ⟨last, hloop, heq⟩ := Option.map_eq_some_iff.mp hstep
        cases heq
        exact readLoop_fetched hinp hsize _ _ _ _ _ _ _ h hloop
  | skip n =>
    simp only [Op.call, BufferedInputStream.step, BufferedInputStream.skip] at hstep
    simp only [demand]
    split at hstep
    · rename_i hnone
      have hzero : n.toNat = 0 := by omega
      cases hstep
      rw [hzero]
      exact h
    · obtain ⟨last, hloop, heq⟩ := Option.map_eq_some_iff.mp hstep
      cases heq
      exact skipLoop_fetched hinp hsize _ _ _ _ _ h hloop

/-- Each call is served, and the chunk that is kept after it is known. -/
theorem serves (hinp : Underlying inp rest marked) (hsize : 1 ≤ size) (p : Nat) :
    Serves (step inp) serve demand size (fun (s : MarkableInputStream S) c =>
      Fetched rest marked size u s.stream c ∧ s.mark_pos_ = p) := by
  intro s c op hs
  obtain ⟨h, hp⟩ := hs
  have hbuffered : BufferedInputStream.Unbypassed rest s.stream op.call := by
    cases op <;> trivial
  obtain ⟨stream, hstep, _⟩ :=
    step_holds hsize hinp.yields s.stream c.left op.call h.holds hbuffered
  refine ⟨{ s with stream := stream }, ?_, step_fetched hinp hsize h hstep c.left, hp⟩
  rw [step, hstep]
  rfl

/-- All runs of calls are served as from the sequence. -/
def Replays (inp : InputStream S) (rest : S → List UInt8) (s : MarkableInputStream S)
    (m : List UInt8) : Prop :=
  ∀ ops, Refines (step inp) serve (fun s m => (chunked rest s.stream).left = m) s m ops

/-- The chunk that is kept when so much has been read reaches up to the position of the mark, and
has the bytes behind it that were there. -/
def Spared (size t : Nat) (c : Chunked UInt8) : Prop :=
  c.pos ≤ (c.kept size t).length ∧ (c.kept size t).drop c.pos = c.unread

/-- Reads of no more than had been fetched spare the chunk. -/
theorem spared_of_le {t : Nat} (hpos : c.pos ≤ c.chunk.length) (ht : t ≤ c.unread.length) :
    Spared size t c := by
  have hkept : c.kept size t = c.chunk := if_pos ht
  rw [Spared, hkept]
  exact ⟨hpos, rfl⟩

/-- A position behind the chunk makes a bulk read run out of the buffer. -/
theorem readRange_behind (inp : InputStream S) (hcells : s.buf.length = size) (hmax : size < 2 ^ 64)
    (hbehind : s.count < s.pos) (hpos : s.pos ≤ size) :
    s.readRange inp.toAbstractInputStream (List.replicate (size + 1) 0) 0 (size + 1) = none := by
  have havailable : s.available = 2 ^ 64 + s.count - s.pos := if_neg (by omega)
  have hrefill : s.refill inp.toAbstractInputStream = s := by
    rw [BufferedInputStream.refill, if_neg (by omega)]
  have hread : Ranges.read s.buf s.pos (min (size + 1) s.available) = none := by
    rw [Ranges.read, if_neg (by omega)]
  rw [BufferedInputStream.readRange, if_neg (by simp), if_neg (by omega),
    BufferedInputStream.readLoop, if_pos (by omega), hrefill]
  dsimp only
  rw [if_neg (by omega), hread]
  rfl

/-- A stream serves all runs exactly where its position is inside the chunk, and what it has is
the sequence. -/
theorem replays_iff {s : MarkableInputStream S} {m : List UInt8} (hinp : Underlying inp rest marked)
    (hsize : 1 ≤ size) (hmax : size < 2 ^ 64) (hcells : s.stream.buf.length = size)
    (hfilled : s.stream.count ≤ size) (hpos : s.stream.pos ≤ size) :
    Replays inp rest s m ↔
      s.stream.pos ≤ s.stream.count ∧ (chunked rest s.stream).left = m := by
  constructor
  · intro hall
    refine ⟨?_, ?_⟩
    · by_contra hbehind
      obtain ⟨s', hbulk, _⟩ := hall [.range (List.replicate (size + 1) 0) 0 (size + 1)] _
        List.prefix_rfl
      have hout := readRange_behind inp hcells hmax (Nat.lt_of_not_le hbehind) hpos
      simp only [exec, step, Op.call, BufferedInputStream.step, hout, Option.map_none,
        Option.bind_eq_bind, Option.bind_none] at hbulk
      cases hbulk
    · obtain ⟨s', hnone, hrep⟩ := hall [] [] List.prefix_rfl
      cases hnone
      exact hrep
  · rintro ⟨hbounds, rfl⟩ ops
    have hfetched : Fetched rest marked size (marked s.stream.inputStream) s.stream
        (chunked rest s.stream) := ⟨hcells, hfilled, hbounds, rfl, rfl⟩
    exact (serves hinp hsize s.mark_pos_).refines hsize serve_left (fun s => chunked rest s.stream)
      (fun _ _ hs => hs.1.chunks) ⟨hfetched, rfl⟩ ops

/-- After a reset the sequence is read again from the mark exactly where the chunk has been
spared. -/
theorem reset_iff {s : MarkableInputStream S} (hinp : Underlying inp rest marked)
    (hmarks : Marks inp.mark inp.reset (fun s buf off len => (inp.readRange s buf off len).1) rest
      marked)
    (hsize : 1 ≤ size) (hmax : size < 2 ^ 64) (h : Fetched rest marked size u s.stream c)
    (limit : Int) (after : List Op) :
    (∃ s₁, exec (step inp) (s.mark inp limit) after =
        some (s₁, (execModel serve c.left after).2) ∧ Replays inp rest (s₁.reset inp) c.left) ↔
      Spared size (total demand c.left after) c := by
  have hrest : rest s.stream.inputStream = c.rest := by
    rw [← h.chunks]
    rfl
  obtain ⟨hsame, hset⟩ := hmarks.mark s.stream.inputStream limit
  have hmark : Fetched rest marked size c.rest (s.mark inp limit).stream c := by
    refine ⟨h.cells, h.filled, h.bounds, ?_, hset.trans hrest⟩
    rw [← h.chunks]
    simp only [chunked, mark, hsame]
  obtain ⟨s₁, hrun, ⟨h₁, hp⟩, _⟩ :=
    (serves hinp hsize c.pos).exec hsize serve_left after ⟨hmark, h.pos.symm⟩
  simp only [hrun, Option.some.injEq, Prod.mk.injEq, and_true, exists_eq_left']
  -- what the reset leads back to
  have hlen := h.length_chunk
  have hpos := h.pos
  have hbounds := h.bounds
  have hfilled := h.filled
  have hlen₁ := h₁.length_chunk
  have hkept := Chunked.chunk_advance (c := c) hsize (by omega) (total demand c.left after)
  have hchunk : s₁.stream.buf.take s₁.stream.count = c.kept size (total demand c.left after) := by
    rw [← hkept, ← h₁.chunks]
    rfl
  have hchunked : chunked rest (s₁.reset inp).stream =
      ⟨c.kept size (total demand c.left after), c.pos, c.rest⟩ := by
    simp only [chunked, reset, hchunk, hp, hmarks.reset, h₁.marked]
  have hreset : (s₁.reset inp).stream.pos = c.pos := hp
  have hreplays := replays_iff (s := s₁.reset inp) (m := c.left) hinp hsize hmax h₁.cells h₁.filled
    (by omega)
  rw [hreset, hchunked, ← hkept] at hreplays
  rw [hreplays, Spared, ← hkept, hlen₁]
  exact and_congr_right' (List.append_left_inj c.rest)

theorem create_fetched (rest marked : S → List UInt8) (hsize : 1 ≤ size) (store : S) :
    ∃ s, create store size = .ok s ∧
      Fetched rest marked size (marked store) s.stream ⟨[], 0, rest store⟩ ∧ s.mark_pos_ = 0 := by
  refine ⟨⟨⟨store, false, List.replicate size 0, 0, 0⟩, 0⟩, ?_, ?_, rfl⟩
  · rw [create, BufferedInputStream.create, if_neg (by omega)]
    rfl
  · exact ⟨List.length_replicate, Nat.zero_le _, Nat.le_refl _, rfl, rfl⟩

end MarkableInputStream

namespace BufferedReader
variable {S : Type} {inp : AbstractReader S} {rest marked : S → List UInt8} {size n : Nat}
  {u : List UInt8} {s : BufferedReader S} {c : Chunked UInt8}

/-- The characters of a line, with its end. -/
def lineLength (m : List UInt8) : Nat := (m.takeWhile (· ≠ 10)).length + 1

/-- A line without its end, and without carriage returns. -/
def lineText (m : List UInt8) : List UInt8 := (m.takeWhile (· ≠ 10)).filter (· ≠ 13)

/-- How many characters a call asks for. -/
def demand (m : List UInt8) : Op → Nat
  | .read => 1
  | .range cBuf off len => if cBuf.length < off ∨ cBuf.length - off < len then 0 else len
  | .readLine => lineLength m
  | .skip n => n

/-- A call on the sequence itself. -/
def serve (m : List UInt8) (op : Op) : List UInt8 × CharAnswer :=
  (m.drop (demand m op), match op with
    | .read => .char m.head?
    | .range cBuf off len =>
      if cBuf.length < off ∨ cBuf.length - off < len then
        .thrown (.outOfRange "Buffer offset/length out of range")
      else if len = 0 then .filled cBuf 0
      else
        let f := fetch m cBuf off len
        .filled f.2.1 (asInt f.2.2)
    | .readLine => .line (lineText m)
    | .skip n => .skipped (min n m.length))

def chunked (rest : S → List UInt8) (s : BufferedReader S) : Chunked UInt8 :=
  ⟨s.buffer_.take s.count_, s.pos_, rest s.reader_⟩

structure Fetched (rest marked : S → List UInt8) (size : Nat) (u : List UInt8) (p : Nat)
    (s : BufferedReader S) (c : Chunked UInt8) : Prop where
  cells : s.buffer_.length = size
  room : s.buffer_size_ = size
  filled : s.count_ ≤ size
  chunks : chunked rest s = c
  marked : marked s.reader_ = u
  mark : s.mark_limit_ = p

/-- An underlying reader as it is needed: exact bulk reads that keep the mark. -/
structure Underlying (inp : AbstractReader S) (rest marked : S → List UInt8) : Prop where
  reads : Reads inp rest
  keeps : ∀ s buf off len, marked (inp.readRange s buf off len).1 = marked s

variable {p : Nat}

theorem Fetched.length_chunk (h : Fetched rest marked size u p s c) :
    c.chunk.length = s.count_ := by
  rw [← h.chunks, chunked, List.length_take, h.cells]
  exact Nat.min_eq_left h.filled

theorem Fetched.pos (h : Fetched rest marked size u p s c) : c.pos = s.pos_ := by
  rw [← h.chunks]
  rfl

theorem fetch_eq (m buf : List UInt8) (off len : Nat) :
    fetch m buf off len = (m.drop len, (deliver m buf off len).2.1,
      if m = [] then -1 else ((min len m.length : Nat) : Int)) := by
  unfold fetch
  split
  · rename_i hnil
    simp [hnil, deliver]
  · dsimp only
    rw [deliver_left]
    rfl

/-- Filling the buffer takes as much from the sequence as there is and has room. -/
theorem fillBuffer_eq (hinp : Underlying inp rest marked) {m : List UInt8}
    (hcells : s.buffer_.length = size) (hroom : s.buffer_size_ = size)
    (hrest : rest s.reader_ = m) :
    ∃ reader, s.fillBuffer inp =
        ({ s with
          reader_ := reader
          buffer_ := m.take (min size m.length) ++ s.buffer_.drop (min size m.length)
          pos_ := 0
          count_ := min size m.length }, decide (0 < min size m.length)) ∧
      rest reader = m.drop size ∧ marked reader = marked s.reader_ := by
  have hrange := hinp.reads.range s.reader_ s.buffer_ 0 size
    (Nat.le_of_eq (by rw [Nat.zero_add, hcells]))
  rw [hrest, fetch_eq, Prod.ext_iff] at hrange
  obtain ⟨hleft, hgot⟩ := hrange
  have hbuf := congrArg Prod.fst hgot
  have hnumber := congrArg Prod.snd hgot
  simp only [deliver, List.take_zero, List.nil_append, Nat.zero_add] at hbuf hnumber
  have hcount : (if 0 < (inp.readRange s.reader_ s.buffer_ 0 size).2.2 then
      (inp.readRange s.reader_ s.buffer_ 0 size).2.2.toNat else 0) = min size m.length := by
    rw [hnumber]
    by_cases hnil : m = []
    · simp [hnil]
    · rw [if_neg hnil]
      split <;> omega
  refine ⟨_, ?_, hleft, hinp.keeps _ _ _ _⟩
  simp only [fillBuffer, hroom, hcount, hbuf]

/-- The buffer is filled where there is nothing left of the chunk. -/
theorem Fetched.hasMore (h : Fetched rest marked size u p s c)
    (hinp : Underlying inp rest marked) :
    Fetched rest marked size u p (s.hasMore inp).1 (c.refill size) ∧
      ((s.hasMore inp).2 = true ↔ (c.refill size).pos < (c.refill size).chunk.length) := by
  have hlen := h.length_chunk
  have hpos := h.pos
  unfold BufferedReader.hasMore Chunked.refill
  by_cases hempty : s.count_ ≤ s.pos_
  · rw [if_pos hempty, if_neg (by omega)]
    have hrest : rest s.reader_ = c.rest := by
      rw [← h.chunks]
      rfl
    obtain ⟨reader, hfilled, hleft, hkeeps⟩ := fillBuffer_eq hinp h.cells h.room hrest
    have htake : (c.rest.take (min size c.rest.length)).length = min size c.rest.length := by
      rw [List.length_take]
      omega
    have hcells := h.cells
    rw [hfilled]
    refine ⟨⟨?_, h.room, Nat.min_le_left _ _, ?_, hkeeps.trans h.marked, h.mark⟩, ?_⟩
    · simp only [List.length_append, htake, List.length_drop, hcells]
      omega
    · have hchunk : (c.rest.take (min size c.rest.length) ++
          s.buffer_.drop (min size c.rest.length)).take (min size c.rest.length) =
            c.rest.take size := by
        rw [List.take_left' htake, List.take_eq_take_iff]
        omega
      simp only [chunked, hchunk, hleft]
    · simp only [decide_eq_true_eq, List.length_take]
  · rw [if_neg hempty, if_pos (by omega)]
    refine ⟨h, ?_⟩
    simp only [true_iff]
    omega

/-- What the loops do before each turn: there are elements in the chunk, or there are none at
all. -/
theorem Fetched.turn (h : Fetched rest marked size u p s c) (hinp : Underlying inp rest marked)
    (hsize : 1 ≤ size) (hn : 0 < n) :
    ∃ c₁, Fetched rest marked size u p (s.hasMore inp).1 c₁ ∧ c.left = c₁.left ∧
      c.advance size n = c₁.advance size n ∧
      ((s.hasMore inp).2 = true ∧ c₁.pos < c₁.chunk.length ∨
        (s.hasMore inp).2 = false ∧ c.left = [] ∧ c₁.advance size n = c₁) := by
  obtain ⟨h₁, hflag⟩ := h.hasMore hinp
  refine ⟨c.refill size, h₁, (Chunked.left_refill size c).symm,
    (Chunked.advance_refill hn c).symm, ?_⟩
  cases hmore : (s.hasMore inp).2 with
  | true => exact .inl ⟨rfl, hflag.mp hmore⟩
  | false =>
    have hnone : ¬(c.refill size).pos < (c.refill size).chunk.length := by
      rw [← hflag, hmore]
      exact Bool.false_ne_true
    have hdone := Chunked.refill_done hsize (Nat.le_of_not_lt hnone)
    refine .inr ⟨rfl, ?_, by rw [hdone, Chunked.advance_done]⟩
    rw [← Chunked.left_refill size c, hdone]
    rfl

/-- Characters taken from the chunk are the next of the sequence. -/
theorem Fetched.take (h : Fetched rest marked size u p s c) (hn : c.pos + n ≤ c.chunk.length) :
    Ranges.read s.buffer_ s.pos_ n = some (c.left.take n) ∧ n ≤ c.left.length ∧
      Fetched rest marked size u p { s with pos_ := s.pos_ + n } (c.advance size n) := by
  have hlen := h.length_chunk
  have hpos := h.pos
  have hcells := h.cells
  have hfilled := h.filled
  have hunread := c.length_unread
  refine ⟨?_, ?_, ?_⟩
  · rw [Ranges.read, if_pos (by omega), Chunked.left, List.take_append_of_le_length (by omega),
      Chunked.unread, ← h.chunks]
    simp only [chunked]
    rw [List.take_drop, List.take_drop, List.take_take, Nat.min_eq_left (by omega)]
  · rw [Chunked.left, List.length_append]
    omega
  · rw [Chunked.advance_within hn]
    refine ⟨h.cells, h.room, h.filled, ?_, h.marked, h.mark⟩
    rw [← h.chunks]
    rfl

theorem Fetched.next (h : Fetched rest marked size u p s c) (hmore : c.pos < c.chunk.length) :
    ∃ ch m, c.left = ch :: m ∧ s.buffer_[s.pos_]? = some ch ∧
      Fetched rest marked size u p { s with pos_ := s.pos_ + 1 } (c.advance size 1) := by
  obtain ⟨hread, hlen, h'⟩ := h.take (n := 1) hmore
  cases hleft : c.left with
  | nil =>
    rw [hleft] at hlen
    exact absurd hlen (Nat.not_succ_le_zero 0)
  | cons ch m =>
    rw [hleft] at hread
    exact ⟨ch, m, rfl, Ranges.read_one hread, h'⟩

theorem read_serves (hinp : Underlying inp rest marked) (hsize : 1 ≤ size)
    (h : Fetched rest marked size u p s c) :
    ∃ s', s.read inp = some (s', .char c.left.head?) ∧
      Fetched rest marked size u p s' (c.advance size 1) := by
  obtain ⟨c₁, h₁, hleft, hsame, hmore | ⟨hflag, hnil, hdone⟩⟩ := h.turn hinp hsize Nat.one_pos
  · obtain ⟨ch, m, hcons, hcell, h'⟩ := h₁.next hmore.2
    refine ⟨_, ?_, hsame ▸ h'⟩
    rw [hleft, hcons, BufferedReader.read, if_pos hmore.1, hcell]
    rfl
  · refine ⟨_, ?_, by rw [hsame, hdone]; exact h₁⟩
    rw [hnil, BufferedReader.read, hflag]
    rfl

/-- The loop delivers the range, from one filling of the buffer after the other. -/
theorem readLoop_serves (hinp : Underlying inp rest marked) (hsize : 1 ≤ size) {fuel : Nat} :
    ∀ s c cBuf currentOffset remainingLen totalBytesRead, Fetched rest marked size u p s c →
      currentOffset + remainingLen ≤ cBuf.length → remainingLen < fuel →
      ∃ s', readLoop inp fuel s cBuf currentOffset remainingLen totalBytesRead =
          some (s', (deliver c.left cBuf currentOffset remainingLen).2.1,
            totalBytesRead + (deliver c.left cBuf currentOffset remainingLen).2.2) ∧
        Fetched rest marked size u p s' (c.advance size remainingLen) := by
  induction fuel with
  | zero => exact fun _ _ _ _ _ _ _ _ hfuel => absurd hfuel (Nat.not_lt_zero _)
  | succ fuel ih =>
    intro s c cBuf currentOffset remainingLen totalBytesRead h hroom hfuel
    unfold readLoop
    split
    · rename_i hlen
      obtain ⟨c₁, h₁, hleft, hsame, hmore | ⟨hflag, hnil, hdone⟩⟩ := h.turn hinp hsize hlen
      · generalize s.hasMore inp = r at h₁ hmore
        have hpos := h₁.pos
        have hchunk := h₁.length_chunk
        obtain ⟨n, hn⟩ : ∃ n, min (r.1.count_ - r.1.pos_) remainingLen = n := ⟨_, rfl⟩
        obtain ⟨hread, hm, h₂⟩ := h₁.take (n := n) (by omega)
        obtain ⟨cBuf', hwrite, hlength, hdeliver⟩ :=
          deliver_add remainingLen (by omega) hm hroom
        obtain ⟨s', hloop, h'⟩ := ih { r.1 with pos_ := r.1.pos_ + n } (c₁.advance size n) cBuf'
          (currentOffset + n) (remainingLen - n) (totalBytesRead + n) h₂ (by omega) (by omega)
        rw [Chunked.left_advance hsize] at hloop
        rw [← Chunked.advance_add, Nat.add_sub_cancel' (by omega)] at h'
        rw [hleft, hdeliver _ rfl, hsame]
        refine ⟨s', ?_, h'⟩
        simp only [hmore.1, if_true, hn, hread, hwrite, Option.bind_eq_bind, Option.bind_some]
        rw [hloop, Nat.add_assoc]
      · rw [hnil, deliver_nil, hsame, hdone]
        exact ⟨_, by simp only [hflag, Bool.false_eq_true, if_false]; rfl, h₁⟩
    · rename_i hend
      obtain rfl : remainingLen = 0 := by omega
      rw [deliver_zero]
      exact ⟨s, rfl, h⟩

/-- The loop passes over as many characters as there are, up to the number asked for. -/
theorem skipLoop_serves (hinp : Underlying inp rest marked) (hsize : 1 ≤ size) {fuel : Nat} :
    ∀ s c remaining skipped, Fetched rest marked size u p s c → remaining < fuel →
      ∃ s', skipLoop inp fuel s remaining skipped =
          some (s', skipped + min remaining c.left.length) ∧
        Fetched rest marked size u p s' (c.advance size remaining) := by
  induction fuel with
  | zero => exact fun _ _ _ _ _ hfuel => absurd hfuel (Nat.not_lt_zero _)
  | succ fuel ih =>
    intro s c remaining skipped h hfuel
    unfold skipLoop
    split
    · rename_i hlen
      obtain ⟨c₁, h₁, hleft, hsame, hmore | ⟨hflag, hnil, hdone⟩⟩ := h.turn hinp hsize hlen
      · generalize s.hasMore inp = r at h₁ hmore
        have hpos := h₁.pos
        have hchunk := h₁.length_chunk
        obtain ⟨n, hn⟩ : ∃ n, min (r.1.count_ - r.1.pos_) remaining = n := ⟨_, rfl⟩
        obtain ⟨_, hm, h₂⟩ := h₁.take (n := n) (by omega)
        obtain ⟨s', hloop, h'⟩ := ih { r.1 with pos_ := r.1.pos_ + n } (c₁.advance size n)
          (remaining - n) (skipped + n) h₂ (by omega)
        rw [Chunked.left_advance hsize, List.length_drop] at hloop
        rw [← Chunked.advance_add, Nat.add_sub_cancel' (by omega)] at h'
        have hcount : skipped + n + min (remaining - n) (c₁.left.length - n) =
            skipped + min remaining c₁.left.length := by omega
        rw [hcount] at hloop
        rw [hleft, hsame]
        refine ⟨s', ?_, h'⟩
        simp only [hmore.1, if_true, hn]
        exact hloop
      · rw [hnil, List.length_nil, Nat.min_zero, Nat.add_zero, hsame, hdone]
        exact ⟨_, by simp only [hflag, Bool.false_eq_true, if_false], h₁⟩
    · rename_i hend
      obtain rfl : remaining = 0 := by omega
      exact ⟨s, by simp, h⟩

/-- The loop takes a line with its end, or all that there is. -/
theorem readLineLoop_serves (hinp : Underlying inp rest marked) (hsize : 1 ≤ size) {fuel : Nat} :
    ∀ s c line, Fetched rest marked size u p s c → c.left.length < fuel →
      ∃ s', readLineLoop inp fuel s line = some (s', line ++ lineText c.left) ∧
        Fetched rest marked size u p s' (c.advance size (lineLength c.left)) := by
  induction fuel with
  | zero => exact fun _ _ _ _ hfuel => absurd hfuel (Nat.not_lt_zero _)
  | succ fuel ih =>
    intro s c line h hfuel
    obtain ⟨c₁, h₁, hleft, hsame, hmore | ⟨hflag, hnil, hdone⟩⟩ := h.turn hinp hsize
      (n := lineLength c.left) (Nat.succ_pos _)
    · obtain ⟨ch, m, hcons, hcell, h₂⟩ := h₁.next hmore.2
      rw [hleft, hcons] at hfuel hsame ⊢
      unfold readLineLoop
      simp only [hmore.1, if_true, hcell, Option.bind_eq_bind, Option.bind_some]
      rw [hsame]
      by_cases hend : ch = 10
      · subst hend
        have htext : lineText (10 :: m) = [] := rfl
        have hlength : lineLength (10 :: m) = 1 := rfl
        rw [if_pos rfl, htext, List.append_nil, hlength]
        exact ⟨_, rfl, h₂⟩
      · rw [if_neg hend]
        have hm : (c₁.advance size 1).left = m := by
          rw [Chunked.left_advance hsize, hcons]
          rfl
        obtain ⟨s', hloop, h'⟩ := ih _ _ (if ch = 13 then line else line ++ [ch]) h₂
          (by rw [hm]; exact Nat.lt_of_succ_lt_succ hfuel)
        rw [hm] at hloop h'
        rw [← Chunked.advance_add] at h'
        have hlength : lineLength (ch :: m) = 1 + lineLength m := by
          simp [lineLength, hend, Nat.add_comm]
        have htext : line ++ lineText (ch :: m) =
            (if ch = 13 then line else line ++ [ch]) ++ lineText m := by
          by_cases hreturn : ch = 13 <;> simp [lineText, hend, hreturn]
        rw [hlength, htext]
        exact ⟨s', hloop, h'⟩
    · rw [hsame, hdone, hnil]
      unfold readLineLoop
      exact ⟨_, by simp only [hflag, Bool.false_eq_true, if_false]; simp [lineText], h₁⟩

theorem serve_left (m : List UInt8) (op : Op) : (serve m op).1 = m.drop (demand m op) := rfl

/-- Each call is served, and the chunk that is kept after it is known. -/
theorem serves (hinp : Underlying inp rest marked) (hsize : 1 ≤ size) (fuel : Nat) :
    Serves (step inp fuel) serve demand size (fun (s : BufferedReader S) c =>
      Fetched rest marked size u p s c ∧ c.left.length < fuel) := by
  intro s c op hs
  obtain ⟨h, hfuel⟩ := hs
  have hserved : ∃ s', step inp fuel s op = some (s', (serve c.left op).2) ∧
      Fetched rest marked size u p s' (c.advance size (demand c.left op)) := by
    cases op with
    | read => exact read_serves hinp hsize h
    | range cBuf off len =>
      simp only [step, readRange, serve, demand]
      by_cases hbad : cBuf.length < off ∨ cBuf.length - off < len
      · simp only [if_pos hbad]
        exact ⟨s, rfl, h⟩
      · simp only [if_neg hbad]
        by_cases hzero : len = 0
        · simp only [if_pos hzero]
          exact ⟨s, rfl, hzero ▸ h⟩
        · obtain ⟨s', hloop, h'⟩ := readLoop_serves hinp hsize s c cBuf off len 0 h (by omega)
            (Nat.lt_succ_self len)
          rw [Nat.zero_add] at hloop
          refine ⟨s', ?_, h'⟩
          have hcount : (if 0 < (deliver c.left cBuf off len).2.2 then
              asInt (deliver c.left cBuf off len).2.2 else -1) =
                asInt (fetch c.left cBuf off len).2.2 := by
            rw [fetch_eq]
            by_cases hnil : c.left = []
            · simp [hnil, deliver, asInt]
            · have hpos := List.length_pos_of_ne_nil hnil
              have hsome : 0 < (deliver c.left cBuf off len).2.2 :=
                Nat.lt_min.mpr ⟨Nat.pos_of_ne_zero hzero, hpos⟩
              rw [if_pos hsome, if_neg hnil]
              rfl
          simp only [if_neg hzero, hloop, Option.map_some, hcount, fetch_eq]
    | readLine =>
      obtain ⟨s', hloop, h'⟩ := readLineLoop_serves hinp hsize s c [] h hfuel
      refine ⟨s', ?_, h'⟩
      rw [step, readLine, hloop]
      rfl
    | skip n =>
      simp only [step, skip, serve, demand]
      by_cases hzero : n = 0
      · subst hzero
        exact ⟨s, by simp, h⟩
      · obtain ⟨s', hloop, h'⟩ := skipLoop_serves hinp hsize s c n 0 h (Nat.lt_succ_self n)
        rw [Nat.zero_add] at hloop
        exact ⟨s', by rw [if_neg hzero, hloop]; rfl, h'⟩
  obtain ⟨s', hstep, h'⟩ := hserved
  refine ⟨s', hstep, h', ?_⟩
  rw [Chunked.left_advance hsize, List.length_drop]
  omega

/-- All runs of calls are served as from the sequence. -/
def Replays (inp : AbstractReader S) (rest : S → List UInt8) (fuel : Nat) (s : BufferedReader S)
    (m : List UInt8) : Prop :=
  ∀ ops, Refines (step inp fuel) serve (fun s m => (chunked rest s).left = m) s m ops

/-- The chunk that is kept when so much has been read has the characters behind the position of the
mark that were there. -/
def Spared (size t : Nat) (c : Chunked UInt8) : Prop := (c.kept size t).drop c.pos = c.unread

/-- After a reset the sequence is read again from the mark exactly where the chunk has been
spared. -/
theorem reset_iff (hinp : Underlying inp rest marked)
    (hmarks : Marks inp.mark inp.reset (fun s buf off len => (inp.readRange s buf off len).1) rest
      marked)
    (hsize : 1 ≤ size) (h : Fetched rest marked size u p s c) (hpos : c.pos ≤ c.chunk.length)
    {fuel : Nat} (hfuel : c.left.length < fuel) (limit : Nat) (after : List Op) :
    (∃ s₀ s₁, s.mark inp limit = .ok s₀ ∧
        exec (step inp fuel) s₀ after = some (s₁, (execModel serve c.left after).2) ∧
        Replays inp rest fuel (s₁.reset inp) c.left) ↔
      0 < limit ∧ Spared size (total demand c.left after) c := by
  by_cases hlimit : limit = 0
  · simp [mark, hlimit]
  · have hrest : rest s.reader_ = c.rest := by
      rw [← h.chunks]
      rfl
    obtain ⟨hsame, hset⟩ := hmarks.mark s.reader_ limit
    have hmark : Fetched rest marked size c.rest c.pos
        { s with reader_ := inp.mark s.reader_ limit, mark_limit_ := s.pos_ } c := by
      refine ⟨h.cells, h.room, h.filled, ?_, hset.trans hrest, h.pos.symm⟩
      rw [← h.chunks]
      simp only [chunked, hsame]
    obtain ⟨s₁, hrun, ⟨h₁, _⟩, _⟩ :=
      (serves hinp hsize fuel).exec hsize serve_left after ⟨hmark, hfuel⟩
    rw [and_iff_right (Nat.pos_of_ne_zero hlimit)]
    simp only [mark, if_neg hlimit, Except.ok.injEq, exists_and_left, exists_eq_left', hrun,
      Option.some.injEq, Prod.mk.injEq, and_true]
    -- what the reset leads back to
    have hkept := Chunked.chunk_advance hsize hpos (total demand c.left after)
    have hchunk : s₁.buffer_.take s₁.count_ = c.kept size (total demand c.left after) := by
      rw [← hkept, ← h₁.chunks]
      rfl
    have hchunked : chunked rest (s₁.reset inp) =
        ⟨c.kept size (total demand c.left after), c.pos, c.rest⟩ := by
      simp only [chunked, reset, hchunk, h₁.mark, hmarks.reset, h₁.marked]
    have hleft : (chunked rest (s₁.reset inp)).left = c.left ↔
        Spared size (total demand c.left after) c := by
      rw [hchunked]
      exact List.append_left_inj c.rest
    rw [← hleft]
    constructor
    · intro hall
      obtain ⟨s', hnone, hrep⟩ := hall [] [] List.prefix_rfl
      cases hnone
      exact hrep
    · intro hspared ops
      have hreset : Fetched rest marked size (marked (inp.reset s₁.reader_)) c.pos (s₁.reset inp)
          (chunked rest (s₁.reset inp)) := ⟨h₁.cells, h₁.room, h₁.filled, rfl, rfl, h₁.mark⟩
      have hserved := (serves hinp hsize fuel).refines hsize serve_left (chunked rest)
        (fun _ _ hs => hs.1.chunks) ⟨hreset, hspared ▸ hfuel⟩ ops
      rwa [hspared] at hserved

theorem create_fetched (rest marked : S → List UInt8) (hsize : 1 ≤ size) (store : S) :
    ∃ s, create store size = .ok s ∧
      Fetched rest marked size (marked store) 0 s ⟨[], 0, rest store⟩ :=
  ⟨_, if_neg (by omega), List.length_replicate, rfl, Nat.zero_le _, rfl, rfl, rfl⟩

end BufferedReader

/-- From any position that reads lead to, a reset leads back to the mark exactly where the chunk has
been spared by the reads between the two. -/
theorem mark_reset_iff {S T : Type} {inp : InputStream S} {rest marked : S → List UInt8}
    {inp' : AbstractReader T} {rest' marked' : T → List UInt8}
    (hyields : BufferedInputStream.Yields inp.toAbstractInputStream rest)
    (hmarks : Marks inp.mark inp.reset (fun s buf off len => (inp.readRange s buf off len).1) rest
      marked)
    (hreads : Reads inp' rest')
    (hmarks' : Marks inp'.mark inp'.reset (fun s buf off len => (inp'.readRange s buf off len).1)
      rest' marked')
    {size : Nat} (hsize : 1 ≤ size) (hmax : size < 2 ^ 64) (store : S) (store' : T) :
    (∃ s, MarkableInputStream.create store size = .ok s ∧ ∀ before, ∃ s₀ c,
      exec (MarkableInputStream.step inp) s before =
        some (s₀, (execModel MarkableInputStream.serve (rest store) before).2) ∧
      MarkableInputStream.chunked rest s₀.stream = c ∧ ∀ limit after,
        ((∃ s₁, exec (MarkableInputStream.step inp) (s₀.mark inp limit) after =
              some (s₁, (execModel MarkableInputStream.serve c.left after).2) ∧
            MarkableInputStream.Replays inp rest (s₁.reset inp) c.left) ↔
          MarkableInputStream.Spared size (total MarkableInputStream.demand c.left after) c)) ∧
    ∃ s, BufferedReader.create store' size = .ok s ∧ ∀ fuel, (rest' store').length < fuel →
      ∀ before, ∃ s₀ c,
        exec (BufferedReader.step inp' fuel) s before =
          some (s₀, (execModel BufferedReader.serve (rest' store') before).2) ∧
        BufferedReader.chunked rest' s₀ = c ∧ ∀ limit after,
          ((∃ s₁ s₂, s₀.mark inp' limit = .ok s₁ ∧
              exec (BufferedReader.step inp' fuel) s₁ after =
                some (s₂, (execModel BufferedReader.serve c.left after).2) ∧
              BufferedReader.Replays inp' rest' fuel (s₂.reset inp') c.left) ↔
            0 < limit ∧
              BufferedReader.Spared size (total BufferedReader.demand c.left after) c) := by
  refine ⟨?_, ?_⟩
  · have hinp : MarkableInputStream.Underlying inp rest marked := ⟨hyields, hmarks.read⟩
    obtain ⟨s, hcreate, hs⟩ := MarkableInputStream.create_fetched rest marked hsize store
    refine ⟨s, hcreate, ?_⟩
    intro before
    obtain ⟨s₀, hrun, ⟨h₀, _⟩, _⟩ :=
      (MarkableInputStream.serves hinp hsize 0).exec hsize MarkableInputStream.serve_left before hs
    refine ⟨s₀, _, hrun, h₀.chunks, ?_⟩
    intro limit after
    exact MarkableInputStream.reset_iff hinp hmarks hsize hmax h₀ limit after
  · have hinp : BufferedReader.Underlying inp' rest' marked' := ⟨hreads, hmarks'.read⟩
    obtain ⟨s, hcreate, hs⟩ := BufferedReader.create_fetched rest' marked' hsize store'
    refine ⟨s, hcreate, ?_⟩
    intro fuel hfuel before
    obtain ⟨s₀, hrun, ⟨h₀, hfuel₀⟩, _⟩ :=
      (BufferedReader.serves hinp hsize fuel).exec hsize BufferedReader.serve_left before
        ⟨hs, hfuel⟩
    refine ⟨s₀, _, hrun, h₀.chunks, ?_⟩
    intro limit after
    exact BufferedReader.reset_iff hinp hmarks' hsize h₀ (Chunked.pos_advance _ (Nat.le_refl 0))
      hfuel₀ limit after

theorem tapeInput_marks : Marks tapeInput.mark tapeInput.reset
    (fun s buf off len => (tapeInput.readRange s buf off len).1) Tape.left Tape.marked :=
  ⟨fun _ _ => ⟨rfl, rfl⟩, fun _ _ _ _ => rfl, fun _ => rfl⟩

theorem tapeReader_marks : Marks tapeReader.mark tapeReader.reset
    (fun s buf off len => (tapeReader.readRange s buf off len).1) Tape.left Tape.marked :=
  ⟨fun _ _ => ⟨rfl, rfl⟩, fun _ _ _ _ => rfl, fun _ => rfl⟩

/-- A mark at the start and one byte read: after the reset both bytes in the buffer come, and then
the first one again from below. -/
theorem mark_reset_repeats :
    (∃ s s₁ s₂, MarkableInputStream.create ⟨[97, 98], []⟩ 4 = .ok s ∧
      exec (MarkableInputStream.step tapeInput) (s.mark tapeInput 1) [.read] =
        some (s₁, [.byte 97]) ∧
      exec (MarkableInputStream.step tapeInput) (s₁.reset tapeInput) [.read, .read, .read] =
        some (s₂, [.byte 97, .byte 98, .byte 97]) ∧
      ¬MarkableInputStream.Replays tapeInput Tape.left (s₁.reset tapeInput) [97, 98]) ∧
    ∃ s s₀ s₁ s₂, BufferedReader.create ⟨[97, 98], []⟩ 4 = .ok s ∧
      s.mark tapeReader 1 = .ok s₀ ∧
      exec (BufferedReader.step tapeReader 9) s₀ [.read] = some (s₁, [.char (some 97)]) ∧
      exec (BufferedReader.step tapeReader 9) (s₁.reset tapeReader) [.read, .read, .read] =
        some (s₂, [.char (some 97), .char (some 98), .char (some 97)]) ∧
      ¬BufferedReader.Replays tapeReader Tape.left 9 (s₁.reset tapeReader) [97, 98] := by
  refine ⟨⟨_, _, _, rfl, rfl, rfl, ?_⟩, _, _, _, _, rfl, rfl, rfl, rfl, ?_⟩
  · intro hall
    obtain ⟨s', hrun, hleft⟩ := hall [] [] List.prefix_rfl
    cases hrun
    cases hleft
  · intro hall
    obtain ⟨s', hrun, hleft⟩ := hall [] [] List.prefix_rfl
    cases hrun
    cases hleft

/-- One of the two bytes left in the buffer is read after the mark. -/
theorem mark_reset_within : ∃ s s₀ s₁,
    MarkableInputStream.create ⟨[97, 98, 99], []⟩ 4 = .ok s ∧
    exec (MarkableInputStream.step tapeInput) s [.read] = some (s₀, [.byte 97]) ∧
    exec (MarkableInputStream.step tapeInput) (s₀.mark tapeInput 1) [.read] =
      some (s₁, [.byte 98]) ∧
    MarkableInputStream.Replays tapeInput Tape.left (s₁.reset tapeInput) [98, 99] := by
  obtain ⟨s, hcreate, hs⟩ := (mark_reset_iff tapeInput_streams.toYields tapeInput_marks
    tapeReader_reads tapeReader_marks (show 1 ≤ 4 by decide) (by decide) ⟨[97, 98, 99], []⟩
    ⟨[], []⟩).1
  obtain ⟨s₀, c, hbefore, hchunked, hc⟩ := hs [.read]
  cases hcreate
  cases hbefore
  cases hchunked
  obtain ⟨s₁, hafter, hreplays⟩ := (hc 1 [.read]).mpr
    (MarkableInputStream.spared_of_le (by decide) (by decide))
  exact ⟨_, _, s₁, rfl, rfl, hafter, hreplays⟩

end Cppforge.Io
