import Cppforge.Io.BufferedStreams

namespace Cppforge.Io

/-- A subclass of `AbstractInputStream` that has only `read()` of its own: the byte, and whether
`setEof` was called. -/
structure ByteSource (S : Type) where
  read : S → S × UInt8 × Bool

/-- The subclass with the flag of its base. -/
structure SourceStream (S : Type) where
  source : S
  eof : Bool

namespace SourceStream
variable {S : Type} (src : ByteSource S)

def read (s : SourceStream S) : SourceStream S × UInt8 :=
  let r := src.read s.source
  (⟨r.1, s.eof || r.2.2⟩, r.2.1)

/-- The loop of the bulk read, with the turns that are left. Here and below `none` is an access
outside a vector. -/
def readLoop (offset : Nat) : Nat → SourceStream S → List UInt8 → Nat →
    Option (SourceStream S × List UInt8 × Nat)
  | 0, s, buffer, bytesRead => some (s, buffer, bytesRead)
  | turns + 1, s, buffer, bytesRead =>
    if s.eof then some (s, buffer, bytesRead)
    else do
      let r := s.read src
      let buffer ← Ranges.write buffer (offset + bytesRead) [r.2]
      readLoop offset turns r.1 buffer (bytesRead + 1)

def readRange (s : SourceStream S) (buffer : List UInt8) (offset len : Nat) :
    Option (SourceStream S × Answer) :=
  if buffer.length < offset ∨ buffer.length - offset < len then
    some (s, .thrown (.outOfRange "Buffer offset/length out of range"))
  else
    (readLoop src offset len { s with eof := false } buffer 0).map fun r =>
      (r.1, .filled r.2.1 r.2.2)

def readVector (s : SourceStream S) (buffer : List UInt8) : Option (SourceStream S × Answer) :=
  s.readRange src buffer 0 buffer.length

/-- The loop of `skip`, with the turns that are left. -/
def skipLoop : Nat → SourceStream S → Int → SourceStream S × Int
  | 0, s, skipped => (s, skipped)
  | turns + 1, s, skipped =>
    if s.eof then (s, skipped) else skipLoop turns (s.read src).1 (skipped + 1)

def skip (s : SourceStream S) (n : Int) : SourceStream S × Answer :=
  if n ≤ 0 then (s, .skipped 0)
  else
    let r := skipLoop src n.toNat { s with eof := false } 0
    (r.1, .skipped r.2)

end SourceStream

/-- What a reader answers. A number of characters is returned as an `int`. -/
inductive CharAnswer
  | char (c : Option UInt8)
  | filled (buffer : List UInt8) (count : Int)
  | skipped (n : Nat)
  | line (text : List UInt8)
  | done
  | thrown (e : StreamError)
deriving DecidableEq

/-- `static_cast<int>` of a size. -/
def asInt (n : Int) : Int := n.bmod (2 ^ 32)

/-- The calls into an underlying reader, on its own state. A number of characters is -1 at the end
of the stream. -/
structure AbstractReader (S : Type) where
  read : S → S × Option UInt8
  readVector : S → List UInt8 → S × List UInt8 × Int
  readRange : S → List UInt8 → Nat → Nat → S × List UInt8 × Int
  skip : S → Nat → S × Nat
  mark : S → Nat → S
  reset : S → S

/-- All calls into an underlying stream. -/
structure InputStream (S : Type) extends AbstractInputStream S where
  read : S → S × UInt8
  skip : S → Int → S × Int
  mark : S → Int → S
  reset : S → S

structure CharArrayReader where
  buf_ : List UInt8
  pos_ : Nat
  marked_pos_ : Nat
  count_ : Nat
  closed_ : Bool

namespace CharArrayReader

def ofVector (buffer : List UInt8) : CharArrayReader := ⟨buffer, 0, 0, buffer.length, false⟩

/-- `offset + length` is computed in a `size_t`; `none` is a range that ends before it starts or
behind the vector. -/
def ofRange (buffer : List UInt8) (offset length : UInt64) :
    Option (Except StreamError CharArrayReader) :=
  if buffer.length < offset.toNat ∨ buffer.length < (offset + length).toNat then
    some (.error
      (.invalidArgument "CharArrayReader::CharArrayReader: Invalid offset or length"))
  else if (offset + length).toNat < offset.toNat then none
  else do
    let buf_ ← Ranges.read buffer offset.toNat ((offset + length).toNat - offset.toNat)
    return .ok ⟨buf_, 0, 0, length.toNat, false⟩

end CharArrayReader

/-! What the two pushback streams have in common: a buffer that is filled from its end, and the
position of what was pushed back last. -/

namespace Pushback

/-- The loop that takes what was pushed back, of at most `turns` turns. -/
def takeLoop (back : List UInt8) (off len : Nat) : Nat → Nat → List UInt8 → Nat →
    Option (Nat × List UInt8 × Nat)
  | 0, pos, buf, bytesRead => some (pos, buf, bytesRead)
  | turns + 1, pos, buf, bytesRead =>
    if pos < back.length ∧ bytesRead < len then do
      let c ← back[pos]?
      let buf ← Ranges.write buf (off + bytesRead) [c]
      takeLoop back off len turns (pos + 1) buf (bytesRead + 1)
    else some (pos, buf, bytesRead)

/-- The loop of `unread`, with the turns that are left; the next turn takes the last of them. -/
def unreadLoop (buf : List UInt8) (off : Nat) : Nat → List UInt8 → Nat → Option (List UInt8 × Nat)
  | 0, back, pos => some (back, pos)
  | turns + 1, back, pos => do
    let c ← buf[off + turns]?
    let back ← Ranges.write back (pos - 1) [c]
    unreadLoop buf off turns back (pos - 1)

end Pushback

/-- The reader below, whose pointer is never null. -/
structure PushbackReader (S : Type) where
  in_ : S
  buffer_ : List UInt8
  buffer_pos_ : Nat
  closed_ : Bool

namespace PushbackReader
variable {S : Type} (inp : AbstractReader S) (s : PushbackReader S)

/-- `buffer_pos_` starts at `DEFAULT_BUFFER_SIZE`. -/
def create (reader : S) (size : Nat) : Except StreamError (PushbackReader S) :=
  if size = 0 then
    .error (.invalidArgument
      "PushbackReader::constructor: Buffer size must be greater than zero.")
  else .ok ⟨reader, List.replicate size 0, 1024, false⟩

def closedError : StreamError := .runtimeError "PushbackReader::operation: Stream is closed"

def read : Option (PushbackReader S × CharAnswer) :=
  if s.closed_ then some (s, .thrown closedError)
  else if s.buffer_pos_ < s.buffer_.length then do
    let c ← s.buffer_[s.buffer_pos_]?
    return ({ s with buffer_pos_ := s.buffer_pos_ + 1 }, .char (some c))
  else
    let r := inp.read s.in_
    some ({ s with in_ := r.1 }, .char r.2)

def readRange (cBuf : List UInt8) (off len : Nat) : Option (PushbackReader S × CharAnswer) :=
  if s.closed_ then some (s, .thrown closedError)
  else if cBuf.length < off ∨ cBuf.length - off < len then
    some (s, .thrown (.outOfRange "PushbackReader::read: Buffer overflow."))
  else do
    let (pos, cBuf, bytesRead) ← Pushback.takeLoop s.buffer_ off len len s.buffer_pos_ cBuf 0
    let s := { s with buffer_pos_ := pos }
    if bytesRead < len then
      let r := inp.readRange s.in_ cBuf (off + bytesRead) (len - bytesRead)
      let s := { s with in_ := r.1 }
      if r.2.2 = -1 then return (s, .filled r.2.1 (if 0 < bytesRead then asInt bytesRead else -1))
      else return (s, .filled r.2.1 (asInt (bytesRead + r.2.2.toNat)))
    else return (s, .filled cBuf (asInt bytesRead))

/-- `FilterReader::read` of a vector, which this class does not override. -/
def readVector (cBuf : List UInt8) : PushbackReader S × CharAnswer :=
  let r := inp.readVector s.in_ cBuf
  ({ s with in_ := r.1 }, .filled r.2.1 r.2.2)

def skip (n : Nat) : PushbackReader S × CharAnswer :=
  if s.closed_ then (s, .thrown closedError)
  else
    let skipped :=
      if s.buffer_pos_ < s.buffer_.length then min n (s.buffer_.length - s.buffer_pos_) else 0
    let s := { s with buffer_pos_ := s.buffer_pos_ + skipped }
    if skipped < n then
      let r := inp.skip s.in_ (n - skipped)
      ({ s with in_ := r.1 }, .skipped (skipped + r.2))
    else (s, .skipped skipped)

/-- `std::overflow_error` is a `std::runtime_error`. -/
def overflow : StreamError := .runtimeError "PushbackReader::unread: Pushback buffer overflow."

def unreadRange (cBuf : List UInt8) (off len : Nat) : Option (PushbackReader S × CharAnswer) :=
  if s.closed_ then some (s, .thrown closedError)
  else if cBuf.length < off ∨ cBuf.length - off < len then
    some (s, .thrown (.outOfRange "PushbackReader::unread: Buffer offset/length out of range"))
  else if s.buffer_pos_ < len then some (s, .thrown overflow)
  else do
    let (buffer_, pos) ← Pushback.unreadLoop cBuf off len s.buffer_ s.buffer_pos_
    return ({ s with buffer_ := buffer_, buffer_pos_ := pos }, .done)

def unreadChar (c : UInt8) : Option (PushbackReader S × CharAnswer) :=
  if s.closed_ then some (s, .thrown closedError)
  else if s.buffer_pos_ = 0 then some (s, .thrown overflow)
  else do
    let buffer_ ← Ranges.write s.buffer_ (s.buffer_pos_ - 1) [c]
    return ({ s with buffer_ := buffer_, buffer_pos_ := s.buffer_pos_ - 1 }, .done)

inductive Op
  | read
  | range (cBuf : List UInt8) (off len : Nat)
  | vector (cBuf : List UInt8)
  | skip (n : Nat)
  | unread (cBuf : List UInt8) (off len : Nat)
  | unreadChar (c : UInt8)

/-- A call; `unread(cbuf)` is the call with all of its characters. -/
def step (s : PushbackReader S) : Op → Option (PushbackReader S × CharAnswer)
  | .read => s.read inp
  | .range cBuf off len => s.readRange inp cBuf off len
  | .vector cBuf => some (s.readVector inp cBuf)
  | .skip n => some (s.skip inp n)
  | .unread cBuf off len => s.unreadRange cBuf off len
  | .unreadChar c => s.unreadChar c

end PushbackReader

/-- The stream below, whose pointer is never null. -/
structure PushbackInputStream (S : Type) where
  input_stream_ : S
  eof : Bool
  pushback_buffer_ : List UInt8
  buffer_pos_ : Nat

/-- What a call on a pushback stream gives. -/
inductive ByteAnswer
  | byte (b : UInt8)
  | filled (buffer : List UInt8) (count : Nat)
  | skipped (n : Int)
  | done
  | thrown (e : StreamError)
deriving DecidableEq

namespace PushbackInputStream
variable {S : Type} (inp : InputStream S) (s : PushbackInputStream S)

def create (inputStream : S) (bufferSize : Nat) : PushbackInputStream S :=
  ⟨inputStream, false, List.replicate bufferSize 0, bufferSize⟩

/-- The stream below after a call, whose end of file is this stream's too. -/
def forward (input_stream_ : S) : PushbackInputStream S :=
  { s with input_stream_ := input_stream_, eof := s.eof || inp.isEof input_stream_ }

def read : Option (PushbackInputStream S × ByteAnswer) :=
  if s.buffer_pos_ < s.pushback_buffer_.length then do
    let b ← s.pushback_buffer_[s.buffer_pos_]?
    return ({ s with buffer_pos_ := s.buffer_pos_ + 1 }, .byte b)
  else
    let r := inp.read s.input_stream_
    some (s.forward inp r.1, .byte r.2)

def readRange (buffer : List UInt8) (offset len : Nat) :
    Option (PushbackInputStream S × ByteAnswer) :=
  if buffer.length ≤ offset ∨ buffer.length - offset < len then
    some (s, .thrown (.outOfRange "PushbackInputStream::read: Buffer overflow"))
  else do
    let (pos, buffer, bytesRead) ←
      Pushback.takeLoop s.pushback_buffer_ offset len len s.buffer_pos_ buffer 0
    let s := { s with buffer_pos_ := pos }
    if bytesRead < len then
      let r := inp.readRange s.input_stream_ buffer (offset + bytesRead) (len - bytesRead)
      return (s.forward inp r.1, .filled r.2.1 (bytesRead + r.2.2))
    else return (s, .filled buffer bytesRead)

def readVector (buffer : List UInt8) : Option (PushbackInputStream S × ByteAnswer) :=
  s.readRange inp buffer 0 buffer.length

/-- `FilterInputStream::skip`, which this class does not override. -/
def skip (n : Int) : PushbackInputStream S × ByteAnswer :=
  let r := inp.skip s.input_stream_ n
  (s.forward inp r.1, .skipped r.2)

/-- `std::overflow_error` is a `std::runtime_error`. -/
def overflow : StreamError :=
  .runtimeError "PushbackInputStream::unread: Pushback buffer overflow"

def unreadRange (buffer : List UInt8) (offset len : Nat) :
    Option (PushbackInputStream S × ByteAnswer) :=
  if buffer.length ≤ offset ∨ buffer.length - offset < len then
    some (s, .thrown
      (.outOfRange "PushbackInputStream::unread: Buffer offset/length out of range"))
  else if s.buffer_pos_ < len then some (s, .thrown overflow)
  else do
    let (back, pos) ← Pushback.unreadLoop buffer offset len s.pushback_buffer_ s.buffer_pos_
    return ({ s with pushback_buffer_ := back, buffer_pos_ := pos }, .done)

def unreadByte (b : UInt8) : Option (PushbackInputStream S × ByteAnswer) :=
  if s.buffer_pos_ = 0 then some (s, .thrown overflow)
  else do
    let back ← Ranges.write s.pushback_buffer_ (s.buffer_pos_ - 1) [b]
    return ({ s with pushback_buffer_ := back, buffer_pos_ := s.buffer_pos_ - 1 }, .done)

inductive Op
  | read
  | range (buffer : List UInt8) (offset len : Nat)
  | vector (buffer : List UInt8)
  | skip (n : Int)
  | unread (buffer : List UInt8) (offset len : Nat)
  | unreadByte (b : UInt8)

/-- A call; `unread(buffer)` is the call with all of its bytes. -/
def step (s : PushbackInputStream S) : Op → Option (PushbackInputStream S × ByteAnswer)
  | .read => s.read inp
  | .range buffer offset len => s.readRange inp buffer offset len
  | .vector buffer => s.readVector inp buffer
  | .skip n => some (s.skip inp n)
  | .unread buffer offset len => s.unreadRange buffer offset len
  | .unreadByte b => s.unreadByte b

end PushbackInputStream

/-- A buffered stream with its mark; the limit of the mark is never read. -/
structure MarkableInputStream (S : Type) where
  stream : BufferedInputStream S
  mark_pos_ : Nat

namespace MarkableInputStream
variable {S : Type} (inp : InputStream S) (s : MarkableInputStream S)

def create (inputStream : S) (size : Nat) : Except StreamError (MarkableInputStream S) :=
  (BufferedInputStream.create inputStream size).map fun stream => ⟨stream, 0⟩

def mark (readLimit : Int) : MarkableInputStream S :=
  { stream := { s.stream with inputStream := inp.mark s.stream.inputStream readLimit }
    mark_pos_ := s.stream.pos }

def reset : MarkableInputStream S :=
  { s with stream := { s.stream with
      pos := s.mark_pos_
      inputStream := inp.reset s.stream.inputStream } }

/-- The reads of the class itself, whose names hide the vector read of its base. -/
inductive Op
  | read
  | range (buffer : List UInt8) (offset len : Nat)
  | skip (n : Int)

def Op.call : Op → BufferedInputStream.Op
  | .read => .read
  | .range buffer offset len => .range buffer offset len
  | .skip n => .skip n

def step (s : MarkableInputStream S) (op : Op) : Option (MarkableInputStream S × Answer) :=
  (s.stream.step inp.toAbstractInputStream op.call).map fun r => ({ s with stream := r.1 }, r.2)

end MarkableInputStream

structure BufferedReader (S : Type) where
  buffer_ : List UInt8
  reader_ : S
  buffer_size_ : Nat
  pos_ : Nat
  count_ : Nat
  mark_limit_ : Nat

namespace BufferedReader
variable {S : Type} (inp : AbstractReader S) (s : BufferedReader S)

def create (reader : S) (size : Nat) : Except StreamError (BufferedReader S) :=
  if size = 0 then .error (.invalidArgument "Buffer size must be greater than 0")
  else .ok ⟨List.replicate size 0, reader, size, 0, 0, 0⟩

def mark (readAheadLimit : Nat) : Except StreamError (BufferedReader S) :=
  if readAheadLimit = 0 then .error (.invalidArgument "Mark limit must be greater than 0")
  else .ok { s with reader_ := inp.mark s.reader_ readAheadLimit, mark_limit_ := s.pos_ }

def reset : BufferedReader S := { s with reader_ := inp.reset s.reader_, pos_ := s.mark_limit_ }

def fillBuffer : BufferedReader S × Bool :=
  let r := inp.readRange s.reader_ s.buffer_ 0 s.buffer_size_
  let count := if 0 < r.2.2 then r.2.2.toNat else 0
  ({ s with reader_ := r.1, buffer_ := r.2.1, pos_ := 0, count_ := count }, decide (0 < count))

/-- Whether there is something in the buffer, which is filled where it is needed. -/
def hasMore : BufferedReader S × Bool :=
  if s.count_ ≤ s.pos_ then s.fillBuffer inp else (s, true)

/-- `read()`. Here and below `none` is an access outside a vector. -/
def read : Option (BufferedReader S × CharAnswer) :=
  let r := s.hasMore inp
  if r.2 then do
    let c ← r.1.buffer_[r.1.pos_]?
    return ({ r.1 with pos_ := r.1.pos_ + 1 }, .char (some c))
  else some (r.1, .char none)

/-- The loop of `read(cBuf, off, len)`; one that does not end in `fuel` turns is `none`. -/
def readLoop : Nat → BufferedReader S → List UInt8 → Nat → Nat → Nat →
    Option (BufferedReader S × List UInt8 × Nat)
  | 0, _, _, _, _, _ => none
  | fuel + 1, s, cBuf, currentOffset, remainingLen, totalBytesRead =>
    if 0 < remainingLen then
      let r := s.hasMore inp
      if r.2 then do
        let bytesToRead := min (r.1.count_ - r.1.pos_) remainingLen
        let bytes ← Ranges.read r.1.buffer_ r.1.pos_ bytesToRead
        let cBuf ← Ranges.write cBuf currentOffset bytes
        readLoop fuel { r.1 with pos_ := r.1.pos_ + bytesToRead } cBuf
          (currentOffset + bytesToRead) (remainingLen - bytesToRead) (totalBytesRead + bytesToRead)
      else some (r.1, cBuf, totalBytesRead)
    else some (s, cBuf, totalBytesRead)

def readRange (cBuf : List UInt8) (off len : Nat) : Option (BufferedReader S × CharAnswer) :=
  if cBuf.length < off ∨ cBuf.length - off < len then
    some (s, .thrown (.outOfRange "Buffer offset/length out of range"))
  else if len = 0 then some (s, .filled cBuf 0)
  else (readLoop inp (len + 1) s cBuf off len 0).map fun r =>
    (r.1, .filled r.2.1 (if 0 < r.2.2 then asInt r.2.2 else -1))

/-- The loop of `readLine`. -/
def readLineLoop : Nat → BufferedReader S → List UInt8 → Option (BufferedReader S × List UInt8)
  | 0, _, _ => none
  | fuel + 1, s, line =>
    let r := s.hasMore inp
    if r.2 then do
      let ch ← r.1.buffer_[r.1.pos_]?
      let s := { r.1 with pos_ := r.1.pos_ + 1 }
      if ch = 10 then return (s, line)
      else readLineLoop fuel s (if ch = 13 then line else line ++ [ch])
    else some (r.1, line)

def readLine (fuel : Nat) : Option (BufferedReader S × CharAnswer) :=
  (readLineLoop inp fuel s []).map fun r => (r.1, .line r.2)

/-- The loop of `skip`. -/
def skipLoop : Nat → BufferedReader S → Nat → Nat → Option (BufferedReader S × Nat)
  | 0, _, _, _ => none
  | fuel + 1, s, remaining, skipped =>
    if 0 < remaining then
      let r := s.hasMore inp
      if r.2 then
        let bytesToSkip := min (r.1.count_ - r.1.pos_) remaining
        skipLoop fuel { r.1 with pos_ := r.1.pos_ + bytesToSkip } (remaining - bytesToSkip)
          (skipped + bytesToSkip)
      else some (r.1, skipped)
    else some (s, skipped)

def skip (n : Nat) : Option (BufferedReader S × CharAnswer) :=
  if n = 0 then some (s, .skipped 0)
  else (skipLoop inp (n + 1) s n 0).map fun r => (r.1, .skipped r.2)

inductive Op
  | read
  | range (cBuf : List UInt8) (off len : Nat)
  | readLine
  | skip (n : Nat)

/-- A call, with the turns that a line may take. -/
def step (fuel : Nat) (s : BufferedReader S) : Op → Option (BufferedReader S × CharAnswer)
  | .read => s.read inp
  | .range cBuf off len => s.readRange inp cBuf off len
  | .readLine => s.readLine inp fuel
  | .skip n => s.skip inp n

end BufferedReader

end Cppforge.Io
