import Cppforge.Lib.Ranges

namespace Cppforge.Io

/-- The exceptions of the streams, each with its text. -/
inductive StreamError
  | invalidArgument (text : String)
  | outOfRange (text : String)
  | runtimeError (text : String)
deriving DecidableEq

/-- The calls into the underlying stream, on its own state. A pointer is the bytes behind it. -/
structure AbstractOutputStream (S : Type) where
  writeVector : S → List UInt8 → S
  writeRange : S → List UInt8 → Nat → Nat → S
  writePointer : S → List UInt8 → Nat → S
  flush : S → S

/-- The stream with the state of the one below, whose pointer is never null. The base class has a
`closed_` of its own. -/
structure BufferedOutputStream (S : Type) where
  outputStream : S
  filterClosed : Bool
  bufferSize : Nat
  buffer : List UInt8
  bufferPosition : Nat
  closed : Bool

namespace BufferedOutputStream
variable {S : Type} (out : AbstractOutputStream S) (s : BufferedOutputStream S)

def create (outputStream : S) (size : Nat) : Except StreamError (BufferedOutputStream S) :=
  if size = 0 then .error (.invalidArgument "Buffer size must be greater than 0")
  else .ok ⟨outputStream, false, size, List.replicate size 0, 0, false⟩

def flushBuffer : BufferedOutputStream S :=
  if 0 < s.bufferPosition then
    { s with
      outputStream := out.writeRange s.outputStream s.buffer 0 s.bufferPosition
      bufferPosition := 0 }
  else s

/-- `write(b)`. Here and below `none` is an access outside a vector or an array. -/
def write (b : UInt8) : Option (BufferedOutputStream S) :=
  if s.closed then some s
  else do
    let s := if s.bufferSize ≤ s.bufferPosition then s.flushBuffer out else s
    let buffer ← Ranges.write s.buffer s.bufferPosition [b]
    return { s with buffer := buffer, bufferPosition := s.bufferPosition + 1 }

/-- The loop that copies data through the buffer; a loop that does not end in `fuel` turns is
`none` too. -/
def copyLoop (data : List UInt8) (offset len : Nat) :
    Nat → BufferedOutputStream S → Nat → Option (BufferedOutputStream S)
  | 0, _, _ => none
  | fuel + 1, s, bytesWritten =>
    if bytesWritten < len then do
      let s := if s.bufferPosition = s.bufferSize then s.flushBuffer out else s
      let bytesToCopy := min (len - bytesWritten) (s.bufferSize - s.bufferPosition)
      let bytes ← Ranges.read data (offset + bytesWritten) bytesToCopy
      let buffer ← Ranges.write s.buffer s.bufferPosition bytes
      copyLoop data offset len fuel
        { s with buffer := buffer, bufferPosition := s.bufferPosition + bytesToCopy }
        (bytesWritten + bytesToCopy)
    else some s

def writeRange (data : List UInt8) (offset len : Nat) :
    Option (BufferedOutputStream S × Except StreamError Unit) :=
  if len = 0 ∨ s.closed = true then some (s, .ok ())
  else if data.length < offset ∨ data.length - offset < len then
    some (s, .error (.outOfRange "Data offset/length out of range"))
  else if s.bufferSize ≤ len then
    let s := s.flushBuffer out
    some ({ s with outputStream := out.writeRange s.outputStream data offset len }, .ok ())
  else (copyLoop out data offset len (len + 1) s 0).map fun s => (s, .ok ())

/-- A null pointer is `none`. -/
def writePointer (buffer : Option (List UInt8)) (length : Nat) :
    Option (BufferedOutputStream S × Except StreamError Unit) :=
  if length = 0 ∨ s.closed = true then some (s, .ok ())
  else match buffer with
    | none => some (s, .error (.invalidArgument "Buffer cannot be null"))
    | some bytes =>
      if s.bufferSize ≤ length then
        let s := s.flushBuffer out
        some ({ s with outputStream := out.writePointer s.outputStream bytes length }, .ok ())
      else (copyLoop out bytes 0 length (length + 1) s 0).map fun s => (s, .ok ())

/-- `FilterOutputStream::write` of a vector, which this class does not override. -/
def writeVector (data : List UInt8) : BufferedOutputStream S × Except StreamError Unit :=
  if s.filterClosed then (s, .error (.runtimeError "Output stream is closed"))
  else ({ s with outputStream := out.writeVector s.outputStream data }, .ok ())

def flush : BufferedOutputStream S :=
  let s := s.flushBuffer out
  { s with outputStream := out.flush s.outputStream }

inductive Op
  | byte (b : UInt8)
  | vector (data : List UInt8)
  | range (data : List UInt8) (offset len : Nat)
  | pointer (bytes : List UInt8)
  | null (length : Nat)
  | flush

/-- A call; what a pointer points to has the length that is passed with it. -/
def step (s : BufferedOutputStream S) :
    Op → Option (BufferedOutputStream S × Except StreamError Unit)
  | .byte b => (s.write out b).map fun s => (s, .ok ())
  | .vector data => some (s.writeVector out data)
  | .range data offset len => s.writeRange out data offset len
  | .pointer bytes => s.writePointer out (some bytes) bytes.length
  | .null length => s.writePointer out none length
  | .flush => some (s.flush out, .ok ())

end BufferedOutputStream

/-- The calls into the underlying stream, on its own state; those that read give back the vector
they were given, with the bytes read in it, and their number. -/
structure AbstractInputStream (S : Type) where
  readVector : S → List UInt8 → S × List UInt8 × Nat
  readRange : S → List UInt8 → Nat → Nat → S × List UInt8 × Nat
  isEof : S → Bool

structure BufferedInputStream (S : Type) where
  inputStream : S
  eof : Bool
  buf : List UInt8
  count : Nat
  pos : Nat

inductive Answer
  | byte (b : UInt8)
  | filled (buffer : List UInt8) (count : Nat)
  | skipped (n : Int)
  | thrown (e : StreamError)
deriving DecidableEq

namespace BufferedInputStream
variable {S : Type} (inp : AbstractInputStream S) (s : BufferedInputStream S)

def create (inputStream : S) (size : Nat) : Except StreamError (BufferedInputStream S) :=
  if size = 0 then
    .error (.invalidArgument "BufferedInputStream: Buffer size must be greater than zero")
  else .ok ⟨inputStream, false, List.replicate size 0, 0, 0⟩

def fillBuffer : BufferedInputStream S :=
  let filled := inp.readRange s.inputStream s.buf 0 s.buf.length
  { s with inputStream := filled.1, buf := filled.2.1, count := filled.2.2, pos := 0 }

/-- `read()`. Here and below `none` is an access outside a vector. -/
def read : Option (BufferedInputStream S × Answer) :=
  let s := if s.count ≤ s.pos then s.fillBuffer inp else s
  if s.count ≤ s.pos then some ({ s with eof := true }, .byte 255)
  else do
    let b ← s.buf[s.pos]?
    return ({ s with pos := s.pos + 1 }, .byte b)

/-- `count_ - pos_` of two `size_t`, which wraps around where the position is behind the bytes. -/
def available : Nat := if s.pos ≤ s.count then s.count - s.pos else 2 ^ 64 + s.count - s.pos

/-- What `processWithBuffer` does before the operation that it is given. -/
def refill : BufferedInputStream S := if s.available = 0 then s.fillBuffer inp else s

/-- The loop of `read(buffer, offset, len)`; one that does not end in `fuel` turns is `none`. -/
def readLoop : Nat → BufferedInputStream S → List UInt8 → Nat → Nat → Nat →
    Option (BufferedInputStream S × List UInt8 × Nat)
  | 0, _, _, _, _, _ => none
  | fuel + 1, s, buffer, currentOffset, remainingLen, totalBytesRead =>
    if 0 < remainingLen then
      let s := s.refill inp
      if s.available = 0 then some (s, buffer, totalBytesRead)
      else do
        let bytesToRead := min remainingLen s.available
        let bytes ← Ranges.read s.buf s.pos bytesToRead
        let buffer ← Ranges.write buffer currentOffset bytes
        readLoop fuel { s with pos := s.pos + bytesToRead } buffer (currentOffset + bytesToRead)
          (remainingLen - bytesToRead) (totalBytesRead + bytesToRead)
    else some (s, buffer, totalBytesRead)

def readRange (buffer : List UInt8) (offset len : Nat) : Option (BufferedInputStream S × Answer) :=
  if buffer.length < offset ∨ buffer.length - offset < len then
    some (s, .thrown (.outOfRange "BufferedInputStream::read: Buffer offset/length out of range"))
  else if len = 0 then some (s, .filled buffer 0)
  else (readLoop inp (len + 1) s buffer offset len 0).map fun r => (r.1, .filled r.2.1 r.2.2)

/-- `FilterInputStream::read` of a vector, which this class does not override. -/
def readVector (buffer : List UInt8) : BufferedInputStream S × Answer :=
  let filled := inp.readVector s.inputStream buffer
  ({ s with inputStream := filled.1, eof := s.eof || inp.isEof filled.1 },
    .filled filled.2.1 filled.2.2)

/-- The loop of `skip`. -/
def skipLoop : Nat → BufferedInputStream S → Int → Int → Option (BufferedInputStream S × Int)
  | 0, _, _, _ => none
  | fuel + 1, s, remaining, skipped =>
    if 0 < remaining then
      let s := s.refill inp
      if s.available = 0 then some (s, skipped)
      else
        let bytesToSkip := min remaining.toNat s.available
        skipLoop fuel { s with pos := s.pos + bytesToSkip } (remaining - bytesToSkip)
          (skipped + bytesToSkip)
    else some (s, skipped)

def skip (n : Int) : Option (BufferedInputStream S × Answer) :=
  if n ≤ 0 then some (s, .skipped 0)
  else (skipLoop inp (n.toNat + 1) s n 0).map fun r => (r.1, .skipped r.2)

inductive Op
  | read
  | vector (buffer : List UInt8)
  | range (buffer : List UInt8) (offset len : Nat)
  | skip (n : Int)

def step (s : BufferedInputStream S) : Op → Option (BufferedInputStream S × Answer)
  | .read => s.read inp
  | .vector buffer => some (s.readVector inp buffer)
  | .range buffer offset len => s.readRange inp buffer offset len
  | .skip n => s.skip inp n

end BufferedInputStream

end Cppforge.Io
