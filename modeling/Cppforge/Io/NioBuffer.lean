import Cppforge.Lib.Ranges

namespace Cppforge.Io

/-- The exceptions of the buffers, each with its text. -/
inductive Failure
  | outOfRange (text : String)
  | overflowError (text : String)
  | underflowError (text : String)
deriving DecidableEq

/-- The index pair that all buffers share, over their elements. -/
structure IBuffer (α : Type) where
  buffer : List α
  position : Nat
  limit : Nat
  capacity : Nat
deriving DecidableEq

namespace IBuffer
variable {α : Type}

/-- A vector of `capacity` elements, all `zero`. -/
def create (zero : α) (capacity : Nat) : IBuffer α :=
  ⟨List.replicate capacity zero, 0, capacity, capacity⟩

def remaining (b : IBuffer α) : Nat := b.limit - b.position

def hasRemaining (b : IBuffer α) : Bool := decide (b.position < b.limit)

def clear (b : IBuffer α) : IBuffer α := { b with position := 0, limit := b.capacity }

def flip (b : IBuffer α) : IBuffer α := { b with limit := b.position, position := 0 }

def rewind (b : IBuffer α) : IBuffer α := { b with position := 0 }

/-- What is left moves to the front. Here and below `none` is an access outside the vector. -/
def compact (b : IBuffer α) : Option (IBuffer α) := do
  let count := b.limit - b.position
  let buffer ← if 0 < count ∧ 0 < b.position then Ranges.move b.buffer b.position 0 count
    else some b.buffer
  return { b with buffer := buffer, position := count, limit := b.capacity }

/-- The setter `position`; the text is that of its exception. -/
def setPosition (text : String) (b : IBuffer α) (newPosition : Nat) :
    IBuffer α × Except Failure Unit :=
  if b.limit < newPosition then (b, .error (.outOfRange text))
  else ({ b with position := newPosition }, .ok ())

/-- The setter `limit`; the position comes down with it. -/
def setLimit (text : String) (b : IBuffer α) (newLimit : Nat) : IBuffer α × Except Failure Unit :=
  if b.capacity < newLimit then (b, .error (.outOfRange text))
  else ({ b with limit := newLimit, position := min b.position newLimit }, .ok ())

def putValue (text : String) (b : IBuffer α) (value : α) :
    Option (IBuffer α × Except Failure Unit) :=
  if b.hasRemaining then do
    let buffer ← Ranges.write b.buffer b.position [value]
    return ({ b with buffer := buffer, position := b.position + 1 }, .ok ())
  else some (b, .error (.overflowError text))

def getValue (text : String) (b : IBuffer α) : Option (IBuffer α × Except Failure α) :=
  if b.hasRemaining then do
    let value ← b.buffer[b.position]?
    return ({ b with position := b.position + 1 }, .ok value)
  else some (b, .error (.underflowError text))

/-- The values not got yet. -/
def getRemaining (b : IBuffer α) : Option (List α) :=
  if b.limit ≤ b.position then some [] else Ranges.read b.buffer b.position b.remaining

end IBuffer

abbrev ByteBuffer := IBuffer UInt8

namespace ByteBuffer

def create (capacity : Nat) : ByteBuffer := IBuffer.create 0 capacity

def setPosition (b : ByteBuffer) (newPosition : Nat) : ByteBuffer × Except Failure Unit :=
  IBuffer.setPosition "ByteBuffer::position: Position exceeds the current limit." b newPosition

def setLimit (b : ByteBuffer) (newLimit : Nat) : ByteBuffer × Except Failure Unit :=
  IBuffer.setLimit "ByteBuffer::limit: New limit exceeds capacity." b newLimit

def put (b : ByteBuffer) (value : UInt8) : Option (ByteBuffer × Except Failure Unit) :=
  b.putValue "ByteBuffer::put: Buffer overflow" value

def putAll (b : ByteBuffer) (src : List UInt8) : Option (ByteBuffer × Except Failure Unit) :=
  if src.isEmpty then some (b, .ok ())
  else if b.remaining < src.length then
    some (b, .error (.overflowError "ByteBuffer::put: Insufficient space in buffer"))
  else do
    let buffer ← Ranges.write b.buffer b.position src
    return ({ b with buffer := buffer, position := b.position + src.length }, .ok ())

def get (b : ByteBuffer) : Option (ByteBuffer × Except Failure UInt8) :=
  b.getValue "ByteBuffer::get: Buffer underflow"

def getMany (b : ByteBuffer) (length : Nat) : Option (ByteBuffer × Except Failure (List UInt8)) :=
  if length = 0 then some (b, .ok [])
  else if b.remaining < length then
    some (b, .error (.underflowError "ByteBuffer::get: Insufficient data in buffer"))
  else do
    let result ← Ranges.read b.buffer b.position length
    return ({ b with position := b.position + length }, .ok result)

inductive Put
  | value (value : UInt8)
  | all (src : List UInt8)

inductive Get
  | one
  | many (length : Nat)

inductive Op
  | put (p : Put)
  | get (g : Get)
  | flip
  | clear
  | rewind
  | compact
  | position (newPosition : Nat)
  | limit (newLimit : Nat)

/-- A call that returns nothing, as one that gets no values. -/
def noValues (r : ByteBuffer × Except Failure Unit) : ByteBuffer × Except Failure (List UInt8) :=
  (r.1, r.2.map fun _ => [])

/-- A call with the values that it got. -/
def step (b : ByteBuffer) : Op → Option (ByteBuffer × Except Failure (List UInt8))
  | .put (.value value) => (b.put value).map noValues
  | .put (.all src) => (b.putAll src).map noValues
  | .get .one => (b.get).map fun r => (r.1, r.2.map fun value => [value])
  | .get (.many length) => b.getMany length
  | .flip => some (b.flip, .ok [])
  | .clear => some (b.clear, .ok [])
  | .rewind => some (b.rewind, .ok [])
  | .compact => b.compact.map fun b => (b, .ok [])
  | .position newPosition => some (noValues (b.setPosition newPosition))
  | .limit newLimit => some (noValues (b.setLimit newLimit))

end ByteBuffer

abbrev IntBuffer := IBuffer Int32

namespace IntBuffer

def create (capacity : Nat) : IntBuffer := IBuffer.create 0 capacity

def setPosition (b : IntBuffer) (newPosition : Nat) : IntBuffer × Except Failure Unit :=
  IBuffer.setPosition "IntBuffer::position: Position exceeds limit." b newPosition

def setLimit (b : IntBuffer) (newLimit : Nat) : IntBuffer × Except Failure Unit :=
  IBuffer.setLimit "IntBuffer::limit: Limit exceeds capacity." b newLimit

def put (b : IntBuffer) (value : Int32) : Option (IntBuffer × Except Failure Unit) :=
  b.putValue "IntBuffer::put: Buffer overflow." value

def putAt (b : IntBuffer) (index : Nat) (value : Int32) :
    Option (IntBuffer × Except Failure Unit) :=
  if b.limit ≤ index then some (b, .error (.outOfRange "IntBuffer::put: Index out of bounds."))
  else do
    let buffer ← Ranges.write b.buffer index [value]
    return ({ b with buffer := buffer }, .ok ())

def get (b : IntBuffer) : Option (IntBuffer × Except Failure Int32) :=
  b.getValue "IntBuffer::get: Buffer underflow."

def getAt (b : IntBuffer) (index : Nat) : Option (IntBuffer × Except Failure Int32) :=
  if b.limit ≤ index then some (b, .error (.outOfRange "IntBuffer::get: Index out of bounds."))
  else do
    let value ← b.buffer[index]?
    return (b, .ok value)

inductive Op
  | put (value : Int32)
  | putAt (index : Nat) (value : Int32)
  | get
  | getAt (index : Nat)
  | flip
  | clear
  | rewind
  | compact
  | position (newPosition : Nat)
  | limit (newLimit : Nat)

def noValues (r : IntBuffer × Except Failure Unit) : IntBuffer × Except Failure (List Int32) :=
  (r.1, r.2.map fun _ => [])

def oneValue (r : IntBuffer × Except Failure Int32) : IntBuffer × Except Failure (List Int32) :=
  (r.1, r.2.map fun value => [value])

/-- A call with the values that it got. -/
def step (b : IntBuffer) : Op → Option (IntBuffer × Except Failure (List Int32))
  | .put value => (b.put value).map noValues
  | .putAt index value => (b.putAt index value).map noValues
  | .get => b.get.map oneValue
  | .getAt index => (b.getAt index).map oneValue
  | .flip => some (b.flip, .ok [])
  | .clear => some (b.clear, .ok [])
  | .rewind => some (b.rewind, .ok [])
  | .compact => b.compact.map fun b => (b, .ok [])
  | .position newPosition => some (noValues (b.setPosition newPosition))
  | .limit newLimit => some (noValues (b.setLimit newLimit))

end IntBuffer

/-- The floats by their bits. -/
abbrev FloatBuffer := IBuffer UInt32

namespace FloatBuffer

def create (capacity : Nat) : FloatBuffer := IBuffer.create 0 capacity

def setPosition (b : FloatBuffer) (newPosition : Nat) : FloatBuffer × Except Failure Unit :=
  IBuffer.setPosition "FloatBuffer::position: Position exceeds limit." b newPosition

def setLimit (b : FloatBuffer) (newLimit : Nat) : FloatBuffer × Except Failure Unit :=
  IBuffer.setLimit "FloatBuffer::limit: Limit exceeds capacity." b newLimit

def put (b : FloatBuffer) (value : UInt32) : Option (FloatBuffer × Except Failure Unit) :=
  b.putValue "FloatBuffer::put: Buffer overflow" value

def putAll (b : FloatBuffer) (values : List UInt32) : Option (FloatBuffer × Except Failure Unit) :=
  if values.isEmpty then some (b, .ok ())
  else if b.remaining < values.length then
    some (b, .error (.overflowError "FloatBuffer::put: Buffer overflow"))
  else do
    let buffer ← Ranges.write b.buffer b.position values
    return ({ b with buffer := buffer, position := b.position + values.length }, .ok ())

def get (b : FloatBuffer) : Option (FloatBuffer × Except Failure UInt32) :=
  b.getValue "FloatBuffer::get: Buffer underflow"

/-- The end of the range is computed in a `size_t`; `none` is also a range that ends before it
starts. -/
def getMany (b : FloatBuffer) (length : UInt64) :
    Option (FloatBuffer × Except Failure (List UInt32)) :=
  if length = 0 then some (b, .ok [])
  else
    let last := (b.position + length.toNat) % 2 ^ 64
    if b.limit < last then some (b, .error (.underflowError "FloatBuffer::get: Buffer underflow"))
    else if last < b.position then none
    else do
      let result ← Ranges.read b.buffer b.position (last - b.position)
      return ({ b with position := last }, .ok result)

inductive Op
  | put (value : UInt32)
  | putAll (values : List UInt32)
  | get
  | getMany (length : UInt64)
  | flip
  | clear
  | rewind
  | compact
  | position (newPosition : Nat)
  | limit (newLimit : Nat)

def noValues (r : FloatBuffer × Except Failure Unit) :
    FloatBuffer × Except Failure (List UInt32) :=
  (r.1, r.2.map fun _ => [])

/-- A call with the values that it got. -/
def step (b : FloatBuffer) : Op → Option (FloatBuffer × Except Failure (List UInt32))
  | .put value => (b.put value).map noValues
  | .putAll values => (b.putAll values).map noValues
  | .get => b.get.map fun r => (r.1, r.2.map fun value => [value])
  | .getMany length => b.getMany length
  | .flip => some (b.flip, .ok [])
  | .clear => some (b.clear, .ok [])
  | .rewind => some (b.rewind, .ok [])
  | .compact => b.compact.map fun b => (b, .ok [])
  | .position newPosition => some (noValues (b.setPosition newPosition))
  | .limit newLimit => some (noValues (b.setLimit newLimit))

end FloatBuffer

end Cppforge.Io
