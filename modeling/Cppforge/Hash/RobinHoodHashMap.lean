import Cppforge.Lib.KeyMap

namespace Cppforge.Hash
open KeyMap

inductive RobinHoodHashMap.State where
  | empty
  | occupied
  | tombstone
deriving DecidableEq

/-- `psr` is the distance from the ideal bucket; it is not bounded here. -/
structure RobinHoodHashMap.Slot (K V : Type) where
  state : RobinHoodHashMap.State
  psr : Nat
  key : K
  value : V

/-- Sizes are not bounded, and `max_load_factor_` keeps its default 0.75. Arguments are values,
never references into the map. -/
structure RobinHoodHashMap (K V : Type) where
  slots : List (RobinHoodHashMap.Slot K V)
  size : Nat
  capacityMask : Nat

namespace RobinHoodHashMap
variable {K V : Type} (h : Hashing K)

section Lookup

def initialCapacity : Nat := 8

def nextPowerOfTwo (n : Nat) : Nat := roundUp n

def idealIndex (mask : Nat) (key : K) : Nat := (h.hash key).toNat &&& mask

/-- The loop of `find_slot`. Here and below the outer `none` is a loop that does not end within
`fuel` rounds, or an access out of bounds. -/
def findLoop (mask : Nat) (slots : List (Slot K V)) (key : K) (fuel idx dist : Nat) :
    Option (Option Nat) :=
  match fuel with
  | 0 => none
  | fuel + 1 => do
    let slot ← slots[idx]?
    if slot.state = .empty ∨ dist > slot.psr then some none
    else if slot.state = .occupied ∧ h.keyEqual slot.key key = true then some (some idx)
    else findLoop mask slots key fuel ((idx + 1) &&& mask) (dist + 1)

/-- The inner `none` is `NOT_FOUND`. -/
def findSlot (m : RobinHoodHashMap K V) (key : K) : Option (Option Nat) :=
  if m.slots.isEmpty then some none
  else findLoop h m.capacityMask m.slots key m.slots.length (idealIndex h m.capacityMask key) 0

def contains (m : RobinHoodHashMap K V) (key : K) : Option Bool :=
  (m.findSlot h key).map Option.isSome

/-- The pair that the iterator points to, `none` for `end()`. -/
def find (m : RobinHoodHashMap K V) (key : K) : Option (Option (K × V)) := do
  match ← m.findSlot h key with
  | none => return none
  | some idx =>
    let slot ← m.slots[idx]?
    return some (slot.key, slot.value)

/-- `at`; the inner `none` is the exception. -/
def valueAt (m : RobinHoodHashMap K V) (key : K) : Option (Option V) := do
  match ← m.findSlot h key with
  | none => return none
  | some idx =>
    let slot ← m.slots[idx]?
    return some slot.value

/-- The pairs that iterators meet, from a slot on. -/
def iterate : List (Slot K V) → List (K × V)
  | [] => []
  | slot :: slots =>
    if slot.state = .occupied then (slot.key, slot.value) :: iterate slots else iterate slots

/-- An iteration from `begin()` to `end()`. -/
def toList (m : RobinHoodHashMap K V) : List (K × V) := iterate m.slots

end Lookup

section Changes

/-- The loop of `insert_no_resize`. -/
def insertNoResizeLoop (mask fuel : Nat) (slots : List (Slot K V)) (entry : Slot K V)
    (idx psr : Nat) : Option (List (Slot K V)) :=
  match fuel with
  | 0 => none
  | fuel + 1 => do
    let slot ← slots[idx]?
    if slot.state ≠ .occupied then some (slots.set idx { entry with psr := psr })
    else if psr > slot.psr then
      insertNoResizeLoop mask fuel (slots.set idx { entry with psr := psr }) slot
        ((idx + 1) &&& mask) (slot.psr + 1)
    else insertNoResizeLoop mask fuel slots entry ((idx + 1) &&& mask) (psr + 1)

def insertNoResize (m : RobinHoodHashMap K V) (entry : Slot K V) :
    Option (RobinHoodHashMap K V) := do
  let slots ← insertNoResizeLoop m.capacityMask m.slots.length m.slots
    { entry with state := .occupied, psr := 0 } (idealIndex h m.capacityMask entry.key) 0
  return { m with slots := slots, size := m.size + 1 }

/-- The insertions of `rehash`. -/
def insertAll (m : RobinHoodHashMap K V) : List (Slot K V) → Option (RobinHoodHashMap K V)
  | [] => some m
  | slot :: slots =>
    if slot.state = .occupied then do
      let m ← m.insertNoResize h slot
      m.insertAll slots
    else m.insertAll slots

/-- The loop of `insert_entry`. The index is that of the iterator that comes back. -/
def insertEntryLoop (mask fuel : Nat) (slots : List (Slot K V)) (entry : Slot K V) (keyCheck : K)
    (idx psr : Nat) : Option (List (Slot K V) × Nat × Bool) :=
  match fuel with
  | 0 => none
  | fuel + 1 => do
    let slot ← slots[idx]?
    if slot.state = .occupied ∧ h.keyEqual slot.key keyCheck = true then some (slots, idx, false)
    else if slot.state ≠ .occupied then
      some (slots.set idx { entry with state := .occupied, psr := psr }, idx, true)
    else if psr > slot.psr then
      insertEntryLoop mask fuel (slots.set idx { entry with state := .occupied, psr := psr }) slot
        keyCheck ((idx + 1) &&& mask) (slot.psr + 1)
    else insertEntryLoop mask fuel slots entry keyCheck ((idx + 1) &&& mask) (psr + 1)

/-- The loop of `erase_at`. -/
def eraseLoop (mask fuel : Nat) (slots : List (Slot K V)) (idx : Nat) :
    Option (List (Slot K V)) :=
  match fuel with
  | 0 => none
  | fuel + 1 => do
    let next := (idx + 1) &&& mask
    let nextSlot ← slots[next]?
    if nextSlot.state ≠ .occupied ∨ nextSlot.psr ≤ 0 then do
      let slot ← slots[idx]?
      return slots.set idx { slot with state := .empty, psr := 0 }
    else eraseLoop mask fuel (slots.set idx { nextSlot with psr := nextSlot.psr - 1 }) next

def eraseAt (m : RobinHoodHashMap K V) (idx : Nat) : Option (RobinHoodHashMap K V) := do
  let slots ← eraseLoop m.capacityMask m.slots.length m.slots idx
  return { m with slots := slots, size := m.size - 1 }

def erase (m : RobinHoodHashMap K V) (key : K) : Option (RobinHoodHashMap K V × Bool) := do
  match ← m.findSlot h key with
  | none => return (m, false)
  | some idx => return (← m.eraseAt idx, true)

def clear (m : RobinHoodHashMap K V) : RobinHoodHashMap K V :=
  { m with slots := m.slots.map (fun slot => { slot with state := .empty, psr := 0 }), size := 0 }

variable [Inhabited K] [Inhabited V]

def rehash (m : RobinHoodHashMap K V) (newCapacity : Nat) : Option (RobinHoodHashMap K V) :=
  let newCapacity := nextPowerOfTwo newCapacity
  let newCapacity := if newCapacity < initialCapacity then initialCapacity else newCapacity
  if newCapacity = m.slots.length then some m
  else
    insertAll h ⟨List.replicate newCapacity ⟨.empty, 0, default, default⟩, 0, newCapacity - 1⟩
      m.slots

/-- The quotient by 0.75, rounded down. -/
def reserve (m : RobinHoodHashMap K V) (count : Nat) : Option (RobinHoodHashMap K V) :=
  m.rehash h (nextPowerOfTwo (count * 4 / 3))

/-- The default constructor. -/
def create : Option (RobinHoodHashMap K V) := reserve h ⟨[], 0, 0⟩ initialCapacity

/-- The quotient of the doubles is exact, since the number of slots is a power of two. -/
def ensureCapacity (m : RobinHoodHashMap K V) : Option (RobinHoodHashMap K V) :=
  if m.slots.isEmpty ∨ 4 * (m.size + 1) > 3 * m.slots.length then
    m.rehash h (if m.slots.isEmpty then initialCapacity else m.slots.length * 2)
  else some m

def insert (m : RobinHoodHashMap K V) (key : K) (value : V) :
    Option (RobinHoodHashMap K V × Nat × Bool) := do
  let m ← m.ensureCapacity h
  let (slots, it, inserted) ← insertEntryLoop h m.capacityMask m.slots.length m.slots
    ⟨.empty, 0, key, value⟩ key (idealIndex h m.capacityMask key) 0
  return ({ m with slots := slots, size := if inserted then m.size + 1 else m.size }, it, inserted)

def insertOrAssign (m : RobinHoodHashMap K V) (key : K) (value : V) :
    Option (RobinHoodHashMap K V × Nat × Bool) := do
  match ← m.findSlot h key with
  | some idx =>
    let slot ← m.slots[idx]?
    return ({ m with slots := m.slots.set idx { slot with value := value } }, idx, false)
  | none => m.insert h key value

/-- A write through such a reference. -/
def writeAt (m : RobinHoodHashMap K V) (it : Nat) (value : V) : Option (RobinHoodHashMap K V) := do
  let slot ← m.slots[it]?
  return { m with slots := m.slots.set it { slot with value := value } }

end Changes

section Calls

inductive Op (K V : Type) where
  | insert (key : K) (value : V)
  | insertOrAssign (key : K) (value : V)
  | erase (key : K)
  | clear

variable [Inhabited K] [Inhabited V]

def apply (m : RobinHoodHashMap K V) : Op K V → Option (RobinHoodHashMap K V × Bool)
  | .insert key value => (m.insert h key value).map (fun r => (r.1, r.2.2))
  | .insertOrAssign key value => (m.insertOrAssign h key value).map (fun r => (r.1, r.2.2))
  | .erase key => m.erase h key
  | .clear => some (m.clear, true)

def run (m : RobinHoodHashMap K V) : List (Op K V) → Option (RobinHoodHashMap K V × List Bool)
  | [] => some (m, [])
  | op :: ops => do
    let (m, r) ← m.apply h op
    let (m, rs) ← m.run ops
    return (m, r :: rs)

/-- The same calls on a finite map. -/
def applyMap (xs : List (K × V)) : Op K V → List (K × V) × Bool
  | .insert key value => KeyMap.insert h xs key value
  | .insertOrAssign key value => KeyMap.assign h xs key value
  | .erase key => KeyMap.erase h xs key
  | .clear => ([], true)

def runMap (xs : List (K × V)) : List (Op K V) → List (K × V) × List Bool
  | [] => (xs, [])
  | op :: ops =>
    let (xs, r) := applyMap h xs op
    let (xs, rs) := runMap xs ops
    (xs, r :: rs)

end Calls

end RobinHoodHashMap

end Cppforge.Hash

namespace Cppforge.Hash.RobinHoodHashMap
open KeyMap

variable {K V : Type} (h : Hashing K)

/-- `next_power_of_two` in its 64 bits. -/
def nextPowerOfTwo64 (n : UInt64) : UInt64 :=
  if n ≤ 1 then 1
  else
    let n := n - 1
    let n := n ||| (n >>> 1)
    let n := n ||| (n >>> 2)
    let n := n ||| (n >>> 4)
    let n := n ||| (n >>> 8)
    let n := n ||| (n >>> 16)
    let n := n ||| (n >>> 32)
    n + 1

/-- The number of slots that `rehash` is to leave. -/
def bucketsFor (newCapacity : UInt64) : Nat :=
  let newCapacity := (nextPowerOfTwo64 newCapacity).toNat
  if newCapacity < initialCapacity then initialCapacity else newCapacity

variable [Inhabited K] [Inhabited V] (allocates : Nat → Bool) (quotient : UInt64 → UInt64)

end Cppforge.Hash.RobinHoodHashMap
