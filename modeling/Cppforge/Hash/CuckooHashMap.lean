import Cppforge.Lib.KeyMap

namespace Cppforge.Hash
open KeyMap

inductive CuckooHashMap.State where
  | empty
  | occupied
deriving DecidableEq

structure CuckooHashMap.Slot (K V : Type) where
  state : CuckooHashMap.State
  key : K
  value : V

/-- Sizes are not bounded, and `max_load_factor_` keeps its default 0.75. -/
structure CuckooHashMap (K V : Type) where
  table1 : List (CuckooHashMap.Slot K V)
  table2 : List (CuckooHashMap.Slot K V)
  stash : List (CuckooHashMap.Slot K V)
  size : Nat
  seed : UInt64
  mask1 : Nat
  mask2 : Nat

namespace CuckooHashMap
variable {K V : Type} (h : Hashing K)

section Lookup

def initialCapacity : Nat := 4

def stashSize : Nat := 8

def goldenRatio : UInt64 := 0x9E3779B97F4A7C15

def hashMix (x seed : UInt64) : UInt64 :=
  let x := x ^^^ seed
  let x := x ^^^ (x >>> 33)
  let x := x * 0xFF51AFD7ED558CCD
  let x := x ^^^ (x >>> 33)
  let x := x * 0xC4CEB9FE1A85EC53
  x ^^^ (x >>> 33)

def h1 (m : CuckooHashMap K V) (key : K) : Nat := (hashMix (h.hash key) m.seed).toNat &&& m.mask1

def h2 (m : CuckooHashMap K V) (key : K) : Nat :=
  (hashMix (h.hash key + goldenRatio) m.seed).toNat &&& m.mask2

def nextPowerOfTwo (n : Nat) : Nat := roundUp n

def bucketCount (m : CuckooHashMap K V) : Nat := m.table1.length + m.table2.length

def maxKicks (m : CuckooHashMap K V) : Nat := max 8 m.bucketCount.log2

/-- Where a slot is: the pointer of an iterator. -/
inductive Pos where
  | t1 (i : Nat)
  | t2 (i : Nat)
  | stash (i : Nat)
deriving DecidableEq

def slotAt (m : CuckooHashMap K V) : Pos → Option (Slot K V)
  | .t1 i => m.table1[i]?
  | .t2 i => m.table2[i]?
  | .stash i => m.stash[i]?

def setAt (m : CuckooHashMap K V) (pos : Pos) (slot : Slot K V) : CuckooHashMap K V :=
  match pos with
  | .t1 i => { m with table1 := m.table1.set i slot }
  | .t2 i => { m with table2 := m.table2.set i slot }
  | .stash i => { m with stash := m.stash.set i slot }

/-- The test that `find_slot` makes of each slot. -/
def Slot.holds (slot : Slot K V) (key : K) : Bool :=
  slot.state = .occupied ∧ h.keyEqual slot.key key = true

/-- The inner `none` is the null pointer. Here and below the outer `none` is an access out of
bounds, or recursion deeper than `fuel`. -/
def findSlot (m : CuckooHashMap K V) (key : K) : Option (Option Pos) :=
  if m.table1.isEmpty then some none
  else do
    let s1 ← m.table1[m.h1 h key]?
    if s1.holds h key then return some (.t1 (m.h1 h key))
    let s2 ← m.table2[m.h2 h key]?
    if s2.holds h key then return some (.t2 (m.h2 h key))
    return (m.stash.findIdx? (fun s => s.holds h key)).map .stash

def contains (m : CuckooHashMap K V) (key : K) : Option Bool :=
  (m.findSlot h key).map Option.isSome

/-- `at`; the inner `none` is the exception. -/
def valueAt (m : CuckooHashMap K V) (key : K) : Option (Option V) := do
  match ← m.findSlot h key with
  | none => return none
  | some pos =>
    let slot ← m.slotAt pos
    return some slot.value

/-- The first occupied slot of a region, from an index on. -/
def scan (slots : List (Slot K V)) (i : Nat) : Option Nat :=
  ((slots.drop i).findIdx? (fun s => s.state = .occupied)).map (i + ·)

/-- `init_iter_begin`; `none` is `end()`. -/
def first (m : CuckooHashMap K V) : Option Pos :=
  if m.table1.isEmpty then none
  else ((scan m.table1 0).map .t1).or (((scan m.table2 0).map .t2).or ((scan m.stash 0).map .stash))

/-- The slots after a position, region by region: `operator++` and `find_next_occupied`. -/
def findNextOccupied (m : CuckooHashMap K V) : Pos → Option Pos
  | .t1 i =>
    ((scan m.table1 (i + 1)).map .t1).or
      (((scan m.table2 0).map .t2).or ((scan m.stash 0).map .stash))
  | .t2 i => ((scan m.table2 (i + 1)).map .t2).or ((scan m.stash 0).map .stash)
  | .stash i => (scan m.stash (i + 1)).map .stash

/-- The pairs that an iterator meets on its way to `end()`. -/
def iterate (m : CuckooHashMap K V) (fuel : Nat) (it : Option Pos) : Option (List (K × V)) :=
  match fuel, it with
  | _, none => some []
  | 0, some _ => none
  | fuel + 1, some pos => do
    let slot ← m.slotAt pos
    let rest ← m.iterate fuel (m.findNextOccupied pos)
    return (slot.key, slot.value) :: rest

/-- An iteration from `begin()` to `end()`. -/
def toList (m : CuckooHashMap K V) : Option (List (K × V)) :=
  m.iterate (m.bucketCount + m.stash.length) m.first

end Lookup

section Changes

/-- Where the kicks and the stash leave an entry: in a slot, or another entry still in hand. -/
inductive Placed (K V : Type) where
  | placed (m : CuckooHashMap K V) (pos : Pos)
  | full (m : CuckooHashMap K V) (entry : Slot K V)

/-- The entry goes to an empty slot. -/
def store (m : CuckooHashMap K V) (pos : Pos) (entry : Slot K V) : CuckooHashMap K V :=
  { m.setAt pos { entry with state := .occupied } with size := m.size + 1 }

/-- The kick loop that `insert_new_entry` and `insert_no_resize` share. -/
def kickLoop (m : CuckooHashMap K V) (entry : Slot K V) : Nat → Option (Placed K V)
  | 0 => some (.full m entry)
  | kicks + 1 => do
    let pos1 := .t1 (m.h1 h entry.key)
    let s1 ← m.slotAt pos1
    if s1.state = .empty then return .placed (m.store pos1 entry) pos1
    let m := m.setAt pos1 entry
    let pos2 := .t2 (m.h2 h s1.key)
    let s2 ← m.slotAt pos2
    if s2.state = .empty then return .placed (m.store pos2 s1) pos2
    kickLoop (m.setAt pos2 s1) s2 kicks

/-- The kicks, and the stash after them. -/
def place (m : CuckooHashMap K V) (entry : Slot K V) : Option (Placed K V) := do
  match ← m.kickLoop h entry m.maxKicks with
  | .placed m pos => return .placed m pos
  | .full m entry =>
    match m.stash.findIdx? (fun s => s.state = .empty) with
    | some i => return .placed (m.store (.stash i) entry) (.stash i)
    | none => return .full m entry

variable [Inhabited K] [Inhabited V]

def blankTable (cap : Nat) : List (Slot K V) := List.replicate cap ⟨.empty, default, default⟩

/-- The state from which `rehash_impl` starts to insert. -/
def blank (m : CuckooHashMap K V) (perTableCap : Nat) : CuckooHashMap K V :=
  let cap := max initialCapacity (nextPowerOfTwo perTableCap)
  ⟨blankTable cap, blankTable cap, m.stash.map (fun s => { s with state := .empty }), 0, m.seed + 1,
    cap - 1, cap - 1⟩

/-- The insertions of `rehash_impl`. -/
def reinsert (insert : CuckooHashMap K V → Slot K V → Option (CuckooHashMap K V))
    (m : CuckooHashMap K V) : List (Slot K V) → Option (CuckooHashMap K V)
  | [] => some m
  | s :: slots =>
    if s.state = .occupied then do
      let m ← insert m s
      reinsert insert m slots
    else reinsert insert m slots

/-- `rehash_impl` over the insertion it calls. -/
def rehashWith (insert : CuckooHashMap K V → Slot K V → Option (CuckooHashMap K V))
    (m : CuckooHashMap K V) (perTableCap : Nat) : Option (CuckooHashMap K V) :=
  reinsert insert (m.blank perTableCap) (m.table1 ++ m.table2 ++ m.stash)

def insertNoResize (fuel : Nat) (m : CuckooHashMap K V) (entry : Slot K V) :
    Option (CuckooHashMap K V) :=
  match fuel with
  | 0 => none
  | fuel + 1 => do
    match ← m.place h entry with
    | .placed m _ => return m
    | .full m entry =>
      let m ← rehashWith (insertNoResize fuel) m (m.table1.length * 2)
      insertNoResize fuel m entry

def rehashImpl (fuel : Nat) (m : CuckooHashMap K V) (perTableCap : Nat) :
    Option (CuckooHashMap K V) :=
  rehashWith (insertNoResize h fuel) m perTableCap

/-- The position is that of the iterator that comes back. -/
def insertNewEntry (fuel : Nat) (m : CuckooHashMap K V) (entry : Slot K V) :
    Option (CuckooHashMap K V × Pos) :=
  match fuel with
  | 0 => none
  | fuel + 1 => do
    match ← m.place h entry with
    | .placed m pos => return (m, pos)
    | .full m entry =>
      let m ← m.rehashImpl h fuel (m.table1.length * 2)
      insertNewEntry fuel m entry

/-- The quotient of the doubles is exact, since the number of slots is a power of two. -/
def ensureCapacity (fuel : Nat) (m : CuckooHashMap K V) : Option (CuckooHashMap K V) :=
  if m.bucketCount = 0 ∨ 4 * (m.size + 1) > 3 * m.bucketCount then
    m.rehashImpl h fuel (if m.bucketCount = 0 then initialCapacity else m.table1.length * 2)
  else some m

def insert (fuel : Nat) (m : CuckooHashMap K V) (key : K) (value : V) :
    Option (CuckooHashMap K V × Pos × Bool) := do
  match ← m.findSlot h key with
  | some existing => return (m, existing, false)
  | none =>
    let m ← m.ensureCapacity h fuel
    let (m, pos) ← m.insertNewEntry h fuel ⟨.occupied, key, value⟩
    return (m, pos, true)

def insertOrAssign (fuel : Nat) (m : CuckooHashMap K V) (key : K) (value : V) :
    Option (CuckooHashMap K V × Pos × Bool) := do
  match ← m.findSlot h key with
  | some existing =>
    let slot ← m.slotAt existing
    return (m.setAt existing { slot with value := value }, existing, false)
  | none =>
    let m ← m.ensureCapacity h fuel
    let (m, pos) ← m.insertNewEntry h fuel ⟨.occupied, key, value⟩
    return (m, pos, true)

/-- An assignment through a reference to the value of a slot. -/
def writeAt (m : CuckooHashMap K V) (pos : Pos) (value : V) : Option (CuckooHashMap K V) := do
  let slot ← m.slotAt pos
  return m.setAt pos { slot with value := value }

/-- A slot is emptied; its key and its value stay. -/
def release (m : CuckooHashMap K V) (pos : Pos) (slot : Slot K V) : CuckooHashMap K V :=
  { m.setAt pos { slot with state := .empty } with size := m.size - 1 }

def erase (m : CuckooHashMap K V) (key : K) : Option (CuckooHashMap K V × Bool) := do
  match ← m.findSlot h key with
  | none => return (m, false)
  | some pos =>
    let slot ← m.slotAt pos
    return (m.release pos slot, true)

/-- `erase` of an iterator, with the iterator that comes back; `none` is `end()`. -/
def eraseAt (m : CuckooHashMap K V) (it : Option Pos) : Option (CuckooHashMap K V × Option Pos) :=
  match it with
  | none => some (m, none)
  | some pos => do
    let slot ← m.slotAt pos
    if slot.state ≠ .occupied then return (m, none)
    let m := m.release pos slot
    return (m, m.findNextOccupied pos)

def clear (m : CuckooHashMap K V) : CuckooHashMap K V :=
  { m with
    table1 := m.table1.map (fun s => { s with state := .empty })
    table2 := m.table2.map (fun s => { s with state := .empty })
    stash := m.stash.map (fun s => { s with state := .empty })
    size := 0 }

def rehash (fuel : Nat) (m : CuckooHashMap K V) (newTotalCapacity : Nat) :
    Option (CuckooHashMap K V) :=
  let perTable := max initialCapacity (nextPowerOfTwo (newTotalCapacity / 2 + 1))
  if perTable = m.table1.length then some m else m.rehashImpl h fuel perTable

/-- The quotient by 0.75, rounded down. -/
def reserve (fuel : Nat) (m : CuckooHashMap K V) (count : Nat) : Option (CuckooHashMap K V) :=
  m.rehash h fuel (count * 4 / 3)

def allocTables (perTableCap : Nat) : CuckooHashMap K V :=
  ⟨blankTable perTableCap, blankTable perTableCap, blankTable stashSize, 0, 0, perTableCap - 1,
    perTableCap - 1⟩

/-- The default constructor. -/
def create : CuckooHashMap K V := allocTables initialCapacity

/-- The constructor with a capacity. -/
def withCapacity (capacity : Nat) : CuckooHashMap K V :=
  allocTables (max initialCapacity (nextPowerOfTwo (capacity / 2 + 1)))

/-- What a move leaves of a map. The tables are emptied and the numbers are reset, but the stash is
an array: its slots are moved one by one and keep their states. `restK` and `restV` are what a move
leaves of a key and of a value. -/
def movedFrom (restK : K → K) (restV : V → V) (m : CuckooHashMap K V) : CuckooHashMap K V :=
  ⟨[], [], m.stash.map (fun s => ⟨s.state, restK s.key, restV s.value⟩), 0, 0, 0, 0⟩

/-- The move constructor and the move assignment: the map that is moved to, and what stays of the
other. -/
def move (restK : K → K) (restV : V → V) (m : CuckooHashMap K V) :
    CuckooHashMap K V × CuckooHashMap K V :=
  (m, movedFrom restK restV m)

end Changes

section Calls

/-- An iterator is a position in the tables as they stand at the call. -/
inductive Op (K V : Type) where
  | insert (key : K) (value : V)
  | insertOrAssign (key : K) (value : V)
  | erase (key : K)
  | eraseAt (it : Option Pos)
  | clear
  | rehash (newTotalCapacity : Nat)
  | reserve (count : Nat)

variable [Inhabited K] [Inhabited V]

/-- A call that returns no Boolean gives `true`. -/
def apply (fuel : Nat) (m : CuckooHashMap K V) : Op K V → Option (CuckooHashMap K V × Bool)
  | .insert key value => (m.insert h fuel key value).map (fun r => (r.1, r.2.2))
  | .insertOrAssign key value => (m.insertOrAssign h fuel key value).map (fun r => (r.1, r.2.2))
  | .erase key => m.erase h key
  | .eraseAt it => (m.eraseAt it).map (fun r => (r.1, true))
  | .clear => some (m.clear, true)
  | .rehash newTotalCapacity => (m.rehash h fuel newTotalCapacity).map (fun m => (m, true))
  | .reserve count => (m.reserve h fuel count).map (fun m => (m, true))

/-- The key of the pair that an iterator points to. -/
def keyAt (m : CuckooHashMap K V) (it : Option Pos) : Option K := do
  let slot ← m.slotAt (← it)
  if slot.state = .occupied then some slot.key else none

/-- The same call on a finite map; the table only tells which key an iterator means. -/
def applyMap (m : CuckooHashMap K V) (xs : List (K × V)) : Op K V → List (K × V) × Bool
  | .insert key value => KeyMap.insert h xs key value
  | .insertOrAssign key value => KeyMap.assign h xs key value
  | .erase key => KeyMap.erase h xs key
  | .eraseAt it =>
    match m.keyAt it with
    | some key => ((KeyMap.erase h xs key).1, true)
    | none => (xs, true)
  | .clear => ([], true)
  | .rehash _ => (xs, true)
  | .reserve _ => (xs, true)

/-- A run of calls that end, each within some depth of recursion, and the same calls on a finite
map. -/
inductive Run : CuckooHashMap K V → List (K × V) → Prop
  | create : Run create []
  | withCapacity (capacity : Nat) : Run (withCapacity capacity) []
  | call {m m' : CuckooHashMap K V} {xs : List (K × V)} (hrun : Run m xs) (fuel : Nat) (op : Op K V)
      (r : Bool) (hcall : m.apply h fuel op = some (m', r)) : Run m' (applyMap h m xs op).1

/-- The same from any map on, the finite map being empty at first. -/
inductive RunFrom (m₀ : CuckooHashMap K V) : CuckooHashMap K V → List (K × V) → Prop
  | start : RunFrom m₀ m₀ []
  | call {m m' : CuckooHashMap K V} {xs : List (K × V)} (hrun : RunFrom m₀ m xs) (fuel : Nat)
      (op : Op K V) (r : Bool) (hcall : m.apply h fuel op = some (m', r)) :
      RunFrom m₀ m' (applyMap h m xs op).1

/-- Numbers of 64 bits as arguments. -/
def Op.Fits : Op K V → Prop
  | .rehash newTotalCapacity => newTotalCapacity < 2 ^ 64
  | .reserve count => count < 2 ^ 64
  | _ => True

/-- The states of a map, moved to and moved from as well. -/
inductive Reached : CuckooHashMap K V → Prop
  | create : Reached create
  | withCapacity {capacity : Nat} (hfits : capacity < 2 ^ 64) : Reached (withCapacity capacity)
  | call {m m' : CuckooHashMap K V} (hm : Reached m) {fuel : Nat} {op : Op K V} {r : Bool}
      (hfits : op.Fits) (hcall : m.apply h fuel op = some (m', r)) : Reached m'
  | write {m m' : CuckooHashMap K V} (hm : Reached m) {pos : Pos} {value : V}
      (hcall : m.writeAt pos value = some m') : Reached m'
  | moved {m : CuckooHashMap K V} (hm : Reached m) (restK : K → K) (restV : V → V) :
      Reached (move restK restV m).2

end Calls

end CuckooHashMap

end Cppforge.Hash
