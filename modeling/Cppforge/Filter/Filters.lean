import Mathlib.Algebra.Order.Floor.Defs
import Mathlib.Logic.Function.Basic
import Mathlib.Data.List.Basic
import Mathlib.Algebra.Group.Nat.Defs

namespace Cppforge.Filter

section Parameters

/-- Bounds and targets of a filter. `α` stands for the doubles; the infinities that
`operator!` rejects are not in it. -/
structure BloomParameters (α : Type) where
  minimumSize : UInt64
  maximumSize : UInt64
  minimumNumberOfHashes : UInt32
  maximumNumberOfHashes : UInt32
  projectedElementCount : UInt64
  falsePositiveProbability : α
  randomSeed : UInt64

structure OptimalParameters where
  numberOfHashes : UInt32
  tableSize : UInt64
deriving DecidableEq

namespace BloomParameters
variable {α : Type} [Semiring α] [LinearOrder α] [FloorSemiring α]

/-- `operator!`. -/
def invalid (p : BloomParameters α) : Bool :=
  p.minimumSize > p.maximumSize || p.minimumNumberOfHashes > p.maximumNumberOfHashes ||
    p.minimumNumberOfHashes < 1 || p.maximumNumberOfHashes == 0 || p.projectedElementCount == 0 ||
    p.falsePositiveProbability < 0 || p.randomSeed == 0 || p.randomSeed == 0xFFFFFFFFFFFFFFFF

/-- Clamping as written, the lower bound first. -/
def clamp {β : Type} [LT β] [DecidableLT β] (x low high : β) : β :=
  if x < low then low else if x > high then high else x

/-- The bits of a table, rounded up to whole bytes. -/
def roundUp (size : UInt64) : UInt64 := if size % 8 != 0 then size + (8 - size % 8) else size

/-- `optimum` is what the search over `k` finds: the least `m` and its `k`, or
nothing. The outer `none` is a conversion to an integer type out of its range. -/
def computeOptimalParameters (p : BloomParameters α) (optimum : Option (α × α)) :
    Option (Option OptimalParameters) :=
  if p.invalid then some none
  else if p.projectedElementCount == 0 || p.falsePositiveProbability ≤ 0 ||
      1 ≤ p.falsePositiveProbability then some none
  else
    match optimum with
    | none => some none
    | some (m, k) =>
      if ⌊m⌋₊ < 2 ^ 64 ∧ ⌊k⌋₊ < 2 ^ 32 then
        some (some ⟨clamp (UInt32.ofNat ⌊k⌋₊) p.minimumNumberOfHashes p.maximumNumberOfHashes,
          clamp (roundUp (UInt64.ofNat ⌊m⌋₊)) p.minimumSize p.maximumSize⟩)
      else none

end BloomParameters

end Parameters

structure BloomFilter where
  salt : List UInt32
  bitTable : List UInt8
  tableSize : UInt64
  insertedElementCount : UInt64
  randomSeed : UInt64

namespace BloomFilter

section Hashing

def preDefSalt : List UInt32 := [
    0xAAAAAAAA, 0x55555555, 0x33333333, 0xCCCCCCCC, 0x66666666, 0x99999999, 0xB5B5B5B5,
    0x4B4B4B4B, 0xAA55AA55, 0x55335533, 0x33CC33CC, 0xCC66CC66, 0x66996699, 0x99B599B5,
    0xB54BB54B, 0x4BAA4BAA, 0xAA33AA33, 0x55CC55CC, 0x33663366, 0xCC99CC99, 0x66B566B5,
    0x994B994B, 0xB5AAB5AA, 0xAAAAAA33, 0x555555CC, 0x33333366, 0xCCCCCC99, 0x666666B5,
    0x9999994B, 0xB5B5B5AA, 0xFFFFFFFF, 0xFFFF0000, 0xB823D5EB, 0xC1191CDF, 0xF623AEB3,
    0xDB58499F, 0xC8D42E70, 0xB173F616, 0xA91A5967, 0xDA427D63, 0xB1E8A2EA, 0xF6C0D155,
    0x4909FEA3, 0xA68CC6A7, 0xC395E782, 0xA26057EB, 0x0CD5DA28, 0x467C5492, 0xF15E6982,
    0x61C6FAD3, 0x9615E352, 0x6E9E355A, 0x689B563E, 0x0C9831A8, 0x6753C18B, 0xA622689B,
    0x8CA63C47, 0x42CC2884, 0x8E89919B, 0x6EDBD7D3, 0x15B6796C, 0x1D6FDFE4, 0x63FF9092,
    0xE7401432, 0xEFFE9412, 0xAEAEDF79, 0x9F245A31, 0x83C136FC, 0xC3DA4A8C, 0xA5112C8C,
    0x5271F491, 0x9A948DAB, 0xCEE59A8D, 0xB5F525AB, 0x59D13217, 0x24E7C331, 0x697C2103,
    0x84B0A460, 0x86156DA9, 0xAEF2AC68, 0x23243DA5, 0x3F649643, 0x5FA495A8, 0x67710DF8,
    0x9A6C499E, 0xDCFB0227, 0x46A43433, 0x1832B07A, 0xC46AFF3C, 0xB9C8FFF0, 0xC9500467,
    0x34431BDF, 0xB652432B, 0xE367F12B, 0x427F4C1B, 0x224C006E, 0x2E7E5A89, 0x96F99AA5,
    0x0BEB452A, 0x2FD87C39, 0x74B2E1FB, 0x222EFD24, 0xF357F60C, 0x440FCB1E, 0x8BBE030F,
    0x6704DC29, 0x1144D12F, 0x948B1355, 0x6D8FD7E9, 0x1C11A014, 0xADD1592F, 0xFB3C712E,
    0xFC77642F, 0xF9C4CE8C, 0x31312FB9, 0x08B0DD79, 0x318FA6E7, 0xC040D23D, 0xC0589AA7,
    0x0CA5C075, 0xF874B172, 0x0CF914D5, 0x784D3280, 0x4E8CFEBC, 0xC569F575, 0xCDB2A091,
    0x2CC016B4, 0x5C5F4421]

/-- One round of the mixing in place; later rounds see the mixed values. -/
def mixSalt (seed : UInt64) (salt : List UInt32) (i : Nat) : List UInt32 :=
  salt.set i (salt.getD i 0 * salt.getD ((i + 3) % salt.length) 0 + seed.toUInt32)

/-- `drawn` are the further salts the random generator gives when there are more
than are predefined. -/
def generateUniqueSalt (saltCount : UInt32) (seed : UInt64) (drawn : List UInt32) : List UInt32 :=
  if saltCount.toNat ≤ preDefSalt.length then
    (List.range saltCount.toNat).foldl (mixSalt seed) (preDefSalt.take saltCount.toNat)
  else preDefSalt ++ drawn

def word16 (b₀ b₁ : UInt8) : UInt32 := b₀.toUInt32 ||| b₁.toUInt32 <<< 8

/-- Four bytes as memory holds a word. -/
def word32 (b₀ b₁ b₂ b₃ : UInt8) : UInt32 :=
  word16 b₀ b₁ ||| word16 b₂ b₃ <<< 16

def mixOdd (hash i : UInt32) : UInt32 := hash ^^^ (hash <<< 7 ^^^ i * (hash >>> 3))

def mixEven (hash i : UInt32) : UInt32 := hash ^^^ ~~~(hash <<< 11 + (i ^^^ hash >>> 5))

/-- The last one to three bytes, after `loop` rounds of the tail. -/
def hashTail (loop : UInt32) (hash : UInt32) : List UInt8 → UInt32
  | b₀ :: b₁ :: rest =>
    let hash := if loop &&& 1 ≠ 0 then mixOdd hash (word16 b₀ b₁) else mixEven hash (word16 b₀ b₁)
    match rest with
    | [] => hash
    | b :: _ => hash + ((b.toUInt32 ^^^ hash * 0xA5A5A5A5) + (loop + 1))
  | [b] => hash + ((b.toUInt32 ^^^ hash * 0xA5A5A5A5) + loop)
  | [] => hash

def hashAp (hash : UInt32) : List UInt8 → UInt32
  | b₀ :: b₁ :: b₂ :: b₃ :: b₄ :: b₅ :: b₆ :: b₇ :: rest =>
    hashAp (hash ^^^ (hash <<< 7 ^^^ word32 b₀ b₁ b₂ b₃ * (hash >>> 3) ^^^
      ~~~(hash <<< 11 + (word32 b₄ b₅ b₆ b₇ ^^^ hash >>> 5)))) rest
  | b₀ :: b₁ :: b₂ :: b₃ :: rest => hashTail 1 (mixEven hash (word32 b₀ b₁ b₂ b₃)) rest
  | rest => hashTail 0 hash rest

end Hashing

section Operations

def bitMask : List UInt8 := [0x01, 0x02, 0x04, 0x08, 0x10, 0x20, 0x40, 0x80]

/-- The constructor. -/
def create {α : Type} (p : BloomParameters α) (o : OptimalParameters) (drawn : List UInt32) :
    BloomFilter :=
  let seed := p.randomSeed * 0xA5A5A5A5 + 1
  { salt := generateUniqueSalt o.numberOfHashes seed drawn
    bitTable := List.replicate (o.tableSize.toNat / 8) 0
    tableSize := o.tableSize
    insertedElementCount := 0
    randomSeed := seed }

/-- `none` is a division by zero; below also an access out of range. -/
def computeIndices (f : BloomFilter) (hash : UInt32) : Option (Nat × Nat) :=
  if f.tableSize.toNat = 0 then none
  else
    let bitIndex := hash.toNat % f.tableSize.toNat
    some (bitIndex, bitIndex % 8)

def setBit (f : BloomFilter) (key : List UInt8) (table : List UInt8) (salt : UInt32) :
    Option (List UInt8) := do
  let (bitIndex, bit) ← f.computeIndices (hashAp salt key)
  let cell ← table[bitIndex / 8]?
  let mask ← bitMask[bit]?
  return table.set (bitIndex / 8) (cell ||| mask)

def insert (f : BloomFilter) (key : List UInt8) : Option BloomFilter := do
  let table ← f.salt.foldlM (f.setBit key) f.bitTable
  return { f with bitTable := table, insertedElementCount := f.insertedElementCount + 1 }

def containsFrom (f : BloomFilter) (key : List UInt8) : List UInt32 → Option Bool
  | [] => some true
  | salt :: rest => do
    let (bitIndex, bit) ← f.computeIndices (hashAp salt key)
    let cell ← f.bitTable[bitIndex / 8]?
    let mask ← bitMask[bit]?
    if cell &&& mask ≠ mask then return false
    f.containsFrom key rest

def contains (f : BloomFilter) (key : List UInt8) : Option Bool := f.containsFrom key f.salt

end Operations

end BloomFilter

/-- A filter with the count of salts that the set operations compare. -/
structure BloomOperand extends BloomFilter where
  saltCount : UInt32

namespace BloomOperand

def create {α : Type} (p : BloomParameters α) (o : OptimalParameters) (drawn : List UInt32) :
    BloomOperand :=
  { BloomFilter.create p o drawn with saltCount := o.numberOfHashes }

def insert (f : BloomOperand) (key : List UInt8) : Option BloomOperand := do
  let filter ← f.toBloomFilter.insert key
  return { f with toBloomFilter := filter }

/-- The loop over the bytes of the first table. -/
def combine (merge : UInt8 → UInt8 → UInt8) : List UInt8 → List UInt8 → Option (List UInt8)
  | [], _ => some []
  | _ :: _, [] => none
  | a :: as, b :: bs => do
    let rest ← combine merge as bs
    return merge a b :: rest

/-- The test that the set operations begin with. -/
def comparable (f g : BloomOperand) : Bool :=
  f.saltCount == g.saltCount && f.tableSize == g.tableSize && f.randomSeed == g.randomSeed

/-- Filters that do not match are left as they are. -/
def merge (op : UInt8 → UInt8 → UInt8) (f g : BloomOperand) : Option BloomOperand :=
  if f.comparable g then do
    let bitTable ← combine op f.bitTable g.bitTable
    return { f with bitTable }
  else some f

/-- `operator&=` -/
def andAssign (f g : BloomOperand) : Option BloomOperand := merge (· &&& ·) f g

/-- `operator|=` -/
def orAssign (f g : BloomOperand) : Option BloomOperand := merge (· ||| ·) f g

/-- The statements of a program with the filter variables `X`. -/
inductive Op (X : Type)
  | insert (x : X) (key : List UInt8)
  | orAssign (x y : X)
  | andAssign (x y : X)

def step {X : Type} [DecidableEq X] (s : X → BloomOperand) : Op X → Option (X → BloomOperand)
  | .insert x key => do return Function.update s x (← (s x).insert key)
  | .orAssign x y => do return Function.update s x (← (s x).orAssign (s y))
  | .andAssign x y => do return Function.update s x (← (s x).andAssign (s y))

end BloomOperand

inductive FingerprintSize where
  | bits8
  | bits16
  | bits32
deriving DecidableEq

/-- The template arguments. -/
structure CuckooConfig (T : Type) where
  entriesPerBucket : UInt64
  fingerprintSize : FingerprintSize
  hash : T → UInt64

/-- `count` is a `uint8_t` and `displacementCounter` a `size_t`. -/
structure Bucket where
  entries : List UInt64
  count : Nat
  displacementCounter : Nat
deriving DecidableEq

namespace Bucket

def hasSlot (entriesPerBucket : UInt64) (b : Bucket) : Bool := b.count < entriesPerBucket.toNat

def add (b : Bucket) (fp : UInt64) : Bucket :=
  match b.entries.findIdx? (fun e => e == 0) with
  | some i => { b with entries := b.entries.set i fp, count := (b.count + 1) % 256 }
  | none => b

def contains (b : Bucket) (fp : UInt64) : Bool := (b.entries.take b.count).contains fp

/-- `none` if the fingerprint is not found. -/
def remove (b : Bucket) (fp : UInt64) : Option Bucket :=
  match (b.entries.take b.count).findIdx? (fun e => e == fp) with
  | some i => some { b with
      entries := (b.entries.set i (b.entries.getD (b.count - 1) 0)).set (b.count - 1) 0
      count := b.count - 1 }
  | none => none

/-- The bucket with its counter moved on; `none` is the division by a zero count. -/
def randomIndex (b : Bucket) : Option (Bucket × Nat) :=
  let counter := (b.displacementCounter + 1) % 2 ^ 64
  if b.count = 0 then none
  else some ({ b with displacementCounter := counter }, counter % b.count)

def equal (a b : Bucket) : Bool := a.entries == b.entries && a.count == b.count

end Bucket

/-- The number of elements is not bounded. -/
structure CuckooFilter where
  buckets : List Bucket
  numBuckets : UInt64
  elementCount : Nat
deriving DecidableEq

namespace CuckooFilter
variable {T : Type} (cfg : CuckooConfig T)

section Operations

def nextPowerOf2 (n : UInt64) : UInt64 :=
  if n == 0 then 1
  else
    let n := n - 1
    let n := n ||| (n >>> 1)
    let n := n ||| (n >>> 2)
    let n := n ||| (n >>> 4)
    let n := n ||| (n >>> 8)
    let n := n ||| (n >>> 16)
    let n := n ||| (n >>> 32)
    n + 1

/-- The constructor. Here and below `none` is an access out of bounds or a division by zero. -/
def create (expectedCapacity : UInt64) : Option CuckooFilter :=
  if cfg.entriesPerBucket == 0 then none
  else
    let slotsNeeded := expectedCapacity + expectedCapacity / 20
    let bucketsNeeded := (slotsNeeded + cfg.entriesPerBucket - 1) / cfg.entriesPerBucket
    let numBuckets := nextPowerOf2 bucketsNeeded
    some ⟨List.replicate numBuckets.toNat ⟨List.replicate cfg.entriesPerBucket.toNat 0, 0, 0⟩,
      numBuckets, 0⟩

def hashFingerprint (fp : UInt64) : UInt64 := fp * 0x9E3779B97F4A7C15

def fingerprintMask : FingerprintSize → UInt64
  | .bits8 => ((1 : UInt64) <<< 8) - 1
  | .bits16 => ((1 : UInt64) <<< 16) - 1
  | .bits32 => 0xFFFFFFFF

/-- The mask leaves no more bits than `fp_type_` has. -/
def extractFingerprint (hash : UInt64) : UInt64 :=
  let fp := hash &&& fingerprintMask cfg.fingerprintSize
  if fp == 0 then 1 else fp

def computeBucket1 (numBuckets hash : UInt64) : UInt64 := (hash >>> 16) &&& (numBuckets - 1)

def computeBucket2 (numBuckets bucket1 fp : UInt64) : UInt64 :=
  (bucket1 ^^^ (hashFingerprint fp &&& (numBuckets - 1))) &&& (numBuckets - 1)

/-- An overwritten slot, with what it held before. -/
structure TrailEntry where
  bucketIdx : UInt64
  slotIdx : Nat
  oldFp : UInt64
deriving DecidableEq

def trailCapacity : Nat := 128

def maxKicks : Nat := 500

/-- A fingerprint written into a slot of a bucket. -/
def write (buckets : List Bucket) (bucketIdx : UInt64) (slotIdx : Nat) (fp : UInt64) :
    List Bucket :=
  buckets.modify bucketIdx.toNat (fun b => { b with entries := b.entries.set slotIdx fp })

/-- One round of the displacement: the victim leaves its slot to `curFp`. -/
def kick (buckets : List Bucket) (curBucketIdx curFp : UInt64) :
    Option (List Bucket × TrailEntry) := do
  let curBucket ← buckets[curBucketIdx.toNat]?
  let (curBucket, victim) ← curBucket.randomIndex
  let victimIdx := victim % 256
  let evictedFp ← curBucket.entries[victimIdx]?
  let buckets := buckets.set curBucketIdx.toNat curBucket
  return (write buckets curBucketIdx victimIdx curFp, ⟨curBucketIdx, victimIdx, evictedFp⟩)

/-- The trail, its last entry first. -/
def rollback (buckets : List Bucket) (trail : List TrailEntry) : List Bucket :=
  trail.foldl (fun buckets e => write buckets e.bucketIdx e.slotIdx e.oldFp) buckets

/-- The displacement loop, with the rollback behind it. -/
def displace (numBuckets : UInt64) (kicks : Nat) (buckets : List Bucket)
    (curBucketIdx curFp : UInt64) (trail : List TrailEntry) : Option (List Bucket × Bool) :=
  match kicks with
  | 0 => some (rollback buckets trail, false)
  | kicks + 1 => do
    let (buckets, e) ← kick buckets curBucketIdx curFp
    let trail := if trail.length < trailCapacity then e :: trail else trail
    let altBucket := computeBucket2 numBuckets curBucketIdx e.oldFp
    let alt ← buckets[altBucket.toNat]?
    if alt.hasSlot cfg.entriesPerBucket then
      some (buckets.set altBucket.toNat (alt.add e.oldFp), true)
    else displace numBuckets kicks buckets altBucket e.oldFp trail

def insert (f : CuckooFilter) (key : T) : Option (CuckooFilter × Bool) := do
  let fp := extractFingerprint cfg (cfg.hash key)
  let bucket1 := computeBucket1 f.numBuckets (cfg.hash key)
  let bucket2 := computeBucket2 f.numBuckets bucket1 fp
  let b1 ← f.buckets[bucket1.toNat]?
  if b1.hasSlot cfg.entriesPerBucket then
    return ({ f with
      buckets := f.buckets.set bucket1.toNat (b1.add fp), elementCount := f.elementCount + 1 }, true)
  else
    let b2 ← f.buckets[bucket2.toNat]?
    if b2.hasSlot cfg.entriesPerBucket then
      return ({ f with
        buckets := f.buckets.set bucket2.toNat (b2.add fp)
        elementCount := f.elementCount + 1 }, true)
    else
      let (buckets, inserted) ← displace cfg f.numBuckets maxKicks f.buckets bucket1 fp []
      return ({ f with
        buckets := buckets
        elementCount := if inserted then f.elementCount + 1 else f.elementCount }, inserted)

def contains (f : CuckooFilter) (key : T) : Option Bool := do
  let fp := extractFingerprint cfg (cfg.hash key)
  let bucket1 := computeBucket1 f.numBuckets (cfg.hash key)
  let bucket2 := computeBucket2 f.numBuckets bucket1 fp
  if (← f.buckets[bucket1.toNat]?).contains fp then return true
  else return (← f.buckets[bucket2.toNat]?).contains fp

def remove (f : CuckooFilter) (key : T) : Option (CuckooFilter × Bool) := do
  let fp := extractFingerprint cfg (cfg.hash key)
  let bucket1 := computeBucket1 f.numBuckets (cfg.hash key)
  let bucket2 := computeBucket2 f.numBuckets bucket1 fp
  match (← f.buckets[bucket1.toNat]?).remove fp with
  | some b => return ({ f with
      buckets := f.buckets.set bucket1.toNat b, elementCount := f.elementCount - 1 }, true)
  | none =>
    match (← f.buckets[bucket2.toNat]?).remove fp with
    | some b => return ({ f with
        buckets := f.buckets.set bucket2.toNat b, elementCount := f.elementCount - 1 }, true)
    | none => return (f, false)

def clear (f : CuckooFilter) : CuckooFilter :=
  { f with
    buckets := f.buckets.map (fun b =>
      { b with count := 0, entries := List.replicate b.entries.length 0 })
    elementCount := 0 }

/-- `operator==`. -/
def equal (f g : CuckooFilter) : Bool :=
  f.numBuckets == g.numBuckets && f.elementCount == g.elementCount &&
    (f.buckets.length == g.buckets.length && (f.buckets.zip g.buckets).all fun p => p.1.equal p.2)

end Operations

section Calls

inductive Op (T : Type) where
  | insert (key : T)
  | remove (key : T)
  | clear

def apply (f : CuckooFilter) : Op T → Option (CuckooFilter × Bool)
  | .insert key => f.insert cfg key
  | .remove key => f.remove cfg key
  | .clear => some (f.clear, true)

/-- The state and the results after some calls. -/
def run (f : CuckooFilter) : List (Op T) → Option (CuckooFilter × List Bool)
  | [] => some (f, [])
  | op :: ops => do
    let (f, r) ← f.apply cfg op
    let (f, rs) ← f.run ops
    return (f, r :: rs)

end Calls

end CuckooFilter

end Cppforge.Filter
