import Mathlib.Data.List.Basic
import Mathlib.Algebra.Order.Field.Rat
import Cppforge.Lib.Bits
import Cppforge.Lib.Selection

namespace Cppforge.Probabilistic

/-- The template arguments with their static assertions. The items are of all types that are
added. -/
structure CountMinSketch (α : Type) where
  Width : UInt64
  Depth : UInt64
  hash_ : α → UInt64 → UInt64
  width_pos : 0 < Width
  depth_pos : 0 < Depth

namespace CountMinSketch
variable {α : Type} (cms : CountMinSketch α)

/-- The number of counters, which the constructor computes in a `size_t`. -/
def size : UInt64 := cms.Depth * cms.Width

def rows : List UInt64 := (List.range cms.Depth.toNat).map UInt64.ofNat

/-- The index of an item's counter in a row. -/
def cell (item : α) (i : UInt64) : UInt64 :=
  let seed := i * 0x9E3779B97F4A7C15
  let col := cms.hash_ item seed % cms.Width
  i * cms.Width + col

def create : List UInt32 := List.replicate cms.size.toNat 0

/-- `none` is an index out of range. -/
def addAt (count : UInt32) (counters_ : List UInt32) (k : UInt64) : Option (List UInt32) := do
  let val ← counters_[k.toNat]?
  return counters_.set k.toNat (val + count)

def add (counters_ : List UInt32) (item : α) (count : UInt32) : Option (List UInt32) :=
  cms.rows.foldlM (fun counters_ i => addAt count counters_ (cms.cell item i)) counters_

def lower (counters_ : List UInt32) (minVal : UInt32) (k : UInt64) : Option UInt32 := do
  let val ← counters_[k.toNat]?
  return if val < minVal then val else minVal

/-- Both have `Depth * Width` counters. -/
def merge (counters_ other : List UInt32) : List UInt32 := List.zipWith (· + ·) counters_ other

def clear (counters_ : List UInt32) : List UInt32 := counters_.map fun _ => 0

/-- How a sketch came about. The other sketch of a merge has a history of its own, which is the
same one when a sketch is merged into itself or into a copy. -/
inductive History (α : Type) where
  | create
  | add (h : History α) (item : α) (count : UInt32)
  | merge (h other : History α)
  | clear (h : History α)

def run : History α → Option (List UInt32)
  | .create => some cms.create
  | .add h item count => do cms.add (← run h) item count
  | .merge h other => return merge (← run h) (← run other)
  | .clear h => return clear (← run h)

end CountMinSketch
end Cppforge.Probabilistic

namespace Cppforge.Probabilistic
open LittleEndian

/-- Means are not rounded. -/
structure TDigest.Centroid where
  mean : ℚ
  count : UInt64

structure TDigest where
  centroids : List TDigest.Centroid
  buffer : List TDigest.Centroid
  totalWeight : UInt64

namespace TDigest

/-- The default constructor. -/
def create : TDigest := ⟨[], [], 0⟩

section Updates
variable {R : Type} [Sub R] [One R] [LE R] [DecidableLE R] (scale : ℚ → R)
  (sorting : KeySort Centroid ℚ) (compression : UInt64)

/-- A turn of the loop of `compress`. The merged centroids have the last one first, and beside
them is `cum`. -/
def mergeNext (totalW : ℚ) (merged : List Centroid × UInt64) (c : Centroid) :
    List Centroid × UInt64 :=
  match merged.1 with
  | [] => ([c], merged.2 + c.count)
  | last :: rest =>
    let mergedCount := last.count + c.count
    let mergedMean := (last.mean * last.count.toNat + c.mean * c.count.toNat) / mergedCount.toNat
    let cumBeforeMerged := merged.2 - last.count
    let qStart := (cumBeforeMerged.toNat : ℚ) / totalW
    let qEnd := ((cumBeforeMerged + mergedCount).toNat : ℚ) / totalW
    if scale qEnd - scale qStart ≤ 1 then
      (⟨mergedMean, mergedCount⟩ :: rest, merged.2 + c.count)
    else (c :: last :: rest, merged.2 + c.count)

def compress (d : TDigest) : TDigest :=
  if d.buffer.isEmpty then d
  else
    let centroids := if d.centroids.isEmpty then d.buffer else d.centroids ++ d.buffer
    if centroids.length ≤ 1 then { d with centroids := centroids, buffer := [] }
    else
      let merged := (sorting.apply Centroid.mean centroids).foldl
        (mergeNext scale d.totalWeight.toNat) ([], 0)
      { d with centroids := merged.1.reverse, buffer := [] }

/-- The end of `add` and of `merge`. -/
def compressIfFull (d : TDigest) : TDigest :=
  if d.buffer.length > (compression * 2).toNat then d.compress scale sorting else d

def add (d : TDigest) (value : ℚ) (weight : UInt64) : TDigest :=
  if weight = 0 then d
  else
    compressIfFull scale sorting compression
      { d with buffer := d.buffer ++ [⟨value, weight⟩], totalWeight := d.totalWeight + weight }

/-- `other` is not the digest itself, whose buffer would grow while it is read. -/
def merge (d other : TDigest) : TDigest :=
  compressIfFull scale sorting compression
    { d with
      buffer := d.buffer ++ other.centroids ++ other.buffer
      totalWeight := d.totalWeight + other.totalWeight }

def clear (_ : TDigest) : TDigest := ⟨[], [], 0⟩

end Updates

section Queries

/-- The loop of `quantile` from a centroid behind `prev` on. -/
def interpolate (target : ℚ) (cum : UInt64) (prev : Centroid) : List Centroid → ℚ
  | [] => prev.mean
  | c :: rest =>
    let cum := cum + c.count
    if target ≤ cum.toNat then
      let prevCum := cum - c.count
      let fraction := (target - prevCum.toNat) / c.count.toNat
      prev.mean + fraction * (c.mean - prev.mean)
    else interpolate target cum c rest

def quantile (d : TDigest) (q : ℚ) : ℚ :=
  match d.centroids with
  | [] => 0
  | [c] => c.mean
  | c :: rest =>
    if d.totalWeight = 0 then 0
    else
      let target := max 0 (min q 1) * d.totalWeight.toNat
      if target ≤ c.count.toNat then c.mean else interpolate target c.count c rest

end Queries

section Serialization

/-- How a `double` lies in memory, the lowest byte first, and the numbers that it can be. -/
structure Layout where
  bytes : ℚ → List UInt8
  value : List UInt8 → ℚ
  Exact : ℚ → Prop
  length_bytes : ∀ x, (bytes x).length = 8
  value_bytes : ∀ x, Exact x → value (bytes x) = x

variable (layout : Layout) (compression : UInt64)

def writeCentroid (c : Centroid) : List UInt8 := layout.bytes c.mean ++ bytesOf 8 c.count.toNat

/-- What `serialize` makes of a digest that it has compressed. -/
def write (d : TDigest) : List UInt8 :=
  [0x01] ++ bytesOf 8 compression.toNat ++ bytesOf 8 d.totalWeight.toNat ++
    bytesOf 4 (UInt32.ofNat d.centroids.length).toNat ++
    d.centroids.flatMap (writeCentroid layout)

/-- The digest is compressed though the member is `const`. -/
def serialize {R : Type} [Sub R] [One R] [LE R] [DecidableLE R] (scale : ℚ → R)
    (sorting : KeySort Centroid ℚ) (d : TDigest) : TDigest × List UInt8 :=
  let d := d.compress scale sorting
  (d, d.write layout compression)

/-- The bytes from `pos` on, which the caller has checked to be there. -/
def bytesAt (data : List UInt8) (pos size : Nat) : List UInt8 := (data.drop pos).take size

def readCentroids (data : List UInt8) (pos : Nat) : Nat → List Centroid
  | 0 => []
  | centroidCount + 1 =>
    ⟨layout.value (bytesAt data pos 8), UInt64.ofNat (valueOf (bytesAt data (pos + 8) 8))⟩ ::
      readCentroids data (pos + 16) centroidCount

def headerSize : Nat := 1 + 8 + 8 + 4

def deserialize (data : List UInt8) : Except String TDigest :=
  if data.length < headerSize then .error "TDigest serialized data too short: missing header"
  else if data.head? ≠ some 0x01 then .error "TDigest serialized data has unsupported version"
  else if valueOf (bytesAt data 1 8) ≠ compression.toNat then
    .error "TDigest serialized data has incompatible compression parameter"
  else
    let centroidCount := valueOf (bytesAt data 17 4)
    if data.length ≠ headerSize + centroidCount * 16 then
      .error "TDigest serialized data has unexpected length"
    else
      .ok ⟨readCentroids layout data 21 centroidCount, [],
        UInt64.ofNat (valueOf (bytesAt data 9 8))⟩

end Serialization

end TDigest

/-- The template argument with its static assertion. -/
structure HyperLogLog where
  Precision : UInt8
  least : 4 ≤ Precision
  most : Precision ≤ 16

namespace HyperLogLog

/-- Up to 8 bytes as `memcpy` and the `switch` make a number of them, the first the lowest. -/
def gather (bytes : List UInt8) : UInt64 :=
  bytes.foldr (fun byte k => (k <<< 8) ^^^ byte.toUInt64) 0

abbrev factor : UInt64 := 0xc6a4a7935bd1e995

def scramble (k : UInt64) : UInt64 :=
  let k := k * factor
  (k ^^^ (k >>> 47)) * factor

/-- The loop over 8 bytes at a time, and the bytes that remain. -/
def hashFrom (h : UInt64) (bytes : List UInt8) : UInt64 :=
  if 8 ≤ bytes.length then hashFrom ((h ^^^ scramble (gather (bytes.take 8))) * factor) (bytes.drop 8)
  else if bytes.isEmpty then h
  else h ^^^ scramble (gather bytes)
termination_by bytes.length

def fmix64 (h : UInt64) : UInt64 :=
  let h := h ^^^ (h >>> 33)
  let h := h * 0xff51afd7ed558ccd
  let h := h ^^^ (h >>> 33)
  let h := h * 0xc4ceb9fe1a85ec53
  h ^^^ (h >>> 33)

def hashBytes (data : List UInt8) : UInt64 :=
  fmix64 (hashFrom (0xbea225f9ebdef56b ^^^ UInt64.ofNat data.length) data)

def countl_zero (x : UInt64) : Nat := if x = 0 then 64 else 63 - x.toNat.log2

variable (hll : HyperLogLog)

def REGISTER_COUNT : Nat := 2 ^ hll.Precision.toNat

def create : List UInt8 := List.replicate hll.REGISTER_COUNT 0

/-- The register of an item. -/
def index (data : List UInt8) : UInt64 := hashBytes data >>> (64 - hll.Precision.toUInt64)

def rho (data : List UInt8) : UInt8 :=
  UInt8.ofNat (countl_zero (hashBytes data <<< hll.Precision.toUInt64) + 1)

/-- `none` is an index out of range. -/
def insert (registers_ : List UInt8) (data : List UInt8) : Option (List UInt8) := do
  let register ← registers_[(hll.index data).toNat]?
  return if hll.rho data > register then registers_.set (hll.index data).toNat (hll.rho data)
    else registers_

/-- Both have `REGISTER_COUNT` registers. -/
def merge (registers_ other : List UInt8) : List UInt8 :=
  List.zipWith (fun mine theirs => if theirs > mine then theirs else mine) registers_ other

def clear (registers_ : List UInt8) : List UInt8 := registers_.map fun _ => 0

def serialize (registers_ : List UInt8) : List UInt8 := [0x01, hll.Precision] ++ registers_

def deserialize (data : List UInt8) : Except String (List UInt8) :=
  match data with
  | version :: precision :: registers_ =>
    if version ≠ 0x01 then .error "HyperLogLog serialized data has unsupported version"
    else if precision ≠ hll.Precision then
      .error "HyperLogLog serialized data has incompatible precision"
    else if data.length ≠ 2 + hll.REGISTER_COUNT then
      .error "HyperLogLog serialized data has unexpected length"
    else .ok registers_
  | _ => .error "HyperLogLog serialized data too short: missing header"

end HyperLogLog

/-- The template arguments with their static assertion. -/
structure MinHash (α : Type) where
  SignatureSize : Nat
  hash_ : α → UInt64 → UInt64
  pos : 0 < SignatureSize

namespace MinHash
variable {α : Type} (mh : MinHash α)

abbrev maxHash : UInt64 := 0xFFFFFFFFFFFFFFFF

def seed (i : Nat) : UInt64 := UInt64.ofNat i * 0x9E3779B97F4A7C15

def create : List UInt64 := List.replicate mh.SignatureSize maxHash

def insert (signature_ : List UInt64) (item : α) : List UInt64 :=
  signature_.mapIdx fun i s => let h := mh.hash_ item (seed i); if h < s then h else s

def merge (signature_ other : List UInt64) : List UInt64 :=
  List.zipWith (fun mine theirs => if theirs < mine then theirs else mine) signature_ other

def clear (signature_ : List UInt64) : List UInt64 := signature_.map fun _ => maxHash

def isEmpty (signature_ : List UInt64) : Bool := signature_.all fun v => v == maxHash

/-- The quotient is not rounded. -/
def jaccard (signature_ other : List UInt64) : ℚ :=
  let equal := (List.zip signature_ other).countP fun e => e.1 == e.2
  if equal = mh.SignatureSize ∧ signature_.head? = some maxHash then 0
  else equal / mh.SignatureSize

end MinHash

/-- How a sketch of a set came about. The other sketch of a merge has a history of its own. -/
inductive SetHistory (α : Type) where
  | create
  | insert (h : SetHistory α) (item : α)
  | merge (h other : SetHistory α)
  | clear (h : SetHistory α)

def HyperLogLog.run (hll : HyperLogLog) : SetHistory (List UInt8) → Option (List UInt8)
  | .create => some hll.create
  | .insert h item => do hll.insert (← hll.run h) item
  | .merge h other => return merge (← hll.run h) (← hll.run other)
  | .clear h => return clear (← hll.run h)

def MinHash.run {α : Type} (mh : MinHash α) : SetHistory α → List UInt64
  | .create => mh.create
  | .insert h item => mh.insert (mh.run h) item
  | .merge h other => merge (mh.run h) (mh.run other)
  | .clear h => clear (mh.run h)

end Cppforge.Probabilistic
