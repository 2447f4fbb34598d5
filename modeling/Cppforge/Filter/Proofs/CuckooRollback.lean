import Cppforge.Filter.Filters
import Cppforge.Lib.Run

namespace Cppforge.Filter.CuckooFilter
open Undo

variable {T : Type} {cfg : CuckooConfig T} {bs bs' : List Bucket} {idx fp n : UInt64}
  {f f' : CuckooFilter}

section Slots

/-- A bucket and a place in it. -/
abbrev Slot := Nat × Nat

def TrailEntry.slot (e : TrailEntry) : Slot := (e.bucketIdx.toNat, e.slotIdx)

/-- The fingerprint in a slot, if there is such a slot. -/
def entryAt (bs : List Bucket) (s : Slot) : Option UInt64 := (bs[s.1]?).bind (·.entries[s.2]?)

/-- What the displacement leaves alone. -/
def frame (bs : List Bucket) : List (Nat × Nat) := bs.map (fun b => (b.entries.length, b.count))

end Slots

section Chain

/-- The kicks of a displacement, and the buckets after them. -/
def chain (n : UInt64) (kicks : Nat) (bs : List Bucket) (idx fp : UInt64) :
    Option (List Bucket × List TrailEntry) :=
  match kicks with
  | 0 => some (bs, [])
  | kicks + 1 => do
    let (bs, e) ← kick bs idx fp
    let (bs, es) ← chain n kicks bs (computeBucket2 n idx e.oldFp) e.oldFp
    return (bs, e :: es)

/-- The writes of a displacement that starts with the fingerprint `fp`. -/
def writes (fp : UInt64) : List TrailEntry → List (Slot × Option UInt64)
  | [] => []
  | e :: es => (e.slot, some fp) :: writes e.oldFp es

end Chain

section Atomicity

/-- The displacement that an insertion of the key starts. -/
def path (cfg : CuckooConfig T) (f : CuckooFilter) (key : T) : List TrailEntry :=
  match chain f.numBuckets maxKicks f.buckets (computeBucket1 f.numBuckets (cfg.hash key))
    (extractFingerprint cfg (cfg.hash key)) with
  | some (_, es) => es
  | none => []

end Atomicity

end Cppforge.Filter.CuckooFilter
