import Cppforge.Hash.Proofs.RobinHoodRefine
import Cppforge.Hash.RobinHoodHashMap

namespace Cppforge.Hash.RobinHoodHashMap
open KeyMap

variable {K V : Type} {h : Hashing K} {S S' : List (Slot K V)} {s q e : Slot K V}
  {m : RobinHoodHashMap K V} {mask idx it t p fuel : Nat} {key : K}

section Loop

end Loop

section Calls
variable [Inhabited K] [Inhabited V]

end Calls

section Numbers

/-- Numbers that are their own hashes. -/
def numbers : Hashing Nat := Hashing.ofEq Nat.toUInt64

end Numbers

section Buckets
variable {m' : RobinHoodHashMap K V} {n : UInt64}

end Buckets

section Insertions

end Insertions

section Resizes
variable [Inhabited K] [Inhabited V] {allocates : Nat → Bool} {quotient : UInt64 → UInt64}

/-- A call that ends, with the pairs and the size it found. -/
def Keeps (m : RobinHoodHashMap K V)
    (call : Nat → Option (RobinHoodHashMap K V × Bool)) : Prop :=
  ∃ fuel m' returns, call fuel = some (m', returns) ∧ m'.toList.Perm m.toList ∧ m'.size = m.size

/-- Nothing to move, or a slot for each entry in a vector that can be had. -/
def Roomy (allocates : Nat → Bool) (m : RobinHoodHashMap K V) (n : UInt64) : Prop :=
  m.size = 0 ∨ bucketsFor n = m.slots.length ∨
    (allocates (bucketsFor n) = true ∧ m.size ≤ bucketsFor n)

end Resizes

end Cppforge.Hash.RobinHoodHashMap
