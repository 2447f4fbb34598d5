import Cppforge.Lib.Pairing

namespace Cppforge.Crypto
open Pairing

abbrev Bytes := List UInt8

structure MerkleProof where
  leafIndex : Nat
  siblings : List Bytes
  isLeft : List Bool
  deriving DecidableEq

/-- `levels_` from the leaves to the root, and `leaf_count_`. -/
structure MerkleTree where
  levels : List (List Bytes)
  leafCount : Nat

namespace MerkleTree
variable (sha256 : Bytes → Bytes)

/-- `sha256` of two spans one after the other. -/
def sha256Pair (a b : Bytes) : Bytes := sha256 (a ++ b)

/-- Only the leaf level is kept; each turn of the loop pushes the level above the last. -/
def rebuildInternalNodes (levels : List (List Bytes)) : MerkleTree :=
  match levels with
  | [] => { levels := [], leafCount := 0 }
  | [] :: _ => { levels := [], leafCount := 0 }
  | leaves :: _ => { levels := Pairing.levels (sha256Pair sha256) leaves, leafCount := leaves.length }

def create (dataBlocks : List Bytes) : MerkleTree :=
  if dataBlocks.length = 0 then { levels := [], leafCount := 0 }
  else rebuildInternalNodes sha256 [dataBlocks.map sha256]

def addLeafByHash (t : MerkleTree) (leafHash : Bytes) : MerkleTree :=
  let levels := if t.levels.isEmpty then [[]] else t.levels
  rebuildInternalNodes sha256 (levels.modify 0 (· ++ [leafHash]))

def addLeaf (t : MerkleTree) (dataBlock : Bytes) : MerkleTree :=
  t.addLeafByHash sha256 (sha256 dataBlock)

def clear (_ : MerkleTree) : MerkleTree := { levels := [], leafCount := 0 }

def rootHash (t : MerkleTree) : Bytes :=
  match t.levels.getLast? with
  | some (root :: _) => root
  | _ => []

/-- The text of the `std::out_of_range` is the error. -/
def leafHash (t : MerkleTree) (index : Nat) : Except String Bytes :=
  match t.levels.head?.bind (·[index]?) with
  | some hash => .ok hash
  | none => .error ("MerkleTree::leafHash: index " ++ toString index ++ " out of range (leafCount="
      ++ toString t.leafCount ++ ")")

/-- The siblings on the way up, each with its side, to the level below the root. The walk
fails where it would read past a level. -/
def siblingsFrom : List (List Bytes) → Nat → Option (List (Bytes × Bool))
  | currentLevel :: above :: rest, position => do
    let sibling ← neighbour? currentLevel position
    let siblings ← siblingsFrom (above :: rest) (position / 2)
    return sibling :: siblings
  | _, _ => some []

/-- Without a value where a level is read out of range. -/
def getProof (t : MerkleTree) (leafIndex : Nat) : Option (Option MerkleProof) :=
  if t.levels.isEmpty ∨ t.leafCount ≤ leafIndex then some none
  else do
    let siblings ← siblingsFrom t.levels leafIndex
    return some { leafIndex, siblings := siblings.map (·.1), isLeft := siblings.map (·.2) }

def verifyProof (proof : MerkleProof) (leafHash rootHash : Bytes) : Bool :=
  if proof.siblings.length ≠ proof.isLeft.length then false
  else (proof.siblings.zip proof.isLeft).foldl (join (sha256Pair sha256)) leafHash == rootHash

inductive Op where
  | addLeaf (dataBlock : Bytes)
  | addLeafByHash (leafHash : Bytes)
  | clear

def step (t : MerkleTree) : Op → MerkleTree
  | .addLeaf dataBlock => t.addLeaf sha256 dataBlock
  | .addLeafByHash leafHash => t.addLeafByHash sha256 leafHash
  | .clear => t.clear

/-- The tree that the constructor and the operations after it leave. -/
def build (dataBlocks : List Bytes) (ops : List Op) : MerkleTree :=
  ops.foldl (step sha256) (create sha256 dataBlocks)

end MerkleTree

end Cppforge.Crypto
