import Cppforge.Lib.Bytes
import Cppforge.Lib.Ordered

namespace Cppforge.Hash
open Bytes Ordered

/-- The order of the ring. -/
def hashLess (a b : UInt64) : Bool := decide (a < b)

instance : StrictTotal hashLess :=
  strictTotal_of_lt UInt64.lt_irrefl (fun _ _ _ => UInt64.lt_trans)
    (fun _ _ hab hba => UInt64.le_antisymm (UInt64.not_lt.mp hba) (UInt64.not_lt.mp hab))

/-- `std::less` of strings. -/
def nameLess (a b : Text) : Bool := decide (a < b)

instance : StrictTotal nameLess :=
  strictTotal_of_lt List.lt_irrefl (fun _ _ _ => List.lt_trans)
    (fun _ _ hab hba => List.le_antisymm (List.not_lt.mp hba) (List.not_lt.mp hab))

/-- A virtual replica of a node. -/
structure VNode where
  physicalNode : Text
  index : Nat
deriving DecidableEq

structure ConsistentHash where
  ring : SortedMap hashLess VNode
  nodeVNodeCounts : SortedMap nameLess UInt32

namespace ConsistentHash

section Hashing

def multiplier : UInt64 := 0xc6a4a7935bd1e995

/-- Little-endian, as `memcpy` reads it. -/
def word64 (bytes : List UInt8) : UInt64 :=
  bytes.foldr (fun b k => k <<< 8 ||| b.toUInt64) 0

def mixWord (k : UInt64) : UInt64 :=
  let k := k * multiplier
  let k := k ^^^ k >>> 47
  k * multiplier

/-- Whole words first, then the one to seven bytes that are left. -/
def hashBody (h : UInt64) : List UInt8 → UInt64
  | b₀ :: b₁ :: b₂ :: b₃ :: b₄ :: b₅ :: b₆ :: b₇ :: rest =>
    hashBody ((h ^^^ mixWord (word64 [b₀, b₁, b₂, b₃, b₄, b₅, b₆, b₇])) * multiplier) rest
  | [] => h
  | rest => h ^^^ mixWord (word64 rest)

def hashBytes (data : Text) : UInt64 :=
  let h := hashBody (0xbea225f9ebdef56b ^^^ UInt64.ofNat data.length) data
  let h := h ^^^ h >>> 33
  let h := h * 0xff51afd7ed558ccd
  let h := h ^^^ h >>> 33
  let h := h * 0xc4ceb9fe1a85ec53
  h ^^^ h >>> 33

/-- `std::to_string`. -/
def decimal (n : Nat) : Text := (Nat.toDigits 10 n).map (fun c => UInt8.ofNat c.toNat)

/-- The node's name, `#` and the index. -/
def vNodeName (node : Text) (index : Nat) : Text := node ++ 35 :: decimal index

def hashVNode (node : Text) (index : Nat) : UInt64 := hashBytes (vNodeName node index)

end Hashing

section Operations

def defaultVNodeCount : UInt32 := 3

def empty : ConsistentHash := ⟨.empty, .empty⟩

/-- Takes the replicas `0 ..< count` of a node off the ring. -/
def eraseReplicas (ring : SortedMap hashLess VNode) (node : Text) (count : Nat) :
    SortedMap hashLess VNode :=
  (List.range count).foldl (fun ring i => ring.erase (hashVNode node i)) ring

/-- Puts the replicas `0 ..< count` of a node on the ring. -/
def placeReplicas (ring : SortedMap hashLess VNode) (node : Text) (count : Nat) :
    SortedMap hashLess VNode :=
  (List.range count).foldl (fun ring i => ring.assign (hashVNode node i) ⟨node, i⟩) ring

def effectiveCount (virtualNodeCount : UInt32) : UInt32 :=
  if virtualNodeCount = 0 then defaultVNodeCount else virtualNodeCount

/-- The ring without the replicas of an earlier registration. -/
def withoutReplicas (c : ConsistentHash) (node : Text) : SortedMap hashLess VNode :=
  match c.nodeVNodeCounts.find node with
  | some oldCount => eraseReplicas c.ring node oldCount.toNat
  | none => c.ring

def addNode (c : ConsistentHash) (node : Text) (virtualNodeCount : UInt32) : ConsistentHash :=
  let count := effectiveCount virtualNodeCount
  ⟨placeReplicas (c.withoutReplicas node) node count.toNat, c.nodeVNodeCounts.assign node count⟩

def removeNode (c : ConsistentHash) (node : Text) : ConsistentHash × Bool :=
  match c.nodeVNodeCounts.find node with
  | none => (c, false)
  | some count =>
    (⟨eraseReplicas c.ring node count.toNat, c.nodeVNodeCounts.erase node⟩, true)

def clear (_ : ConsistentHash) : ConsistentHash := empty

/-- `none` is the exception of an empty ring. -/
def getNode (c : ConsistentHash) (key : Text) : Option Text :=
  (c.ring.successor (hashBytes key)).map (fun e => e.2.physicalNode)

/-- The walk around the ring from index `it` until it is back at `start` or has `n`
distinct nodes. -/
def collect (ring : List (UInt64 × VNode)) (n start : Nat) :
    Nat → Nat → List Text → Option (List Text)
  | 0, _, _ => none
  | fuel + 1, it, result => do
    let (_, v) ← ring[it]?
    let isNew := !result.contains v.physicalNode
    let result := if isNew then result ++ [v.physicalNode] else result
    if isNew && decide (n ≤ result.length) then return result
    let next := if it + 1 = ring.length then 0 else it + 1
    if next = start then return result
    collect ring n start fuel next result

def getNodes (c : ConsistentHash) (key : Text) (n : UInt32) : Option (List Text) :=
  if c.ring.entries.isEmpty || n = 0 then some []
  else
    let lower := c.ring.entries.findIdx (fun e => !hashLess e.1 (hashBytes key))
    let start := if lower = c.ring.entries.length then 0 else lower
    collect c.ring.entries n.toNat start c.ring.entries.length start []

end Operations

/-- A call that changes the ring. -/
inductive Op where
  | addNode (node : Text) (virtualNodeCount : UInt32)
  | removeNode (node : Text)
  | clear

def apply (c : ConsistentHash) : Op → ConsistentHash
  | .addNode node virtualNodeCount => c.addNode node virtualNodeCount
  | .removeNode node => (c.removeNode node).1
  | .clear => c.clear

def run (ops : List Op) : ConsistentHash := ops.foldl apply empty

end ConsistentHash

end Cppforge.Hash
