import Cppforge.Lib.Ordered
import Mathlib.Algebra.Group.Int.Defs
import Mathlib.Algebra.Ring.Nat
import Mathlib.Order.Lattice

namespace Cppforge.Lsm
open Ordered

/-- Tunable parameters. The Bloom filter's target rate reaches the tree only
through the filter itself, which is a parameter below; `enable_stats` is never read. -/
structure LSMTreeOptions where
  memtable_size : UInt64 := 4096
  l0_compaction_threshold : UInt64 := 4
  max_levels : UInt64 := 4
  fan_out : UInt64 := 10
deriving Repr, DecidableEq

/-- One entry of a sorted table; `value` is ignored when `tombstone` is set. -/
structure SSTableEntry (Key Value : Type) where
  key : Key
  value : Value
  tombstone : Bool := false
deriving Repr, DecidableEq

/-- An immutable sorted table. Ids are drawn from a 64-bit counter that grows by
one per table, so it is a natural number here. -/
structure SSTable (Key Value : Type) where
  id : Nat
  entries : List (SSTableEntry Key Value)
deriving Repr, DecidableEq

/-- A value of the MemTable together with its deletion marker. -/
structure InternalValue (Value : Type) where
  value : Value
  tombstone : Bool := false
deriving Repr, DecidableEq

/-- `std::map<Key, InternalValue>`: the bindings in key order. -/
abbrev MemTable (Key Value : Type) := List (Key × InternalValue Value)

structure LSMTree (Key Value : Type) where
  options : LSMTreeOptions
  memtable : MemTable Key Value
  immutableMemtable : Option (MemTable Key Value)
  levels : List (List (SSTable Key Value))
  nextSSTableId : Nat
  approximateSize : UInt64
deriving Repr, DecidableEq

/-- Result of searching one level, with the value the source keeps in
`latestFoundValue_`. -/
inductive LevelResult (Value : Type) where
  | notFound
  | foundValue (value : Value)
  | foundTombstone
deriving Repr, DecidableEq

/-- An input of the multi-way merge: the entries from its iterator to its end. -/
structure IterState (Key Value : Type) where
  id : Nat
  rest : List (SSTableEntry Key Value)

section Tables
variable {Key Value : Type} [LinearOrder Key] [Inhabited Key]

def less (a b : Key) : Bool := decide (a < b)

namespace SSTable

def minKey (t : SSTable Key Value) : Key := (t.entries.head?.map SSTableEntry.key).getD default

def maxKey (t : SSTable Key Value) : Key := (t.entries.getLast?.map SSTableEntry.key).getD default

def empty (t : SSTable Key Value) : Bool := t.entries.isEmpty

/-- `std::lower_bound` over the entries: the suffix that starts at the first
entry not below the key. -/
def lowerBound (t : SSTable Key Value) (key : Key) : List (SSTableEntry Key Value) :=
  t.entries.dropWhile (fun e => less e.key key)

/-- Point lookup. `bloom ks` is the membership test of the filter built over `ks`. -/
def get (bloom : List Key → Key → Bool) (t : SSTable Key Value) (key : Key) :
    Option (Value × Bool) :=
  if !bloom (t.entries.map SSTableEntry.key) key then none
  else if t.empty || less key t.minKey || less t.maxKey key then none
  else
    match t.lowerBound key with
    | e :: _ => if e.key = key then some (e.value, e.tombstone) else none
    | [] => none

end SSTable

namespace MemTable

def find (m : MemTable Key Value) (key : Key) : Option (InternalValue Value) :=
  (lookup (fun e => cut less key e.1) m).map Prod.snd

/-- Assignment through `operator[]`, or through the iterator `emplace` returns. -/
def assign (m : MemTable Key Value) (key : Key) (iv : InternalValue Value) : MemTable Key Value :=
  upsert (fun e => cut less key e.1) (fun e => (e.1, iv)) (key, iv) m

end MemTable

end Tables

section Merge
variable {Key Value : Type} [LinearOrder Key]

/-- A `size_t` seen through `static_cast<int>`. -/
def toInt32 (n : Nat) : Int := (n : Int).bmod (2 ^ 32)

/-- One turn of the scan for the least key: a later iterator takes over when its
key is smaller, or equal with a larger table id. -/
def pickBest (best : Option (SSTableEntry Key Value × Nat)) (st : IterState Key Value) :
    Option (SSTableEntry Key Value × Nat) :=
  match st.rest with
  | [] => best
  | cur :: _ =>
    match best with
    | none => some (cur, st.id)
    | some (b, bid) =>
      if less cur.key b.key || (decide (cur.key = b.key) && decide (bid < st.id))
      then some (cur, st.id) else some (b, bid)

/-- Step an iterator past the key just taken. -/
def skipKey (key : Key) (st : IterState Key Value) : IterState Key Value :=
  match st.rest with
  | [] => st
  | e :: rest => if e.key = key then { st with rest := rest } else st

/-- Takes the winning entry of the least key among the first `limit` inputs and
moves every iterator at that key. -/
def advanceMinKey (limit : Nat) (states : List (IterState Key Value)) :
    Option (SSTableEntry Key Value × List (IterState Key Value)) :=
  match (states.take limit).foldl pickBest none with
  | none => none
  | some (entry, _) => some (entry, states.map (skipKey entry.key))

/-- The look-ahead for a value under a winning tombstone. -/
def hasValue (key : Key) (states : List (IterState Key Value)) : Bool :=
  states.any (fun st => match st.rest with
    | [] => false
    | e :: _ => decide (e.key = key) && !e.tombstone)

/-- The final, partial batch. -/
def finishBatch (currentBatch : List (SSTableEntry Key Value)) (nextId : Nat) :
    List (SSTable Key Value) × Nat :=
  if currentBatch.isEmpty then ([], nextId) else ([⟨nextId, currentBatch⟩], nextId + 1)

/-- The merge loop. Each turn consumes an entry, so `fuel` is the number of
entries left in the inputs. -/
def mergeLoop (batchTarget : UInt64) (limit : Nat) : Nat → List (IterState Key Value) →
    List (SSTableEntry Key Value) → Nat → List (SSTable Key Value) × Nat
  | 0, _, currentBatch, nextId => finishBatch currentBatch nextId
  | fuel + 1, states, currentBatch, nextId =>
    match advanceMinKey limit states with
    | none => finishBatch currentBatch nextId
    | some (next, states) =>
      if next.tombstone && hasValue next.key states then
        mergeLoop batchTarget limit fuel states currentBatch nextId
      else if batchTarget.toNat ≤ (currentBatch ++ [next]).length then
        let (result, id) := mergeLoop batchTarget limit fuel states [] (nextId + 1)
        (⟨nextId, currentBatch ++ [next]⟩ :: result, id)
      else mergeLoop batchTarget limit fuel states (currentBatch ++ [next]) nextId

/-- Multi-way merge of the inputs, newest table first on equal keys. Returns the
output tables and the next table id. The scan's index is an `int`, so it stops at
`static_cast<int>(states.size())`. -/
def mergeTables (options : LSMTreeOptions) (inputs : List (SSTable Key Value)) (nextId : Nat) :
    List (SSTable Key Value) × Nat :=
  let states := (inputs.filter (fun t => !t.entries.isEmpty)).map (fun t => ⟨t.id, t.entries⟩)
  if states.isEmpty then ([], nextId)
  else mergeLoop (options.memtable_size * 2) (toInt32 states.length).toNat
    (states.map (fun st => st.rest.length)).sum states [] nextId

end Merge

namespace LSMTree
variable {Key Value : Type} [LinearOrder Key] [Inhabited Key] [Inhabited Value]

/-- A fresh tree. `max_levels + 1` is `size_t` arithmetic. -/
def init (options : LSMTreeOptions) : LSMTree Key Value :=
  { options, memtable := [], immutableMemtable := none,
    levels := List.replicate (options.max_levels + 1).toNat [],
    nextSSTableId := 1, approximateSize := 0 }

/-- A MemTable binding as a table entry. -/
def toEntry (binding : Key × InternalValue Value) : SSTableEntry Key Value :=
  ⟨binding.1, binding.2.value, binding.2.tombstone⟩

/-- Flushes the immutable MemTable to level 0. `none` is the out-of-range access
`levels_[0]` on a tree without levels. -/
def doFlush (s : LSMTree Key Value) : Option (LSMTree Key Value) :=
  match s.immutableMemtable with
  | none => some s
  | some m =>
    if m.isEmpty then some s
    else
      match s.levels with
      | [] => none
      | l0 :: deeper =>
        some { s with
          levels := (l0 ++ [⟨s.nextSSTableId, m.map toEntry⟩]) :: deeper
          nextSSTableId := s.nextSSTableId + 1
          immutableMemtable := none }

def sealMemTable (s : LSMTree Key Value) : Option (LSMTree Key Value) :=
  if s.memtable.isEmpty then some s
  else do
    let s ← if s.immutableMemtable.isSome then s.doFlush else some s
    return { s with immutableMemtable := some s.memtable, memtable := [] }

/-- The size target of level `i`, `memtable_size * fan_out ^ i` in `size_t`. -/
def target (options : LSMTreeOptions) (level : Nat) : UInt64 :=
  (List.range level).foldl (fun target _ => target * options.fan_out) options.memtable_size

def shouldCompactLevel (s : LSMTree Key Value) (level : Nat) : Bool :=
  let tables := s.levels.getD level []
  if level = 0 then decide (s.options.l0_compaction_threshold.toNat ≤ tables.length)
  else decide (target s.options level ≤
    tables.foldl (fun total t => total + UInt64.ofNat t.entries.length) 0)

/-- Widens the range found so far by one table of the source level. -/
def extendRange (range : Option (Key × Key)) (t : SSTable Key Value) : Option (Key × Key) :=
  if t.empty then range
  else match range with
    | none => some (t.minKey, t.maxKey)
    | some (globalMin, globalMax) =>
      some (if less t.minKey globalMin then t.minKey else globalMin,
        if less globalMax t.maxKey then t.maxKey else globalMax)

/-- Key range of the non-empty tables of a level, `none` when there is none. -/
def globalRange (tables : List (SSTable Key Value)) : Option (Key × Key) :=
  tables.foldl extendRange none

def overlaps (globalMin globalMax : Key) (t : SSTable Key Value) : Bool :=
  !t.empty && !(less t.maxKey globalMin || less globalMax t.minKey)

/-- The comparator of the final `std::sort` by least key, empty tables first. -/
def tableLess (a b : SSTable Key Value) : Bool :=
  if a.empty && b.empty then false
  else if a.empty then true
  else if b.empty then false
  else less a.minKey b.minKey

def compactLevel (s : LSMTree Key Value) (level : Nat) : LSMTree Key Value :=
  let srcLevel := s.levels.getD level []
  let dstLevel := s.levels.getD (level + 1) []
  if srcLevel.isEmpty then s
  else match globalRange srcLevel with
    | none => { s with levels := s.levels.set level [] }
    | some (globalMin, globalMax) =>
      let compactInput := srcLevel ++ dstLevel.filter (overlaps globalMin globalMax)
      let kept := dstLevel.filter (fun t => !overlaps globalMin globalMax t)
      let (outputTables, nextId) := mergeTables s.options compactInput s.nextSSTableId
      let dstLevel := (kept ++ outputTables).mergeSort (fun a b => !tableLess b a)
      { s with
        levels := (s.levels.set level []).set (level + 1) dstLevel
        nextSSTableId := nextId }

/-- One compaction round: the first level over its target, if any. -/
def doCompact (s : LSMTree Key Value) : LSMTree Key Value :=
  match (List.range (s.levels.length - 1)).find? s.shouldCompactLevel with
  | some level => s.compactLevel level
  | none => s

def maybeSealAndFlush (s : LSMTree Key Value) : Option (LSMTree Key Value) :=
  if s.memtable.length < s.options.memtable_size.toNat then some s
  else do
    let s ← s.sealMemTable
    let s ← s.doFlush
    return s.doCompact

/-- Insertion of a live value; the size counter moves when the key was absent
or deleted in the active MemTable. `emplace` looks the key up first and leaves its
arguments alone when it is there, so the value is still whole for the assignment. -/
def internalPut (s : LSMTree Key Value) (key : Key) (value : Value) : LSMTree Key Value :=
  let grows := match MemTable.find s.memtable key with
    | none => true
    | some iv => iv.tombstone
  { s with
    memtable := MemTable.assign s.memtable key ⟨value, false⟩
    approximateSize := if grows then s.approximateSize + 1 else s.approximateSize }

def put (s : LSMTree Key Value) (key : Key) (value : Value) : Option (LSMTree Key Value) :=
  (s.internalPut key value).maybeSealAndFlush

/-- A tombstone keeps the value it covers; a key the MemTable does not hold gets
a default value under its tombstone. -/
def remove (s : LSMTree Key Value) (key : Key) : Option (LSMTree Key Value) :=
  let s := match MemTable.find s.memtable key with
    | some iv =>
      { s with
        memtable := MemTable.assign s.memtable key { iv with tombstone := true }
        approximateSize := if iv.tombstone then s.approximateSize else s.approximateSize - 1 }
    | none => { s with memtable := MemTable.assign s.memtable key ⟨default, true⟩ }
  s.maybeSealAndFlush

def flush (s : LSMTree Key Value) : Option (LSMTree Key Value) := do
  let s ← s.sealMemTable
  let s ← s.doFlush
  return s.doCompact

def compact (s : LSMTree Key Value) : LSMTree Key Value := s.doCompact

def clear (s : LSMTree Key Value) : LSMTree Key Value :=
  { s with
    memtable := [], immutableMemtable := none, levels := s.levels.map (fun _ => [])
    nextSSTableId := 1, approximateSize := 0 }

section Search
variable (bloom : List Key → Key → Bool)

/-- What a level reports for the answer of one of its tables. -/
def report (result : Value × Bool) : LevelResult Value :=
  if result.2 then .foundTombstone else .foundValue result.1

/-- Level 0 from the newest table to the oldest, stopping at the first answer. -/
def searchNewestFirst (key : Key) : List (SSTable Key Value) → LevelResult Value
  | [] => .notFound
  | t :: ts =>
    if t.empty then searchNewestFirst key ts
    else if less key t.minKey || less t.maxKey key then searchNewestFirst key ts
    else match t.get bloom key with
      | some result => report result
      | none => searchNewestFirst key ts

/-- `std::upper_bound` by least key, then one step back unless at the front. -/
def candidate (tables : List (SSTable Key Value)) (key : Key) : Option (SSTable Key Value) :=
  let it := (tables.takeWhile (fun t => !less key t.minKey)).length
  tables[it - 1]?

def searchLevel (s : LSMTree Key Value) (key : Key) (level : Nat) : LevelResult Value :=
  let tables := s.levels.getD level []
  if level = 0 then
    searchNewestFirst bloom key (tables.mergeSort (fun a b => decide (b.id ≤ a.id)))
  else match candidate tables key with
    | none => .notFound
    | some t =>
      if !t.empty && !less key t.minKey && !less t.maxKey key then
        match t.get bloom key with
        | some result => report result
        | none => .notFound
      else .notFound

/-- Levels from `level` on, stopping at the first match. -/
def searchLevels (s : LSMTree Key Value) (key : Key) : List Nat → Option Value
  | [] => none
  | level :: levels =>
    match s.searchLevel bloom key level with
    | .foundValue v => some v
    | .foundTombstone => none
    | .notFound => searchLevels s key levels

def get (s : LSMTree Key Value) (key : Key) : Option Value :=
  match MemTable.find s.memtable key with
  | some iv => if iv.tombstone then none else some iv.value
  | none =>
    match s.immutableMemtable.bind (fun m => MemTable.find m key) with
    | some iv => if iv.tombstone then none else some iv.value
    | none => s.searchLevels bloom key (List.range s.levels.length)

end Search

/-- A call of the mutating interface. -/
inductive Op (Key Value : Type) where
  | put (key : Key) (value : Value)
  | remove (key : Key)
  | flush
  | compact
  | clear
deriving Repr, DecidableEq

def apply (s : LSMTree Key Value) : Op Key Value → Option (LSMTree Key Value)
  | .put key value => s.put key value
  | .remove key => s.remove key
  | .flush => s.flush
  | .compact => some s.compact
  | .clear => some s.clear

/-- A run of calls; `none` once a call made an out-of-range access. -/
def run (s : LSMTree Key Value) (ops : List (Op Key Value)) : Option (LSMTree Key Value) :=
  ops.foldlM apply s

end LSMTree

end Cppforge.Lsm
