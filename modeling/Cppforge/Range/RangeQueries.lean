import Mathlib.Data.Nat.Notation
import Mathlib.Algebra.Group.Basic
import Mathlib.Algebra.Group.Nat.Defs

namespace Cppforge.Range

/-- `data_`, `n_` and `tree_`. -/
structure SegmentTree (T : Type) where
  data : List T
  n : Nat
  tree : List T

namespace SegmentTree
variable {T : Type} (merge : T → T → T)

/-- `tree_[node] = value`, without a value where the index is out of range. -/
def store (tree : List T) (node : Nat) (value : T) : Option (List T) :=
  if node < tree.length then some (tree.set node value) else none

/-- `tree_[node] = merge_(tree_[node * 2], tree_[node * 2 + 1])`. -/
def pull (tree : List T) (node : Nat) : Option (List T) := do
  store tree node (merge (← tree[node * 2]?) (← tree[node * 2 + 1]?))

/-- The recursion ends on ranges that hold an element. -/
def buildTree (data : List T) (node l r : Nat) (tree : List T) : Option (List T) :=
  if l + 1 = r then do store tree node (← data[l]?)
  else if l + 1 < r then do
    let mid := l + (r - l) / 2
    let tree ← buildTree data (node * 2) l mid tree
    let tree ← buildTree data (node * 2 + 1) mid r tree
    pull merge tree node
  else none
termination_by r - l

/-- The nodes and the elements afterwards. -/
def updateTree (node l r pos : Nat) (value : T) (tree data : List T) : Option (List T × List T) :=
  if l + 1 = r then do
    let tree ← store tree node value
    return (tree, ← store data pos value)
  else if l + 1 < r then do
    let mid := l + (r - l) / 2
    let (tree, data) ←
      if pos < mid then updateTree (node * 2) l mid pos value tree data
      else updateTree (node * 2 + 1) mid r pos value tree data
    return (← pull merge tree node, data)
  else none
termination_by r - l

def queryTree (tree : List T) (node l r ql qr : Nat) : Option (Option T) :=
  if r ≤ ql ∨ qr ≤ l then some none
  else if ql ≤ l ∧ r ≤ qr then tree[node]?.map some
  else if l + 1 < r then do
    let mid := l + (r - l) / 2
    let left ← queryTree tree (node * 2) l mid ql qr
    let right ← queryTree tree (node * 2 + 1) mid r ql qr
    match left, right with
    | none, right => return right
    | left, none => return left
    | some a, some b => return some (merge a b)
  else none
termination_by r - l

/-- The constructors, where a range and an initializer list are the elements they hold. -/
inductive Construction (T : Type) where
  | sized (n : Nat)
  | filled (n : Nat) (init : T)
  | range (data : List T)

/-- `data_`, whose elements are in memory, so that four times their number does not wrap. -/
def Construction.data [Inhabited T] : Construction T → List T
  | .sized n => List.replicate n default
  | .filled n init => List.replicate n init
  | .range data => data

def create [Inhabited T] (c : Construction T) : Option (SegmentTree T) := do
  let n := c.data.length
  let tree := List.replicate (4 * n) default
  let tree ← if 0 < n then buildTree merge c.data 1 0 n tree else some tree
  return { data := c.data, n, tree }

def update (t : SegmentTree T) (pos : Nat) (value : T) : Option (Except String (SegmentTree T)) :=
  if t.n ≤ pos then some (.error "Position out of bounds")
  else do
    let (tree, data) ← updateTree merge 1 0 t.n pos value t.tree t.data
    return .ok { t with data, tree }

def query (t : SegmentTree T) (l r : Nat) : Option (Except String T) :=
  if r ≤ l ∨ t.n < r then some (.error "Invalid query range")
  else do
    match ← queryTree merge t.tree 1 0 t.n l r with
    | some result => return .ok result
    | none => return .error "Query returned no results"

def atPos (t : SegmentTree T) (pos : Nat) : Option (Except String T) :=
  if t.n ≤ pos then some (.error "Position out of bounds") else t.data[pos]?.map .ok

inductive Op (T : Type) where
  | update (pos : Nat) (value : T)
  | query (l r : Nat)
  | atPos (pos : Nat)

/-- A call, and what it returns or throws. What throws leaves the tree as it was. -/
def step (t : SegmentTree T) : Op T → Option (SegmentTree T × Except String (Option T))
  | .update pos value => do
    match ← t.update merge pos value with
    | .ok t' => return (t', .ok none)
    | .error what => return (t, .error what)
  | .query l r => (t.query merge l r).map fun result => (t, result.map some)
  | .atPos pos => (t.atPos pos).map fun result => (t, result.map some)

end SegmentTree

/-- `n_` and `tree_`. -/
structure FenwickTree (T : Type) where
  n : Nat
  tree : List T

namespace FenwickTree
variable {T : Type} [AddCommGroup T]

def lowbit (x : Nat) : Nat := x &&& ((2 ^ 64 - x) % 2 ^ 64)

/-- The loop of `add`, of at most `fuel` turns. Without a value where it does not end, or
writes past the tree. -/
def addFrom (n : Nat) (delta : T) : Nat → Nat → List T → Option (List T)
  | 0, _, _ => none
  | fuel + 1, i, tree =>
    if i ≤ n then do
      let node ← tree[i]?
      addFrom n delta fuel ((i + lowbit i) % 2 ^ 64) (tree.set i (node + delta))
    else some tree

/-- The index grows with each turn, so that `n` turns and the last test are all there are. -/
def add (t : FenwickTree T) (pos : Nat) (delta : T) : Option (Except String (FenwickTree T)) :=
  if t.n ≤ pos then some (.error "Position out of bounds")
  else do
    let tree ← addFrom t.n delta (t.n + 1) (pos + 1) t.tree
    return .ok { t with tree }

/-- The loop of `sum`, of at most `fuel` turns. -/
def sumFrom (tree : List T) : Nat → Nat → T → Option T
  | 0, _, _ => none
  | fuel + 1, i, result =>
    if 0 < i then do
      let node ← tree[i]?
      sumFrom tree fuel (i - lowbit i) (result + node)
    else some result

def sum (t : FenwickTree T) (pos : Nat) : Option (Except String T) :=
  if t.n < pos then some (.error "Position out of bounds")
  else do
    let result ← sumFrom t.tree (pos + 1) pos 0
    return .ok result

/-- `sum(l, r)`. -/
def sumBetween (t : FenwickTree T) (l r : Nat) : Option (Except String T) :=
  if r ≤ l ∨ t.n < r then some (.error "Invalid query range")
  else do
    let upper ← t.sum r
    let lower ← t.sum l
    return do return (← upper) - (← lower)

def atPos (t : FenwickTree T) (pos : Nat) : Option (Except String T) :=
  if t.n ≤ pos then some (.error "Position out of bounds")
  else t.sumBetween pos (pos + 1)

/-- The loops of the constructors. -/
def addEach (t : FenwickTree T) (i : Nat) : List T → Option (Except String (FenwickTree T))
  | [] => some (.ok t)
  | x :: xs => do
    match ← t.add i x with
    | .ok t => addEach t (i + 1) xs
    | .error what => return .error what

/-- A vector of zeros. No vector is longer than the largest difference of two pointers. -/
def zeros (count : Nat) : Except String (List T) :=
  if count < 2 ^ 63 then .ok (List.replicate count 0) else .error "std::length_error"

/-- The constructors, where a range and an initializer list are the elements they hold. -/
inductive Construction (T : Type) where
  | sized (n : UInt64)
  | filled (n : UInt64) (init : T)
  | range (data : List T)

/-- The length of the tree is computed in `size_t` from a given number of elements. The
elements of a range are in memory already. -/
def create : Construction T → Option (Except String (FenwickTree T))
  | .sized n => some (do return ⟨n.toNat, ← zeros ((n.toNat + 1) % 2 ^ 64)⟩)
  | .filled n init =>
    match zeros ((n.toNat + 1) % 2 ^ 64) with
    | .ok tree => addEach ⟨n.toNat, tree⟩ 0 (List.replicate n.toNat init)
    | .error what => some (.error what)
  | .range data =>
    match zeros (data.length + 1) with
    | .ok tree => addEach ⟨data.length, tree⟩ 0 data
    | .error what => some (.error what)

inductive Op (T : Type) where
  | add (pos : Nat) (delta : T)
  | sum (pos : Nat)
  | sumBetween (l r : Nat)
  | atPos (pos : Nat)

/-- A call, and what it returns or throws. What throws leaves the tree as it was. -/
def step (t : FenwickTree T) : Op T → Option (FenwickTree T × Except String (Option T))
  | .add pos delta => do
    match ← t.add pos delta with
    | .ok t' => return (t', .ok none)
    | .error what => return (t, .error what)
  | .sum pos => (t.sum pos).map fun result => (t, result.map some)
  | .sumBetween l r => (t.sumBetween l r).map fun result => (t, result.map some)
  | .atPos pos => (t.atPos pos).map fun result => (t, result.map some)

end FenwickTree

/-- `n_` and `st_`. -/
structure SparseTable (T : Type) where
  n : Nat
  st : List (List T)

namespace SparseTable
variable {T : Type} (merge : T → T → T)

/-- `std::bit_width`. -/
def bitWidth (x : Nat) : Nat := if x = 0 then 0 else x.log2 + 1

/-- The loop that fills a row from index `i` on. -/
def buildRow (prev : List T) (half : Nat) : Nat → Nat → Option (List T)
  | 0, _ => some []
  | len + 1, i => do
    let value := merge (← prev[i]?) (← prev[i + half]?)
    return value :: (← buildRow prev half len (i + 1))

/-- The loop over the rows from `k` on, as many as are left. -/
def buildRows (n : Nat) : Nat → Nat → List (List T) → Option (List (List T))
  | 0, _, st => some st
  | rows + 1, k, st => do
    let half := 1 <<< (k - 1)
    let len := n - (1 <<< k) + 1
    let row ← buildRow merge (← st[k - 1]?) half len 0
    buildRows n rows (k + 1) (st ++ [row])

/-- All constructors end here. -/
def buildFrom (data : List T) : Option (SparseTable T) :=
  let n := data.length
  if n = 0 then some { n, st := [] }
  else do
    let st ← buildRows merge n (bitWidth n - 1) 1 [data]
    return { n, st }

def query (t : SparseTable T) (l r : Nat) : Option (Except String T) :=
  if t.n = 0 then some (.error "Cannot query an empty SparseTable")
  else if r ≤ l ∨ t.n < r then some (.error "Invalid query range [l, r)")
  else
    let len := r - l
    if len = 1 then do return .ok (← (← t.st[0]?)[l]?)
    else do
      let k := bitWidth len - 1
      let half := 1 <<< k
      return .ok (merge (← (← t.st[k]?)[l]?) (← (← t.st[k]?)[r - half]?))

def atPos (t : SparseTable T) (pos : Nat) : Option (Except String T) :=
  if t.n ≤ pos then some (.error "Position out of bounds")
  else do return .ok (← (← t.st[0]?)[pos]?)

end SparseTable

end Cppforge.Range
