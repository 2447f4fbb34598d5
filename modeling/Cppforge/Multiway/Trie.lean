import Mathlib.Data.List.AList

namespace Cppforge.Multiway.Trie

/-- The characters of a `std::string`. -/
abbrev Key := List UInt8

/-- `children` has one pair for each character; their order means nothing. -/
inductive Node (T : Type) where
  | mk (children : List (Σ _ : UInt8, Node T)) (value : T) (isEnd : Bool)

variable {T : Type}

namespace Node

def children : Node T → List (Σ _ : UInt8, Node T)
  | mk children _ _ => children

def value : Node T → T
  | mk _ value _ => value

def isEnd : Node T → Bool
  | mk _ _ isEnd => isEnd

def empty [Inhabited T] : Node T := mk [] default false

/-- The loop that both `find` and `startsWith` begin with. -/
def descend : Key → Node T → Option (Node T)
  | [], node => some node
  | c :: key, node => (node.children.dlookup c).bind (descend key)

/-- The loop of `insert` and what it does to the last node; the second part is whether
`size_` grows. -/
def insert [Inhabited T] (value : T) : Key → Node T → Node T × Bool
  | [], mk children _ isEnd => (mk children value true, !isEnd)
  | c :: key, mk children v isEnd =>
    let child := insert value key ((children.dlookup c).getD empty)
    (mk (children.kinsert c child.1) v isEnd, child.2)

/-- The node, `size_` and whether the caller should prune the node. The value of an erased
key stays. -/
def eraseHelper : Key → Node T → Nat → (Node T × Nat) × Bool
  | [], mk children value isEnd, size =>
    if !isEnd then ((mk children value isEnd, size), false)
    else ((mk children value false, size - 1), children.isEmpty)
  | c :: key, mk children value isEnd, size =>
    match children.dlookup c with
    | none => ((mk children value isEnd, size), false)
    | some child =>
      let erased := eraseHelper key child size
      if erased.2 then
        ((mk (children.kerase c) value isEnd, erased.1.2), !isEnd && (children.kerase c).isEmpty)
      else ((mk (children.kinsert c erased.1.1) value isEnd, erased.1.2), false)

mutual

def collectKeys : Node T → Key → List Key
  | mk children _ isEnd, current => (if isEnd then [current] else []) ++ collectChildren children current

/-- The loop over `children`. -/
def collectChildren : List (Σ _ : UInt8, Node T) → Key → List Key
  | [], _ => []
  | ⟨c, child⟩ :: rest, current => collectKeys child (current ++ [c]) ++ collectChildren rest current

end

end Node

end Trie

structure Trie (T : Type) where
  root : Trie.Node T
  size : Nat

namespace Trie
variable {T : Type}

def create [Inhabited T] : Trie T := ⟨.empty, 0⟩

def insert [Inhabited T] (t : Trie T) (key : Key) (value : T) : Trie T :=
  let root := t.root.insert value key
  ⟨root.1, if root.2 then t.size + 1 else t.size⟩

def find (t : Trie T) (key : Key) : Option T :=
  (t.root.descend key).bind fun node => if node.isEnd then some node.value else none

def contains (t : Trie T) (key : Key) : Bool := (t.find key).isSome

def erase (t : Trie T) (key : Key) : Trie T × Bool :=
  if !t.contains key then (t, false)
  else
    let erased := t.root.eraseHelper key t.size
    (⟨erased.1.1, erased.1.2⟩, true)

def startsWith (t : Trie T) (pre : Key) : List Key :=
  match t.root.descend pre with
  | none => []
  | some node => node.collectKeys pre

def keys (t : Trie T) : List Key := t.root.collectKeys []

def values (t : Trie T) : List T := t.keys.filterMap t.find

def clear [Inhabited T] (_ : Trie T) : Trie T := create

inductive Op (T : Type) where
  | insert (key : Key) (value : T)
  | erase (key : Key)
  | clear

def step [Inhabited T] (t : Trie T) : Op T → Trie T
  | .insert key value => t.insert key value
  | .erase key => (t.erase key).1
  | .clear => t.clear

end Trie

end Cppforge.Multiway
