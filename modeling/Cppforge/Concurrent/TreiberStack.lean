import Cppforge.Concurrent.MichaelScottQueue

namespace Cppforge.Concurrent.TreiberStack
open Interleave Links
open MichaelScottQueue (Addr Slot Node nullWord)

section Memory

/-- The members of the stack and its nodes. `new` takes the addresses in turn; no node is freed
before the destructor. The counters of the words are those of all exchanges. -/
structure Shared (V : Type) where
  nodes : Addr → Node V := fun _ => {}
  allocated : Nat := 0
  top : Tagged := nullWord
  freeHead : Tagged := nullWord
  size : UInt64 := 0

namespace Shared
variable {V : Type}

def setNext (s : Shared V) (node : Addr) (next : Tagged) : Shared V :=
  { s with nodes := Function.update s.nodes node { s.nodes node with next := next } }

def setValue (s : Shared V) (node : Addr) (value : Slot V) : Shared V :=
  { s with nodes := Function.update s.nodes node { s.nodes node with value := value } }

def nextOf (s : Shared V) (node : Addr) : Addr := (s.nodes node).next.ptr

def valueOf (s : Shared V) (node : Addr) : Slot V := (s.nodes node).value

/-- The values in the nodes reachable from `top_`, the top first. -/
def contents (s : Shared V) : List (Option V) :=
  (walk s.nextOf 0 s.allocated s.top.ptr).map (fun node => (s.valueOf node).content)

end Shared

end Memory

section Program

/-- What the caller of `push_free_node` does after it. -/
inductive After (V : Type) where
  | rethrow
  | deliver (value : Option V)
  | retry

/-- Where a thread stands: before one access to shared memory, with the locals
it still uses. -/
inductive Pc (V : Type) where
  | idle
  -- `pop_free_node`, and `new Node()` when the pool is empty
  | popLoad (value : V)
  | popNext (value : V) (oldHead : Tagged)
  | popExchange (value : V) (oldHead next : Tagged)
  | popReset (value : V) (node : Addr)
  -- `push`; `emplace` empties the optional before it constructs the value
  | emplace (value : V) (node : Addr)
  | construct (value : V) (node : Addr)
  | loadTop (value : V) (node : Addr)
  | storeNext (value : V) (node : Addr) (oldTop : Tagged)
  | link (value : V) (node : Addr) (oldTop : Tagged)
  | countUp (value : V)
  -- `push_free_node`
  | pushLoad (node : Addr) (after : After V)
  | pushStore (node : Addr) (oldHead : Tagged) (after : After V)
  | pushExchange (node : Addr) (oldHead : Tagged) (after : After V)
  -- `try_pop`
  | loadOldTop
  | loadNext (oldTop : Tagged)
  | countDown (value : Option V)
  -- copyable types: the copy comes before the exchange
  | checkValue (oldTop next : Tagged)
  | copyValue (oldTop next : Tagged)
  | takeCopied (oldTop next : Tagged) (value : Option V)
  -- move-only types: the exchange comes first
  | takeUnread (oldTop next : Tagged)
  | recheckValue (node : Addr)
  | moveValue (node : Addr)

/-- A call that took effect, with its value. -/
inductive Event (V : Type) where
  | pushed (value : V)
  | popped (value : Option V)
  | missed
deriving DecidableEq

/-- A thread, with its calls that have returned. -/
structure Thread (V : Type) where
  pc : Pc V := .idle
  calls : List (Event V) := []

variable {V : Type}

def Thread.goto (t : Thread V) (pc : Pc V) : Thread V := { t with pc := pc }

def Thread.finish (t : Thread V) (event : Event V) : Thread V := ⟨.idle, t.calls ++ [event]⟩

/-- A word holds 16 bits of its counter above the pointer. -/
def tagBits : Nat := 16

/-- `compare_exchange_weak` finds the word it expects. -/
def matching (fail : Bool) (word expected : Tagged) : Bool :=
  !fail && decide (word.packed tagBits = expected.packed tagBits)

/-- The start of an iteration of `try_pop`. -/
def tryPop (t : Thread V) (oldTop : Tagged) : Thread V :=
  if oldTop.ptr = 0 then t.finish .missed else t.goto (.loadNext oldTop)

/-- A thread's next access. With `fail` a `compare_exchange_weak` fails for no
reason, and the constructor of the value throws. -/
def advance (copyable : Bool) (s : Shared V) (t : Thread V) (fail : Bool) :
    Shared V × Thread V :=
  match t.pc with
  | .idle => (s, t)
  | .popLoad value => (s, t.goto (.popNext value s.freeHead))
  | .popNext value oldHead =>
    if oldHead.ptr = 0 then
      ({ s with
          allocated := s.allocated + 1
          nodes := Function.update s.nodes (s.allocated + 1) {} },
        t.goto (.emplace value (s.allocated + 1)))
    else (s, t.goto (.popExchange value oldHead (s.nodes oldHead.ptr).next))
  | .popExchange value oldHead next =>
    if matching fail s.freeHead oldHead then
      ({ s with freeHead := ⟨next.ptr, s.freeHead.tag + 1⟩ },
        t.goto (.popReset value oldHead.ptr))
    else (s, t.goto (.popNext value s.freeHead))
  | .popReset value node => (s.setNext node nullWord, t.goto (.emplace value node))
  | .emplace value node => (s.setValue node .empty, t.goto (.construct value node))
  | .construct value node =>
    if fail then (s, t.goto (.pushLoad node .rethrow))
    else (s.setValue node (.full value), t.goto (.loadTop value node))
  | .loadTop value node => (s, t.goto (.storeNext value node s.top))
  | .storeNext value node oldTop =>
    (s.setNext node oldTop, t.goto (.link value node oldTop))
  | .link value node oldTop =>
    if matching fail s.top oldTop then
      ({ s with top := ⟨node, s.top.tag + 1⟩ }, t.goto (.countUp value))
    else (s, t.goto (.storeNext value node s.top))
  | .countUp value => ({ s with size := s.size + 1 }, t.finish (.pushed value))
  | .pushLoad node after => (s, t.goto (.pushStore node s.freeHead after))
  | .pushStore node oldHead after =>
    (s.setNext node oldHead, t.goto (.pushExchange node oldHead after))
  | .pushExchange node oldHead after =>
    if matching fail s.freeHead oldHead then
      ({ s with freeHead := ⟨node, s.freeHead.tag + 1⟩ }, t.goto (match after with
        | .rethrow => .idle
        | .deliver value => .countDown value
        | .retry => .loadOldTop))
    else (s, t.goto (.pushStore node s.freeHead after))
  | .loadOldTop => (s, tryPop t s.top)
  | .loadNext oldTop =>
    let next := (s.nodes oldTop.ptr).next
    (s, t.goto (if copyable then .checkValue oldTop next else .takeUnread oldTop next))
  | .countDown value => ({ s with size := s.size - 1 }, t.finish (.popped value))
  | .checkValue oldTop next =>
    if (s.valueOf oldTop.ptr).hasValue then (s, t.goto (.copyValue oldTop next))
    else (s, t.goto .loadOldTop)
  | .copyValue oldTop next =>
    (s, t.goto (.takeCopied oldTop next (s.valueOf oldTop.ptr).content))
  | .takeCopied oldTop next value =>
    if matching fail s.top oldTop then
      ({ s with top := ⟨next.ptr, s.top.tag + 1⟩ },
        t.goto (.pushLoad oldTop.ptr (.deliver value)))
    else (s, tryPop t s.top)
  | .takeUnread oldTop next =>
    if matching fail s.top oldTop then
      ({ s with top := ⟨next.ptr, s.top.tag + 1⟩ }, t.goto (.recheckValue oldTop.ptr))
    else (s, tryPop t s.top)
  | .recheckValue node =>
    if (s.valueOf node).hasValue then (s, t.goto (.moveValue node))
    else (s, t.goto (.pushLoad node .retry))
  | .moveValue node =>
    (s.setValue node .movedFrom, t.goto (.pushLoad node (.deliver (s.valueOf node).content)))

/-- A thread is told to start a call, or to make its next access. -/
inductive Move (V : Type) where
  | push (value : V)
  | tryPop
  | access (fail : Bool)

/-- A call starts only where none is in progress. -/
def step (copyable : Bool) (s : Shared V) (t : Thread V) : Move V → Shared V × Thread V
  | .push value =>
    match t.pc with
    | .idle => (s, t.goto (.popLoad value))
    | _ => (s, t)
  | .tryPop =>
    match t.pc with
    | .idle => (s, t.goto .loadOldTop)
    | _ => (s, t)
  | .access fail => advance copyable s t fail

abbrev System (n : Nat) (V : Type) := Config (Fin n) (Shared V) (Thread V)

/-- A new stack and its idle threads. -/
def start (n : Nat) (V : Type) : System n V := ⟨{}, fun _ => {}⟩

end Program

end Cppforge.Concurrent.TreiberStack
