import Cppforge.Lib.Interleave
import Cppforge.Lib.Links

namespace Cppforge.Concurrent.MichaelScottQueue
open Interleave Links

section Memory

/-- Addresses of nodes; 0 is `nullptr`. -/
abbrev Addr := Nat

/-- The word 0. -/
def nullWord : Tagged := ⟨0, 0⟩

/-- `std::optional<T>`. Moving out of it leaves it engaged. -/
inductive Slot (V : Type) where
  | empty
  | full (value : V)
  | movedFrom
deriving DecidableEq

namespace Slot
variable {V : Type}

def hasValue : Slot V → Bool
  | empty => false
  | _ => true

/-- What `*value` gives; `none` stands for a moved-from or indeterminate object. -/
def content : Slot V → Option V
  | full value => some value
  | _ => none

end Slot

structure Node (V : Type) where
  value : Slot V := .empty
  next : Tagged := nullWord

/-- The members of the queue and its nodes. `new` takes the addresses in turn;
no node is freed before the destructor. -/
structure Shared (V : Type) where
  nodes : Addr → Node V
  allocated : Nat
  head : Tagged
  tail : Tagged
  freeHead : Tagged
  size : UInt64

/-- The constructor: one dummy node. -/
def create (V : Type) : Shared V where
  nodes := fun _ => {}
  allocated := 1
  head := ⟨1, 0⟩
  tail := ⟨1, 0⟩
  freeHead := nullWord
  size := 0

namespace Shared
variable {V : Type}

def setNext (s : Shared V) (node : Addr) (next : Tagged) : Shared V :=
  { s with nodes := Function.update s.nodes node { s.nodes node with next := next } }

def setValue (s : Shared V) (node : Addr) (value : Slot V) : Shared V :=
  { s with nodes := Function.update s.nodes node { s.nodes node with value := value } }

def nextOf (s : Shared V) (node : Addr) : Addr := (s.nodes node).next.ptr

def valueOf (s : Shared V) (node : Addr) : Slot V := (s.nodes node).value

/-- The nodes reachable from `head_`. -/
def reachable (s : Shared V) : List Addr := walk s.nextOf 0 (s.allocated + 1) s.head.ptr

/-- The values in the nodes reachable from `head_`, without its own, the dummy's. -/
def contents (s : Shared V) : List (Option V) :=
  s.reachable.tail.map (fun node => (s.valueOf node).content)

end Shared

end Memory

section Program

/-- What the caller of `push_free_node` does after it. -/
inductive After (V : Type) where
  | rethrow
  | deliver (value : Option V)

/-- Where a thread stands: before one access to shared memory, with the locals
it still uses. -/
inductive Pc (V : Type) where
  | idle
  -- `pop_free_node`, and `new Node()` when the pool is empty
  | popLoad (value : V)
  | popNext (value : V) (oldHead : Tagged)
  | popExchange (value : V) (oldHead next : Tagged)
  | popReset (value : V) (node : Addr)
  -- `enqueue`; `emplace` empties the optional before it constructs the value
  | emplace (value : V) (node : Addr)
  | construct (value : V) (node : Addr)
  | loadTail (value : V) (node : Addr)
  | loadTailNext (value : V) (node : Addr) (tail : Tagged)
  | checkTail (value : V) (node : Addr) (tail next : Tagged)
  | link (value : V) (node : Addr) (tail : Tagged)
  | countUp (value : V) (node : Addr) (tail : Tagged)
  | swingTail (value : V) (node : Addr) (tail : Tagged)
  | helpEnqueue (value : V) (node : Addr) (tail next : Tagged)
  -- `push_free_node`
  | pushLoad (node : Addr) (after : After V)
  | pushStore (node : Addr) (oldHead : Tagged) (after : After V)
  | pushExchange (node : Addr) (oldHead : Tagged) (after : After V)
  -- `try_dequeue`
  | loadHead
  | loadHeadTail (head : Tagged)
  | loadHeadNext (head tail : Tagged)
  | checkHead (head tail next : Tagged)
  | helpDequeue (tail next : Tagged)
  | countDown (value : Option V)
  -- copyable types: the copy comes before the exchange
  | checkValue (head next : Tagged)
  | copyValue (head next : Tagged)
  | takeCopied (head next : Tagged) (value : Option V)
  -- move-only types: the exchange comes first
  | takeUnread (head next : Tagged)
  | recheckValue (head next : Tagged)
  | moveValue (head next : Tagged)

/-- A thread, with the values of its calls of `enqueue` that have returned and the
values its calls of `try_dequeue` have returned. -/
structure Thread (V : Type) where
  pc : Pc V := .idle
  enqueued : List V := []
  returned : List (Option V) := []

variable {V : Type}

def Thread.goto (t : Thread V) (pc : Pc V) : Thread V := { t with pc := pc }

/-- A thread's next access. With `fail` a `compare_exchange_weak` fails for no
reason, and the constructor of the value throws. -/
def advance (copyable : Bool) (s : Shared V) (t : Thread V) (fail : Bool) :
    Shared V × Thread V :=
  match t.pc with
  | .idle => (s, t)
  | .popLoad value => (s, t.goto (.popNext value s.freeHead))
  | .popNext value oldHead =>
    if oldHead.ptr = 0 then
      ({ s with
          allocated := s.allocated + 1
          nodes := Function.update s.nodes (s.allocated + 1) {} },
        t.goto (.emplace value (s.allocated + 1)))
    else (s, t.goto (.popExchange value oldHead (s.nodes oldHead.ptr).next))
  | .popExchange value oldHead next =>
    if !fail && s.freeHead = oldHead then
      ({ s with freeHead := ⟨next.ptr, oldHead.tag + 1⟩ }, t.goto (.popReset value oldHead.ptr))
    else (s, t.goto (.popNext value s.freeHead))
  | .popReset value node => (s.setNext node nullWord, t.goto (.emplace value node))
  | .emplace value node => (s.setValue node .empty, t.goto (.construct value node))
  | .construct value node =>
    if fail then (s, t.goto (.pushLoad node .rethrow))
    else (s.setValue node (.full value), t.goto (.loadTail value node))
  | .loadTail value node => (s, t.goto (.loadTailNext value node s.tail))
  | .loadTailNext value node tail =>
    (s, t.goto (.checkTail value node tail (s.nodes tail.ptr).next))
  | .checkTail value node tail next =>
    if tail = s.tail then
      if next.ptr = 0 then (s, t.goto (.link value node tail))
      else (s, t.goto (.helpEnqueue value node tail next))
    else (s, t.goto (.loadTail value node))
  | .link value node tail =>
    if !fail && (s.nodes tail.ptr).next = nullWord then
      (s.setNext tail.ptr ⟨node, 0⟩, t.goto (.countUp value node tail))
    else (s, t.goto (.loadTail value node))
  | .countUp value node tail =>
    ({ s with size := s.size + 1 }, t.goto (.swingTail value node tail))
  | .swingTail value node tail =>
    (if !fail && s.tail = tail then { s with tail := ⟨node, tail.tag + 1⟩ } else s,
      { t with pc := .idle, enqueued := t.enqueued ++ [value] })
  | .helpEnqueue value node tail next =>
    (if !fail && s.tail = tail then { s with tail := ⟨next.ptr, tail.tag + 1⟩ } else s,
      t.goto (.loadTail value node))
  | .pushLoad node after => (s, t.goto (.pushStore node s.freeHead after))
  | .pushStore node oldHead after =>
    (s.setNext node oldHead, t.goto (.pushExchange node oldHead after))
  | .pushExchange node oldHead after =>
    if !fail && s.freeHead = oldHead then
      ({ s with freeHead := ⟨node, oldHead.tag + 1⟩ }, t.goto (match after with
        | .rethrow => .idle
        | .deliver value => .countDown value))
    else (s, t.goto (.pushStore node s.freeHead after))
  | .loadHead => (s, t.goto (.loadHeadTail s.head))
  | .loadHeadTail head => (s, t.goto (.loadHeadNext head s.tail))
  | .loadHeadNext head tail => (s, t.goto (.checkHead head tail (s.nodes head.ptr).next))
  | .checkHead head tail next =>
    if head = s.head then
      if head.ptr = tail.ptr then
        if next.ptr = 0 then (s, t.goto .idle) else (s, t.goto (.helpDequeue tail next))
      else if copyable then (s, t.goto (.checkValue head next))
      else (s, t.goto (.takeUnread head next))
    else (s, t.goto .loadHead)
  | .helpDequeue tail next =>
    (if !fail && s.tail = tail then { s with tail := ⟨next.ptr, tail.tag + 1⟩ } else s,
      t.goto .loadHead)
  | .countDown value =>
    ({ s with size := s.size - 1 },
      { t with pc := .idle, returned := t.returned ++ [value] })
  | .checkValue head next =>
    if (s.valueOf next.ptr).hasValue then (s, t.goto (.copyValue head next))
    else (s, t.goto .loadHead)
  | .copyValue head next =>
    (s, t.goto (.takeCopied head next (s.valueOf next.ptr).content))
  | .takeCopied head next value =>
    if !fail && s.head = head then
      ({ s with head := ⟨next.ptr, head.tag + 1⟩ }, t.goto (.pushLoad head.ptr (.deliver value)))
    else (s, t.goto .loadHead)
  | .takeUnread head next =>
    if !fail && s.head = head then
      ({ s with head := ⟨next.ptr, head.tag + 1⟩ }, t.goto (.recheckValue head next))
    else (s, t.goto .loadHead)
  | .recheckValue head next =>
    if (s.valueOf next.ptr).hasValue then (s, t.goto (.moveValue head next))
    else (s, t.goto .loadHead)
  | .moveValue head next =>
    (s.setValue next.ptr .movedFrom,
      t.goto (.pushLoad head.ptr (.deliver (s.valueOf next.ptr).content)))

/-- A thread is told to start a call, or to make its next access. -/
inductive Move (V : Type) where
  | enqueue (value : V)
  | tryDequeue
  | access (fail : Bool)

/-- A call starts only where none is in progress. -/
def step (copyable : Bool) (s : Shared V) (t : Thread V) : Move V → Shared V × Thread V
  | .enqueue value =>
    match t.pc with
    | .idle => (s, t.goto (.popLoad value))
    | _ => (s, t)
  | .tryDequeue =>
    match t.pc with
    | .idle => (s, t.goto .loadHead)
    | _ => (s, t)
  | .access fail => advance copyable s t fail

abbrev Queue (n : Nat) (V : Type) := Config (Fin n) (Shared V) (Thread V)

/-- A new queue and its idle threads. -/
def start (n : Nat) (V : Type) : Queue n V := ⟨create V, fun _ => {}⟩

end Program

end Cppforge.Concurrent.MichaelScottQueue
