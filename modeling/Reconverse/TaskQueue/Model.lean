import Reconverse.Lib.CInt
import Reconverse.Lib.Ring
import Reconverse.Lib.Runs

/-!
# The task-stealing queue

`taskqueue.h`: one owner pushes and pops tasks at the tail of a queue, and thieves take them from
its head. Each read, write and compare-and-swap of the shared fields `head`, `tail` and `data` is a
step of its own, and the steps of the threads interleave in any order.

The indices are `int`s: one that grows past `INT_MAX` wraps to a negative number. C's `%` rounds
to zero, so that a negative index may have a negative remainder, which is no slot of `data`.
-/

namespace Reconverse.TaskQueue

open Lib
open Function (update)

/-- `TaskQueueSize`. -/
def taskQueueSize : Nat := 1024

instance : NeZero taskQueueSize := ⟨by decide⟩

/-- The slot `i % TaskQueueSize`, if the remainder is not negative. -/
def slotOf (i : Int) : Option (Fin taskQueueSize) :=
  if i.tmod taskQueueSize < 0 then none else some (Ring.slot taskQueueSize i)

/-- Where the owner is, with its local variables. `TaskQueuePush` goes from `pushData` to
`pushPublish`, `TaskQueuePop` from `popTail` on. -/
inductive Owner (τ : Type) where
  | idle
  | pushData (data : τ)
  | pushStore (data : τ) (tail : Int)
  | pushTail (data : τ)
  | pushPublish (data : τ) (tail : Int)
  | popTail
  | popClaim (t : Int)
  | popHead (t : Int)
  | popReset (h : Int)
  | popLast (t h : Int)
  | popCAS (t h : Int)
  | popTake (t : Int)
  deriving DecidableEq

/-- Where a thief is in `TaskQueueSteal`, with its local variables. -/
inductive Thief where
  | idle
  | readHead
  | readTail (h : Int)
  | cas (h : Int)
  | take (h : Int)
  deriving DecidableEq

/-- The queue, the owner and `n` thieves. `pushed` and `returned` log the tasks whose push has
completed and the tasks that a pop or a steal has returned. -/
structure State (τ : Type) (n : Nat) where
  head : Int
  tail : Int
  data : Fin taskQueueSize → τ
  owner : Owner τ
  thieves : Fin n → Thief
  pushed : List τ
  returned : List τ

variable {τ : Type} {n : Nat}

/-- `TaskQueueCreate`. The slots hold whatever was in the memory. -/
def taskQueueCreate (n : Nat) (garbage : Fin taskQueueSize → τ) : State τ n where
  head := 0
  tail := 0
  data := garbage
  owner := .idle
  thieves _ := .idle
  pushed := []
  returned := []

namespace State

/-- The next step of `TaskQueuePush` or `TaskQueuePop`. -/
def ownerStep (s : State τ n) : Option (State τ n) :=
  match s.owner with
  | .idle => none
  -- Q->data[Q->tail % TaskQueueSize] = data
  | .pushData data => some { s with owner := .pushStore data s.tail }
  | .pushStore data tail => (slotOf tail).map fun slot => { s with
      data := update s.data slot data, owner := .pushTail data }
  -- Q->tail += 1
  | .pushTail data => some { s with owner := .pushPublish data s.tail }
  | .pushPublish data tail => some { s with
      tail := CInt.int (tail + 1), owner := .idle, pushed := s.pushed ++ [data] }
  -- t = Q->tail - 1; Q->tail = t; h = Q->head
  | .popTail => some { s with owner := .popClaim (CInt.int (s.tail - 1)) }
  | .popClaim t => some { s with tail := t, owner := .popHead t }
  | .popHead t =>
    if t > s.head then some { s with owner := .popTake t }
    else if t < s.head then some { s with owner := .popReset s.head }
    else some { s with owner := .popLast t s.head }
  -- The last task was stolen.
  | .popReset h => some { s with tail := h, owner := .idle }
  -- One task is left, and thieves may try to get it too.
  | .popLast t h => some { s with tail := CInt.int (h + 1), owner := .popCAS t h }
  | .popCAS t h =>
    if s.head = h then some { s with head := CInt.int (h + 1), owner := .popTake t }
    else some { s with owner := .idle }
  | .popTake t => (slotOf t).map fun slot => { s with
      owner := .idle, returned := s.returned ++ [s.data slot] }

/-- Thief `i` is now at `p`. -/
def setThief (s : State τ n) (i : Fin n) (p : Thief) : State τ n :=
  { s with thieves := update s.thieves i p }

/-- The next step of `TaskQueueSteal` of thief `i`. -/
def thiefStep (s : State τ n) (i : Fin n) : Option (State τ n) :=
  match s.thieves i with
  | .idle => none
  | .readHead => some (s.setThief i (.readTail s.head))
  | .readTail h => some (s.setThief i (if h ≥ s.tail then .idle else .cas h))
  | .cas h =>
    if s.head = h then some ({ s with head := CInt.int (h + 1) }.setThief i (.take h))
    else some (s.setThief i .readHead)
  | .take h => (slotOf h).map fun slot =>
    { s with returned := s.returned ++ [s.data slot] }.setThief i .idle

end State

/-- Calls, and steps of threads that are in a call. -/
inductive Event (τ : Type) (n : Nat) where
  | push (data : τ)
  | pop
  | owner
  | steal (i : Fin n)
  | thief (i : Fin n)

/-- One event. -/
def State.step (s : State τ n) : Event τ n → Option (State τ n)
  | .push data =>
    match s.owner with
    | .idle => some { s with owner := .pushData data }
    | _ => none
  | .pop =>
    match s.owner with
    | .idle => some { s with owner := .popTail }
    | _ => none
  | .owner => s.ownerStep
  | .steal i => if s.thieves i = .idle then some (s.setThief i .readHead) else none
  | .thief i => s.thiefStep i

/-- `s` goes to `s'` by the event. -/
def Step (s : State τ n) (e : Event τ n) (s' : State τ n) : Prop := s.step e = some s'

end Reconverse.TaskQueue
