import Mathlib

/-!
# The queues of a PE

The queues that the scheduler loops take messages from, with the takes of `scheduler_take.h`. The
thread queue and the node queue are FIFO, and only the number of their messages matters here. The
two priority queues are the lists of the priorities of their messages, in the order in which they
come out. Other PEs, the network and the handlers that run push to the queues, and the other PEs of
the process take from the two node queues (`Traffic`).
-/

namespace Reconverse.Scheduler

/-- The thread queue (`CmiGetQueue`), the node queue (`CmiGetNodeQueue`), the node priority queue
(`CsdNodeQueue`) and the PE's own priority queue (`CsdSchedQueue`). -/
structure Queues where
  threadQueue : Nat
  nodeQueue : Nat
  csdNodeQueue : List Int
  csdSchedQueue : List Int
  deriving DecidableEq, Repr

/-- What others do to the queues. -/
inductive Traffic where
  | thread
  | node
  | nodePrio (priority : Int)
  | sched (priority : Int)
  | otherTakesNode
  | otherTakesNodePrio
  deriving DecidableEq, Repr

/-- `QueuePush`: smaller priorities come out first. -/
def queuePush (q : List Int) (priority : Int) : List Int := q.orderedInsert (· ≤ ·) priority

/-- `QueueTopPriority`, with `LLONG_MAX` for an empty queue. -/
def queueTopPriority (q : List Int) : Int := q.headD (2 ^ 63 - 1)

namespace Queues

variable (q : Queues)

/-- The queues after a push or a take by others. -/
def after : Traffic → Queues
  | .thread => { q with threadQueue := q.threadQueue + 1 }
  | .node => { q with nodeQueue := q.nodeQueue + 1 }
  | .nodePrio priority => { q with csdNodeQueue := queuePush q.csdNodeQueue priority }
  | .sched priority => { q with csdSchedQueue := queuePush q.csdSchedQueue priority }
  | .otherTakesNode => { q with nodeQueue := q.nodeQueue - 1 }
  | .otherTakesNodePrio => { q with csdNodeQueue := q.csdNodeQueue.tail }

/-- `CmiTakeNodeQueue`. -/
def cmiTakeNodeQueue : Option Queues :=
  match q.nodeQueue with
  | 0 => none
  | n + 1 => some { q with nodeQueue := n }

/-- `CmiTakeThreadQueue`. -/
def cmiTakeThreadQueue : Option Queues :=
  match q.threadQueue with
  | 0 => none
  | n + 1 => some { q with threadQueue := n }

/-- `CmiTakeNodePrioQueue`. `lock` says whether `CmiTryLock` gets the lock of the queue. -/
def cmiTakeNodePrioQueue (lock : Bool) : Option Queues :=
  match lock, q.csdNodeQueue with
  | true, _ :: rest => some { q with csdNodeQueue := rest }
  | _, _ => none

/-- `CmiTakeNodePrioQueueIfAhead`: only a message whose priority is at least as high as that of the
PE's own next message. -/
def cmiTakeNodePrioQueueIfAhead (lock : Bool) : Option Queues :=
  match lock, q.csdNodeQueue with
  | true, priority :: rest =>
    if priority ≤ queueTopPriority q.csdSchedQueue then some { q with csdNodeQueue := rest }
    else none
  | _, _ => none

/-- `CmiTakeThreadPrioQueue`. -/
def cmiTakeThreadPrioQueue : Option Queues :=
  match q.csdSchedQueue with
  | [] => none
  | _ :: rest => some { q with csdSchedQueue := rest }

end Queues

end Reconverse.Scheduler
