import Mathlib

/-!
# The slot table of the default scheduler

`add_list_of_handlers` spreads the poll handlers over the 64 slots of a table by their weights. The
weights and their total are `unsigned int`s.
-/

namespace Reconverse.Scheduler

/-- `SCHED_TABLE_SIZE`. -/
def schedTableSize : Nat := 64

/-- The poll handlers of the default build, and the one in slots that no handler gets. -/
inductive Poll where
  | noWork
  | converseThreadQueue
  | nodePrioQueue
  | threadPrioQueue
  | progress
  deriving DecidableEq, Repr

/-- `unsigned int` arithmetic. -/
def unsigned32 (n : Nat) : Nat := n % 2 ^ 32

/-- `lround(weight * SCHED_TABLE_SIZE / (double) total)`, and at least 1. The operands are below
`2 ^ 32`, so that the quotient is not close enough to a half for its rounding to a `double` to
matter (`normalized_eq_lround`). -/
def normalized (total weight : Nat) : Nat :=
  max 1 ((2 * unsigned32 (weight * schedTableSize) + total) / (2 * total))

/-- `max_element`: the position of the first largest element. -/
def maxElement (slots : List Nat) : Nat := slots.idxOf (slots.foldl max 0)

/-- The loop that takes slots from the handler with the most, as long as there are too many. -/
def trim : Nat → List Nat → List Nat
  | 0, slots => slots
  | excess + 1, slots =>
    let largest := maxElement slots
    if slots.getD largest 0 ≤ 1 then slots
    else trim excess (slots.modify largest (· - 1))

variable {Fn : Type}

/-- The first slot from `index` on that is not assigned, if it is among the next `fuel`. -/
def nextEmpty (table : List (Option Fn)) : Nat → Nat → Nat
  | 0, index => index
  | fuel + 1, index =>
    if (table.getD index none).isSome then nextEmpty table fuel ((index + 1) % schedTableSize)
    else index

/-- The loop that gives a handler its slots, `step` apart where they are free. -/
def assign (fn : Fn) (step : Nat) :
    Nat → Nat → List (Option Fn) → List (Option Fn)
  | 0, _, table => table
  | remaining + 1, index, table =>
    if table.countP (·.isSome) ≥ schedTableSize then table
    else
      let index := nextEmpty table schedTableSize index
      assign fn step remaining ((index + step) % schedTableSize) (table.set index (some fn))

/-- The loop over the handlers. -/
def assignAll : Nat → List (Fn × Nat) → List (Option Fn) → List (Option Fn)
  | _, [], table => table
  | current, (fn, slots) :: rest, table =>
    assignAll ((current + 1) % schedTableSize) rest
      (assign fn (schedTableSize / slots) slots current table)

/-- `add_list_of_handlers`. Without weights there is no table. -/
def addListOfHandlers (pollNoWork : Fn) (handlers : List (Fn × Nat)) : Option (List Fn) :=
  let total := unsigned32 (handlers.map Prod.snd).sum
  if total = 0 then none
  else
    let slots := handlers.map fun handler => normalized total handler.2
    let slots := trim (slots.sum - schedTableSize) slots
    let table := assignAll 0 ((handlers.map Prod.fst).zip slots)
      (List.replicate schedTableSize none)
    some (table.map (·.getD pollNoWork))

/-- `CmiQueueRegisterInitThread`. -/
def cmiQueueRegisterInitThread (backendPollFreq : Nat) : Option (List Poll) :=
  addListOfHandlers .noWork [(.converseThreadQueue, 16), (.nodePrioQueue, 1),
  (.threadPrioQueue, 16),
    (.progress, backendPollFreq)]

end Reconverse.Scheduler
