import Mathlib

/-!
# A queue with a count of its own

`AtomicAccessControl` with a single consumer, the thread queue of a PE. A producer enqueues its
message and then adds one to `pushed`, and the consumer looks at the queue only if `pushed` is ahead
of `taken`. The messages of different producers may overtake each other: the consumer may take a
message whose producer has not added to `pushed` yet, on account of another one.
-/

namespace Reconverse.Scheduler

/-- The messages in the queue whose producers have added to `pushed` (`counted`) and those whose
producers still have to (`uncounted`), the messages that were taken before that (`early`), and the
three counters. -/
structure AtomicQueue where
  counted : Nat
  uncounted : Nat
  early : Nat
  pushed : Nat
  taken : Nat
  credit : Nat
  balance : pushed + early = taken + counted
  credit_le : taken + credit ≤ pushed
  deriving DecidableEq

namespace AtomicQueue

variable (q : AtomicQueue)

/-- The queue with `n` messages, all of them counted. -/
def ofCount (n : Nat) : AtomicQueue where
  counted := n
  uncounted := 0
  early := 0
  pushed := n
  taken := 0
  credit := 0
  balance := by omega
  credit_le := Nat.zero_le n

/-- `available`. -/
def available : Nat := if 0 < q.credit then q.credit else q.pushed - q.taken

/-- `empty`. -/
def empty : Prop := q.available = 0

instance : Decidable q.empty := inferInstanceAs (Decidable (_ = _))

/-- The first half of `push`. -/
def enqueue : AtomicQueue := { q with uncounted := q.uncounted + 1 }

/-- The second half of `push`, for a message that is still in the queue. -/
def count : AtomicQueue :=
  if 0 < q.uncounted then
    { q with
      counted := q.counted + 1
      uncounted := q.uncounted - 1
      pushed := q.pushed + 1
      balance := by have := q.balance; omega
      credit_le := by have := q.credit_le; omega }
  else q

/-- The second half of `push`, for a message that was taken early. -/
def countEarly : AtomicQueue :=
  if h : 0 < q.early then
    { q with
      early := q.early - 1
      pushed := q.pushed + 1
      balance := by have := q.balance; omega
      credit_le := by have := q.credit_le; omega }
  else q

theorem available_le : q.available ≤ q.pushed - q.taken := by
  have := q.credit_le
  rw [available]
  split
  · omega
  · exact Nat.le_refl _

/-- The queue is empty for the consumer if all that was counted is taken. -/
theorem empty_iff : q.empty ↔ q.pushed = q.taken := by
  have := q.credit_le
  rw [empty, available]
  split
  · omega
  · omega

/-- If the queue is not empty for the consumer, a completely pushed message is in it. -/
theorem counted_pos (h : ¬ q.empty) : 0 < q.counted := by
  rw [empty_iff] at h
  have := q.balance
  have := q.credit_le
  omega

/-- `pop_result`. `early` says whether `try_dequeue` comes upon a message that is not counted
yet. -/
def popResult (early : Bool) : Option AtomicQueue :=
  if h : q.empty then none
  else if early = true ∧ 0 < q.uncounted then some
    { q with
      uncounted := q.uncounted - 1
      early := q.early + 1
      taken := q.taken + 1
      credit := q.available - 1
      balance := by have := q.balance; omega
      credit_le := by
        have hle := q.available_le
        rw [empty] at h
        omega }
  else some
    { q with
      counted := q.counted - 1
      taken := q.taken + 1
      credit := q.available - 1
      balance := by
        have := q.balance
        have := q.counted_pos h
        omega
      credit_le := by
        have hle := q.available_le
        rw [empty] at h
        omega }

end AtomicQueue

end Reconverse.Scheduler
