import Mathlib

/-!
# What a transfer is

A transfer copies a number of bytes from one process to another and is acknowledged once. It goes
through its phases in order: its bytes are taken from the source, they are put in place, and it is
acknowledged. Nothing but these steps, and the writes of the program, changes memory. Steps of
different transfers interleave in any order.
-/

namespace Reconverse.Rdma

open Function (update)

/-! ## Memory -/

/-- The memory of a process. -/
abbrev Memory := Nat → UInt8

/-- The `len` bytes at `ptr`. -/
def Memory.read (mem : Memory) (ptr len : Nat) : List UInt8 := (List.range len).map fun i =>
    mem (ptr + i)

/-- The memory with `bytes` at `ptr`; all other bytes are as they were. -/
def Memory.write (mem : Memory) (ptr : Nat) (bytes : List UInt8) : Memory := fun a =>
  if ptr ≤ a then bytes.getD (a - ptr) (mem a) else mem a

/-- The first of the bytes that are read. -/
theorem take_read (mem : Memory) (ptr len n : Nat) :
    (mem.read ptr len).take n = mem.read ptr (min n len) := by
  rw [Memory.read, Memory.read, ← List.map_take, List.take_range]

/-! ## Transfers -/

/-- What is copied from where to where, and the PE that is told of it. -/
structure Transfer where
  srcNode : Nat
  srcPtr : Nat
  destNode : Nat
  destPtr : Nat
  len : Nat
  ackPe : Nat
  deriving DecidableEq, Repr

/-- How far a transfer is. -/
inductive Phase where
  | issued
  | taken (bytes : List UInt8)
  | placed
  | acked
  deriving DecidableEq, Repr

namespace Spec

/-- The transfers so far. -/
structure State where
  mem : Nat → Memory
  ops : List Transfer
  phase : Nat → Phase
  /-- The acknowledgements in order: the transfer, and the PE on which it was acknowledged. -/
  acks : List (Nat × Nat)

inductive Event where
  | write (node a : Nat) (b : UInt8)
  | issue (tr : Transfer)
  | take (i : Nat)
  | place (i : Nat)
  | ack (i : Nat)
  deriving DecidableEq, Repr

def initial (mem : Nat → Memory) : State := ⟨mem, [], fun _ => .issued, []⟩

/-- The program writes a byte, or a transfer is issued or gets on. -/
inductive Step : State → Event → State → Prop where
  | write {a : State} (node x : Nat) (b : UInt8) :
      Step a (.write node x b) { a with mem := update a.mem node (update (a.mem node) x b) }
  | issue {a : State} (tr : Transfer) : Step a (.issue tr) { a with ops := a.ops ++ [tr] }
  | take {a : State} {i : Nat} {tr : Transfer} : a.ops[i]? = some tr → a.phase i = .issued →
      Step a (.take i)
        { a with phase := update a.phase i (.taken ((a.mem tr.srcNode).read tr.srcPtr tr.len)) }
  | place {a : State} {i : Nat} {tr : Transfer} {bytes : List UInt8} :
      a.ops[i]? = some tr → a.phase i = .taken bytes →
      Step a (.place i)
        { a with
          mem := update a.mem tr.destNode ((a.mem tr.destNode).write tr.destPtr bytes)
          phase := update a.phase i .placed }
  | ack {a : State} {i : Nat} {tr : Transfer} : a.ops[i]? = some tr → a.phase i = .placed →
      Step a (.ack i)
        { a with phase := update a.phase i .acked, acks := a.acks ++ [(i, tr.ackPe)] }

end Spec

end Reconverse.Rdma
