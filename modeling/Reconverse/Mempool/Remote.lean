import Reconverse.Mempool.Links

/-!
# Frees by other threads

The owner of a pool calls `mempool_malloc` and `mempool_free_thread` under the lock of the pool;
other threads free its blocks with `mempool_free_remote`. They push a block on the `remote_free`
stack, which is linked through the first words of the blocks, and the owner takes the whole stack
with one exchange and frees the blocks one after the other (`take_remote_frees`).

Every load, store, compare-and-swap and exchange of `remote_free` is one step, and so is every
store into a block and every call of `mempool_free`. Between two steps of the owner it holds the
lock, and other threads do not take it. `mempool_large_malloc` is a part of `mempool_malloc`, its
only caller.
-/

namespace Reconverse.Mempool

open Function (update)
open Lib

/-! ## States -/

/-- A call of the owner. -/
inductive Call where
  | malloc (size : Nat) (expand : Bool)
  | freeThread (ptr : Int)
  deriving DecidableEq, Repr

/-- Where the owner is in a call. -/
inductive Owner where
  | idle
  /-- Before `remote_free_peek`. -/
  | peek (call : Call)
  /-- Before `remote_free_take`. -/
  | take (call : Call)
  /-- At the head of the loop of `take_remote_frees`, with `p`. -/
  | loop (call : Call) (p : Int)
  /-- In the loop, before `mempool_free` of `p`. -/
  | free (call : Call) (p next : Int)
  /-- After `take_remote_frees`. -/
  | rest (call : Call)
  deriving DecidableEq, Repr

/-- Where a thread is in `mempool_free_remote` of `ptr`: before the store into the block, or before
the compare-and-swap. -/
inductive Pusher where
  | store (ptr head : Int)
  | cas (ptr head : Int)
  deriving DecidableEq, Repr

/-- The block that a thread frees. -/
def Pusher.ptr : Pusher → Int
  | .store ptr _ => ptr
  | .cas ptr _ => ptr

/-- A pool that several threads use. Null is offset 0, where the pool itself is. -/
structure Shared where
  state : State
  remoteFree : Int
  owner : Owner
  pusher : Nat → Option Pusher
  /-- Ghost state: the allocations that the program has and has not freed. -/
  program : List Int
  /-- Ghost state: the blocks on the stack, and those taken from it and not freed yet. -/
  stack : List Int
  walk : List Int
  /-- Ghost state: all blocks that were pushed, and all that `take_remote_frees` has passed to
  `mempool_free`. -/
  pushed : List Int
  freed : List Int
  /-- Ghost state: what `mempool_free_remote` has stored into a block. -/
  stored : Int → Int

/-! ## Steps -/

/-- A field of `n` bytes at offset `k` of the header at `y` has a byte of the word at `ptr`. -/
def overlaps (ptr y : Int) (k n : Nat) : Bool := decide (y + k < ptr + 8 ∧ ptr < y + k + n)

/-- `*(void**)ptr_free = head`. Headers that the memory of the block might hold get arbitrary
fields. -/
def storeLink (mem junk : Slots) (ptr head : Int) : Slots where
  blockPtr y := if overlaps ptr y 0 8 then junk.blockPtr y else mem.blockPtr y
  size y := if overlaps ptr y 8 8 then junk.size y else mem.size y
  power y := if overlaps ptr y 16 4 then junk.power y else mem.power y
  status y := if overlaps ptr y 20 4 then junk.status y else mem.status y
  gprev y := if overlaps ptr y 24 8 then junk.gprev y else mem.gprev y
  gnext y := if overlaps ptr y 32 8 then junk.gnext y else mem.gnext y
  prev y := if overlaps ptr y 40 8 then junk.prev y else mem.prev y
  next y :=
    if y = ptr - sizeofUsedHeader then head
    else if overlaps ptr y 48 8 then junk.next y else mem.next y

/-- The slot headers of the pool change. -/
def State.setSlots (s : State) (mem : Slots) : State :=
  { s with pool := { s.pool with slots := mem } }

/-- A thread starts `mempool_free_remote`, goes on in it, or fails or makes its compare-and-swap;
the owner starts a call or goes on in it; the program writes into its memory. `newblock` is what
`newblockfn` returns if it is called. -/
inductive SharedEvent where
  | push (t : Nat) (ptr : Int)
  | store (t : Nat) (junk : Slots)
  | cas (t : Nat) (spurious : Bool)
  | call (c : Call)
  | owner (newblock : Option Range)
  | write (junk : Slots)

namespace Shared

variable (s : Shared)

/-- `mempool_free_remote`, up to the load of `remote_free`. -/
def freeRemote (t : Nat) (ptr : Int) : Option Shared :=
  if (s.pusher t).isNone ∧ ptr ∈ s.program then
    some { s with
      pusher := update s.pusher t (some (.store ptr s.remoteFree))
      program := s.program.erase ptr }
  else none

/-- The body of the loop of `mempool_free_remote`. -/
def storeHead (t : Nat) (junk : Slots) : Option Shared :=
  match s.pusher t with
  | some (.store ptr head) =>
    some { s with
      state := s.state.setSlots (storeLink s.state.pool.slots junk ptr head)
      pusher := update s.pusher t (some (.cas ptr head))
      stored := update s.stored ptr head }
  | _ => none

/-- `remote_free_cas`, which is weak. -/
def remoteFreeCas (t : Nat) (spurious : Bool) : Option Shared :=
  match s.pusher t with
  | some (.cas ptr head) =>
    if s.remoteFree = head ∧ !spurious then
      some { s with
        remoteFree := ptr
        pusher := update s.pusher t none
        stack := ptr :: s.stack
        pushed := s.pushed ++ [ptr] }
    else some { s with pusher := update s.pusher t (some (.store ptr s.remoteFree)) }
  | _ => none

/-- The owner takes the lock. -/
def startCall (c : Call) : Option Shared :=
  if s.owner = .idle then
    match c with
    | .malloc _ _ => some { s with owner := .peek c }
    | .freeThread ptr =>
      if ptr ∈ s.program then some { s with owner := .peek c, program := s.program.erase ptr }
      else none
  else none

/-- The next step of the owner: `take_remote_frees`, and then its call. -/
def ownerStep (newblock : Option Range) : Option Shared :=
  match s.owner with
  | .idle => none
  | .peek c => some { s with owner := if s.remoteFree = 0 then .rest c else .take c }
  | .take c =>
    some { s with
      owner := .loop c s.remoteFree
      remoteFree := 0
      walk := s.walk ++ s.stack
      stack := [] }
  | .loop c p =>
    some { s with owner := if p = 0 then .rest c else .free c p (linkOf s.state.pool.slots p) }
  | .free c p next => do
    let (state, _) ← s.state.call (.free p)
    some { s with
      state := state
      owner := .loop c next
      walk := s.walk.erase p
      freed := s.freed ++ [p] }
  | .rest (.malloc size expand) => do
    let o ← mempoolMalloc s.state.pool size expand (newblock.map fun r => (r.base, r.size))
    if Allowed (s.state.owned.filter fun r => r.base ∉ o.removed.getD []) s.state.live
        (.malloc size expand newblock) then
      some { s with
        state := s.state.finish size o
        owner := .idle
        program := o.ptr.toList ++ s.program }
    else none
  | .rest (.freeThread ptr) => do
    let (state, _) ← s.state.call (.free ptr)
    some { s with state := state, owner := .idle }

/-- The pool with the allocations that the program has. -/
def mine : State := { s.state with live := s.state.live.filter fun a => a.base ∈ s.program }

/-- The state after an event. -/
def step : SharedEvent → Option Shared
  | .push t ptr => s.freeRemote t ptr
  | .store t junk => s.storeHead t junk
  | .cas t spurious => s.remoteFreeCas t spurious
  | .call c => s.startCall c
  | .owner newblock => s.ownerStep newblock
  | .write junk => some { s with state := s.state.setSlots (s.mine.scribble junk) }

/-- A pool that was just initialised. -/
def initial (pool : Pool) : Shared where
  state := .initial pool
  remoteFree := 0
  owner := .idle
  pusher _ := none
  program := []
  stack := []
  walk := []
  pushed := []
  freed := []
  stored _ := 0

/-- If the owner calls `removeblocks` next then no block with counter 0 has a live allocation. -/
def SoundStep (e : SharedEvent) : Prop :=
  ∀ newblock size expand o, e = .owner newblock → s.owner = .rest (.malloc size expand) →
    mempoolMalloc s.state.pool size expand (newblock.map fun r => (r.base, r.size)) = some o →
    o.removed ≠ none → s.state.Sound

end Shared

def SharedStep (s : Shared) (e : SharedEvent) (s' : Shared) : Prop := s.step e = some s'

end Reconverse.Mempool
