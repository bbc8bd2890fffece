import Mathlib

/-!
# The memory pool

The pool of `mempool.C`: blocks obtained from `newblockfn`, each cut into slots of sizes
`64 * 2 ^ power`. The slots of a block are linked by `gprev` and `gnext` in the order of their
addresses, and the free slots of one power by `prev` and `next` from the `freelists` of the block.

All links of the pool are offsets from the pool itself, here integers; offset 0 is both the null
link and the place of the first block. The memory is modelled by the headers that the code keeps
in it, one function from offsets to values for every field. Where the program would abort, follow
links for ever or leave an array, the result is `none`; the loops that follow links have as much
fuel as the pool can have slots.
-/

namespace Reconverse.Mempool

open Function (update)

/-! ## Sizes -/

/-- `cutOffPoints[i]`; the table has the entries `0` to `24`. -/
def cutOffPoints (i : Nat) : Nat := 64 * 2 ^ i

/-- `cutOffNum`, the number of freelists. -/
def cutOffNum : Nat := 24

/-- `which_pow2`: the first cut-off point that is large enough, or `25`. -/
def whichPow2 (size : Nat) : Nat :=
  ((List.range (cutOffNum + 1)).find? (size ≤ cutOffPoints ·)).getD (cutOffNum + 1)

/-- `sizeof(used_header)`. The user's memory starts here, at the `next` link of a free slot. -/
def sizeofUsedHeader : Nat := 48

/-- `sizeof(block_header)`. -/
def sizeofBlockHeader : Nat := 240

/-- `sizeof(mempool_type)`, which starts with the header of the first block. -/
def sizeofMempoolType : Nat := 304

/-- `sizeof(large_block_header)`. -/
def sizeofLargeBlockHeader : Nat := 48

/-! ## Headers -/

/-- The fields of `slot_header`. The status is 1 for free, 0 for used and -1 for a large block. -/
structure Slots where
  blockPtr : Int → Int
  size : Int → Nat
  power : Int → Nat
  status : Int → Int
  gprev : Int → Int
  gnext : Int → Int
  prev : Int → Int
  next : Int → Int
  deriving Inhabited

/-- `freelists` of a block. -/
abbrev Freelists := Nat → Int

/-- The fields of `block_header`. `used` is a `size_t` that is counted up and down. -/
structure Blocks where
  size : Int → Nat
  used : Int → BitVec 64
  blockPrev : Int → Int
  blockNext : Int → Int
  freelists : Int → Freelists
  deriving Inhabited

/-- The fields of `large_block_header`. -/
structure LargeBlocks where
  size : Int → Nat
  blockPrev : Int → Int
  blockNext : Int → Int
  deriving Inhabited

/-- `mempool_type` and the memory its links lead to. The `block_head` of the source is the block
header at offset 0. -/
structure Pool where
  largeBlocks : Int
  blockTail : Int
  limit : Nat
  size : Nat
  blocks : Blocks
  large : LargeBlocks
  slots : Slots
  deriving Inhabited

/-- The header of a free slot that is in no freelist yet. -/
def Slots.putFree (mem : Slots) (loc blk : Int) (i : Nat) (gprev : Int) : Slots :=
  { mem with
    size := update mem.size loc (cutOffPoints i)
    power := update mem.power loc i
    status := update mem.status loc 1
    blockPtr := update mem.blockPtr loc blk
    prev := update mem.prev loc 0
    next := update mem.next loc 0
    gprev := update mem.gprev loc gprev }

def Slots.setGprev (mem : Slots) (loc gprev : Int) : Slots :=
  { mem with gprev := update mem.gprev loc gprev }

def Slots.setGnext (mem : Slots) (loc gnext : Int) : Slots :=
  { mem with gnext := update mem.gnext loc gnext }

def Slots.setPrev (mem : Slots) (loc prev : Int) : Slots :=
  { mem with prev := update mem.prev loc prev }

def Slots.setNext (mem : Slots) (loc next : Int) : Slots :=
  { mem with next := update mem.next loc next }

def Slots.setStatus (mem : Slots) (loc status : Int) : Slots :=
  { mem with status := update mem.status loc status }

/-- The pool with new freelists for a block and new slot headers. -/
def Pool.setBlock (s : Pool) (blk : Int) (fl : Freelists) (mem : Slots) : Pool :=
  { s with
    slots := mem
    blocks := { s.blocks with freelists := update s.blocks.freelists blk fl } }

/-- Enough turns for the loops that follow links: every slot and every block has 64 bytes. -/
def Pool.fuel (s : Pool) : Nat := s.size / 64 + 1

/-! ## `fillblock` -/

/-- The number of turns of a loop that starts at the largest power of which a slot of the given
size can be cut. -/
def turns (size : Nat) : Nat :=
  let power := whichPow2 size
  if power ≤ cutOffNum ∧ size < cutOffPoints power then power else power + 1

/-- The first loop of `fillblock`, downwards from power `n - 1`: one slot for every power that
fits into what is left. -/
def layOut : (n : Nat) → (loc : Int) → (left : Nat) → Freelists → Freelists
  | 0, _, _, fl => fl
  | i + 1, loc, left, fl =>
    if left ≥ cutOffPoints i then
      layOut i (loc + cutOffPoints i) (left - cutOffPoints i) (update fl i loc)
    else layOut i loc left fl

/-- The second loop of `fillblock`: the headers of the slots. `prev` is the slot before, and the
last slot ends the global list. -/
def initSlots (blk : Int) (fl : Freelists) (power : Nat) : (n : Nat) → (prev : Int) → Slots → Slots
  | 0, prev, mem => mem.setGnext prev 0
  | i + 1, prev, mem =>
    if fl i ≠ 0 then
      let mem := mem.putFree (fl i) blk i prev
      let mem := if i ≠ power then mem.setGnext prev (fl i) else mem
      initSlots blk fl power i (fl i) mem
    else initSlots blk fl power i prev mem

/-- `fillblock` on the block at `blk`. -/
def fillblock (mem : Slots) (blk : Int) (poolSize : Nat) (expansion : Bool) :
    Option (Freelists × Slots) :=
  let taken := if expansion then sizeofBlockHeader else sizeofMempoolType
  -- A block that cannot hold its header underflows to a size that aborts below.
  if poolSize < taken then none
  else
    let left := poolSize - taken
    let n := turns left
    if n > cutOffNum then none
    -- Without a slot, `head` is not initialised when it is written at the end.
    else if n = 0 then none
    else
      let fl := layOut n (blk + taken) left fun _ => 0
      some (fl, initSlots blk fl (n - 1) n 0 mem)

/-! ## `checkblock` -/

/-- The first loop of `checkblock`, upwards from power `i`: the pieces become the heads of their
freelists. -/
def listPieces : (n i : Nat) → (loc : Int) → Freelists → Freelists
  | 0, _, _, fl => fl
  | n + 1, i, loc, fl =>
    let loc := loc + cutOffPoints (i - 1)
    listPieces n (i + 1) loc (update fl i loc)

/-- The second loop of `checkblock`, upwards from power `i`: the headers of the pieces behind the
first one. The result has the last piece and the last value of `prev`. -/
def cutPieces (blk : Int) (power : Nat) : (n i : Nat) → (head prev : Int) → Slots →
    Slots × Int × Int
  | 0, _, head, prev, mem => (mem, head, prev)
  | n + 1, i, head, prev, mem =>
    let head := if i ≠ power then head + cutOffPoints (i - 1) else head
    let mem := (mem.putFree head blk i prev).setGnext prev head
    let prev := if i ≠ power then prev + cutOffPoints (i - 1) else prev + cutOffPoints i
    cutPieces blk power n (i + 1) head prev mem

/-- The body of the loop of `checkblock`: the first free slot of power `powiter` is cut into two
slots of power `power` and one of every power between. -/
def splitSlot (mem : Slots) (blk : Int) (fl : Freelists) (power powiter : Nat) :
    Freelists × Slots :=
  let loc := fl powiter
  let gnext := mem.gnext loc
  let fl := update fl powiter (mem.next loc)
  let fl := update fl power loc
  let fl := listPieces (powiter - power - 1) (power + 1) (loc + cutOffPoints power) fl
  let second := loc + cutOffPoints power
  let mem :=
    { mem with
      size := update mem.size loc (cutOffPoints power)
      power := update mem.power loc power
      next := update mem.next loc second }
  let (mem, head, prev) := cutPieces blk power (powiter - power) power second loc mem
  let mem := mem.setPrev second loc
  let mem := mem.setGnext head gnext
  let mem := if gnext ≠ 0 then mem.setGprev gnext prev else mem
  let mem := if fl powiter ≠ 0 then mem.setPrev (fl powiter) 0 else mem
  (fl, mem)

/-- `checkblock`: what the block is after it, or `none` if it has no slot that is large enough. -/
def checkblock (mem : Slots) (blk : Int) (fl : Freelists) (power : Nat) :
    Option (Freelists × Slots) :=
  if fl power ≠ 0 then some (fl, mem)
  else
    match (List.range' (power + 1) (cutOffNum - (power + 1))).find? (fl · ≠ 0) with
    | some powiter => some (splitSlot mem blk fl power powiter)
    | none => none

/-! ## `removeblocks` -/

/-- A block is taken out of the list of blocks, behind the block `prev`. -/
def Pool.dropBlock (s : Pool) (tail prev current : Int) : Pool :=
  let next := s.blocks.blockNext current
  let before := s.blocks.blockPrev current
  { s with
    blockTail := if tail = current then before else s.blockTail
    blocks :=
      { s.blocks with
        blockNext := update s.blocks.blockNext prev next
        blockPrev :=
          if next ≠ 0 then update s.blocks.blockPrev next before else s.blocks.blockPrev }
    size := s.size - s.blocks.size current }

/-- The loop of `removeblocks`. The blocks passed to `freeblockfn` are collected in `freed`. -/
def removeLoop (tail : Int) : (fuel : Nat) → (prev current : Int) → List Int → Pool →
    Option (Pool × List Int)
  | 0, _, _, _, _ => none
  | fuel + 1, prev, current, freed, s =>
    if current = 0 then some (s, freed)
    else
      let next := s.blocks.blockNext current
      if s.blocks.used current = 0 then
        let s := s.dropBlock tail prev current
        if s.size < s.limit then some (s, freed ++ [current])
        else removeLoop tail fuel prev next (freed ++ [current]) s
      else removeLoop tail fuel current next freed s

/-- `removeblocks`: the pool after it and the blocks it freed. -/
def removeblocks (s : Pool) : Option (Pool × List Int) :=
  removeLoop s.blockTail s.fuel 0 (s.blocks.blockNext 0) [] s

/-! ## `mempool_init` -/

/-- The header of a new block. -/
def Blocks.put (b : Blocks) (blk : Int) (size : Nat) (blockPrev : Int) (fl : Freelists) : Blocks :=
  { size := update b.size blk size
    used := update b.used blk 0
    blockPrev := update b.blockPrev blk blockPrev
    blockNext := update b.blockNext blk 0
    freelists := update b.freelists blk fl }

/-- `mempool_init` in memory that holds the headers of `old`. The block of `poolSize` bytes
that `allocfn` returns is the pool itself. -/
def mempoolInit (old : Pool) (poolSize limit : Nat) : Option Pool := do
  let (fl, mem) ← fillblock old.slots 0 poolSize false
  pure
    { old with
      largeBlocks := 0, blockTail := 0, limit := limit, size := poolSize
      blocks := old.blocks.put 0 poolSize 0 fl
      slots := mem }

/-! ## `mempool_malloc` -/

/-- The search of `mempool_malloc` for a block that can meet the request. -/
def findBlock (s : Pool) (power : Nat) : (fuel : Nat) → (current : Int) →
    Option (Option (Int × Freelists × Slots))
  | 0, _ => none
  | fuel + 1, current =>
    match checkblock s.slots current (s.blocks.freelists current) power with
    | some (fl, mem) => some (some (current, fl, mem))
    | none =>
      let next := s.blocks.blockNext current
      if next = 0 then some none else findBlock s power fuel next

/-- What a call of `mempool_malloc` leaves: the pool, the pointer it returned, the block it
obtained from `newblockfn`, and the blocks that `removeblocks` freed if it was called. -/
structure Outcome where
  pool : Pool
  ptr : Option Int
  obtained : Option (Int × Nat)
  removed : Option (List Int)

/-- The end of `mempool_malloc`: the first slot of the freelist is handed out. -/
def takeSlot (s : Pool) (blk : Int) (power : Nat) : Pool × Int :=
  let fl := s.blocks.freelists blk
  let headFree := fl power
  let next := s.slots.next headFree
  let mem := s.slots.setStatus headFree 0
  let mem := if next ≠ 0 then mem.setPrev next 0 else mem
  ({ s with
      slots := { mem with blockPtr := update mem.blockPtr headFree blk }
      blocks :=
        { s.blocks with
          freelists := update s.blocks.freelists blk (update fl power next)
          used := update s.blocks.used blk (s.blocks.used blk + BitVec.ofNat 64 power) } },
    headFree + sizeofUsedHeader)

/-- The expansion of `mempool_malloc` by the block `pool` of `expandSize` bytes. -/
def addBlock (s : Pool) (pool : Int) (expandSize : Nat) : Option Pool := do
  let (fl, mem) ← fillblock s.slots pool expandSize true
  let blocks :=
    { s.blocks with blockNext := update s.blocks.blockNext s.blockTail pool }
  pure
    { s with
      size := s.size + expandSize
      blockTail := pool
      blocks := blocks.put pool expandSize s.blockTail fl
      slots := mem }

/-- `mempool_large_malloc`; `newblock` is what `newblockfn` returns. -/
def mempoolLargeMalloc (s : Pool) (newblock : Option (Int × Nat)) : Outcome :=
  match newblock with
  | none => ⟨s, none, none, none⟩
  | some (pool, expandSize) =>
    let first := s.largeBlocks
    let headFree := pool + sizeofLargeBlockHeader
    ⟨{ s with
        largeBlocks := pool
        size := s.size + expandSize
        large :=
          { size := update s.large.size pool expandSize
            blockPrev := update
              (if first ≠ 0 then update s.large.blockPrev first pool else s.large.blockPrev) pool 0
            blockNext := update s.large.blockNext pool first }
        slots :=
          { s.slots with
            blockPtr := update s.slots.blockPtr headFree pool
            size := update s.slots.size headFree (expandSize - sizeofLargeBlockHeader)
            status := update s.slots.status headFree (-1) } },
      some (headFree + sizeofUsedHeader), some (pool, expandSize), none⟩

/-- The call of `removeblocks` in `mempool_malloc`, with the blocks it freed. -/
def trim (s : Pool) : Option (Pool × Option (List Int)) :=
  if s.size > s.limit ∧ s.limit > 0 then (removeblocks s).map fun (s, freed) => (s, some freed)
  else some (s, none)

/-- The expansion of `mempool_malloc`, once no block can meet the request. -/
def expandAndTake (s : Pool) (power : Nat) (newblock : Option (Int × Nat)) : Option Outcome := do
  let (s, removed) ← trim s
  match newblock with
  | none => pure ⟨s, none, none, removed⟩
  | some (pool, expandSize) =>
    let s ← addBlock s pool expandSize
    let (fl, mem) ← checkblock s.slots pool (s.blocks.freelists pool) power
    let (s, ptr) := takeSlot (s.setBlock pool fl mem) pool power
    pure ⟨s, some ptr, some (pool, expandSize), removed⟩

/-- `mempool_malloc`; `newblock` is what `newblockfn` returns if it is called: the offset and the
size of the new block, or nothing. No block waits on the `remote_free` stack. -/
def mempoolMalloc (s : Pool) (size : Nat) (expand : Bool) (newblock : Option (Int × Nat)) :
    Option Outcome := do
  let power := whichPow2 (size + sizeofUsedHeader)
  if power ≥ cutOffNum then pure (mempoolLargeMalloc s newblock)
  else
    match ← findBlock s power s.fuel 0 with
    | some (blk, fl, mem) =>
      let (s, ptr) := takeSlot (s.setBlock blk fl mem) blk power
      pure ⟨s, some ptr, none, none⟩
    | none => if expand then expandAndTake s power newblock else pure ⟨s, none, none, none⟩

/-! ## `mempool_free` -/

/-- The first walk of `mempool_free`, against the global list: the size of the free run up to
here, and its first slot. -/
def mergeBack (mem : Slots) : (fuel : Nat) → (current : Int) → (size : Nat) → (first : Int) →
    Option (Nat × Int)
  | 0, _, _, _ => none
  | fuel + 1, current, size, first =>
    if mem.status current = 1 then
      let size := size + mem.size current
      if mem.gprev current = 0 then some (size, current)
      else mergeBack mem fuel (mem.gprev current) size current
    else some (size, first)

/-- The second walk of `mempool_free`, along the global list: the size of the free run, and the
used slot behind it or 0. -/
def mergeForward (mem : Slots) : (fuel : Nat) → (current : Int) → (size : Nat) →
    Option (Nat × Int)
  | 0, _, _ => none
  | fuel + 1, current, size =>
    if mem.status current = 1 then
      let size := size + mem.size current
      if mem.gnext current = 0 then some (size, 0)
      else mergeForward mem fuel (mem.gnext current) size
    else some (size, current)

/-- A slot is taken out of its freelist. -/
def unlink (fl : Freelists) (mem : Slots) (current : Int) : Freelists × Slots :=
  let prev := mem.prev current
  let next := mem.next current
  let fl := if prev ≠ 0 then fl else update fl (mem.power current) next
  let mem := if prev ≠ 0 then mem.setNext prev next else mem
  let mem := if next ≠ 0 then mem.setPrev next prev else mem
  (fl, mem)

/-- The third walk of `mempool_free`: the slots of the run but `toFree` leave their freelists. -/
def unlinkRun (toFree usedNext : Int) : (fuel : Nat) → (current : Int) → Freelists → Slots →
    Option (Freelists × Slots)
  | 0, _, _, _ => none
  | fuel + 1, current, fl, mem =>
    if current = usedNext then some (fl, mem)
    else
      let (fl, mem) := if current ≠ toFree then unlink fl mem current else (fl, mem)
      unlinkRun toFree usedNext fuel (mem.gnext current) fl mem

/-- The header of a slot that becomes the head of its freelist. -/
def pushFree (fl : Freelists) (mem : Slots) (loc blk : Int) (i : Nat) (gprev : Int) :
    Freelists × Slots :=
  let mem := mem.putFree loc blk i gprev
  let mem := (mem.setGnext loc (loc + cutOffPoints i)).setNext loc (fl i)
  let mem := if fl i = 0 then mem else mem.setPrev (fl i) loc
  (update fl i loc, mem)

/-- The last loop of `mempool_free`, downwards from power `n - 1`: the run is cut into slots of
decreasing powers, which become the heads of their freelists. The first one keeps its `gprev`.
The result has the last slot. -/
def recut (blk : Int) (power : Nat) : (n : Nat) → (loc prev : Int) → (left : Nat) →
    (current : Int) → Freelists → Slots → Freelists × Slots × Int
  | 0, _, _, _, current, fl, mem => (fl, mem, current)
  | i + 1, loc, prev, left, current, fl, mem =>
    if left ≥ cutOffPoints i then
      let (fl, mem) := pushFree fl mem loc blk i (if i ≠ power then prev else mem.gprev loc)
      recut blk power i (loc + cutOffPoints i) loc (left - cutOffPoints i) loc fl mem
    else recut blk power i loc prev left current fl mem

/-- `mempool_free` of a large block. -/
def freeLarge (s : Pool) (toFree : Int) : Pool :=
  let blk := s.slots.blockPtr toFree
  let prev := s.large.blockPrev blk
  let next := s.large.blockNext blk
  { s with
    largeBlocks := if s.largeBlocks = blk then next else s.largeBlocks
    large :=
      { s.large with
        blockNext :=
          if s.largeBlocks = blk then s.large.blockNext else update s.large.blockNext prev next
        blockPrev := if next ≠ 0 then update s.large.blockPrev next prev else s.large.blockPrev }
    size := s.size - s.large.size blk }

/-- The end of `mempool_free`: the free run of `size` bytes from `first` on is cut anew. -/
def cutRun (mem : Slots) (blk : Int) (fl : Freelists) (first usedNext : Int) (size : Nat) :
    Option (Freelists × Slots) :=
  let n := turns size
  -- A slot that large has no freelist.
  if n > cutOffNum then none
  else
    let (fl, mem, current) := recut blk (n - 1) n first 0 size first fl mem
    some (fl, if usedNext ≠ 0 then mem.setGprev usedNext current else mem.setGnext current 0)

/-- `mempool_free` of a slot. -/
def freeSlot (s : Pool) (toFree : Int) : Option Pool := do
  let mem := s.slots.setStatus toFree 1
  let blk := mem.blockPtr toFree
  let (size, first) ← mergeBack mem s.fuel toFree 0 toFree
  let (size, usedNext) ← mergeForward mem s.fuel toFree (size - mem.size toFree)
  let (fl, mem') ← unlinkRun toFree usedNext s.fuel first (s.blocks.freelists blk) mem
  let (fl, mem') ← cutRun mem' blk fl first usedNext size
  let used := s.blocks.used blk - BitVec.ofNat 64 (mem.size toFree)
  pure
    { s with
      slots := mem'
      blocks :=
        { s.blocks with
          used := update s.blocks.used blk used
          freelists := update s.blocks.freelists blk fl } }

/-- `mempool_free`: the pool after it, and the large block it passed to `freeblockfn`. -/
def mempoolFree (s : Pool) (ptrFree : Int) : Option (Pool × Option Int) :=
  let toFree := ptrFree - sizeofUsedHeader
  if s.slots.status toFree = -1 then some (freeLarge s toFree, some (s.slots.blockPtr toFree))
  else (freeSlot s toFree).map (·, none)

end Reconverse.Mempool
