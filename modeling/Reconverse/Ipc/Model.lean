import Reconverse.Lib.Stacks
import Reconverse.Machine.Message

/-!
# The shared-memory IPC pool

The processes of one host exchange messages in blocks of shared memory (`cmishmem.cpp`,
`cmi-shmem-common.h`). Every process has a segment; a sender cuts blocks from the segment of the
receiver, or reuses a block that it cut there before and that came back to it. All lists are stacks
of offsets, linked by the `next` field of the blocks: blocks are pushed one at a time, and a list is
taken as a whole.

A `Machine` is the host: its nodes are the processes of the host in the order of `hostProc`, and a
PE is known by its `hostIdx`. All segments are set up. Every step of a run contains at most one
atomic operation on a segment; what a PE does in its own memory belongs to the step before.
-/

namespace Reconverse.Ipc

open Function (update)
open Lib

/-! ## Constants -/

/-- `cmi::ipc::max`, the end of a list. -/
def listEnd : Nat := 2 ^ 64 - 1

/-- `cmi::ipc::nodeDatagram`, which stands for the rank of a message to a process. -/
def nodeDatagram : Nat := 65535

def kNumCutOffPoints : Nat := 25

def kCutOffPoints (i : Nat) : Nat := 64 * 2 ^ i

def kIpcRetBins : Nat := 16

def sizeofIpcBlock : Nat := 48

def alignofIpcBlock : Nat := 16

def sizeofChunkHeader : Nat := 32

def sizeofIpcShared : Nat := 64 + 64 + 512 * 64 + 1024 * 128

/-- `segmentBegin_`: the offset of the first block. -/
def segmentBegin : Nat := sizeofIpcShared + sizeofIpcShared % 16

/-- `whichBin_`. -/
def whichBin (size : Nat) : Nat :=
  ((List.range kNumCutOffPoints).find? (size ≤ kCutOffPoints ·)).getD kNumCutOffPoints

/-- What a new block of a bin takes from the heap. -/
def stride (bin : Nat) : Nat :=
  let stride := sizeofIpcBlock + kCutOffPoints bin
  stride + (alignofIpcBlock - stride % alignofIpcBlock) % alignofIpcBlock

/-! ## The state -/

/-- A block: the process whose segment it is in, and its offset there. -/
structure Loc where
  proc : Nat
  offset : Nat
  deriving DecidableEq, Repr

/-- The lists of blocks of the segment of `proc`: `cache[proc][bin]` of a PE, and in the segment
`ret[pe].bin[bin]`, `rq[rank]` and `node_rq`. -/
inductive ListName where
  | cache (proc pe bin : Nat)
  | ret (proc pe bin : Nat)
  | rq (proc rank : Nat)
  | nodeRq (proc : Nat)
  deriving DecidableEq, Repr

/-- The segment of a list. -/
def ListName.segment : ListName → Nat
  | .cache q _ _ => q
  | .ret q _ _ => q
  | .rq q _ => q
  | .nodeRq q => q

/-- What `CmiMsgToIpcBlock` still needs once its block is allocated: the block that the message was
in, if it was in one, and the destination. -/
structure Pending where
  src : Option Loc
  rank : Nat
  deriving DecidableEq, Repr

/-- Where a PE is in a call. -/
inductive Pc where
  | idle
  /-- `CmiAllocIpcBlock`, before the heap of `dstProc` moves. -/
  | carve (dstProc bin : Nat) (pending : Option Pending)
  /-- `CmiMsgToIpcBlock`, before `CmiFree(src)`. -/
  | release (src : Loc)
  /-- `refillInbox_`, before `node_rq` is taken. -/
  | takeNode (deliver : Bool)
  /-- The loop of `CmiDeliverIpcInbox`. -/
  | deliver
  deriving DecidableEq, Repr

/-- Who has a block that is in none of the lists: a PE, with its local queue, or the node queue of
a process. -/
inductive Holder where
  | pe (pe : Nat)
  | node (proc : Nat)
  deriving DecidableEq, Repr

/-- The process of a holder. -/
def Holder.proc (m : Machine) : Holder → Nat
  | .pe i => m.cmiNodeOf i
  | .node q => q

/-- A block that was cut from the heap, and for whom. -/
structure Carving where
  offset : Nat
  bin : Nat
  pe : Nat

/-- A push: the PE that made it, and when. -/
structure Ticket where
  sender : Nat
  time : Nat
  deriving DecidableEq, Repr

/-- The pool. -/
structure State where
  /-- `heap` and `max` of every segment. -/
  heap : Nat → Nat
  max : Nat → Nat
  /-- The heads of the lists: offsets in the segment of the list. -/
  head : ListName → Nat
  /-- The fields of `CmiIpcBlock`, whose `orig` is the offset itself. -/
  segmentProc : Loc → Nat
  senderProc : Loc → Nat
  owner : Loc → Nat
  next : Loc → Nat
  size : Loc → Nat
  /-- `CMI_DEST_RANK` of the message in a block. -/
  dest : Loc → Nat
  /-- `inbox` of every PE, and its place in the program. -/
  inbox : Nat → List Loc
  pc : Nat → Pc
  /-- Ghost state: the blocks that every holder has. -/
  held : Holder → List Loc
  /-- Ghost state: the blocks that were cut from every segment, the last one first. -/
  carved : Nat → List Carving
  /-- Ghost state: the pushes so far, the last push of every block, and for every PE the pushes to
  it and their arrivals. -/
  clock : Nat
  ticket : Loc → Ticket
  pushed : Nat → List Ticket
  arrived : Nat → List Ticket

namespace State

def setHead (s : State) (l : ListName) (v : Nat) : State := { s with head := update s.head l v }

def setDest (s : State) (b : Loc) (rank : Nat) : State := { s with dest := update s.dest b rank }

def setInbox (s : State) (pe : Nat) (inbox : List Loc) : State :=
  { s with inbox := update s.inbox pe inbox }

def setPc (s : State) (pe : Nat) (pc : Pc) : State := { s with pc := update s.pc pe pc }

/-- A holder gets a block. -/
def give (s : State) (b : Loc) (o : Holder) : State :=
  { s with held := update s.held o (b :: s.held o) }

/-- A holder gives a block away. -/
def drop (s : State) (b : Loc) (o : Holder) : State :=
  { s with held := update s.held o ((s.held o).erase b) }

/-! ## Lists -/

/-- `pushList_`. -/
def pushList (s : State) (l : ListName) (b : Loc) : State :=
  { s with next := update s.next b (s.head l), head := update s.head l b.offset }

/-- `takeList_`: the blocks, newest first. There are fewer blocks than the heap has bytes. -/
def takeList (s : State) (l : ListName) : List Loc × State :=
  let q := l.segment
  if s.head l = listEnd then ([], s)
  else
    ((walk listEnd (fun x => s.next ⟨q, x⟩) (s.heap q + 1) (s.head l)).map (Loc.mk q),
      s.setHead l listEnd)

/-! ## Allocating and freeing -/

/-- The end of `CmiAllocIpcBlock`, and of `CmiMsgToIpcBlock` up to `CmiFree(src)`. -/
def allocated (m : Machine) (s : State) (pe : Nat) (b : Loc) (pending : Option Pending) : State :=
  let s := State.give
    { s with
      owner := update s.owner b pe
      segmentProc := update s.segmentProc b b.proc
      senderProc := update s.senderProc b (m.cmiNodeOf pe) } b (.pe pe)
  match pending with
  | none => s.setPc pe .idle
  | some ⟨none, rank⟩ => (s.setDest b rank).setPc pe .idle
  | some ⟨some src, rank⟩ => (s.setDest b rank).setPc pe (.release src)

/-- A block is taken from the cache, which is not empty. -/
def popCache (m : Machine) (s : State) (pe q bin : Nat) (pending : Option Pending) : State :=
  let b : Loc := ⟨q, s.head (.cache q pe bin)⟩
  (s.setHead (.cache q pe bin) (s.next b)).allocated m pe b pending

/-- `CmiAllocIpcBlock` up to the heap: the block comes from the cache, which is refilled from the
blocks that came back. -/
def cmiAllocIpcBlock (m : Machine) (s : State) (pe dstProc size : Nat) (pending : Option Pending) :
    State :=
  let bin := whichBin size
  if m.cmiNodeOf pe = dstProc ∨ m.numNodes ≤ dstProc then s
  else if bin ≥ kIpcRetBins then s
  else if s.head (.cache dstProc pe bin) ≠ listEnd then s.popCache m pe dstProc bin pending
  else
    let s := (s.setHead (.cache dstProc pe bin) (s.head (.ret dstProc pe bin))).setHead
      (.ret dstProc pe bin) listEnd
    if s.head (.cache dstProc pe bin) ≠ listEnd then s.popCache m pe dstProc bin pending
    else s.setPc pe (.carve dstProc bin pending)

/-- The rest of `CmiAllocIpcBlock`: a new block from the heap, if it fits. -/
def carve (m : Machine) (s : State) (pe q bin : Nat) (pending : Option Pending) : State :=
  let offset := s.heap q
  if offset + stride bin > s.max q then s.setPc pe .idle
  else
    State.allocated m
      { s with
        heap := update s.heap q (offset + stride bin)
        size := update s.size ⟨q, offset⟩ (kCutOffPoints bin)
        next := update s.next ⟨q, offset⟩ 0
        carved := update s.carved q (⟨offset, bin, pe⟩ :: s.carved q) }
      pe ⟨q, offset⟩ pending

/-- `CmiFreeIpcBlock`. -/
def cmiFreeIpcBlock (s : State) (b : Loc) : State :=
  s.pushList (.ret (s.segmentProc b) (s.owner b) (whichBin (s.size b))) b

/-- `CmiMsgToIpcBlock` up to the allocation. The message is in the block `src` that the PE has, or
in memory of its own; a block of the segment of the destination is used as it is. A block of a
third process must not be given to `CmiFree`. -/
def cmiMsgToIpcBlock (m : Machine) (s : State) (pe : Nat) (src : Option Loc) (len node rank : Nat) :
    Option State :=
  match src with
  | none => some (s.cmiAllocIpcBlock m pe node (len + sizeofChunkHeader) (some ⟨none, rank⟩))
  | some b =>
    if b ∉ s.held (.pe pe) then none
    else if b.proc = node ∧ s.segmentProc b = node then some (s.setDest b rank)
    else if b.proc ≠ m.cmiNodeOf pe then none
    else some (s.cmiAllocIpcBlock m pe node (len + sizeofChunkHeader) (some ⟨some b, rank⟩))

/-! ## Sending and receiving -/

/-- `CmiPushIpcBlock`. -/
def cmiPushIpcBlock (m : Machine) (s : State) (pe : Nat) (b : Loc) : State :=
  let q := s.segmentProc b
  let rank := s.dest b
  let s := s.drop b (.pe pe)
  if rank = nodeDatagram then s.pushList (.nodeRq q) b
  else
    let d := m.cmiNodeFirst q + rank
    let ticket : Ticket := ⟨pe, s.clock⟩
    { s.pushList (.rq q rank) b with
      clock := s.clock + 1
      ticket := update s.ticket b ticket
      pushed := update s.pushed d (s.pushed d ++ [ticket]) }

/-- A message to the PE `d` arrives there. -/
def arrive (s : State) (b : Loc) (d : Nat) : State :=
  { s with arrived := update s.arrived d (s.arrived d ++ [s.ticket b]) }

/-- The end of `CmiPopIpcBlock`: the last block of the inbox, if there is one. -/
def popInbox (s : State) (pe : Nat) : State :=
  match (s.inbox pe).getLast? with
  | none => s.setPc pe .idle
  | some b =>
    let s' := ((s.setInbox pe (s.inbox pe).dropLast).give b (.pe pe)).setPc pe .idle
    if s.dest b = nodeDatagram then s' else s'.arrive b pe

/-- One turn of the loop of `CmiDeliverIpcInbox`, with `CmiDeliverIpcBlockMsg`. -/
def deliverOne (m : Machine) (s : State) (pe : Nat) : State :=
  match (s.inbox pe).getLast? with
  | none => s.setPc pe .idle
  | some b =>
    let q := m.cmiNodeOf pe
    let s' := s.setInbox pe (s.inbox pe).dropLast
    if s.dest b = nodeDatagram then (s'.setDest b cmiMessageDestPENode).give b (.node q)
    else
      let d := m.cmiNodeFirst q + s.dest b
      ((s'.setDest b d).give b (.pe d)).arrive b d

/-- A list is taken into the inbox. -/
def takeInto (s : State) (pe : Nat) (l : ListName) : State :=
  let (blocks, s) := s.takeList l
  s.setInbox pe (s.inbox pe ++ blocks)

/-- `CmiPopIpcBlock` and `CmiDeliverIpcInbox` up to the first take of `refillInbox_`. -/
def receive (m : Machine) (s : State) (pe : Nat) (deliver : Bool) : State :=
  if m.numNodes ≤ 1 then s
  else if s.inbox pe = [] then
    (s.takeInto pe (.rq (m.cmiNodeOf pe) (m.cmiRankOf pe))).setPc pe (.takeNode deliver)
  else if deliver then s.setPc pe .deliver
  else s.popInbox pe

/-! ## Steps -/

/-- The next part of the call that a PE is in. -/
def resume (m : Machine) (s : State) (pe : Nat) : Option State :=
  match s.pc pe with
  | .idle => none
  | .carve q bin pending => some (s.carve m pe q bin pending)
  | .release src => some (((s.drop src (.pe pe)).cmiFreeIpcBlock src).setPc pe .idle)
  | .takeNode deliver =>
    let s := s.takeInto pe (.nodeRq (m.cmiNodeOf pe))
    some (if deliver then s.setPc pe .deliver else s.popInbox pe)
  | .deliver => some (s.deliverOne m pe)

end State

/-- A call of a PE, the next part of its call, or a block that changes hands in a process. -/
inductive Event where
  | alloc (pe dstProc size : Nat)
  | msgTo (pe : Nat) (src : Option Loc) (len node rank : Nat)
  | push (pe : Nat) (b : Loc)
  | free (pe : Nat) (b : Loc)
  | pop (pe : Nat)
  | deliver (pe : Nat)
  | resume (pe : Nat)
  | hand (b : Loc) (holder taker : Holder)

/-- A rank of a process, or the node marker. -/
def ValidRank (m : Machine) (rank : Nat) : Prop := rank < m.nodeSize ∨ rank = nodeDatagram

instance (m : Machine) (rank : Nat) : Decidable (ValidRank m rank) :=
  inferInstanceAs (Decidable (_ ∨ _))

/-- A PE of the host is not in a call. -/
def State.Idle (m : Machine) (s : State) (pe : Nat) : Prop := pe < m.cmiNumPes ∧ s.pc pe = .idle

instance (m : Machine) (s : State) (pe : Nat) : Decidable (s.Idle m pe) :=
  inferInstanceAs (Decidable (_ ∧ _))

/-- A holder can give a block away: a PE in a call keeps what it has. -/
def State.CanGive (m : Machine) (s : State) : Holder → Prop
  | .pe pe => s.Idle m pe
  | .node _ => True

instance (m : Machine) (s : State) : (o : Holder) → Decidable (s.CanGive m o)
  | .pe pe => inferInstanceAs (Decidable (s.Idle m pe))
  | .node _ => isTrue trivial

/-- The state after an event. A PE makes one call at a time, pushes and frees only blocks that it
has, and pushes a block only with a destination in the message. -/
def State.step (m : Machine) (s : State) : Event → Option State
  | .alloc pe dstProc size =>
    if s.Idle m pe then some (s.cmiAllocIpcBlock m pe dstProc size none) else none
  | .msgTo pe src len node rank =>
    if s.Idle m pe ∧ ValidRank m rank then s.cmiMsgToIpcBlock m pe src len node rank else none
  | .push pe b =>
    if s.Idle m pe ∧ b ∈ s.held (.pe pe) ∧ ValidRank m (s.dest b) then
      some (s.cmiPushIpcBlock m pe b)
    else none
  | .free pe b =>
    if s.Idle m pe ∧ b ∈ s.held (.pe pe) then some ((s.drop b (.pe pe)).cmiFreeIpcBlock b)
    else none
  | .pop pe => if s.Idle m pe then some (s.receive m pe false) else none
  | .deliver pe => if s.Idle m pe then some (s.receive m pe true) else none
  | .resume pe => s.resume m pe
  | .hand b holder taker =>
    if b ∈ s.held holder ∧ holder ≠ taker ∧ holder.proc m = taker.proc m ∧ s.CanGive m holder then
      some ((s.drop b holder).give b taker)
    else none

def Step (m : Machine) (s : State) (e : Event) (s' : State) : Prop := s.step m e = some s'

/-- A host, with the size of its segments, which are mapped into memory. -/
structure Host extends Machine where
  kSegmentSize : Nat
  mapped : segmentBegin + kSegmentSize < 2 ^ 63

/-- The pool after it was set up. -/
def State.initial (host : Host) : State where
  heap := fun _ => segmentBegin
  max := fun _ => segmentBegin + host.kSegmentSize
  head := fun _ => listEnd
  segmentProc := fun _ => 0
  senderProc := fun _ => 0
  owner := fun _ => 0
  next := fun _ => 0
  size := fun _ => 0
  dest := fun _ => 0
  inbox := fun _ => []
  pc := fun _ => .idle
  held := fun _ => []
  carved := fun _ => []
  clock := 0
  ticket := fun _ => ⟨0, 0⟩
  pushed := fun _ => []
  arrived := fun _ => []

end Reconverse.Ipc
