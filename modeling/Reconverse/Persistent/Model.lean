import Reconverse.Lib.Runs
import Reconverse.Machine.Wire

/-!
# Persistent channels

The model of `persist-comm.cpp`. A channel has a send slot in the table of its sender and a receive
slot with `PERSIST_BUFFERS_NUM` buffers in the table of its receiver. The two PEs know each other's
slot only by its address, and every message between them carries such addresses. An allocator may
hand out any address that is not in use.

A table maps addresses to the slots that are in it, so that a search for a handle is a look-up.
Messages on their way are in one list and are delivered in any order. A put is two events: its data
lands in the buffer, and it completes locally, which sends the notification.

Channels are numbered in the order in which their send slots are made. The numbers, and what is
logged about messages, are not known to the program: no function below branches on them, except
that a put into memory that is no longer registered is lost.
-/

namespace Reconverse.Persistent

open Lib.Bytes (Buf patch)
open Function (update)

/-! ## Slots -/

/-- `PERSIST_BUFFERS_NUM`. -/
abbrev persistBuffersNum : Nat := 4

instance : NeZero persistBuffersNum := ⟨by decide⟩

/-- The index of a buffer of a channel. -/
abbrev BufIndex := Fin persistBuffersNum

/-- `CMK_PERSISTENT_REFBASE`. -/
def cmkPersistentRefbase : Int := 0x40000000

/-- `PersistentHandle`, the address of a slot. -/
abbrev PersistentHandle := Nat

/-- The null handle. -/
def nullptr : PersistentHandle := 0

/-- An address in the memory of a PE. -/
structure Loc where
  pe : Nat
  addr : PersistentHandle
  deriving DecidableEq, Repr

/-- `(int)ALIGN_DEFAULT((size_t)maxBytes)`. -/
def sizeMaxOf (maxBytes : Int) : Int := Lib.CInt.int ((maxBytes + 15) / 16 * 16)

/-- `PersistentSendsTable`, the sender's half of a channel. `bufs` describes the buffers of the
slot that `destHandle` names, so it is left out. `channel` is the number of the channel. -/
structure PersistentSendsTable where
  destPE : Nat
  sizeMax : Int
  isLocal : Bool
  useRdma : Bool
  setupDone : Bool
  destHandle : PersistentHandle
  busy : BufIndex → Bool
  nextBuf : BufIndex
  pending : List Buf
  channel : Nat

/-- `findFreeBuffer`: the index, and the slot with `nextBuf` moved behind it. -/
def PersistentSendsTable.findFreeBuffer (slot : PersistentSendsTable) :
    Option (BufIndex × PersistentSendsTable) :=
  (((List.finRange persistBuffersNum).map (slot.nextBuf + ·)).find? (!slot.busy ·)).map
    fun idx => (idx, { slot with nextBuf := idx + 1 })

/-- `PersistentReceivesTable`, the receiver's half of a channel, with what is in front of and in
each of its buffers: `srcPE` and `srcHandle` of the `PersistentBufHeader`, the size and the
reference count of the chunk header, and the message area. `channel` is the number of the channel,
once it has a sender. -/
structure PersistentReceivesTable where
  sizeMax : Int
  source : BufIndex → Option (Nat × PersistentHandle)
  size : BufIndex → Int
  ref : BufIndex → Int
  area : BufIndex → Buf
  channel : Option Nat

/-- `PersistentReq`: what the program passes from the receiver to the sender. -/
structure PersistentReq where
  pe : Nat
  maxBytes : Int
  myHand : PersistentHandle
  deriving DecidableEq, Repr

/-! ## Messages -/

/-- `PutContext`, what `writeToBuffer` captures about a message it writes. A notification carries
the same values. `channel` and `number` are the numbers of the channel and of the write. -/
structure PutContext where
  destHandler : PersistentHandle
  srcHandler : PersistentHandle
  destPE : Nat
  srcPE : Nat
  bufIndex : BufIndex
  size : Nat
  msg : Buf
  channel : Nat
  number : Nat
  deriving DecidableEq, Repr

/-- The messages of the module, with the PE they go to and the channel they are made for. In a
notification without `inlinePayload` the bytes of `ctx.msg` are not part of the message. `user` is
a message that a channel within the node forwards to the ordinary send path. -/
inductive Message where
  | request (channel destPE requestorPE : Nat) (maxBytes : Int) (sourceHandler : PersistentHandle)
  | granted (channel destPE grantor : Nat) (sourceHandler destHandler : PersistentHandle)
  | data (ctx : PutContext) (inlinePayload : Bool)
  | credit (channel destPE : Nat) (sourceHandler : PersistentHandle) (bufIndex : BufIndex)
  | destroy (channel destPE : Nat) (destHandler : PersistentHandle)
  | user (channel destPE : Nat) (msg : Buf)
  deriving DecidableEq, Repr

/-- A message that a handler was given and has not released: the receive slot and the buffer it
lies in, the channel it came on, and whom to credit. -/
structure Held where
  slot : Loc
  index : BufIndex
  channel : Nat
  srcPE : Nat
  srcHandle : PersistentHandle
  deriving DecidableEq, Repr

/-- The tables of all PEs and what is on its way. `landing` holds the puts whose data is not in
place yet, `puts` those that have not completed locally. The fields from `channels` on count and
log: channels made, writes issued; for each channel the messages sent on it, those passed to
`writeToBuffer` and those handed to a handler; the channels destroyed; the buffers freed, and those
of them that were freed while a message in them was held. -/
structure State where
  sends : Loc → Option PersistentSendsTable
  receives : Loc → Option PersistentReceivesTable
  network : List Message
  puts : List PutContext
  landing : List PutContext
  reqs : List PersistentReq
  held : List Held
  channels : Nat
  writes : Nat
  sent : Nat → List Buf
  written : Nat → List Buf
  handed : Nat → List Buf
  destroyed : List Nat
  freed : List (Option Nat × BufIndex)
  freedHeld : List Held

/-- No channels. -/
def State.initial : State where
  sends _ := none
  receives _ := none
  network := []
  puts := []
  landing := []
  reqs := []
  held := []
  channels := 0
  writes := 0
  sent _ := []
  written _ := []
  handed _ := []
  destroyed := []
  freed := []
  freedHeld := []

/-- A job: the machine, and whether its backend does one-sided puts. -/
structure Job extends Machine where
  rdmaAvailable : Bool

/-- A send slot of `pe` as `newSendSlot` fills it in. -/
def Job.sendSlot (J : Job) (pe destPE : Nat) (maxBytes : Int) (channel : Nat) :
    PersistentSendsTable :=
  let isLocal := decide (J.cmiNodeOf destPE = J.cmiNodeOf pe)
  { destPE := destPE
    sizeMax := sizeMaxOf maxBytes
    isLocal := isLocal
    useRdma := !isLocal && J.rdmaAvailable
    setupDone := false
    destHandle := nullptr
    busy := fun _ => false
    nextBuf := 0
    pending := []
    channel := channel }

/-- A receive slot as `newRecvSlot` fills it in. -/
def recvSlot (maxBytes : Int) (channel : Option Nat) : PersistentReceivesTable where
  sizeMax := sizeMaxOf maxBytes
  source _ := none
  size _ := sizeMaxOf maxBytes
  ref _ := cmkPersistentRefbase
  area _ := List.replicate (sizeMaxOf maxBytes).toNat 0
  channel := channel

namespace State

variable (J : Job) (s : State)

/-- The send slot at `l` is now `slot`. -/
def setSend (l : Loc) (slot : Option PersistentSendsTable) : State :=
  { s with sends := update s.sends l slot }

/-- The receive slot at `l` is now `slot`. -/
def setRecv (l : Loc) (slot : Option PersistentReceivesTable) : State :=
  { s with receives := update s.receives l slot }

/-- A message is sent. -/
def post (m : Message) : State := { s with network := s.network ++ [m] }

/-- `lookupSendSlot` on `pe`. -/
def lookupSendSlot (pe : Nat) (h : PersistentHandle) : Option PersistentSendsTable :=
  if h = nullptr then none else s.sends ⟨pe, h⟩

/-- `lookupRecvSlot` on `pe`. -/
def lookupRecvSlot (pe : Nat) (h : PersistentHandle) : Option PersistentReceivesTable :=
  if h = nullptr then none else s.receives ⟨pe, h⟩

/-- No slot of the process of `pe` is at the address, so that its allocator may return it. -/
def Unallocated (pe : Nat) (a : PersistentHandle) : Prop :=
  a ≠ nullptr ∧ ∀ q ∈ J.cmiNodePes (J.cmiNodeOf pe),
    (s.sends ⟨q, a⟩).isNone ∧ (s.receives ⟨q, a⟩).isNone

instance (pe : Nat) (a : PersistentHandle) : Decidable (s.Unallocated J pe a) :=
  inferInstanceAs (Decidable (_ ∧ _))

/-- `newSendSlot` on `pe`, with the slot at address `a`. -/
def newSendSlot (pe destPE : Nat) (maxBytes : Int) (a : PersistentHandle) :
    Option (State × PersistentSendsTable) :=
  if destPE < J.cmiNumPes ∧ s.Unallocated J pe a then
    let slot := J.sendSlot pe destPE maxBytes s.channels
    some ({ s.setSend ⟨pe, a⟩ (some slot) with channels := s.channels + 1 }, slot)
  else none

/-- `newRecvSlot` on `pe`, with the slot at address `a`. A size that does not fit an `int` is more
than the allocator has. -/
def newRecvSlot (pe : Nat) (maxBytes : Int) (a : PersistentHandle) (channel : Option Nat) :
    Option State :=
  if 0 < maxBytes ∧ 0 ≤ sizeMaxOf maxBytes ∧ s.Unallocated J pe a then
    some (s.setRecv ⟨pe, a⟩ (some (recvSlot maxBytes channel)))
  else none

/-! ## Sending -/

/-- `sendNotification`. -/
def sendNotification (ctx : PutContext) (inlinePayload : Bool) : State :=
  s.post (.data ctx inlinePayload)

/-- `persistentPutDone` for the put at position `j`. -/
def persistentPutDone (j : Nat) : Option State := do
  let ctx ← s.puts[j]?
  some ({ s with puts := s.puts.eraseIdx j }.sendNotification ctx false)

/-- The data of the put at position `j` of `landing` arrives. Memory that was freed is no longer
registered, and a put into it is lost. -/
def land (j : Nat) : Option State := do
  let ctx ← s.landing[j]?
  let s := { s with landing := s.landing.eraseIdx j }
  match s.receives ⟨ctx.destPE, ctx.destHandler⟩ with
  | some slot =>
    if slot.channel = some ctx.channel then
      some (s.setRecv ⟨ctx.destPE, ctx.destHandler⟩ (some { slot with
        area := update slot.area ctx.bufIndex (patch (slot.area ctx.bufIndex) 0 ctx.msg) }))
    else some s
  | none => some s

/-- `writeToBuffer` for the slot at `l`. `reaches` is what `CmiIpcReaches` says for each write. -/
def writeToBuffer (reaches : BufIndex → Bool) (l : Loc) (slot : PersistentSendsTable)
    (bufIndex : BufIndex) (msg : Buf) : State :=
  let ctx : PutContext :=
    { destHandler := slot.destHandle
      srcHandler := l.addr
      destPE := slot.destPE
      srcPE := l.pe
      bufIndex := bufIndex
      size := msg.length
      msg := msg
      channel := slot.channel
      number := s.writes }
  let s := { s.setSend l (some { slot with busy := update slot.busy bufIndex true }) with
    writes := s.writes + 1
    written := update s.written slot.channel (s.written slot.channel ++ [msg]) }
  if slot.useRdma && !reaches bufIndex then
    { s with puts := s.puts ++ [ctx], landing := s.landing ++ [ctx] }
  else s.sendNotification ctx true

/-- `flushPending` for the slot at `l`, whose queue is the list. -/
def flushPending (reaches : BufIndex → Bool) (l : Loc) : List Buf → State → State
  | [], s => s
  | msg :: rest, s =>
    match s.sends l with
    | none => s
    | some slot =>
      match slot.findFreeBuffer with
      | none => s
      | some (idx, slot) =>
        flushPending reaches l rest
          (s.writeToBuffer reaches l { slot with pending := rest } idx msg)

/-- `CmiSendPersistentMsg` on `pe`. -/
def cmiSendPersistentMsg (pe : Nat) (h : PersistentHandle) (msg : Buf)
    (reaches : BufIndex → Bool) : Option State := do
  let slot ← s.lookupSendSlot pe h
  if (msg.length : Int) > slot.sizeMax then none
  else
    let s := { s with sent := update s.sent slot.channel (s.sent slot.channel ++ [msg]) }
    let queued := { slot with pending := slot.pending ++ [msg] }
    if slot.isLocal then
      match Wire.cmiSyncSendAndFree J.toMachine pe slot.destPE msg with
      | some (.queue destPE buf) => some (s.post (.user slot.channel destPE buf))
      | _ => none
    else if !slot.setupDone || !slot.pending.isEmpty then
      let s := s.setSend ⟨pe, h⟩ (some queued)
      if slot.setupDone then some (s.flushPending reaches ⟨pe, h⟩ queued.pending) else some s
    else
      match slot.findFreeBuffer with
      | none => some (s.setSend ⟨pe, h⟩ (some queued))
      | some (idx, slot) => some (s.writeToBuffer reaches ⟨pe, h⟩ slot idx msg)

/-! ## Handlers -/

/-- `persistentRequestHandler` on `pe`, whose allocator returns `a` for the slot. -/
def persistentRequestHandler (channel pe requestorPE : Nat) (maxBytes : Int)
    (sourceHandler a : PersistentHandle) : Option State := do
  let s ← s.newRecvSlot J pe maxBytes a (some channel)
  some (s.post (.granted channel requestorPE pe sourceHandler a))

/-- `persistentReqGrantedHandler` on `pe`. -/
def persistentReqGrantedHandler (pe : Nat) (sourceHandler destHandler : PersistentHandle)
    (reaches : BufIndex → Bool) : State :=
  match s.lookupSendSlot pe sourceHandler with
  | none => s
  | some slot =>
    (s.setSend ⟨pe, sourceHandler⟩ (some { slot with
      destHandle := destHandler, setupDone := true })).flushPending
        reaches ⟨pe, sourceHandler⟩ slot.pending

/-- `persistentDataHandler`. The handler of the message is given the first `size` bytes of the
message area. A notification is not handled before the data it announces is in place. -/
def persistentDataHandler (ctx : PutContext) (inlinePayload : Bool) : Option State :=
  match s.lookupRecvSlot ctx.destPE ctx.destHandler with
  | none => some s
  | some slot =>
    if (ctx.size : Int) > slot.sizeMax ∨ ctx ∈ s.landing then none
    else
      let i := ctx.bufIndex
      let area := if inlinePayload then patch (slot.area i) 0 (ctx.msg.take ctx.size)
        else slot.area i
      let slot := { slot with
        area := update slot.area i area
        source := update slot.source i (some (ctx.srcPE, ctx.srcHandler))
        size := update slot.size i ctx.size
        ref := update slot.ref i (cmkPersistentRefbase + 1) }
      let l : Loc := ⟨ctx.destPE, ctx.destHandler⟩
      some { s.setRecv l (some slot) with
        held := s.held ++ [⟨l, i, ctx.channel, ctx.srcPE, ctx.srcHandler⟩]
        handed := update s.handed ctx.channel
          (s.handed ctx.channel ++ [area.take ctx.size]) }

/-- `persistentCreditHandler` on `pe`. -/
def persistentCreditHandler (pe : Nat) (sourceHandler : PersistentHandle) (bufIndex : BufIndex)
    (reaches : BufIndex → Bool) : State :=
  match s.lookupSendSlot pe sourceHandler with
  | none => s
  | some slot =>
    (s.setSend ⟨pe, sourceHandler⟩ (some { slot with
      busy := update slot.busy bufIndex false })).flushPending
        reaches ⟨pe, sourceHandler⟩ slot.pending

/-- `persistentDestroyHandler` on `pe`, with `freeRecvSlot`. -/
def persistentDestroyHandler (pe : Nat) (destHandler : PersistentHandle) : State :=
  match s.lookupRecvSlot pe destHandler with
  | none => s
  | some slot =>
    let l : Loc := ⟨pe, destHandler⟩
    { s.setRecv l none with
      freed := s.freed ++ (List.finRange persistBuffersNum).map (slot.channel, ·)
      freedHeld := s.freedHeld ++
        s.held.filter fun h => h.slot = l ∧ some h.channel = slot.channel }

/-- The handler of a message runs on the PE it was sent to. The handler of a `user` message is the
program's. -/
def handle (m : Message) (a : PersistentHandle) (reaches : BufIndex → Bool) : Option State :=
  match m with
  | .request channel destPE requestorPE maxBytes sourceHandler =>
    s.persistentRequestHandler J channel destPE requestorPE maxBytes sourceHandler a
  | .granted _ destPE _ sourceHandler destHandler =>
    some (s.persistentReqGrantedHandler destPE sourceHandler destHandler reaches)
  | .data ctx inlinePayload => s.persistentDataHandler ctx inlinePayload
  | .credit _ destPE sourceHandler bufIndex =>
    some (s.persistentCreditHandler destPE sourceHandler bufIndex reaches)
  | .destroy _ destPE destHandler => some (s.persistentDestroyHandler destPE destHandler)
  | .user channel _ msg =>
    some { s with handed := update s.handed channel (s.handed channel ++ [msg]) }

/-! ## Calls of the program -/

/-- `CmiCreatePersistent` on `pe`, whose allocator returns `a` for the slot. -/
def cmiCreatePersistent (pe destPE : Nat) (maxBytes : Int) (a : PersistentHandle) :
    Option State := do
  let (s, slot) ← s.newSendSlot J pe destPE maxBytes a
  if slot.isLocal then some (s.setSend ⟨pe, a⟩ (some { slot with setupDone := true }))
  else some (s.post (.request slot.channel destPE pe slot.sizeMax a))

/-- `CmiCreateReceiverPersistent` on `pe`. The program passes the request on as it likes. -/
def cmiCreateReceiverPersistent (pe : Nat) (maxBytes : Int) (a : PersistentHandle) :
    Option State := do
  let s ← s.newRecvSlot J pe maxBytes a none
  some { s with reqs := s.reqs ++ [⟨pe, sizeMaxOf maxBytes, a⟩] }

/-- `CmiRegisterReceivePersistent` on `pe` for the request at position `j`. A channel has one
sender: the request is used up. -/
def cmiRegisterReceivePersistent (pe j : Nat) (a : PersistentHandle) : Option State := do
  let req ← s.reqs[j]?
  let recv ← s.receives ⟨req.pe, req.myHand⟩
  let (s, slot) ← s.newSendSlot J pe req.pe req.maxBytes a
  some (({ s with reqs := s.reqs.eraseIdx j }.setSend ⟨pe, a⟩ (some { slot with
    destHandle := req.myHand, setupDone := true })).setRecv ⟨req.pe, req.myHand⟩ (some { recv with
      channel := some slot.channel }))

/-- `CmiPersistentReleaseBuffer` for buffer `i` of the slot at `l`, whose message came on
`channel`. -/
def cmiPersistentReleaseBuffer (l : Loc) (slot : PersistentReceivesTable) (i : BufIndex)
    (channel : Nat) : State :=
  let s' := s.setRecv l (some { slot with source := update slot.source i none })
  match slot.source i with
  | none => s'
  | some (srcPE, srcHandle) => s'.post (.credit channel srcPE srcHandle i)

/-- `CmiFree` of the held message at position `j`. There is nothing left to say about a run that
frees a message in a buffer that is gone. -/
def cmiFree (j : Nat) : Option State := do
  let h ← s.held[j]?
  let slot ← s.receives h.slot
  if slot.channel ≠ some h.channel then none
  else
    let refCount := slot.ref h.index
    let slot := { slot with ref := update slot.ref h.index (refCount - 1) }
    let s := { s with held := s.held.eraseIdx j }
    if refCount = cmkPersistentRefbase + 1 then
      some (s.cmiPersistentReleaseBuffer h.slot slot h.index h.channel)
    else some (s.setRecv h.slot (some slot))

/-- The holder of the message at position `j` writes to it. -/
def modify (j : Nat) (bytes : Buf) : Option State := do
  let h ← s.held[j]?
  let slot ← s.receives h.slot
  if slot.channel ≠ some h.channel ∨ bytes.length ≠ (slot.area h.index).length then none
  else some (s.setRecv h.slot (some { slot with area := update slot.area h.index bytes }))

/-- `CmiDestroyPersistent` on `pe`, with `freeSendSlot`. -/
def cmiDestroyPersistent (pe : Nat) (h : PersistentHandle) : State :=
  match s.lookupSendSlot pe h with
  | none => s
  | some slot =>
    let s := if slot.destHandle = nullptr then s
      else s.post (.destroy slot.channel slot.destPE slot.destHandle)
    { s.setSend ⟨pe, h⟩ none with destroyed := s.destroyed ++ [slot.channel] }

end State

/-! ## Runs -/

/-- What can happen next: a call of the program on a PE, the delivery of the message at a position
of the network, an event of the put at a position, or the release or change of the held message at
a position. -/
inductive Event where
  | create (pe destPE : Nat) (maxBytes : Int) (a : PersistentHandle)
  | createReceiver (pe : Nat) (maxBytes : Int) (a : PersistentHandle)
  | register (pe j : Nat) (a : PersistentHandle)
  | send (pe : Nat) (h : PersistentHandle) (msg : Buf) (reaches : BufIndex → Bool)
  | deliver (i : Nat) (a : PersistentHandle) (reaches : BufIndex → Bool)
  | land (j : Nat)
  | putDone (j : Nat)
  | free (j : Nat)
  | modify (j : Nat) (bytes : Buf)
  | destroy (pe : Nat) (h : PersistentHandle)

/-- One event. -/
def State.step (J : Job) (s : State) : Event → Option State
  | .create pe destPE maxBytes a => s.cmiCreatePersistent J pe destPE maxBytes a
  | .createReceiver pe maxBytes a => s.cmiCreateReceiverPersistent J pe maxBytes a
  | .register pe j a => s.cmiRegisterReceivePersistent J pe j a
  | .send pe h msg reaches => s.cmiSendPersistentMsg J pe h msg reaches
  | .deliver i a reaches => do
      let m ← s.network[i]?
      { s with network := s.network.eraseIdx i }.handle J m a reaches
  | .land j => s.land j
  | .putDone j => s.persistentPutDone j
  | .free j => s.cmiFree j
  | .modify j bytes => s.modify j bytes
  | .destroy pe h => some (s.cmiDestroyPersistent pe h)

/-- `s` goes to `s'` by the event. -/
def Step (J : Job) (s : State) (e : Event) (s' : State) : Prop := s.step J e = some s'

end Reconverse.Persistent
