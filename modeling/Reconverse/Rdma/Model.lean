import Reconverse.Machine.Alloc
import Reconverse.Machine.Message
import Reconverse.Rdma.Spec

/-!
# Zero-copy gets and puts

`CmiIssueRget` and `CmiIssueRput` of `conv-rdma.cpp` with the handlers of their messages. Both
buffers in one process are copied at once. Otherwise the operation is a get or a put of the backend;
if the remote buffer is not registered, its owner is asked to do the opposite operation. Without
remote memory access the bytes travel in a message.

A get or a put of the backend reads its bytes, puts them in place, and completes. It uses the device
that the owner of the remote buffer has named, and its completion handler runs on a PE that polls
this device in the process that has posted it. Messages arrive in any order. An operation of the
source that aborts, or writes to no buffer, has no next state.
-/

namespace Reconverse.Rdma

open Alloc Lib.CInt
open Function (update)

/-- The machine, with the device of the thread of each rank. -/
structure Net extends Machine where
  device : Nat → Nat := fun _ => 0

/-- The device that a PE polls, and that it names for its buffers. -/
def Net.deviceOf (m : Net) (pe : Nat) : Nat := m.device (m.cmiRankOf pe)

/-! ## Operations -/

/-- `ncpyOperationMode`. -/
inductive OpMode where
  | directApi
  | emApi
  | emApiSrcAckInvoke
  | emApiDestAckInvoke
  | emApiReverse
  | bcastEmApi
  | bcastEmApiReverse
  | readonlyBcast
  | zcPup
  deriving DecidableEq, Repr

/-- `ncpyAckMode`. -/
inductive AckMode where
  | srcDestAck
  | srcAck
  | destAck
  deriving DecidableEq, Repr

/-- `ncpyFreeNcpyOpInfoMode`. -/
inductive FreeMe where
  | freeNcpyOpInfo
  | dontFreeNcpyOpInfo
  deriving DecidableEq, Repr

/-- `NcpyOperationInfo`. Ghost state: `op` is the number of the operation. -/
structure NcpyOperationInfo where
  op : Nat
  srcPtr : Nat
  srcPe : Nat
  srcSize : Nat
  isSrcRegistered : Bool
  destPtr : Nat
  destPe : Nat
  destSize : Nat
  isDestRegistered : Bool
  /-- Where the memory region in `destLayerInfo` starts. -/
  destRegion : Nat
  opMode : OpMode
  ackMode : AckMode
  freeMe : FreeMe
  ncpyOpInfoSize : Nat
  deriving DecidableEq, Repr

/-- The length of a transfer. -/
def NcpyOperationInfo.len (info : NcpyOperationInfo) : Nat := min info.srcSize info.destSize

/-- A message, by its handler. -/
inductive RdmaMsg where
  | getRequest (info : NcpyOperationInfo)
  | putData (info : NcpyOperationInfo) (payload : List UInt8)
  | putDone (info : NcpyOperationInfo)
  | regAndPut (info : NcpyOperationInfo)
  | regAndGet (info : NcpyOperationInfo)
  deriving DecidableEq, Repr

/-- How far the backend is with an operation. -/
inductive Stage where
  | issued
  | read (bytes : List UInt8)
  | placed
  deriving DecidableEq, Repr

instance : ∀ stage : Stage, Decidable (∃ bytes, stage = .read bytes)
  | .read bytes => isTrue ⟨bytes, rfl⟩
  | .issued | .placed => isFalse nofun

/-- A get or put of the backend, issued by a PE. -/
structure BackendOp where
  isGet : Bool
  pe : Nat
  info : NcpyOperationInfo
  srcNode : Nat
  srcPtr : Nat
  destNode : Nat
  destPtr : Nat
  len : Nat
  device : Nat
  stage : Stage
  deriving DecidableEq, Repr

/-- A call of `ncpyDirectAckHandlerFn` on a PE. -/
structure Ack where
  pe : Nat
  info : NcpyOperationInfo
  deriving DecidableEq, Repr

/-- A call of `CmiIssueRget` on the PE of the destination, or of `CmiIssueRput` on that of the
source. -/
structure Op where
  isGet : Bool
  info : NcpyOperationInfo
  deriving DecidableEq, Repr

/-- The memory of the processes, and what is in flight. -/
structure State where
  mem : Nat → Memory
  network : List (Nat × RdmaMsg)
  backend : List BackendOp
  acks : List Ack
  /-- Ghost state: the operations that were issued. -/
  ops : List Op

/-- `setReverseModeForNcpyOpInfo`. -/
def setReverseModeForNcpyOpInfo (info : NcpyOperationInfo) : Except Failure NcpyOperationInfo :=
  match info.opMode with
  | .emApi => .ok { info with opMode := .emApiReverse }
  | .directApi => .ok info
  | .bcastEmApi => .ok { info with opMode := .bcastEmApiReverse }
  | _ => .error .abort

namespace State

variable (m : Net) (copyBased : Bool) (s : State)

/-- `CmiSyncSendAndFree`. -/
def send (pe : Nat) (msg : RdmaMsg) : State := { s with network := s.network ++ [(pe, msg)] }

/-- `ncpyDirectAckHandlerFn`. -/
def ncpyDirectAckHandlerFn (pe : Nat) (info : NcpyOperationInfo) : State :=
  { s with acks := s.acks ++ [⟨pe, info⟩] }

/-- `memcpy` into the memory of a process. -/
def memcpy (node dest : Nat) (bytes : List UInt8) : State :=
  { s with mem := update s.mem node ((s.mem node).write dest bytes) }

/-! ## Remote memory access -/

/-- `CommRputLocalHandler`. -/
def commRputLocalHandler (pe : Nat) (info : NcpyOperationInfo) : State :=
  s.ncpyDirectAckHandlerFn pe { info with freeMe := .dontFreeNcpyOpInfo }

/-- `CommRgetLocalHandler`. -/
def commRgetLocalHandler (pe : Nat) (info : NcpyOperationInfo) : State :=
  s.ncpyDirectAckHandlerFn pe { info with freeMe := .dontFreeNcpyOpInfo }

/-- `rdmaIssueGet` on a PE. -/
def rdmaIssueGet (pe : Nat) (info : NcpyOperationInfo) : State :=
  { s with
    backend := s.backend ++ [
      { isGet := true
        pe := pe
        info := info
        srcNode := m.cmiNodeOf info.srcPe
        srcPtr := info.srcPtr
        destNode := m.cmiNodeOf pe
        destPtr := info.destPtr
        len := info.len
        device := m.deviceOf info.srcPe
        stage := .issued }] }

/-- `rdmaIssuePut` on a PE: to the start of the region of the destination. -/
def rdmaIssuePut (pe : Nat) (info : NcpyOperationInfo) : State :=
  { s with
    backend := s.backend ++ [
      { isGet := false
        pe := pe
        info := info
        srcNode := m.cmiNodeOf pe
        srcPtr := info.srcPtr
        destNode := m.cmiNodeOf info.destPe
        destPtr := info.destRegion
        len := info.len
        device := m.deviceOf info.destPe
        stage := .issued }] }

/-- `sendRegRequest`. -/
def sendRegRequest (info : NcpyOperationInfo) (ownerPe : Nat) (msg : RdmaMsg) :
    Except Failure State := do
  let _ ← m.backend.alloc (cmiMsgHeaderSizeBytes + info.ncpyOpInfoSize : Nat)
  pure (s.send ownerPe msg)

/-- `regAndPutHandler`, with `takeRegRequest`. -/
def regAndPutHandler (pe : Nat) (info : NcpyOperationInfo) : Except Failure State := do
  let _ ← m.backend.alloc info.ncpyOpInfoSize
  pure (s.rdmaIssuePut m pe { info with freeMe := .freeNcpyOpInfo, isSrcRegistered := true })

/-- `regAndGetHandler`, with `takeRegRequest`. -/
def regAndGetHandler (pe : Nat) (info : NcpyOperationInfo) : Except Failure State := do
  let _ ← m.backend.alloc info.ncpyOpInfoSize
  pure (s.rdmaIssueGet m pe { info with
    freeMe := .freeNcpyOpInfo, isDestRegistered := true, destRegion := info.destPtr })

/-! ## The copy-based path -/

/-- `CmiIssueRgetCopyBased`. -/
def cmiIssueRgetCopyBased (info : NcpyOperationInfo) : Except Failure State := do
  let _ ← m.backend.alloc (cmiMsgHeaderSizeBytes + info.ncpyOpInfoSize : Nat)
  pure (s.send info.srcPe (.getRequest info))

/-- `CmiIssueRputCopyBased` on a PE. -/
def cmiIssueRputCopyBased (pe : Nat) (info : NcpyOperationInfo) : Except Failure State := do
  let size := int info.srcSize
  let _ ← m.backend.alloc ((cmiMsgHeaderSizeBytes + info.ncpyOpInfoSize : Nat) + size)
  -- The `memcpy` of a negative size leaves both buffers.
  if size < 0 then throw .fault
  let embedded := if info.ackMode ≠ .destAck then { info with ackMode := .srcDestAck } else info
  pure (s.send info.destPe
    (.putData embedded ((s.mem (m.cmiNodeOf pe)).read info.srcPtr size.toNat)))

/-- `CmiIssueRput` on a PE. -/
def cmiIssueRput (pe : Nat) (info : NcpyOperationInfo) : Except Failure State :=
  if m.cmiNodeOf info.destPe = m.cmiNodeOf pe then
    let bytes := (s.mem (m.cmiNodeOf pe)).read info.srcPtr info.len
    .ok ((s.memcpy (m.cmiNodeOf pe) info.destPtr bytes).commRputLocalHandler pe info)
  else if !copyBased then
    if info.isDestRegistered = false then s.sendRegRequest m info info.destPe (.regAndGet info)
    else .ok (s.rdmaIssuePut m pe info)
  else s.cmiIssueRputCopyBased m pe info

/-- `CmiIssueRget` on a PE. -/
def cmiIssueRget (pe : Nat) (info : NcpyOperationInfo) : Except Failure State :=
  if m.cmiNodeOf info.srcPe = m.cmiNodeOf pe then
    let bytes := (s.mem (m.cmiNodeOf pe)).read info.srcPtr info.len
    .ok ((s.memcpy (m.cmiNodeOf pe) info.destPtr bytes).commRgetLocalHandler pe info)
  else if !copyBased then
    if info.isSrcRegistered = false then do
      let info ← setReverseModeForNcpyOpInfo info
      s.sendRegRequest m info info.srcPe (.regAndPut info)
    else .ok (s.rdmaIssueGet m pe info)
  else s.cmiIssueRgetCopyBased m info

/-- `getRequestHandler`. -/
def getRequestHandler (pe : Nat) (info : NcpyOperationInfo) : Except Failure State :=
  s.cmiIssueRput m copyBased pe { info with freeMe := .dontFreeNcpyOpInfo, ackMode := .destAck }

/-- `putDataHandler`. -/
def putDataHandler (pe : Nat) (info : NcpyOperationInfo) (payload : List UInt8) :
    Except Failure State :=
  let s := s.memcpy (m.cmiNodeOf pe) info.destPtr (payload.take info.len)
  let info := { info with freeMe := .dontFreeNcpyOpInfo }
  if info.ackMode = .destAck then
    .ok (s.ncpyDirectAckHandlerFn pe { info with ackMode := .srcDestAck })
  else do
    let _ ← m.backend.alloc (cmiMsgHeaderSizeBytes + info.ncpyOpInfoSize : Nat)
    pure (s.send info.srcPe (.putDone info))

/-- `putDoneHandler`. -/
def putDoneHandler (pe : Nat) (info : NcpyOperationInfo) : State :=
  s.ncpyDirectAckHandlerFn pe { info with freeMe := .dontFreeNcpyOpInfo, ackMode := .srcDestAck }

/-- The handler of a message, on the PE to which it was sent. -/
def handle (pe : Nat) : RdmaMsg → Except Failure State
  | .getRequest info => s.getRequestHandler m copyBased pe info
  | .putData info payload => s.putDataHandler m pe info payload
  | .putDone info => .ok (s.putDoneHandler pe info)
  | .regAndPut info => s.regAndPutHandler m pe info
  | .regAndGet info => s.regAndGetHandler m pe info

/-! ## The backend -/

/-- The backend reads the bytes of an operation. -/
def backendRead (j : Nat) : Option State := do
  let r ← s.backend[j]?
  match r.stage with
  | .issued =>
    let bytes := (s.mem r.srcNode).read r.srcPtr r.len
    some { s with backend := s.backend.set j { r with stage := .read bytes } }
  | _ => none

/-- The backend puts the bytes of an operation in place. -/
def backendPlace (j : Nat) : Option State := do
  let r ← s.backend[j]?
  match r.stage with
  | .read bytes =>
    some { s.memcpy r.destNode r.destPtr bytes with
      backend := s.backend.set j { r with stage := .placed } }
  | _ => none

/-- An operation of the backend completes; its handler runs on a PE. -/
def backendComplete (j pe : Nat) : Option State := do
  let r ← s.backend[j]?
  match r.stage with
  | .placed =>
    let s := { s with backend := s.backend.eraseIdx j }
    some (if r.isGet then s.commRgetLocalHandler pe r.info else s.commRputLocalHandler pe r.info)
  | _ => none

end State

/-! ## Runs -/

/-- The program writes a byte or issues an operation, a message arrives, or the backend gets on. -/
inductive Event where
  | write (node a : Nat) (b : UInt8)
  | issue (op : Op)
  | deliver (j : Nat)
  | backendRead (j : Nat)
  | backendPlace (j : Nat)
  | backendComplete (j pe : Nat)
  deriving DecidableEq, Repr

def State.initial (mem : Nat → Memory) : State := ⟨mem, [], [], [], []⟩

section

variable (m : Net) (copyBased : Bool)

/-- The state after an event. -/
def State.exec (s : State) : Event → Option State
  | .write node a b => some { s with mem := update s.mem node (update (s.mem node) a b) }
  | .issue op => do
    let info := { op.info with op := s.ops.length }
    let s ← (if op.isGet then s.cmiIssueRget m copyBased info.destPe info
      else s.cmiIssueRput m copyBased info.srcPe info).toOption
    some { s with ops := s.ops ++ [op] }
  | .deliver j => do
    let (pe, msg) ← s.network[j]?
    (State.handle m copyBased { s with network := s.network.eraseIdx j } pe msg).toOption
  | .backendRead j => s.backendRead j
  | .backendPlace j => s.backendPlace j
  | .backendComplete j pe => s.backendComplete j pe

/-- Both buffers are in different processes. -/
def Op.Remote (op : Op) : Prop := m.cmiNodeOf op.info.srcPe ≠ m.cmiNodeOf op.info.destPe

instance (op : Op) : Decidable (op.Remote m) := inferInstanceAs (Decidable (_ ≠ _))

/-- What the program promises of an operation: the sizes are below `2 ^ 31`, the information is as
`setNcpyOpInfo` sets it, and with remote memory access the destination of a get is registered. -/
@[mk_iff]
structure Op.Allowed (op : Op) : Prop where
  srcSize : op.info.srcSize < 2 ^ 31
  destSize : op.info.destSize < 2 ^ 31
  infoSize : 0 < op.info.ncpyOpInfoSize ∧ op.info.ncpyOpInfoSize < 2 ^ 15
  ackMode : op.info.ackMode = .srcDestAck
  region : op.info.isDestRegistered = true → op.info.destRegion = op.info.destPtr
  initiator : op.isGet = true → copyBased = false → op.Remote m → op.info.isDestRegistered = true

/-- The PE that has issued an operation, and the PE of the other buffer. -/
def Op.initiatorPe (op : Op) : Nat := if op.isGet then op.info.destPe else op.info.srcPe

def Op.remotePe (op : Op) : Nat := if op.isGet then op.info.srcPe else op.info.destPe

def Op.remoteRegistered (op : Op) : Bool :=
  if op.isGet then op.info.isSrcRegistered else op.info.isDestRegistered

/-- The operation is done by the owner of the remote buffer, which is not registered. -/
def Op.Reversed (op : Op) : Prop := op.Remote m ∧ copyBased = false ∧ op.remoteRegistered = false

instance (op : Op) : Decidable (op.Reversed m copyBased) := inferInstanceAs (Decidable (_ ∧ _))

/-- The PE that does an operation and is told of its end, and the PE of the buffer that it
reaches. -/
def Op.ackPe (op : Op) : Nat := if op.Reversed m copyBased then op.remotePe else op.initiatorPe

def Op.reachedPe (op : Op) : Nat := if op.Reversed m copyBased then op.initiatorPe else op.remotePe

/-- The operation is done by remote memory access. -/
def Op.Rma (op : Op) : Prop := copyBased = false ∧ op.Remote m

instance (op : Op) : Decidable (op.Rma m copyBased) := inferInstanceAs (Decidable (_ ∧ _))

/-- The PE may poll the device: it is its own, or the PE has posted an operation there, for which
`progressForPost` polls it. -/
def State.Polls (s : State) (pe device : Nat) : Prop :=
  m.deviceOf pe = device ∨ ∃ op ∈ s.ops, op.Rma m copyBased ∧ op.ackPe m copyBased = pe ∧
    m.deviceOf (op.reachedPe m copyBased) = device

instance (s : State) (pe device : Nat) : Decidable (s.Polls m copyBased pe device) :=
  inferInstanceAs (Decidable (_ ∨ _))

/-- The events that may happen. -/
def State.Allowed (s : State) : Event → Prop
  | .write _ _ _ => True
  | .issue op => op.Allowed m copyBased
  | .deliver j => j < s.network.length
  | .backendRead j => ∃ r, s.backend[j]? = some r ∧ r.stage = .issued
  | .backendPlace j => ∃ r bytes, s.backend[j]? = some r ∧ r.stage = .read bytes
  | .backendComplete j pe => ∃ r, s.backend[j]? = some r ∧ r.stage = .placed ∧
      m.cmiNodeOf pe = m.cmiNodeOf r.pe ∧ s.Polls m copyBased pe r.device

instance (op : Op) : Decidable (op.Allowed m copyBased) :=
  decidable_of_iff' _ (op.allowed_iff m copyBased)

instance (s : State) : ∀ e, Decidable (s.Allowed m copyBased e)
  | .write _ _ _ => isTrue trivial
  | .issue op => inferInstanceAs (Decidable (op.Allowed m copyBased))
  | .deliver j => inferInstanceAs (Decidable (j < s.network.length))
  | .backendRead j => inferInstanceAs (Decidable (∃ r ∈ s.backend[j]?, r.stage = .issued))
  | .backendPlace j => decidable_of_iff (∃ r ∈ s.backend[j]?, ∃ bytes, r.stage = .read bytes)
      (exists_congr fun _ => exists_and_left.symm)
  | .backendComplete j pe => inferInstanceAs (Decidable (∃ r ∈ s.backend[j]?, r.stage = .placed ∧
      m.cmiNodeOf pe = m.cmiNodeOf r.pe ∧ s.Polls m copyBased pe r.device))

def Step (s : State) (e : Event) (s' : State) : Prop :=
  s.Allowed m copyBased e ∧ s.exec m copyBased e = some s'

/-- What an operation has to do. -/
def Op.transfer (op : Op) : Transfer where
  srcNode := m.cmiNodeOf op.info.srcPe
  srcPtr := op.info.srcPtr
  destNode := m.cmiNodeOf op.info.destPe
  destPtr := op.info.destPtr
  len := min op.info.srcSize op.info.destSize
  ackPe := op.ackPe m copyBased

/-- `CmiAlloc` can serve the message with the bytes, a get whose source is not registered has a mode
that can be reversed, and in the process that does an operation by remote memory access the PE that
does it, and no other, has the device of the buffer that it reaches. -/
@[mk_iff]
structure Op.Sound (op : Op) : Prop where
  size : copyBased = true → op.Remote m →
    (cmiMsgHeaderSizeBytes + op.info.ncpyOpInfoSize + op.info.srcSize : Nat) ≤ maxSize m.backend
  mode : op.isGet = true → op.Reversed m copyBased →
    op.info.opMode = .directApi ∨ op.info.opMode = .emApi ∨ op.info.opMode = .bcastEmApi
  device : op.Rma m copyBased → ∀ pe ∈ m.cmiNodePes (m.cmiNodeOf (op.ackPe m copyBased)),
    (m.deviceOf pe = m.deviceOf (op.reachedPe m copyBased) ↔ pe = op.ackPe m copyBased)

/-- An operation that is issued is sound. -/
def Event.Sound : Event → Prop
  | .issue op => op.Sound m copyBased
  | _ => True

instance (op : Op) : Decidable (op.Sound m copyBased) :=
  decidable_of_iff' _ (op.sound_iff m copyBased)

instance : ∀ e : Event, Decidable (e.Sound m copyBased)
  | .issue op => inferInstanceAs (Decidable (op.Sound m copyBased))
  | .write _ _ _ | .deliver _ | .backendRead _ | .backendPlace _ | .backendComplete _ _ =>
    isTrue trivial

end

end Reconverse.Rdma
