import Reconverse.Collectives.Broadcast
import Reconverse.Collectives.ListSend
import Reconverse.Partition.Model

/-!
# The seed balancer

The `rand` strategy of the seed balancer sends a message to a PE or a node, to all of them, or to
the PEs of a list or a group. It puts `CldHandler` or `CldNodeHandler` in the place of the message's
own handler, which is parked in the header, and stores the index of the info function there. Where
the message arrives the handler is restored and the message is queued again. A message that may
leave the process is packed first.

Under the seed balancer are point-to-point sends, spanning-tree broadcasts, list sends and
within-node broadcasts. The broadcasts are those of `Collectives.Broadcast`. List sends are modelled
here on messages and not on bytes: a fan-out message is the payload message with its trailer. A
message is memory of `CmiAlloc`, which can therefore serve a copy of it; a fan-out message is
larger.
-/

namespace Reconverse.Cld

/-- `CLD_ANYWHERE`. -/
def cldAnywhere : Int := -1

/-- `CLD_BROADCAST`. -/
def cldBroadcast : Int := -2

/-- `CLD_BROADCAST_ALL`. -/
def cldBroadcastAll : Int := -3

/-- `CMK_ZC_BCAST_RECV_MSG`. -/
def cmkZcBcastRecvMsg : Nat := 5

/-- A handler table with the two handlers that `CldModuleInit` registers. For the layers below they
are handlers of the program, with the numbers `cldFn` and `cldNodeFn`. -/
structure CldHandlers extends Handlers where
  cldHandlerIndex : Nat
  cldNodeHandlerIndex : Nat
  cldFn : Nat
  cldNodeFn : Nat
  cld_entry : table[cldHandlerIndex]? = some (.user cldFn)
  cldNode_entry : table[cldNodeHandlerIndex]? = some (.user cldNodeFn)
  fn_ne : cldFn ≠ cldNodeFn

/-- The index belongs to a handler of the program above the seed balancer. -/
def CldHandlers.IsProgram (hs : CldHandlers) (id : Nat) : Prop :=
  ∃ fn, hs.table[id]? = some (.user fn) ∧ fn ≠ hs.cldFn ∧ fn ≠ hs.cldNodeFn

/-- `CldModuleInit` after `collectiveInit`, with `later` registered after it. -/
def cldModuleInit (before later : List Handler) (cldFn cldNodeFn : Nat) (hne : cldFn ≠ cldNodeFn) :
    CldHandlers where
  toHandlers := collectiveInit before (.user cldFn :: .user cldNodeFn :: later)
  cldHandlerIndex := before.length + 6
  cldNodeHandlerIndex := before.length + 7
  cldFn := cldFn
  cldNodeFn := cldNodeFn
  cld_entry := by simp [collectiveInit, collectiveHandlers]
  cldNode_entry := by simp [collectiveInit, collectiveHandlers]
  fn_ne := hne

/-- An info function: the pack function that it reports for a message, if any. The length that it
reports is that of the message. A pack function may replace the message, but keeps the handler and
the kind of it. -/
structure CldInfoFn where
  pack : Msg → Option (Msg → Msg)
  pack_handlerId : ∀ {msg pfn}, pack msg = some pfn →
    (pfn msg).header.handlerId = msg.header.handlerId
  pack_nokeep : ∀ {msg pfn}, pack msg = some pfn → (pfn msg).header.nokeep = msg.header.nokeep
  pack_zcMsgType : ∀ {msg pfn}, pack msg = some pfn →
    (pfn msg).header.zcMsgType = msg.header.zcMsgType

/-- The message after its pack function. -/
def CldInfoFn.packed (ifn : CldInfoFn) (msg : Msg) : Msg :=
  match ifn.pack msg with
  | some pfn => pfn msg
  | none => msg

/-- The length of a message. -/
def size (msg : Msg) : Nat := cmiMsgHeaderSizeBytes + msg.payload.length

/-- `CldSwitchHandler`. -/
def cldSwitchHandler (msg : Msg) (handler : Nat) : Msg :=
  { msg with header := { msg.header with
      swapHandlerId := msg.header.handlerId
      handlerId := handler } }

/-- `CldRestoreHandler`. -/
def cldRestoreHandler (msg : Msg) : Msg := msg.setHandler msg.header.swapHandlerId

/-- `CmiSetInfo`. -/
def cmiSetInfo (msg : Msg) (infofn : Nat) : Msg :=
  { msg with header := { msg.header with cldInfoFn := infofn } }

/-- A message on its way: as such, or with the trailer of a fan-out message behind it. -/
inductive Transit where
  | packet (packet : Packet)
  | fanout (pe : Nat) (msg : Msg) (handlerId : Nat) (ranks : List Nat)
  deriving DecidableEq, Repr

/-! ## List sends -/

section ListSend

variable (m : Machine) (hs : CldHandlers)

/-- `CmiListSendToProcess`. If the total size is more than `CmiAlloc` can serve, it fails, or the
memory that it returns does not have room for the message. -/
def cmiListSendToProcess (len : Nat) (msg : Msg) (first : Nat) (rest : List Nat) :
    Option (List Transit) :=
  if rest = [] then do
    let sent ← m.cmiSyncSend first len msg
    some [.packet sent]
  else do
    guard (Wire.cmiFanoutTotalSize len (rest.length + 1) ≤ Alloc.maxSize m.backend)
    let sent ← m.cmiSyncSend first len
      ((Machine.setMessageSize len msg).setHandler hs.fanoutHandler)
    some [.fanout first sent.msg msg.header.handlerId ((first :: rest).map m.cmiRankOf)]

/-- The loop body of `CmiSyncListSend`: the entries `first :: rest` of one process. -/
def sendGroup (me len : Nat) (msg : Msg) (first : Nat) (rest : List Nat) :
    Option (List Transit) :=
  if m.cmiNodeOf first = m.cmiNodeOf me then do
    let sent ← (first :: rest).mapM (m.cmiSyncSend · len msg)
    some (sent.map .packet)
  else cmiListSendToProcess m hs len msg first rest

/-- The loop of `CmiSyncListSend` over the sorted destinations. -/
def sendByProcess (me len : Nat) (msg : Msg) : (fuel : Nat) → List Nat → Option (List Transit)
  | 0, _ => some []
  | _, [] => some []
  | fuel + 1, first :: order => do
    let node := m.cmiNodeOf first
    let sent ← sendGroup m hs me len msg first (order.takeWhile (m.cmiNodeOf · == node))
    let more ← sendByProcess me len msg fuel (order.dropWhile (m.cmiNodeOf · == node))
    some (sent ++ more)

/-- `CmiSyncListSend`; `phs` says whether an array of persistent handles is installed. -/
def cmiSyncListSend (me : Nat) (phs : Bool) (pes : List Nat) (len : Nat) (msg : Msg) :
    Option (List Transit) :=
  if pes.length = 1 ∨ m.numNodes = 1 ∨ phs then do
    let sent ← pes.mapM (m.cmiSyncSend · len msg)
    some (sent.map .packet)
  else sendByProcess m hs me len msg pes.length (Wire.sortByNode m pes)

/-- `CmiFanoutHandler` on a PE: copies for the other ranks, and the message for the first one. -/
def cmiFanoutHandler (pe : Nat) (msg : Msg) (handlerId : Nat) (ranks : List Nat) : List Packet :=
  let msg := msg.setHandler handlerId
  let first := m.cmiNodeFirst (m.cmiNodeOf pe)
  (ranks.tail ++ ranks.take 1).map fun rank => ⟨.pe (first + rank), msg.stamp (some (first + rank))⟩

end ListSend

/-! ## The enqueue functions -/

section Enqueue

variable (m : Machine) (hs : CldHandlers) (ifn : CldInfoFn) (infofn me : Nat) (rand : Int)

/-- `((CrnRand() + me) & 0x7FFFFFFF) % n`. -/
def anywhere (rand : Int) (me n : Nat) : Nat := ((rand + me) % 2 ^ 31).toNat % n

/-- The message as it is handed to the layers below. -/
def switched (handler : Nat) (msg : Msg) : Msg :=
  cmiSetInfo (cldSwitchHandler msg handler) infofn

/-- `CldNodeEnqueue`, called on PE `me`; `rand` is the result of `CrnRand`. -/
def cldNodeEnqueue (node : Int) (msg : Msg) : Option (List Transit) :=
  let myNode := m.cmiNodeOf me
  let node : Int := if node = cldAnywhere then anywhere rand myNode m.numNodes else node
  if node = myNode then some [.packet ⟨.node myNode, msg⟩]
  else do
    let msg := switched infofn hs.cldNodeHandlerIndex (ifn.packed msg)
    if node = cldBroadcast then
      let (_, sent) ← m.cmiSyncNodeBroadcast hs.toHandlers myNode (size msg) msg
      some (sent.map .packet)
    else if node = cldBroadcastAll then
      let (_, sent) ← m.cmiSyncNodeBroadcastAll hs.toHandlers myNode (size msg) msg
      some (sent.map .packet)
    else
      guard (0 ≤ node)
      let sent ← m.cmiSyncNodeSend node.toNat (size msg) msg
      some [.packet sent]

/-- `CldEnqueue` behind the choice of a PE for `CLD_ANYWHERE`. The message is packed if `CmiNodeOf`
gives another node for `pe`, which may be a marker. -/
def cldEnqueueAt (pe : Int) (msg : Msg) : Option (List Transit) :=
  if pe = me then some [.packet ⟨.pe me, msg⟩]
  else do
    let msg := if Partition.cmiNodeOf m.nodeSize pe ≠ m.cmiNodeOf me then ifn.packed msg else msg
    let msg := switched infofn hs.cldHandlerIndex msg
    if pe = cldBroadcast then
      let (_, sent) ← m.cmiSyncBroadcast hs.toHandlers me (size msg) msg
      some (sent.map .packet)
    else if pe = cldBroadcastAll then
      let (_, sent) ← m.cmiSyncBroadcastAll hs.toHandlers me (size msg) msg
      some (sent.map .packet)
    else
      guard (0 ≤ pe)
      let sent ← m.cmiSyncSend pe.toNat (size msg) msg
      some [.packet sent]

/-- `CldEnqueue`. -/
def cldEnqueue (pe : Int) (msg : Msg) : Option (List Transit) :=
  if pe = cldAnywhere then
    let pe := anywhere rand me m.cmiNumPes
    if m.cmiNodeOf pe = m.cmiNodeOf me then
      cldNodeEnqueue m hs ifn infofn me rand (m.cmiNodeOf me) msg
    else cldEnqueueAt m hs ifn infofn me pe msg
  else cldEnqueueAt m hs ifn infofn me pe msg

/-- `CldEnqueueMulti`. -/
def cldEnqueueMulti (phs : Bool) (pes : List Nat) (msg : Msg) : Option (List Transit) :=
  let msg := switched infofn hs.cldHandlerIndex (ifn.packed msg)
  cmiSyncListSend m hs me phs pes (size msg) msg

/-- `CldEnqueueGroup`; `pes` is what `CmiLookupGroup` finds, and empty if it finds no group. -/
def cldEnqueueGroup (phs : Bool) (pes : List Nat) (msg : Msg) : Option (List Transit) :=
  let msg := switched infofn hs.cldHandlerIndex (ifn.packed msg)
  if pes = [] then none else cmiSyncListSend m hs me phs pes (size msg) msg

/-- The PEs that `CmiWithinNodeBroadcast` gives a message to. -/
def withinNodePes (msg : Msg) : List Nat :=
  (if msg.header.zcMsgType ≠ cmkZcBcastRecvMsg then
    (m.cmiNodePes (m.cmiNodeOf me)).filter (· ≠ me)
  else []) ++ [me]

/-- The message that `CldEnqueueWithinNode` hands to `CmiWithinNodeBroadcast`. -/
def withinNodeMsg (msg : Msg) : Msg :=
  switched infofn hs.cldHandlerIndex (if msg.header.nokeep then msg else ifn.packed msg)

/-- `CldEnqueueWithinNode` of a message that is not shared (`nokeep`): a copy for each peer, and the
message itself for the PE. -/
def cldEnqueueWithinNode (msg : Msg) : List Transit :=
  let msg := withinNodeMsg hs ifn infofn msg
  (withinNodePes m me msg).map fun pe =>
    .packet ⟨.pe pe, if pe = me then msg.stamp (some me) else msg⟩

end Enqueue

/-! ## Arrival -/

/-- A call of a handler of the program, or of one of the two handlers of the seed balancer. -/
inductive Run where
  | user (packet : Packet)
  | cld (packet : Packet)
  deriving DecidableEq, Repr

section Arrival

variable (m : Machine) (hs : CldHandlers)

/-- A handler that is not one of the layers below is called. `CldHandler` queues the message on its
PE, and `CldNodeHandler` on the node. `CldHandler` is not called for a message from a node queue. -/
def callHandler (packet : Packet) : Option (List Transit × List Run) :=
  match hs.table[packet.msg.header.handlerId]? with
  | some (.user fn) =>
    if fn = hs.cldFn then
      match packet.dest with
      | .pe pe => some ([.packet ⟨.pe pe, cldRestoreHandler packet.msg⟩], [.cld packet])
      | .node _ => none
    else if fn = hs.cldNodeFn then
      let node := match packet.dest with
        | .pe pe => m.cmiNodeOf pe
        | .node node => node
      some ([.packet ⟨.node node, cldRestoreHandler packet.msg⟩], [.cld packet])
    else some ([], [.user packet])
  | _ => none

/-- What handling a message on its way puts on its way, and the handler calls that it makes. -/
def handle : Transit → Option (List Transit × List Run)
  | .packet packet => do
    let (sent, ran) ← m.handleBcast hs.toHandlers packet
    let called ← ran.mapM (callHandler m hs)
    some (sent.map .packet ++ called.flatMap Prod.fst, called.flatMap Prod.snd)
  | .fanout pe msg handlerId ranks =>
    some ((cmiFanoutHandler m pe msg handlerId ranks).map .packet, [])

end Arrival

/-! ## Routes -/

/-- A call of the seed balancer. The list of `group` is the one of the group. -/
inductive Route where
  | enqueue (pe : Int)
  | nodeEnqueue (node : Int)
  | multi (pes : List Nat)
  | group (pes : List Nat)
  | withinNode
  deriving DecidableEq, Repr

namespace Route

variable (m : Machine) (hs : CldHandlers) (ifn : CldInfoFn) (infofn me : Nat) (rand : Int)
  (phs : Bool)

/-- The call on PE `me`. -/
def start (msg : Msg) : Route → Option (List Transit)
  | .enqueue pe => cldEnqueue m hs ifn infofn me rand pe msg
  | .nodeEnqueue node => cldNodeEnqueue m hs ifn infofn me rand node msg
  | .multi pes => cldEnqueueMulti m hs ifn infofn me phs pes msg
  | .group pes => cldEnqueueGroup m hs ifn infofn me phs pes msg
  | .withinNode => some (cldEnqueueWithinNode m hs ifn infofn me msg)

/-- The call names existing PEs or nodes, or is given a marker. -/
def Valid : Route → Prop
  | .enqueue pe => 0 ≤ pe ∧ pe < m.cmiNumPes ∨ pe = cldAnywhere ∨ pe = cldBroadcast ∨
      pe = cldBroadcastAll
  | .nodeEnqueue node => 0 ≤ node ∧ node < m.numNodes ∨ node = cldAnywhere ∨ node = cldBroadcast ∨
      node = cldBroadcastAll
  | .multi pes => ∀ pe ∈ pes, pe < m.cmiNumPes
  | .group pes => pes ≠ [] ∧ ∀ pe ∈ pes, pe < m.cmiNumPes
  | .withinNode => True

end Route

end Reconverse.Cld
