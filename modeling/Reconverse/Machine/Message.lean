import Reconverse.Machine.Topology

/-!
# Messages, handlers and point-to-point sends

A message is a `CmiMessageHeader` followed by payload bytes; message sizes count both. A send
copies the message and stamps the destination. What is in flight, on the network or on a local
queue, is a `Packet`: a copy together with where it goes.
-/

namespace Reconverse

open List

/-- `CmiMessageHeader`. A `destPE` of `none` is `CmiMessageDestPENode`, the mark of a message
for a node queue. -/
structure CmiMessageHeader where
  handlerId : Nat
  cldInfoFn : Nat
  destPE : Option Nat
  messageSize : Nat
  collectiveMetaInfo : Nat
  swapHandlerId : Nat
  bcastSwapHandlerId : Nat
  nokeep : Bool
  zcMsgType : Nat
  deriving DecidableEq, Repr

/-- `CmiMessageDestPENode` as the number that stands in the header. -/
def cmiMessageDestPENode : Nat := 2 ^ 32 - 1

/-- `CmiMsgHeaderSizeBytes`, the size of the header with its two bytes of padding. -/
def cmiMsgHeaderSizeBytes : Nat := 24

/-- A message: its header and the bytes behind it. -/
structure Msg where
  header : CmiMessageHeader
  payload : List UInt8
  deriving DecidableEq, Repr

namespace Msg

/-- The first `size` bytes of a message, as `memcpy` copies them. Sizes here are at least
`cmiMsgHeaderSizeBytes`. -/
def copy (msg : Msg) (size : Nat) : Msg :=
  ⟨msg.header, msg.payload.take (size - cmiMsgHeaderSizeBytes)⟩

/-- The message with `destPE` stamped into its header. -/
def stamp (msg : Msg) (destPE : Option Nat) : Msg :=
  { msg with header := { msg.header with destPE := destPE } }

/-- `CmiSetHandler`. -/
def setHandler (msg : Msg) (handlerId : Nat) : Msg :=
  { msg with header := { msg.header with handlerId := handlerId } }

end Msg

/-- Where a message goes: the queue of one PE, or the queue of a node, from which any PE of the
node takes it. -/
inductive Dest where
  | pe (pe : Nat)
  | node (node : Nat)
  deriving DecidableEq, Repr

/-- A message on its way. -/
structure Packet where
  dest : Dest
  msg : Msg
  deriving DecidableEq, Repr

namespace Machine

variable (m : Machine)

/-- `CmiSyncSend`: a copy of the message goes to `destPE`. A PE whose node is out of range is
`CmiAbort`. -/
def cmiSyncSend (destPE size : Nat) (msg : Msg) : Option Packet :=
  if m.cmiNodeOf destPE ≥ m.numNodes then none
  else some ⟨.pe destPE, (msg.copy size).stamp (some destPE)⟩

/-- `CmiSyncNodeSend`: a copy of the message goes to the queue of `destNode`. A node out of
range is `CmiAbort`. -/
def cmiSyncNodeSend (destNode size : Nat) (msg : Msg) : Option Packet :=
  if destNode ≥ m.numNodes then none
  else some ⟨.node destNode, (msg.copy size).stamp none⟩

variable {m} {ds : List Nat}

theorem sync_send_eq {destPE : Nat} (h : destPE < m.cmiNumPes) (size : Nat) (msg : Msg) :
    m.cmiSyncSend destPE size msg = some ⟨.pe destPE, (msg.copy size).stamp (some destPE)⟩ := by
  rw [cmiSyncSend, if_neg (Nat.not_le.mpr (lt_num_pes_iff.mp h))]

theorem sync_node_send_eq {destNode : Nat} (h : destNode < m.numNodes) (size : Nat) (msg : Msg) :
    m.cmiSyncNodeSend destNode size msg = some ⟨.node destNode, (msg.copy size).stamp none⟩ := by
  rw [cmiSyncNodeSend, if_neg (Nat.not_le.mpr h)]

/-- A loop of sends to existing PEs does not abort. -/
theorem sync_send_loop (h : ∀ d ∈ ds, d < m.cmiNumPes) (size : Nat) (msg : Msg) :
    ds.mapM (m.cmiSyncSend · size msg) =
      some (ds.map fun d => ⟨.pe d, (msg.copy size).stamp (some d)⟩) := by
  induction ds with
  | nil => rfl
  | cons d ds ih =>
    simp only [mem_cons, forall_eq_or_imp] at h
    simp [mapM_cons, sync_send_eq h.1, ih h.2]

/-- A loop of `CmiSyncNodeSend` sends one copy to each node. -/
theorem sync_node_send_loop (h : ∀ d ∈ ds, d < m.numNodes) (size : Nat)
    (msg : Msg) : ds.mapM (m.cmiSyncNodeSend · size msg) =
      some (ds.map fun d => ⟨.node d, (msg.copy size).stamp none⟩) := by
  induction ds with
  | nil => rfl
  | cons d ds ih =>
    simp only [mem_cons, forall_eq_or_imp] at h
    simp [mapM_cons, sync_node_send_eq h.1, ih h.2]

end Machine

/-! ## The handler table -/

/-- What a handler index stands for: one of the handlers `collectiveInit` registers, or a
handler of the program, identified by a number. -/
inductive Handler where
  | bcast
  | nodeBcast
  | group
  | reduce
  | nodeReduce
  | fanout
  | user (fn : Nat)
  deriving DecidableEq, Repr

/-- The handlers that `collectiveInit` registers, in its order. -/
def collectiveHandlers : List Handler := [.bcast, .nodeBcast, .group, .reduce, .nodeReduce, .fanout]

/-- A handler table, the same on every PE, with the indices `collectiveInit` obtained from
`CmiRegisterHandler` for the broadcast relays and the fan-out handler. -/
structure Handlers where
  table : List Handler
  bcastHandler : Nat
  nodeBcastHandler : Nat
  fanoutHandler : Nat
  bcast_entry : table[bcastHandler]? = some .bcast
  nodeBcast_entry : table[nodeBcastHandler]? = some .nodeBcast
  fanout_entry : table[fanoutHandler]? = some .fanout

/-- `collectiveInit` on a table that already holds `before`, with `later` registered after it.
`CmiRegisterHandler` appends and returns the index. -/
def collectiveInit (before later : List Handler) : Handlers where
  table := before ++ collectiveHandlers ++ later
  bcastHandler := before.length
  nodeBcastHandler := before.length + 1
  fanoutHandler := before.length + 5
  bcast_entry := by simp [collectiveHandlers]
  nodeBcast_entry := by simp [collectiveHandlers]
  fanout_entry := by simp [collectiveHandlers]

/-- The index belongs to a handler of the program. -/
def Handlers.IsUser (hs : Handlers) (id : Nat) : Prop :=
  ∃ fn, hs.table[id]? = some (.user fn)

end Reconverse
