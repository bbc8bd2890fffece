import Reconverse.Lib.Dispatch
import Reconverse.Machine.Message

/-!
# Spanning-tree broadcasts

`CmiSyncBroadcast`, `CmiSyncBroadcastAll` and the node broadcasts send along a `CST_W`-ary tree
over the nodes that is rooted at the sender's node. The user's handler index travels in
`bcastSwapHandlerId` while `handlerId` names the relay handler. The main result is
`broadcast_delivers_like_flat_loop`: whatever the order of delivery, the handler runs are those
of the loop of point-to-point sends that the code uses without the spanning tree.
-/

namespace Reconverse

open Lib List Machine RootedTree
open Option (bind_some)

variable {packet : Packet} {node : Nat} {pe : Nat}

namespace Machine

variable (m : Machine)

/-! ## The broadcast functions -/

/-- The number of a node relative to the root of the broadcast. -/
def relNode (rootNode node : Nat) : Nat :=
  if node < rootNode then node + m.numNodes - rootNode else node - rootNode

/-- The node with a given number relative to the root of the broadcast. -/
def absNode (rootNode rel : Nat) : Nat :=
  if rel + rootNode ≥ m.numNodes then rel + rootNode - m.numNodes else rel + rootNode

/-- `CmiSpanTreeForwardToNodes`: the nodes `sendFn` is called on, in order. -/
def cmiSpanTreeForwardToNodes (myNode rootNode : Nat) : List Nat :=
  let rel := m.relNode rootNode myNode
  -- The loop breaks at the first child number that is out of range.
  (((List.range cstW).map fun i => rel * cstW + i + 1).takeWhile (· < m.numNodes)).map
    (m.absNode rootNode)

/-- `CmiBcastSendToPeers`: a copy with the user's handler for every other PE of the node. The
message is handed back with the handler it came with. -/
def cmiBcastSendToPeers (myPe size : Nat) (msg : Msg) : Option (Msg × List Packet) :=
  if m.nodeSize ≤ 1 then some (msg, [])
  else do
    let forwardHandler := msg.header.handlerId
    let msg := msg.setHandler msg.header.bcastSwapHandlerId
    let ranks := (List.range m.nodeSize).filter (· ≠ m.cmiRankOf myPe)
    let first := m.cmiNodeFirst (m.cmiNodeOf myPe)
    let sent ← (ranks.map (first + ·)).mapM (m.cmiSyncSend · size msg)
    pure (msg.setHandler forwardHandler, sent)

/-- `CmiBcastForward`: one relay step of a PE-level broadcast. -/
def cmiBcastForward (myPe size : Nat) (msg : Msg) : Option (Msg × List Packet) := do
  let children := m.cmiSpanTreeForwardToNodes (m.cmiNodeOf myPe) msg.header.collectiveMetaInfo
  let toNodes ← (children.map m.cmiNodeFirst).mapM (m.cmiSyncSend · size msg)
  let (msg, toPeers) ← m.cmiBcastSendToPeers myPe size msg
  pure (msg, toNodes ++ toPeers)

/-- `CmiNodeBcastForward`: one relay step of a node-level broadcast. -/
def cmiNodeBcastForward (myNode size : Nat) (msg : Msg) : Option (List Packet) :=
  (m.cmiSpanTreeForwardToNodes myNode msg.header.collectiveMetaInfo).mapM
    (m.cmiSyncNodeSend · size msg)

/-- The header both broadcasts prepare: the root is the sender's node, and the relay handler
takes the place of the user's. -/
def bcastHeader (relay root size : Nat) (msg : Msg) : Msg :=
  { msg with header := { msg.header with
      messageSize := size
      collectiveMetaInfo := root
      bcastSwapHandlerId := msg.header.handlerId
      handlerId := relay } }

variable (hs : Handlers)

/-- `CmiSyncBroadcast`: the caller's message after the call, and what was sent. -/
def cmiSyncBroadcast (myPe size : Nat) (msg : Msg) : Option (Msg × List Packet) := do
  let (msg, sent) ← m.cmiBcastForward myPe size
    (bcastHeader hs.bcastHandler (m.cmiNodeOf myPe) size msg)
  pure (msg.setHandler msg.header.bcastSwapHandlerId, sent)

/-- The message with its size stored in the header. -/
def setMessageSize (size : Nat) (msg : Msg) : Msg :=
  { msg with header := { msg.header with messageSize := size } }

/-- `CmiSyncBroadcastAll`: the caller's own copy is queued first. -/
def cmiSyncBroadcastAll (myPe size : Nat) (msg : Msg) : Option (Msg × List Packet) := do
  let msg := setMessageSize size msg
  let own ← m.cmiSyncSend myPe size msg
  let (msg, sent) ← m.cmiSyncBroadcast hs myPe size msg
  pure (msg, own :: sent)

/-- `CmiSyncNodeBroadcast`. -/
def cmiSyncNodeBroadcast (myNode size : Nat) (msg : Msg) : Option (Msg × List Packet) := do
  let msg := bcastHeader hs.nodeBcastHandler myNode size msg
  let sent ← m.cmiNodeBcastForward myNode size msg
  pure (msg.setHandler msg.header.bcastSwapHandlerId, sent)

/-- `CmiSyncNodeBroadcastAll`. -/
def cmiSyncNodeBroadcastAll (myNode size : Nat) (msg : Msg) : Option (Msg × List Packet) := do
  let msg := setMessageSize size msg
  let own ← m.cmiSyncNodeSend myNode size msg
  let (msg, sent) ← m.cmiSyncNodeBroadcast hs myNode size msg
  pure (msg, own :: sent)

/-- The call of the user's handler at the end of a relay handler. A relay index there would
make the relay call itself without end. -/
def callSwapHandler (dest : Dest) (msg : Msg) : Option (List Packet) :=
  match hs.table[msg.header.bcastSwapHandlerId]? with
  | some (.user _) => some [⟨dest, msg.setHandler msg.header.bcastSwapHandlerId⟩]
  | _ => none

/-- `CmiBcastHandler`: forward first, since the user's handler takes the message. -/
def cmiBcastHandler (myPe : Nat) (msg : Msg) : Option (List Packet × List Packet) := do
  let (msg, sent) ← m.cmiBcastForward myPe msg.header.messageSize msg
  let ran ← callSwapHandler hs (.pe myPe) msg
  pure (sent, ran)

/-- `CmiNodeBcastHandler`. -/
def cmiNodeBcastHandler (myNode : Nat) (msg : Msg) : Option (List Packet × List Packet) := do
  let sent ← m.cmiNodeBcastForward myNode msg.header.messageSize msg
  let ran ← callSwapHandler hs (.node myNode) msg
  pure (sent, ran)

/-- What handling a packet sends and which runs of user handlers it makes, as
`CmiHandleMessage` dispatches it. PE-level relays are never on a node queue. -/
def handleBcast (packet : Packet) : Option (List Packet × List Packet) :=
  match hs.table[packet.msg.header.handlerId]?, packet.dest with
  | some .bcast, .pe pe => m.cmiBcastHandler hs pe packet.msg
  | some .nodeBcast, .node node => m.cmiNodeBcastHandler hs node packet.msg
  | some (.user _), _ => some ([], [packet])
  | _, _ => none

/-! ## The loops used without the spanning tree -/

/-- The destinations of the flat `CmiSyncBroadcast`. -/
def flatPes (myPe : Nat) : List Nat :=
  (List.range m.cmiNumPes).filter (· > myPe) ++ List.range myPe

/-- The destinations of the flat `CmiSyncNodeBroadcast`. -/
def flatNodes (myNode : Nat) : List Nat :=
  (List.range m.numNodes).filter (· > myNode) ++ List.range myNode

end Machine

/-- The broadcast calls, with the PE or node that makes them. -/
inductive BcastCall where
  | syncBroadcast (myPe : Nat)
  | syncBroadcastAll (myPe : Nat)
  | syncNodeBroadcast (myNode : Nat)
  | syncNodeBroadcastAll (myNode : Nat)
  deriving DecidableEq, Repr

namespace BcastCall

variable (m : Machine)

/-- The caller exists. -/
def Valid : BcastCall → Prop
  | .syncBroadcast pe | .syncBroadcastAll pe => pe < m.cmiNumPes
  | .syncNodeBroadcast node | .syncNodeBroadcastAll node => node < m.numNodes

instance (call : BcastCall) : Decidable (call.Valid m) := by
  cases call <;> simp only [Valid] <;> infer_instance

/-- The call over the spanning tree. -/
def tree (hs : Handlers) (size : Nat) (msg : Msg) : BcastCall → Option (Msg × List Packet)
  | .syncBroadcast pe => m.cmiSyncBroadcast hs pe size msg
  | .syncBroadcastAll pe => m.cmiSyncBroadcastAll hs pe size msg
  | .syncNodeBroadcast node => m.cmiSyncNodeBroadcast hs node size msg
  | .syncNodeBroadcastAll node => m.cmiSyncNodeBroadcastAll hs node size msg

/-- The call without the spanning tree: a loop of point-to-point sends. -/
def flat (size : Nat) (msg : Msg) : BcastCall → Option (List Packet)
  | .syncBroadcast pe =>
    (m.flatPes pe).mapM (m.cmiSyncSend · size (Machine.setMessageSize size msg))
  | .syncBroadcastAll _ =>
    (List.range m.cmiNumPes).mapM (m.cmiSyncSend · size (Machine.setMessageSize size msg))
  | .syncNodeBroadcast node =>
    (m.flatNodes node).mapM (m.cmiSyncNodeSend · size (Machine.setMessageSize size msg))
  | .syncNodeBroadcastAll _ =>
    (List.range m.numNodes).mapM (m.cmiSyncNodeSend · size (Machine.setMessageSize size msg))

/-- Where the user's handler should run. -/
def targets : BcastCall → List Dest
  | .syncBroadcast pe => ((List.range m.cmiNumPes).filter (· ≠ pe)).map .pe
  | .syncBroadcastAll _ => (List.range m.cmiNumPes).map .pe
  | .syncNodeBroadcast node => ((List.range m.numNodes).filter (· ≠ node)).map .node
  | .syncNodeBroadcastAll _ => (List.range m.numNodes).map .node

end BcastCall

/-! ## The tree over nodes, rooted at the sender -/

namespace Machine

section Tree

variable {m : Machine} {root n c : Nat}

section

variable (hn : n < m.numNodes) (hroot : root < m.numNodes)

include hn hroot

theorem rel_node_lt : m.relNode root n < m.numNodes := by
  unfold relNode
  split <;> omega

theorem abs_node_lt : m.absNode root n < m.numNodes := by
  unfold absNode
  split <;> omega

@[simp] theorem abs_rel_node : m.absNode root (m.relNode root n) = n := by
  unfold absNode relNode
  split_ifs <;> omega

@[simp] theorem rel_abs_node : m.relNode root (m.absNode root n) = n := by
  unfold absNode relNode
  split_ifs <;> omega

end

theorem rel_node_eq_zero (hroot : root < m.numNodes) : m.relNode root n = 0 ↔ n = root := by
  unfold relNode
  split <;> omega

/-- The parent of a node in the broadcast tree: the parent of its relative number. -/
def bcastParent (m : Machine) (root n : Nat) : Option Nat :=
  (cmiNodeSpanTreeParent (m.relNode root n)).map (m.absNode root)

/-- A node and its parent, in relative numbers. -/
theorem bcast_parent_eq_some {p : Nat} (hn : n < m.numNodes) (hroot : root < m.numNodes)
    (h : m.bcastParent root n = some p) :
    p < m.numNodes ∧ cmiNodeSpanTreeParent (m.relNode root n) = some (m.relNode root p) := by
  obtain ⟨rel, hrel, rfl⟩ := Option.map_eq_some_iff.mp h
  have hlt := Nat.lt_trans (node_span_tree_parent_lt hrel) (rel_node_lt hn hroot)
  exact ⟨abs_node_lt hlt hroot, by rw [hrel, rel_abs_node hlt hroot]⟩

/-- The tree the relays of a broadcast from `root` follow. -/
def bcastTree (m : Machine) (root : Nat) (hroot : root < m.numNodes) : RootedTree Nat where
  members := List.range m.numNodes
  nodup := nodup_range
  parent := m.bcastParent root
  root := root
  rank := m.relNode root
  root_mem := mem_range.mpr hroot
  parent_mem hc hp := mem_range.mpr (bcast_parent_eq_some (mem_range.mp hc) hroot hp).1
  parent_rank hc hp :=
    node_span_tree_parent_lt (bcast_parent_eq_some (mem_range.mp hc) hroot hp).2
  parent_eq_none {c} _ := by
    rw [← rel_node_eq_zero hroot]
    simp [bcastParent, cmiNodeSpanTreeParent]

/-- Breaking at the first number out of range loses nothing, since the numbers increase. -/
theorem take_while_eq_span_children (bound rel : Nat) :
    ((List.range cstW).map fun i => rel * cstW + i + 1).takeWhile (· < bound) =
      spanChildren bound rel := by
  simp only [spanChildren, cstW, range_succ, range_zero, nil_append,
    cons_append, map_cons, map_nil, takeWhile_cons, takeWhile_nil,
    filter_cons, filter_nil, decide_eq_true_eq]
  split_ifs <;> first | rfl | omega

/-- The nodes a relay forwards to are its children in the tree. -/
theorem forward_to_nodes_perm (hroot : root < m.numNodes) (hn : n < m.numNodes) :
    (m.cmiSpanTreeForwardToNodes n root).Perm ((m.bcastTree root hroot).children n) := by
  have hinj : ∀ x ∈ spanChildren m.numNodes (m.relNode root n),
      ∀ y ∈ spanChildren m.numNodes (m.relNode root n),
        m.absNode root x = m.absNode root y → x = y := by
    intro x hx y hy hxy
    rw [← rel_abs_node (mem_span_children.mp hx).1 hroot, hxy,
      rel_abs_node (mem_span_children.mp hy).1 hroot]
  rw [cmiSpanTreeForwardToNodes, take_while_eq_span_children, perm_ext_iff_of_nodup
    ((span_children_nodup _ _).map_on hinj) (children_nodup _ n)]
  intro c
  simp only [mem_map, mem_children, bcastTree, mem_range]
  constructor
  · rintro ⟨rel, hrel, rfl⟩
    obtain ⟨hlt, h0, hpar⟩ := mem_span_children.mp hrel
    refine ⟨abs_node_lt hlt hroot, ?_⟩
    rw [bcastParent, rel_abs_node hlt hroot,
      node_span_tree_parent_eq_some.mpr ⟨h0, hpar⟩, Option.map_some, abs_rel_node hn hroot]
  · rintro ⟨hc, hpar⟩
    have hrel := (bcast_parent_eq_some hc hroot hpar).2
    refine ⟨m.relNode root c, ?_, abs_rel_node hc hroot⟩
    rw [mem_span_children]
    exact ⟨rel_node_lt hc hroot, node_span_tree_parent_eq_some.mp hrel⟩

/-- Relays forward to existing nodes only. -/
theorem forward_to_nodes_lt (hroot : root < m.numNodes) (hn : n < m.numNodes)
    (hc : c ∈ m.cmiSpanTreeForwardToNodes n root) : c < m.numNodes := by
  rw [(forward_to_nodes_perm hroot hn).mem_iff, mem_children] at hc
  exact mem_range.mp hc.1

end Tree

end Machine

/-! ## What each message in flight still owes -/

/-- What is observed of a handler run: where it ran, the handler index in the message and the
payload. -/
def Packet.obs (packet : Packet) : Dest × Nat × List UInt8 :=
  (packet.dest, packet.msg.header.handlerId, packet.msg.payload)

/-- What all messages of one broadcast have in common. -/
structure Wave (m : Machine) (hs : Handlers) where
  root : Nat
  handlerId : Nat
  size : Nat
  payload : List UInt8
  root_lt : root < m.numNodes
  isUser : hs.IsUser handlerId

namespace Wave

open Classical

variable {m : Machine} {hs : Handlers} (w : Wave m hs)

/-- The message is one the relay handler `relay` passes on for this broadcast. -/
structure Carries (relay : Nat) (msg : Msg) : Prop where
  handlerId : msg.header.handlerId = relay
  root : msg.header.collectiveMetaInfo = w.root
  swap : msg.header.bcastSwapHandlerId = w.handlerId
  size : msg.header.messageSize = w.size
  payload : msg.payload.take (w.size - cmiMsgHeaderSizeBytes) = w.payload

/-- The observation of the user's handler running at `dest`. -/
def obsAt (dest : Dest) : Dest × Nat × List UInt8 := (dest, w.handlerId, w.payload)

/-- The nodes and their order of relaying. -/
def tree : RootedTree Nat := m.bcastTree w.root w.root_lt

/-- The PEs on the nodes below `n`. -/
noncomputable def pesBelow (n : Nat) : List Nat :=
  (List.range m.cmiNumPes).filter (w.tree.Below n <| m.cmiNodeOf ·)

/-- The nodes below `n`. -/
noncomputable def nodesBelow (n : Nat) : List Nat :=
  (List.range m.numNodes).filter (w.tree.Below n ·)

/-- The handler runs a message in flight stands for: a relay for all of its subtree, any other
message for one. -/
noncomputable def owes (packet : Packet) : List (Dest × Nat × List UInt8) :=
  match hs.table[packet.msg.header.handlerId]?, packet.dest with
  | some .bcast, .pe pe => (w.pesBelow (m.cmiNodeOf pe)).map fun q => w.obsAt (.pe q)
  | some .nodeBcast, .node node => (w.nodesBelow node).map fun n => w.obsAt (.node n)
  | _, _ => [packet.obs]

/-- The messages of this broadcast: relays at existing nodes, and user messages. -/
inductive Ok : Packet → Prop where
  | relay {pe : Nat} {msg : Msg} (hpe : pe < m.cmiNumPes)
      (hmsg : w.Carries hs.bcastHandler msg) (hpayload : msg.payload = w.payload) :
      Ok ⟨.pe pe, msg⟩
  | nodeRelay {node : Nat} {msg : Msg} (hnode : node < m.numNodes)
      (hmsg : w.Carries hs.nodeBcastHandler msg) (hpayload : msg.payload = w.payload) :
      Ok ⟨.node node, msg⟩
  | user {packet : Packet} (huser : hs.IsUser packet.msg.header.handlerId) : Ok packet

variable {w} {msg : Msg} {relay : Nat} {n : Nat}

theorem owes_relay (hmsg : w.Carries hs.bcastHandler msg) :
    w.owes ⟨.pe pe, msg⟩ = (w.pesBelow (m.cmiNodeOf pe)).map fun q => w.obsAt (.pe q) := by
  simp [owes, hmsg.handlerId, hs.bcast_entry]

theorem owes_node_relay (hmsg : w.Carries hs.nodeBcastHandler msg) :
    w.owes ⟨.node node, msg⟩ = (w.nodesBelow node).map fun n => w.obsAt (.node n) := by
  simp [owes, hmsg.handlerId, hs.nodeBcast_entry]

/-- A message for a handler of the program owes its own delivery. -/
theorem owes_user (huser : hs.IsUser packet.msg.header.handlerId) :
    w.owes packet = [packet.obs] := by
  obtain ⟨fn, hfn⟩ := huser
  simp [owes, hfn]

/-- A copy of a relay message, stamped with a destination, is a relay message. -/
theorem Carries.copy (hmsg : w.Carries relay msg) (dest : Option Nat) :
    w.Carries relay ((msg.copy w.size).stamp dest) where
  handlerId := hmsg.handlerId
  root := hmsg.root
  swap := hmsg.swap
  size := hmsg.size
  payload := by
    rw [← hmsg.payload]
    simp only [Msg.copy, Msg.stamp, take_take, Nat.min_self]

/-- The PEs below a node are those below its children and its own. -/
theorem pes_below_perm (hn : n < m.numNodes) :
    (w.pesBelow n).Perm
      ((m.cmiSpanTreeForwardToNodes n w.root).flatMap w.pesBelow ++ m.cmiNodePes n) := by
  refine (w.tree.filter_below_perm (List.range m.cmiNumPes) m.cmiNodeOf n ?_).trans
    (.append ?_ ?_)
  · intro pe hpe
    exact mem_range.mpr (lt_num_pes_iff.mp (mem_range.mp hpe))
  · exact (forward_to_nodes_perm w.root_lt hn).symm.flatMap_right _
  · convert filter_node_of_perm hn

/-- The nodes below a node are those below its children and itself. -/
theorem nodes_below_perm (hn : n < m.numNodes) :
    (w.nodesBelow n).Perm ((m.cmiSpanTreeForwardToNodes n w.root).flatMap w.nodesBelow ++ [n]) := by
  refine (w.tree.filter_below_perm (List.range m.numNodes) id n fun _ h => h).trans
    (.append ?_ ?_)
  · exact (forward_to_nodes_perm w.root_lt hn).symm.flatMap_right _
  · rw [perm_ext_iff_of_nodup (nodup_range.filter _) (nodup_singleton n)]
    intro x
    simp only [mem_filter, mem_range, id_eq, decide_eq_true_eq, mem_singleton]
    exact ⟨And.right, fun h => ⟨h ▸ hn, h⟩⟩

/-- Every PE is below the root. -/
theorem pes_below_root : w.pesBelow w.root = List.range m.cmiNumPes := by
  refine filter_eq_self.mpr fun pe hpe => decide_eq_true ?_
  exact below_root
    (mem_range.mpr (lt_num_pes_iff.mp (mem_range.mp hpe)))

theorem nodes_below_root : w.nodesBelow w.root = List.range m.numNodes := by
  refine filter_eq_self.mpr fun n hn => decide_eq_true ?_
  exact below_root hn

/-! ## One relay step -/

/-- Leaving one element out of a duplicate-free list leaves the others. -/
theorem cons_filter_ne_perm {x : Nat} {l : List Nat} (hl : l.Nodup) (hx : x ∈ l) :
    (x :: l.filter (· ≠ x)).Perm l := by
  rw [perm_ext_iff_of_nodup (nodup_cons.mpr ⟨by simp, hl.filter _⟩) hl]
  intro y
  by_cases h : y = x <;> simp [h, hx]

/-- The peers of a PE on its node. -/
theorem send_to_peers_eq {pe size : Nat} (hpe : pe < m.cmiNumPes) (msg : Msg) :
    m.cmiBcastSendToPeers pe size msg = some (msg,
      ((m.cmiNodePes (m.cmiNodeOf pe)).filter (· ≠ pe)).map fun d =>
        ⟨.pe d, ((msg.setHandler msg.header.bcastSwapHandlerId).copy size).stamp (some d)⟩) := by
  have hpeers : ((List.range m.nodeSize).filter (· ≠ m.cmiRankOf pe)).map
      (m.cmiNodeFirst (m.cmiNodeOf pe) + ·) = (m.cmiNodePes (m.cmiNodeOf pe)).filter (· ≠ pe) := by
    rw [cmiNodePes, filter_map]
    congr 1
    refine filter_congr fun r _ => ?_
    have := node_first_add_rank (m := m) pe
    refine decide_eq_decide.mpr (not_congr ?_)
    dsimp only
    omega
  have hlt : ∀ d ∈ (m.cmiNodePes (m.cmiNodeOf pe)).filter (· ≠ pe), d < m.cmiNumPes := by
    intro d hd
    rw [lt_num_pes_iff, mem_node_pes.mp (mem_filter.mp hd).1]
    exact lt_num_pes_iff.mp hpe
  unfold cmiBcastSendToPeers
  split
  · -- A node of one PE has no peers.
    have hsize : m.nodeSize = 1 := by have := m.nodeSize_pos; omega
    have hrank : m.cmiRankOf pe = 0 := by simp [cmiRankOf, hsize, Nat.mod_one]
    rw [← hpeers, hrank, hsize]
    rfl
  · simp only [hpeers, sync_send_loop hlt, bind, bind_some, pure]
    rfl

/-- What a PE-level relay step sends. The message itself is unchanged. -/
theorem bcast_forward_spec (hpe : pe < m.cmiNumPes) (hmsg : w.Carries hs.bcastHandler msg) :
    ∃ sent, m.cmiBcastForward pe w.size msg = some (msg, sent) ∧ (∀ x ∈ sent, w.Ok x) ∧
      (sent.flatMap w.owes ++ [w.obsAt (.pe pe)]).Perm
        ((w.pesBelow (m.cmiNodeOf pe)).map fun q => w.obsAt (.pe q)) := by
  have hn := lt_num_pes_iff.mp hpe
  have hlt : ∀ d ∈ (m.cmiSpanTreeForwardToNodes (m.cmiNodeOf pe) w.root).map m.cmiNodeFirst,
      d < m.cmiNumPes := by
    intro d hd
    obtain ⟨c, hc, rfl⟩ := mem_map.mp hd
    exact node_first_lt (forward_to_nodes_lt w.root_lt hn hc)
  have huser : hs.IsUser msg.header.bcastSwapHandlerId := hmsg.swap ▸ w.isUser
  simp only [cmiBcastForward, hmsg.root, sync_send_loop hlt,
    send_to_peers_eq hpe msg, bind, bind_some, pure]
  refine ⟨_, rfl, fun x hx => ?_, ?_⟩
  · obtain hx | hx := mem_append.mp hx
    · obtain ⟨d, hd, rfl⟩ := mem_map.mp hx
      exact .relay (hlt d hd) (hmsg.copy _) hmsg.payload
    · obtain ⟨d, -, rfl⟩ := mem_map.mp hx
      exact .user huser
  · have hnodes : ((m.cmiSpanTreeForwardToNodes (m.cmiNodeOf pe) w.root).map m.cmiNodeFirst).flatMap
        (fun d => w.owes ⟨.pe d, (msg.copy w.size).stamp (some d)⟩) =
        ((m.cmiSpanTreeForwardToNodes (m.cmiNodeOf pe) w.root).flatMap w.pesBelow).map
          fun q => w.obsAt (.pe q) := by
      simp [flatMap_map, map_flatMap, owes_relay (hmsg.copy _)]
    have hpeers : ∀ ds : List Nat, ds.flatMap (fun d => w.owes ⟨.pe d,
        ((msg.setHandler msg.header.bcastSwapHandlerId).copy w.size).stamp (some d)⟩) =
        ds.map fun q => w.obsAt (.pe q) := by
      intro ds
      rw [← flatMap_singleton' (ds.map _), flatMap_map]
      refine flatMap_congr fun d _ => ?_
      rw [owes_user (by exact huser)]
      simp [Packet.obs, obsAt, Msg.copy, Msg.stamp, Msg.setHandler, hmsg.swap, hmsg.payload]
    have hown : ((m.cmiNodePes (m.cmiNodeOf pe)).filter (· ≠ pe) ++ [pe]).Perm
        (m.cmiNodePes (m.cmiNodeOf pe)) :=
      perm_append_comm.trans
        (cons_filter_ne_perm (node_pes_nodup _) (mem_node_pes.mpr rfl))
    rw [flatMap_append, flatMap_map _ _ (List.map _ _), hnodes, flatMap_map, hpeers]
    have hall := (pes_below_perm (w := w) hn).symm.map fun q => w.obsAt (.pe q)
    refine List.Perm.trans ?_ hall
    rw [append_assoc, map_append]
    exact (map_append ▸ hown.map fun q => w.obsAt (.pe q)).append_left _

/-- What a node-level relay step sends. -/
theorem node_bcast_forward_spec (hn : node < m.numNodes)
    (hmsg : w.Carries hs.nodeBcastHandler msg) :
    ∃ sent, m.cmiNodeBcastForward node w.size msg = some sent ∧ (∀ x ∈ sent, w.Ok x) ∧
      (sent.flatMap w.owes ++ [w.obsAt (.node node)]).Perm
        ((w.nodesBelow node).map fun n => w.obsAt (.node n)) := by
  have hlt : ∀ d ∈ m.cmiSpanTreeForwardToNodes node w.root, d < m.numNodes :=
    fun d hd => forward_to_nodes_lt w.root_lt hn hd
  simp only [cmiNodeBcastForward, hmsg.root, sync_node_send_loop hlt]
  refine ⟨_, rfl, fun x hx => ?_, ?_⟩
  · obtain ⟨d, hd, rfl⟩ := mem_map.mp hx
    exact .nodeRelay (hlt d hd) (hmsg.copy _) hmsg.payload
  · simp only [flatMap_map, owes_node_relay (hmsg.copy _)]
    refine List.Perm.trans ?_ ((nodes_below_perm hn).symm.map fun n => w.obsAt (.node n))
    rw [map_append, map_flatMap]
    exact .refl _

/-- The user's handler, called by a relay. -/
theorem call_swap_handler_eq (hmsg : w.Carries relay msg)
    (hpayload : msg.payload = w.payload) (dest : Dest) :
    ∃ ran, Machine.callSwapHandler hs dest msg = some ran ∧
    ran.map Packet.obs = [w.obsAt dest] := by
  obtain ⟨fn, hfn⟩ := w.isUser
  refine ⟨[⟨dest, msg.setHandler msg.header.bcastSwapHandlerId⟩], ?_, ?_⟩
  · simp [callSwapHandler, hmsg.swap, hfn]
  · simp [Packet.obs, obsAt, Msg.setHandler, hmsg.swap, hpayload]

/-- Handling a message of the broadcast pays what the message owes. -/
theorem handle_pays (h : w.Ok packet) :
    ∃ sent ran, m.handleBcast hs packet = some (sent, ran) ∧ (∀ x ∈ sent, w.Ok x) ∧
      (w.owes packet).Perm (sent.flatMap w.owes ++ ran.map Packet.obs) := by
  cases h with
  | @relay pe _ hpe hmsg hpayload =>
    obtain ⟨sent, hsent, hok, hperm⟩ := bcast_forward_spec hpe hmsg
    obtain ⟨ran, hran, hobs⟩ := call_swap_handler_eq hmsg hpayload (.pe pe)
    refine ⟨sent, ran, ?_, hok, ?_⟩
    · simp [handleBcast, cmiBcastHandler, hmsg.handlerId, hs.bcast_entry, hmsg.size, hsent, hran]
    · rw [owes_relay hmsg, hobs]
      exact hperm.symm
  | @nodeRelay node _ hn hmsg hpayload =>
    obtain ⟨sent, hsent, hok, hperm⟩ := node_bcast_forward_spec hn hmsg
    obtain ⟨ran, hran, hobs⟩ := call_swap_handler_eq hmsg hpayload (.node node)
    refine ⟨sent, ran, ?_, hok, ?_⟩
    · simp [handleBcast, cmiNodeBcastHandler, hmsg.handlerId,
        hs.nodeBcast_entry, hmsg.size, hsent, hran]
    · rw [owes_node_relay hmsg, hobs]
      exact hperm.symm
  | user huser =>
    refine ⟨[], [packet], ?_, by simp, by simp [owes_user huser]⟩
    obtain ⟨fn, hfn⟩ := huser
    simp [handleBcast, hfn]

variable (w) in
/-- The account of one broadcast. -/
noncomputable def account : Dispatch.Account (m.handleBcast hs) Packet.obs where
  ok := w.Ok
  owes := w.owes
  pays _ := handle_pays

end Wave

/-- Handling any packet makes exactly one run of a user handler. -/
theorem handle_bcast_ran_length {m : Machine} {hs : Handlers}
    {sent ran : List Packet} (h : m.handleBcast hs packet = some (sent, ran)) : ran.length = 1 := by
  have hswap : ∀ {dest : Dest} {msg : Msg} {ran : List Packet},
      callSwapHandler hs dest msg = some ran → ran.length = 1 := by
    intro dest msg ran h
    unfold callSwapHandler at h
    split at h
    · cases h
      rfl
    · cases h
  unfold handleBcast at h
  split at h
  · simp only [cmiBcastHandler, bind, Option.bind_eq_some_iff, pure] at h
    obtain ⟨_, _, ran', hran, h⟩ := h
    cases h
    exact hswap hran
  · simp only [cmiNodeBcastHandler, bind, Option.bind_eq_some_iff, pure] at h
    obtain ⟨_, _, ran', hran, h⟩ := h
    cases h
    exact hswap hran
  · cases h
    rfl
  · cases h

/-! ## The calls -/

namespace BcastCall

variable {m : Machine} {hs : Handlers}

/-- The broadcast a call on `msg` starts. -/
def wave (root size : Nat) (msg : Msg) (hroot : root < m.numNodes)
    (huser : hs.IsUser msg.header.handlerId) : Wave m hs :=
  ⟨root, msg.header.handlerId, size, msg.payload.take (size - cmiMsgHeaderSizeBytes), hroot, huser⟩

variable {root size : Nat} {msg : Msg} {call : BcastCall}

@[simp] theorem wave_size (hroot : root < m.numNodes) (huser : hs.IsUser msg.header.handlerId) :
    (wave root size msg hroot huser).size = size := rfl

theorem wave_root (hroot : root < m.numNodes) (huser : hs.IsUser msg.header.handlerId) :
    (wave root size msg hroot huser).root = root := rfl

/-- The header of a broadcast carries the handler, the root and the size. -/
theorem carries_bcast_header (size : Nat) (hroot : root < m.numNodes)
    (huser : hs.IsUser msg.header.handlerId) (relay : Nat) :
    (wave root size msg hroot huser).Carries relay (Machine.bcastHeader relay root size msg) :=
  ⟨rfl, rfl, rfl, rfl, rfl⟩

/-- What a call has to achieve for the broadcast `w`: it returns, the caller's message has its
handler and payload as before, and what was sent owes the runs at the targets. -/
def Starts (call : BcastCall) (w : Wave m hs) (size : Nat) (msg : Msg) : Prop :=
  ∃ msg' sent, call.tree m hs size msg = some (msg', sent) ∧
    msg'.header.handlerId = msg.header.handlerId ∧ msg'.payload = msg.payload ∧
    (∀ x ∈ sent, w.Ok x) ∧ (sent.flatMap w.owes).Perm ((call.targets m).map w.obsAt)

/-- `CmiSyncBroadcast` starts a wave from the node of the PE. -/
theorem sync_broadcast_starts (size : Nat) (msg : Msg) (hpe : pe < m.cmiNumPes)
    (huser : hs.IsUser msg.header.handlerId) :
    (syncBroadcast pe).Starts
      (wave (m.cmiNodeOf pe) size msg (Machine.lt_num_pes_iff.mp hpe) huser) size msg := by
  have hroot := lt_num_pes_iff.mp hpe
  obtain ⟨sent, hsent, hok, hperm⟩ := Wave.bcast_forward_spec hpe
    (carries_bcast_header size hroot huser hs.bcastHandler)
  rw [wave_size] at hsent
  refine ⟨(bcastHeader hs.bcastHandler (m.cmiNodeOf pe) size msg).setHandler
    msg.header.handlerId, sent, ?_, rfl, rfl, hok, ?_⟩
  · simp only [tree, cmiSyncBroadcast, hsent, bind, bind_some, pure]
    rfl
  · have hbelow := Wave.pes_below_root (w := wave (m.cmiNodeOf pe) size msg hroot huser)
    rw [wave_root] at hbelow
    rw [hbelow] at hperm
    have hsplit := (Wave.cons_filter_ne_perm nodup_range (mem_range.mpr hpe)).map
      fun q => (wave (m.cmiNodeOf pe) size msg hroot huser).obsAt (.pe q)
    rw [targets, map_map]
    exact (perm_cons _).mp ((perm_append_comm.trans hperm).trans hsplit.symm)

/-- `CmiSyncNodeBroadcast` starts a wave from the node. -/
theorem sync_node_broadcast_starts (size : Nat) (msg : Msg) (hn : node < m.numNodes)
    (huser : hs.IsUser msg.header.handlerId) :
    (syncNodeBroadcast node).Starts (wave node size msg hn huser) size msg := by
  obtain ⟨sent, hsent, hok, hperm⟩ := Wave.node_bcast_forward_spec hn
    (carries_bcast_header size hn huser hs.nodeBcastHandler)
  rw [wave_size] at hsent
  refine ⟨(bcastHeader hs.nodeBcastHandler node size msg).setHandler
    msg.header.handlerId, sent, ?_, rfl, rfl, hok, ?_⟩
  · simp only [tree, cmiSyncNodeBroadcast, hsent, bind, bind_some, pure]
    rfl
  · have hbelow := Wave.nodes_below_root (w := wave node size msg hn huser)
    rw [wave_root] at hbelow
    rw [hbelow] at hperm
    have hsplit := (Wave.cons_filter_ne_perm nodup_range (mem_range.mpr hn)).map
      fun n => (wave node size msg hn huser).obsAt (.node n)
    rw [targets, map_map]
    exact (perm_cons _).mp ((perm_append_comm.trans hperm).trans hsplit.symm)

/-- Queueing the caller's own copy first adds the caller to the targets. -/
theorem Starts.cons_own {call all : BcastCall} {w : Wave m hs} (own : Packet)
    (h : call.Starts w size (Machine.setMessageSize size msg)) (hall : all.tree m hs size msg =
      (call.tree m hs size (Machine.setMessageSize size msg)).map fun r => (r.1, own :: r.2))
    (hown : hs.IsUser own.msg.header.handlerId) (hobs : own.obs = w.obsAt own.dest)
    (htargets : (own.dest :: call.targets m).Perm (all.targets m)) : all.Starts w size msg := by
  obtain ⟨msg', sent, hcall, hid, hpayload, hok, hperm⟩ := h
  refine ⟨msg', own :: sent, by simp [hall, hcall], hid, hpayload, ?_, ?_⟩
  · exact forall_mem_cons.mpr ⟨.user hown, hok⟩
  · rw [flatMap_cons, Wave.owes_user hown, hobs]
    exact (hperm.cons _).trans (htargets.map w.obsAt)

/-- Every valid broadcast call starts the broadcast of the caller's message. -/
theorem exists_starts (size : Nat) (hvalid : call.Valid m)
    (huser : hs.IsUser msg.header.handlerId) :
    ∃ w : Wave m hs, call.Starts w size msg ∧ ∀ dest, w.obsAt dest =
      (dest, msg.header.handlerId, msg.payload.take (size - cmiMsgHeaderSizeBytes)) := by
  cases call with
  | syncBroadcast pe => exact ⟨_, sync_broadcast_starts size msg hvalid huser, fun _ => rfl⟩
  | syncNodeBroadcast node =>
    exact ⟨_, sync_node_broadcast_starts size msg hvalid huser, fun _ => rfl⟩
  | syncBroadcastAll pe =>
    have hstarts := sync_broadcast_starts size (setMessageSize size msg) hvalid huser
    refine ⟨_, Starts.cons_own ⟨.pe pe,
      ((setMessageSize size msg).copy size).stamp (some pe)⟩ hstarts ?_ huser rfl ?_,
      fun _ => rfl⟩
    · simp only [tree, cmiSyncBroadcastAll, sync_send_eq hvalid, bind, pure, bind_some]
      cases m.cmiSyncBroadcast hs pe size (setMessageSize size msg) <;> rfl
    · exact (Wave.cons_filter_ne_perm nodup_range (mem_range.mpr hvalid)).map Dest.pe
  | syncNodeBroadcastAll node =>
    have hstarts := sync_node_broadcast_starts size (setMessageSize size msg) hvalid
      huser
    refine ⟨_, Starts.cons_own ⟨.node node,
      ((setMessageSize size msg).copy size).stamp none⟩ hstarts ?_ huser rfl ?_,
      fun _ => rfl⟩
    · simp only [tree, cmiSyncNodeBroadcastAll, sync_node_send_eq hvalid, bind, pure, bind_some]
      cases m.cmiSyncNodeBroadcast hs node size (setMessageSize size msg) <;> rfl
    · exact (Wave.cons_filter_ne_perm nodup_range (mem_range.mpr hvalid)).map Dest.node

/-- The two loops of a flat broadcast visit every number but the caller's. -/
theorem flat_perm {me bound : Nat} (h : me < bound) :
    ((List.range bound).filter (· > me) ++ List.range me).Perm
      ((List.range bound).filter (· ≠ me)) := by
  have hnodup : ((List.range bound).filter (· > me) ++ List.range me).Nodup := by
    rw [nodup_append]
    refine ⟨nodup_range.filter _, nodup_range, ?_⟩
    intro x hx y hy hxy
    simp only [mem_filter, mem_range, decide_eq_true_eq] at hx hy
    omega
  rw [perm_ext_iff_of_nodup hnodup (nodup_range.filter _)]
  simp only [mem_append, mem_filter, mem_range, decide_eq_true_eq]
  omega

/-- What the loop of point-to-point sends delivers. -/
theorem flat_spec (size : Nat) (msg : Msg) (hvalid : call.Valid m) :
    ∃ loop, call.flat m size msg = some loop ∧ (loop.map Packet.obs).Perm
      ((call.targets m).map fun dest =>
        (dest, msg.header.handlerId, msg.payload.take (size - cmiMsgHeaderSizeBytes))) := by
  cases call with
  | syncBroadcast pe =>
    have hperm := flat_perm hvalid
    refine ⟨_, sync_send_loop (fun d hd => ?_) _ _, ?_⟩
    · exact mem_range.mp (mem_filter.mp (hperm.mem_iff.mp hd)).1
    · rw [targets, map_map, map_map]
      exact hperm.map _
  | syncBroadcastAll pe =>
    refine ⟨_, sync_send_loop (fun d hd => mem_range.mp hd) _ _, ?_⟩
    rw [targets, map_map, map_map]
    exact .refl _
  | syncNodeBroadcast node =>
    have hperm := flat_perm hvalid
    refine ⟨_, sync_node_send_loop (fun d hd => ?_) _ _, ?_⟩
    · exact mem_range.mp (mem_filter.mp (hperm.mem_iff.mp hd)).1
    · rw [targets, map_map, map_map]
      exact hperm.map _
  | syncNodeBroadcastAll node =>
    refine ⟨_, sync_node_send_loop (fun d hd => mem_range.mp hd) _ _, ?_⟩
    rw [targets, map_map, map_map]
    exact .refl _

end BcastCall

/-! ## Broadcasts deliver like the flat loop -/

/-- For every machine, caller and message, the spanning-tree broadcast returns with the caller's
handler and payload in place; then, whatever the order of delivery, no relay aborts, at most one
message is handled per target, and once nothing is in flight the user's handler has run exactly
where the loop of point-to-point sends would have run it, once each, with the same handler index
and payload. -/
theorem broadcast_delivers_like_flat_loop (m : Machine) (hs : Handlers) (call : BcastCall)
    (size : Nat) (msg : Msg) (hvalid : call.Valid m) (huser : hs.IsUser msg.header.handlerId) :
    ∃ msg' sent loop, call.tree m hs size msg = some (msg', sent) ∧
      call.flat m size msg = some loop ∧
      msg'.header.handlerId = msg.header.handlerId ∧ msg'.payload = msg.payload ∧
      ∀ es s, Steps (Dispatch.Delivers (m.handleBcast hs)) ⟨sent, []⟩ es s →
        (∀ i < s.flight.length, ∃ s', Dispatch.Delivers (m.handleBcast hs) s i s') ∧
        es.length ≤ (call.targets m).length ∧
        (s.flight = [] →
          (s.log.map Packet.obs).Perm (loop.map Packet.obs) ∧
          (s.log.map Packet.obs).Perm ((call.targets m).map fun dest =>
            (dest, msg.header.handlerId, msg.payload.take (size - cmiMsgHeaderSizeBytes)))) := by
  obtain ⟨w, ⟨msg', sent, hcall, hid, hpayload, hok, howes⟩, hobs⟩ :=
    BcastCall.exists_starts size hvalid huser
  obtain ⟨loop, hflat, hloop⟩ := BcastCall.flat_spec size msg hvalid
  refine ⟨msg', sent, loop, hcall, hflat, hid, hpayload, fun es s hsteps => ?_⟩
  have hcovers : w.account.Covers ⟨sent, []⟩ := hok
  obtain ⟨hcov, htotal⟩ := Dispatch.Account.steps hcovers hsteps
  have hexpected : (w.account.total s).Perm ((call.targets m).map fun dest =>
      (dest, msg.header.handlerId, msg.payload.take (size - cmiMsgHeaderSizeBytes))) := by
    refine htotal.trans ?_
    simp only [Dispatch.Account.total, map_nil, append_nil]
    exact howes.trans (.of_eq (map_congr_left fun dest _ => hobs dest))
  refine ⟨fun i hi => hcov.enabled hi, ?_, fun hdone => ?_⟩
  · have hlog := Dispatch.steps_log_length (fun h => handle_bcast_ran_length h) hsteps
    have hlen := hexpected.length_eq
    simp only [Dispatch.Account.total, length_append, length_map] at hlen
    omega
  · have hlog : (w.account.total s) = s.log.map Packet.obs := by
      simp [Dispatch.Account.total, hdone]
    rw [hlog] at hexpected
    exact ⟨hexpected.trans hloop.symm, hexpected⟩

/-- Two nodes of two PEs, with PE 3 broadcasting one byte to all others. -/
theorem broadcast_from_pe_three :
    ∃ msg' sent, BcastCall.tree ⟨2, 2, by decide, by decide, .lci⟩ (collectiveInit [] [.user 0]) 25
        ⟨⟨6, 0, none, 0, 0, 0, 0, false, 0⟩, [7]⟩ (.syncBroadcast 3) = some (msg', sent) ∧
      ∀ es s, Steps (Dispatch.Delivers (Machine.handleBcast ⟨2, 2, by decide, by decide, .lci⟩
          (collectiveInit [] [.user 0]))) ⟨sent, []⟩ es s → s.flight = [] →
        (s.log.map Packet.obs).Perm [(.pe 0, 6, [7]), (.pe 1, 6, [7]), (.pe 2, 6, [7])] := by
  obtain ⟨msg', sent, _, hcall, -, -, -, hruns⟩ := broadcast_delivers_like_flat_loop
    ⟨2, 2, by decide, by decide, .lci⟩ (collectiveInit [] [.user 0]) (.syncBroadcast 3) 25
    ⟨⟨6, 0, none, 0, 0, 0, 0, false, 0⟩, [7]⟩ (by decide) ⟨0, rfl⟩
  exact ⟨msg', sent, hcall, fun es s hsteps hdone => ((hruns es s hsteps).2.2 hdone).2⟩

end Reconverse
