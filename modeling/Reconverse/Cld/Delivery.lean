import Reconverse.Cld.Model

/-!
# What the messages of the seed balancer lead to

Each message on its way owes the calls that it leads to: a message with its own handler one call of
it, a message with the handler of the seed balancer the call of that one and then of its own
handler, and a relay of a broadcast or a fan-out message the same at every place that it stands for.
Handling a message keeps what is owed, whatever the order (`Seed.account`).
-/

namespace Reconverse.Cld

open Lib List Machine
open Option (bind_eq_some_iff)

/-- What is observed of a call: where it is made, and of a handler of the program its index and the
payload, and of a handler of the seed balancer the info function and the parked handler. -/
inductive Obs where
  | user (dest : Dest) (handlerId : Nat) (payload : List UInt8)
  | cld (dest : Dest) (cldInfoFn swapHandlerId : Nat)
  deriving DecidableEq, Repr

/-- What is observed of a call. -/
def Run.obs : Run → Obs
  | .user packet => .user packet.dest packet.msg.header.handlerId packet.msg.payload
  | .cld packet => .cld packet.dest packet.msg.header.cldInfoFn packet.msg.header.swapHandlerId

/-! ## The layers below keep the fields of the seed balancer -/

/-- The fields of the seed balancer are the same. -/
def SameCld (msg msg' : Msg) : Prop :=
  msg'.header.cldInfoFn = msg.header.cldInfoFn ∧
    msg'.header.swapHandlerId = msg.header.swapHandlerId

theorem SameCld.trans {msg msg' msg'' : Msg} (h : SameCld msg msg') (h' : SameCld msg' msg'') :
    SameCld msg msg'' := ⟨h'.1.trans h.1, h'.2.trans h.2⟩

/-- The results of a loop come from its body. -/
theorem mem_of_mem_mapM {α β : Type} {f : α → Option β} {xs : List α} {ys : List β}
    (h : xs.mapM f = some ys) {y : β} (hy : y ∈ ys) : ∃ x ∈ xs, f x = some y := by
  induction xs generalizing ys with
  | nil =>
    obtain rfl : ys = [] := (Option.some.inj h).symm
    exact absurd hy not_mem_nil
  | cons x xs ih =>
    rw [mapM_cons] at h
    obtain ⟨z, hz, h⟩ := bind_eq_some_iff.mp h
    obtain ⟨zs, hzs, h⟩ := bind_eq_some_iff.mp h
    obtain rfl : ys = z :: zs := (Option.some.inj h).symm
    rcases mem_cons.mp hy with rfl | hy
    · exact ⟨x, mem_cons_self, hz⟩
    · obtain ⟨x', hx', hy⟩ := ih hzs hy
      exact ⟨x', mem_cons_of_mem x hx', hy⟩

section Layers

variable {m : Machine} {hs : Handlers} {msg msg' : Msg} {sent : List Packet} {packet : Packet}
  {len : Nat} {dests : List Nat}

/-- A send keeps the fields of the seed balancer. -/
theorem sync_send_same {dest len : Nat}
    (h : m.cmiSyncSend dest len msg = some packet) : SameCld msg packet.msg := by
  rw [cmiSyncSend] at h
  split at h
  · cases h
  · cases h
    exact ⟨rfl, rfl⟩

theorem sync_node_send_same {dest len : Nat}
    (h : m.cmiSyncNodeSend dest len msg = some packet) : SameCld msg packet.msg := by
  rw [cmiSyncNodeSend] at h
  split at h
  · cases h
  · cases h
    exact ⟨rfl, rfl⟩

theorem send_loop_same
    (h : dests.mapM (m.cmiSyncSend · len msg) = some sent) : ∀ x ∈ sent, SameCld msg x.msg := by
  intro x hx
  obtain ⟨dest, -, hdest⟩ := mem_of_mem_mapM h hx
  exact sync_send_same hdest

theorem node_send_loop_same
    (h : dests.mapM (m.cmiSyncNodeSend · len msg) = some sent) : ∀ x ∈ sent, SameCld msg x.msg := by
  intro x hx
  obtain ⟨dest, -, hdest⟩ := mem_of_mem_mapM h hx
  exact sync_node_send_same hdest

/-- So do the sends to the children in the spanning tree. -/
theorem send_to_peers_same {pe len : Nat}
    (h : m.cmiBcastSendToPeers pe len msg = some (msg', sent)) :
    SameCld msg msg' ∧ ∀ x ∈ sent, SameCld msg x.msg := by
  rw [cmiBcastSendToPeers] at h
  split at h
  · cases h
    exact ⟨⟨rfl, rfl⟩, nofun⟩
  · obtain ⟨sent', hsent, h⟩ := bind_eq_some_iff.mp h
    cases h
    exact ⟨⟨rfl, rfl⟩, fun x hx => send_loop_same hsent x hx⟩

theorem bcast_forward_same {pe len : Nat} (h : m.cmiBcastForward pe len msg = some (msg', sent)) :
    SameCld msg msg' ∧ ∀ x ∈ sent, SameCld msg x.msg := by
  obtain ⟨toNodes, hnodes, h⟩ := bind_eq_some_iff.mp h
  obtain ⟨⟨msg₁, toPeers⟩, hpeers, h⟩ := bind_eq_some_iff.mp h
  cases h
  obtain ⟨hmsg, hsent⟩ := send_to_peers_same hpeers
  refine ⟨hmsg, fun x hx => ?_⟩
  rcases mem_append.mp hx with hx | hx
  · exact send_loop_same hnodes x hx
  · exact hsent x hx

/-- Every message that a broadcast call sends has the fields of its message. -/
theorem bcast_call_same {call : BcastCall}
    (h : call.tree m hs len msg = some (msg', sent)) : ∀ x ∈ sent, SameCld msg x.msg := by
  have hpe {pe : Nat} {msg msg' : Msg} {sent : List Packet}
      (h : m.cmiSyncBroadcast hs pe len msg = some (msg', sent)) :
      ∀ x ∈ sent, SameCld msg x.msg := by
    obtain ⟨⟨msg₁, sent₁⟩, hforward, h⟩ := bind_eq_some_iff.mp h
    cases h
    exact (bcast_forward_same hforward).2
  have hnode {node : Nat} {msg msg' : Msg} {sent : List Packet}
      (h : m.cmiSyncNodeBroadcast hs node len msg = some (msg', sent)) :
      ∀ x ∈ sent, SameCld msg x.msg := by
    obtain ⟨sent₁, hforward, h⟩ := bind_eq_some_iff.mp h
    cases h
    have hsame := node_send_loop_same hforward
    exact hsame
  cases call with
  | syncBroadcast pe => exact hpe h
  | syncNodeBroadcast node => exact hnode h
  | syncBroadcastAll pe =>
    obtain ⟨own, hown, h⟩ := bind_eq_some_iff.mp h
    obtain ⟨⟨msg₁, sent₁⟩, hcall, h⟩ := bind_eq_some_iff.mp h
    cases h
    have hsame := sync_send_same hown
    exact forall_mem_cons.mpr ⟨hsame, hpe hcall⟩
  | syncNodeBroadcastAll node =>
    obtain ⟨own, hown, h⟩ := bind_eq_some_iff.mp h
    obtain ⟨⟨msg₁, sent₁⟩, hcall, h⟩ := bind_eq_some_iff.mp h
    cases h
    have hsame := sync_node_send_same hown
    exact forall_mem_cons.mpr ⟨hsame, hnode hcall⟩

theorem call_swap_handler_same {dest : Dest} {ran : List Packet}
    (h : Machine.callSwapHandler hs dest msg = some ran) : ∀ x ∈ ran, SameCld msg x.msg := by
  rw [callSwapHandler] at h
  split at h
  · cases h
    exact forall_mem_singleton.mpr ⟨rfl, rfl⟩
  · cases h

/-- So has every message that a relay sends or hands to its own handler. -/
theorem handle_bcast_same {sent ran : List Packet}
    (h : m.handleBcast hs packet = some (sent, ran)) :
    (∀ x ∈ sent, SameCld packet.msg x.msg) ∧ ∀ x ∈ ran, SameCld packet.msg x.msg := by
  rw [handleBcast] at h
  split at h
  · obtain ⟨⟨msg₁, sent₁⟩, hforward, h⟩ := bind_eq_some_iff.mp h
    obtain ⟨ran₁, hran, h⟩ := bind_eq_some_iff.mp h
    cases h
    obtain ⟨hmsg, hsent⟩ := bcast_forward_same hforward
    exact ⟨hsent, fun x hx => hmsg.trans (call_swap_handler_same hran x hx)⟩
  · obtain ⟨sent₁, hforward, h⟩ := bind_eq_some_iff.mp h
    obtain ⟨ran₁, hran, h⟩ := bind_eq_some_iff.mp h
    cases h
    exact ⟨node_send_loop_same hforward, call_swap_handler_same hran⟩
  · cases h
    exact ⟨forall_mem_nil _, forall_mem_singleton.mpr ⟨rfl, rfl⟩⟩
  · cases h

end Layers

/-! ## What each message on its way still owes -/

/-- What all messages of one call of the seed balancer have in common: the message's own handler,
the info function, and the broadcast that the layers below may make of it, which carries the handler
of the seed balancer. -/
structure Seed (m : Machine) (hs : CldHandlers) where
  handlerId : Nat
  infofn : Nat
  wave : Wave m hs.toHandlers
  isProgram : hs.IsProgram handlerId
  index_eq : wave.handlerId = hs.cldHandlerIndex ∨ wave.handlerId = hs.cldNodeHandlerIndex

namespace Seed

variable {m : Machine} {hs : CldHandlers} (w : Seed m hs)

/-- The call of the message's own handler. -/
def userAt (dest : Dest) : Obs := .user dest w.handlerId w.wave.payload

/-- The calls where the message arrives with the handler of the seed balancer. -/
def callsAt (dest : Dest) : List Obs := [.cld dest w.infofn w.handlerId, w.userAt dest]

/-- `CldHandler` is for PEs, and `CldNodeHandler` for nodes. -/
def Level (dest : Dest) : Prop :=
  (w.wave.handlerId = hs.cldHandlerIndex ∧ ∃ pe, dest = .pe pe) ∨
    (w.wave.handlerId = hs.cldNodeHandlerIndex ∧ ∃ node, dest = .node node)

/-- The handler and the info function are in their places. -/
def Parks (msg : Msg) : Prop :=
  msg.header.cldInfoFn = w.infofn ∧ msg.header.swapHandlerId = w.handlerId

/-- The messages of the call. -/
inductive Ok : Transit → Prop where
  | user {packet : Packet} : packet.msg.header.handlerId = w.handlerId →
      packet.msg.payload = w.wave.payload → Ok (.packet packet)
  | carried {packet : Packet} : w.wave.Ok packet → w.Parks packet.msg →
      (∀ o ∈ w.wave.owes packet, w.Level o.1 ∧ o.2 = (w.wave.handlerId, w.wave.payload)) →
      Ok (.packet packet)
  | fanout {pe : Nat} {msg : Msg} {ranks : List Nat} : w.wave.handlerId = hs.cldHandlerIndex →
      w.Parks msg → msg.payload = w.wave.payload → ranks ≠ [] →
      Ok (.fanout pe msg hs.cldHandlerIndex ranks)

/-- The calls that a message leads to. -/
noncomputable def owes : Transit → List Obs
  | .packet packet =>
    if packet.msg.header.handlerId = w.handlerId then [w.userAt packet.dest]
    else (w.wave.owes packet).flatMap fun o => w.callsAt o.1
  | .fanout pe _ _ ranks =>
    ranks.flatMap fun rank => w.callsAt (.pe (m.cmiNodeFirst (m.cmiNodeOf pe) + rank))

/-- The number of messages that are still to be handled. A fan-out message is handled once before
its copies are. -/
noncomputable def weight (t : Transit) : Nat :=
  match t with
  | .packet _ => (w.owes t).length
  | .fanout .. => 2 * (w.owes t).length

variable {w}

theorem index_isUser : hs.IsUser w.wave.handlerId := w.wave.isUser

/-- The handler of the seed balancer is not one of the program. -/
theorem index_ne : w.wave.handlerId ≠ w.handlerId := by
  intro heq
  obtain ⟨fn, hfn, hne, hne'⟩ := w.isProgram
  rw [← heq] at hfn
  rcases w.index_eq with hindex | hindex
  · rw [hindex, hs.cld_entry] at hfn
    exact hne (Handler.user.inj (Option.some.inj hfn)).symm
  · rw [hindex, hs.cldNode_entry] at hfn
    exact hne' (Handler.user.inj (Option.some.inj hfn)).symm

variable {packet : Packet} {msg : Msg}

/-- A message that the layers below carry does not have its own handler. -/
theorem carried_ne (hok : w.wave.Ok packet)
    (howes : ∀ o ∈ w.wave.owes packet, w.Level o.1 ∧ o.2 = (w.wave.handlerId, w.wave.payload)) :
    packet.msg.header.handlerId ≠ w.handlerId := by
  intro heq
  obtain ⟨fn, hfn, -, -⟩ := w.isProgram
  cases hok with
  | relay hpe hmsg hpayload =>
    rw [← heq, hmsg.handlerId, hs.bcast_entry] at hfn
    cases Option.some.inj hfn
  | nodeRelay hnode hmsg hpayload =>
    rw [← heq, hmsg.handlerId, hs.nodeBcast_entry] at hfn
    cases Option.some.inj hfn
  | user huser =>
    have hobs := (howes packet.obs (by rw [Wave.owes_user huser]; exact mem_singleton_self _)).2
    exact index_ne ((Prod.mk.inj hobs).1.symm.trans heq)

theorem owes_carried (hne : packet.msg.header.handlerId ≠ w.handlerId) :
    w.owes (.packet packet) = (w.wave.owes packet).flatMap fun o => w.callsAt o.1 := if_neg hne

/-- A message with the handler of the seed balancer, at its place. -/
theorem ok_arrived {dest : Dest} (hid : msg.header.handlerId = w.wave.handlerId)
    (hpayload : msg.payload = w.wave.payload) (hparks : w.Parks msg) (hlevel : w.Level dest) :
    w.Ok (.packet ⟨dest, msg⟩) ∧ w.owes (.packet ⟨dest, msg⟩) = w.callsAt dest := by
  have huser : hs.IsUser msg.header.handlerId := hid ▸ index_isUser
  have howes : w.wave.owes ⟨dest, msg⟩ = [(dest, w.wave.handlerId, w.wave.payload)] := by
    rw [Wave.owes_user (by exact huser), Packet.obs, hid, hpayload]
  constructor
  · refine .carried (.user huser) hparks ?_
    rw [howes]
    exact forall_mem_singleton.mpr ⟨hlevel, rfl⟩
  · rw [owes_carried (by rw [hid]; exact index_ne), howes]
    rfl

/-- Packets weigh as much as they owe. -/
theorem weight_packets (packets : List Packet) :
    ((packets.map Transit.packet).map w.weight).sum =
      ((packets.map Transit.packet).flatMap w.owes).length := by
  rw [length_flatMap, map_map, map_map]
  rfl

/-- `CldHandler` and `CldNodeHandler` restore the handler. -/
theorem call_handler_eq (hid : packet.msg.header.handlerId = w.wave.handlerId)
    (hlevel : w.Level packet.dest) : callHandler m hs packet =
      some ([.packet ⟨packet.dest, cldRestoreHandler packet.msg⟩], [.cld packet]) := by
  obtain ⟨dest, msg⟩ := packet
  rcases hlevel with ⟨hindex, pe, hdest⟩ | ⟨hindex, node, hdest⟩
  · have hentry : hs.table[msg.header.handlerId]? = some (.user hs.cldFn) := by
      rw [show msg.header.handlerId = hs.cldHandlerIndex from hid.trans hindex]
      exact hs.cld_entry
    obtain rfl : dest = .pe pe := hdest
    simp only [callHandler, hentry, if_pos]
  · have hentry : hs.table[msg.header.handlerId]? = some (.user hs.cldNodeFn) := by
      rw [show msg.header.handlerId = hs.cldNodeHandlerIndex from hid.trans hindex]
      exact hs.cldNode_entry
    obtain rfl : dest = .node node := hdest
    simp only [callHandler, hentry, if_neg hs.fn_ne.symm, if_pos]

/-- A message with its own handler. -/
theorem handle_user (hid : packet.msg.header.handlerId = w.handlerId) :
    handle m hs (.packet packet) = some ([], [.user packet]) := by
  obtain ⟨fn, hfn, hne, hne'⟩ := w.isProgram
  have hbcast : m.handleBcast hs.toHandlers packet = some ([], [packet]) := by
    simp only [handleBcast, hid, hfn]
  have hcall : callHandler m hs packet = some ([], [.user packet]) := by
    simp only [callHandler, hid, hfn, if_neg hne, if_neg hne']
  simp [handle, hbcast, hcall]

/-- A message that the layers below carry. -/
theorem handle_carried (hok : w.wave.Ok packet) (hparks : w.Parks packet.msg)
    (howes : ∀ o ∈ w.wave.owes packet, w.Level o.1 ∧ o.2 = (w.wave.handlerId, w.wave.payload)) :
    ∃ (sent : List Packet) (run : Run),
      handle m hs (.packet packet) = some (sent.map .packet, [run]) ∧
      (∀ x ∈ sent, w.Ok (.packet x)) ∧
      (w.owes (.packet packet)).Perm ((sent.map .packet).flatMap w.owes ++ [run.obs]) := by
  obtain ⟨sent, ran, hhandle, hsent, hperm⟩ := Wave.handle_pays hok
  obtain ⟨run, rfl⟩ := length_eq_one_iff.mp (handle_bcast_ran_length hhandle)
  obtain ⟨hsame, hsame'⟩ := handle_bcast_same hhandle
  -- What the call is observed to be is owed, and so at the right level.
  have hmem : run.obs ∈ w.wave.owes packet :=
    hperm.mem_iff.mpr (mem_append_right _ (mem_singleton_self _))
  obtain ⟨hlevel, hobs⟩ := howes run.obs hmem
  obtain ⟨hid, hpayload⟩ := Prod.mk.inj hobs
  have hparks' : w.Parks run.msg := by
    have := hsame' run (mem_singleton_self run)
    exact ⟨this.1.trans hparks.1, this.2.trans hparks.2⟩
  have hsent_owes {x : Packet} (hx : x ∈ sent) : ∀ o ∈ w.wave.owes x,
      w.Level o.1 ∧ o.2 = (w.wave.handlerId, w.wave.payload) := fun o ho =>
    howes o (hperm.mem_iff.mpr (mem_append_left _ (mem_flatMap.mpr ⟨x, hx, ho⟩)))
  have hrestored : (cldRestoreHandler run.msg).header.handlerId = w.handlerId := hparks'.2
  refine ⟨sent ++ [⟨run.dest, cldRestoreHandler run.msg⟩], .cld run, ?_, ?_, ?_⟩
  · simp [handle, hhandle, call_handler_eq hid hlevel]
  · intro x hx
    rcases mem_append.mp hx with hx | hx
    · have := hsame x hx
      exact .carried (hsent x hx) ⟨this.1.trans hparks.1, this.2.trans hparks.2⟩ (hsent_owes hx)
    · obtain rfl := mem_singleton.mp hx
      exact .user hrestored hpayload
  · have hcalls := hperm.flatMap_right fun o => w.callsAt o.1
    have hflat : (sent.map Transit.packet).flatMap w.owes =
        (sent.flatMap w.wave.owes).flatMap fun o => w.callsAt o.1 := by
      rw [flatMap_map, flatMap_assoc]
      exact flatMap_congr fun x hx => owes_carried (carried_ne (hsent x hx) (hsent_owes hx))
    have hown : w.owes (.packet ⟨run.dest, cldRestoreHandler run.msg⟩) = [w.userAt run.dest] :=
      if_pos hrestored
    have hrun : Run.obs (.cld run) = .cld run.dest w.infofn w.handlerId := by
      rw [Run.obs, hparks'.1, hparks'.2]
    rw [owes_carried (carried_ne hok howes)]
    refine hcalls.trans ?_
    rw [map_append, flatMap_append, flatMap_append, hflat, append_assoc]
    refine List.Perm.append_left _ ?_
    simp only [flatMap_cons, flatMap_nil, append_nil, map_cons, map_nil, hown, hrun]
    exact List.Perm.swap _ _ _

/-- The fan-out handler sends a message to each rank, and these owe what the fan-out message owed.
-/
theorem handle_fanout {pe : Nat} {ranks : List Nat}
    (hindex : w.wave.handlerId = hs.cldHandlerIndex) (hparks : w.Parks msg)
    (hpayload : msg.payload = w.wave.payload) :
    ∃ sent : List Packet,
      handle m hs (.fanout pe msg hs.cldHandlerIndex ranks) = some (sent.map .packet, []) ∧
      (∀ x ∈ sent, w.Ok (.packet x)) ∧
      (w.owes (.fanout pe msg hs.cldHandlerIndex ranks)).Perm
        ((sent.map .packet).flatMap w.owes) := by
  let copy (rank : Nat) : Packet :=
    ⟨.pe (m.cmiNodeFirst (m.cmiNodeOf pe) + rank), (msg.setHandler hs.cldHandlerIndex).stamp
      (some (m.cmiNodeFirst (m.cmiNodeOf pe) + rank))⟩
  have harrived (rank : Nat) :
      w.Ok (.packet (copy rank)) ∧ w.owes (.packet (copy rank)) = w.callsAt (copy rank).dest :=
    ok_arrived hindex.symm hpayload hparks (.inl ⟨hindex, _, rfl⟩)
  refine ⟨_, rfl, fun x hx => ?_, ?_⟩
  · obtain ⟨rank, -, rfl⟩ := mem_map.mp hx
    exact (harrived rank).1
  · have hranks : ranks.Perm (ranks.tail ++ ranks.take 1) := by
      cases ranks with
      | nil => exact .refl _
      | cons rank ranks => exact (perm_append_singleton rank ranks).symm
    rw [cmiFanoutHandler, map_map, flatMap_map]
    refine (hranks.flatMap_right _).trans (.of_eq (flatMap_congr fun rank _ => ?_))
    exact (harrived rank).2.symm

/-- Handling a message of the call keeps what is owed, and takes from the weight of it. -/
theorem handle_spec {t : Transit} (h : w.Ok t) :
    ∃ sent ran, handle m hs t = some (sent, ran) ∧ (∀ x ∈ sent, w.Ok x) ∧
      (w.owes t).Perm (sent.flatMap w.owes ++ ran.map Run.obs) ∧
      (sent.map w.weight).sum < w.weight t := by
  cases h with
  | @user packet hid hpayload =>
    have howes : w.owes (.packet packet) = [Run.obs (.user packet)] := by
      rw [owes, if_pos hid, Run.obs, hid, hpayload, userAt]
    refine ⟨[], [.user packet], handle_user hid, nofun, .of_eq howes, ?_⟩
    rw [weight, howes]
    exact Nat.zero_lt_one
  | carried hok hparks howes =>
    obtain ⟨sent, run, hhandle, hsent, hperm⟩ := handle_carried hok hparks howes
    refine ⟨_, _, hhandle, fun x hx => ?_, hperm, ?_⟩
    · obtain ⟨y, hy, rfl⟩ := mem_map.mp hx
      exact hsent y hy
    · rw [weight_packets, weight, hperm.length_eq, length_append]
      exact Nat.lt_succ_self _
  | @fanout pe msg ranks hindex hparks hpayload hranks =>
    obtain ⟨sent, hhandle, hsent, hperm⟩ := handle_fanout hindex hparks hpayload
    refine ⟨_, _, hhandle, fun x hx => ?_, ?_, ?_⟩
    · obtain ⟨y, hy, rfl⟩ := mem_map.mp hx
      exact hsent y hy
    · rw [map_nil, append_nil]
      exact hperm
    · have hpos : 0 < (w.owes (.fanout pe msg hs.cldHandlerIndex ranks)).length := by
        obtain ⟨rank, ranks, rfl⟩ := exists_cons_of_ne_nil hranks
        exact Nat.succ_pos _
      rw [weight_packets, weight, ← hperm.length_eq]
      omega

variable (w) in
/-- The account of a call of the seed balancer. -/
noncomputable def account : Dispatch.Account (handle m hs) Run.obs where
  ok := w.Ok
  owes := w.owes
  pays _ h := by
    obtain ⟨sent, ran, hhandle, hsent, hperm, -⟩ := handle_spec h
    exact ⟨sent, ran, hhandle, hsent, hperm⟩

/-- Handling a message makes what is to be handled less. -/
theorem weight_lt (t : Transit) (h : w.Ok t) (sent : List Transit) (ran : List Run)
    (hhandle : handle m hs t = some (sent, ran)) : (sent.map w.weight).sum < w.weight t := by
  obtain ⟨sent', ran', hhandle', -, -, hlt⟩ := handle_spec h
  obtain ⟨rfl, rfl⟩ := Prod.mk.inj (Option.mem_unique hhandle hhandle')
  exact hlt

/-- Messages weigh at most twice what they owe. -/
theorem sum_weight_le (sent : List Transit) :
    (sent.map w.weight).sum ≤ 2 * (sent.flatMap w.owes).length := by
  induction sent with
  | nil => exact le_refl _
  | cons t sent ih =>
    have hle : w.weight t ≤ 2 * (w.owes t).length := by
      cases t with
      | packet => exact Nat.le_mul_of_pos_left _ two_pos
      | fanout => exact le_refl _
    rw [map_cons, sum_cons, flatMap_cons, length_append]
    omega

end Seed

/-- Whatever the order of delivery from `sent` on, every message on its way can be handled, the
deliveries come to an end, the calls that are made are among `expected`, and when nothing is on its
way they are all of `expected`, each once. -/
structure Yields (m : Machine) (hs : CldHandlers) (sent : List Transit) (expected : List Obs) :
    Prop where
  enabled : ∀ es s, Steps (Dispatch.Delivers (handle m hs)) ⟨sent, []⟩ es s →
    ∀ i < s.flight.length, ∃ s', Dispatch.Delivers (handle m hs) s i s'
  bounded : ∀ es s, Steps (Dispatch.Delivers (handle m hs)) ⟨sent, []⟩ es s →
    es.length ≤ 2 * expected.length
  sound : ∀ es s, Steps (Dispatch.Delivers (handle m hs)) ⟨sent, []⟩ es s →
    ∀ run ∈ s.log, run.obs ∈ expected
  complete : ∀ es s, Steps (Dispatch.Delivers (handle m hs)) ⟨sent, []⟩ es s → s.flight = [] →
    (s.log.map Run.obs).Perm expected
  ends : ∃ es s, Steps (Dispatch.Delivers (handle m hs)) ⟨sent, []⟩ es s ∧ s.flight = []

/-- Messages of a call that owe `expected` lead to it. -/
theorem Seed.yields {m : Machine} {hs : CldHandlers} (w : Seed m hs) {sent : List Transit}
    {expected : List Obs} (hok : ∀ x ∈ sent, w.Ok x) (hperm : (sent.flatMap w.owes).Perm expected) :
    Yields m hs sent expected := by
  have hcovers : w.account.Covers ⟨sent, []⟩ := hok
  have htotal {es : List Nat} {s : Dispatch.State Transit Run}
      (h : Steps (Dispatch.Delivers (handle m hs)) ⟨sent, []⟩ es s) :
      w.account.Covers s ∧ (w.account.total s).Perm expected := by
    obtain ⟨hcov, htotal⟩ := Dispatch.Account.steps hcovers h
    refine ⟨hcov, htotal.trans ?_⟩
    rw [Dispatch.Account.total, map_nil, append_nil]
    exact hperm
  have hweight : (sent.map w.weight).sum ≤ 2 * expected.length := by
    rw [← hperm.length_eq]
    exact sum_weight_le sent
  refine ⟨fun es s h i hi => (htotal h).1.enabled hi, fun es s h => ?_, fun es s h run hrun => ?_,
    fun es s h hdone => ?_, ?_⟩
  · have hle : es.length + (s.flight.map w.weight).sum ≤ (sent.map w.weight).sum :=
      Dispatch.Account.steps_length_le w.weight weight_lt hcovers h
    omega
  · exact (htotal h).2.mem_iff.mp (mem_append_right _ (mem_map_of_mem hrun))
  · have := (htotal h).2
    rwa [Dispatch.Account.total, hdone, flatMap_nil] at this
  · exact Dispatch.Account.exists_complete w.weight weight_lt (le_refl _) hcovers

end Reconverse.Cld
