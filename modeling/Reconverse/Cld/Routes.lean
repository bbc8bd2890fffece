import Reconverse.Cld.Delivery

/-!
# Where the seed balancer's calls lead to

For each call of the seed balancer: the PEs or nodes that it addresses, the message that is carried
there, and that what it sends owes the calls there and no others (`Route.start_yields`). A list send
fails if a fan-out message is too large for an `int` (`Route.start_eq_none`).
-/

namespace Reconverse.Cld

open Lib List Route Machine

variable {pes : List Nat} {sent : List Transit}

namespace Route

variable (m : Machine) (me : Nat) (rand : Int)

/-- The PE that `CldEnqueue` goes on with, or the marker. -/
def chosenPe (pe : Int) : Int := if pe = cldAnywhere then anywhere rand me m.cmiNumPes else pe

/-- The node that `CldNodeEnqueue` goes on with, or the marker. -/
def chosenNode (node : Int) : Int :=
  if node = cldAnywhere then anywhere rand (m.cmiNodeOf me) m.numNodes else node

/-- A message for `CLD_ANYWHERE` that stays in the process. -/
def Stays (pe : Int) : Prop :=
  pe = cldAnywhere ∧ m.cmiNodeOf (anywhere rand me m.cmiNumPes) = m.cmiNodeOf me

instance (pe : Int) : Decidable (Stays m me rand pe) := inferInstanceAs (Decidable (_ ∧ _))

/-- The message is queued at once, and the seed balancer's handlers are not needed. -/
def Direct : Route → Prop
  | .enqueue pe => Stays m me rand pe ∨ chosenPe m me rand pe = me
  | .nodeEnqueue node => chosenNode m me rand node = m.cmiNodeOf me
  | _ => False

instance (route : Route) : Decidable (route.Direct m me rand) := by
  cases route <;> simp only [Direct] <;> infer_instance

/-- The PEs and nodes that the call addresses. A list addresses a PE as often as it names it, and a
within-node broadcast of a `CMK_ZC_BCAST_RECV_MSG` message only the calling PE. -/
def addressed (msg : Msg) : Route → List Dest
  | .enqueue pe =>
    if Stays m me rand pe then [.node (m.cmiNodeOf me)]
    else if pe = cldBroadcast then (BcastCall.syncBroadcast me).targets m
    else if pe = cldBroadcastAll then (BcastCall.syncBroadcastAll me).targets m
    else [.pe (chosenPe m me rand pe).toNat]
  | .nodeEnqueue node =>
    if node = cldBroadcast then (BcastCall.syncNodeBroadcast (m.cmiNodeOf me)).targets m
    else if node = cldBroadcastAll then
      (BcastCall.syncNodeBroadcastAll (m.cmiNodeOf me)).targets m
    else [.node (chosenNode m me rand node).toNat]
  | .multi pes | .group pes => pes.map .pe
  | .withinNode => (withinNodePes m me msg).map .pe

/-- The message that is carried. -/
def sentMsg (ifn : CldInfoFn) (msg : Msg) : Route → Msg
  | .enqueue pe =>
    if Partition.cmiNodeOf m.nodeSize (chosenPe m me rand pe) ≠ m.cmiNodeOf me then ifn.packed msg
    else msg
  | .nodeEnqueue node =>
    if chosenNode m me rand node ≠ m.cmiNodeOf me then ifn.packed msg else msg
  | .multi _ | .group _ => ifn.packed msg
  | .withinNode => if msg.header.nokeep then msg else ifn.packed msg

/-- The calls that should be made. -/
def expected (ifn : CldInfoFn) (infofn : Nat) (msg : Msg) (route : Route) : List Obs :=
  let payload := (route.sentMsg m me rand ifn msg).payload
  (route.addressed m me rand msg).flatMap fun dest =>
    if route.Direct m me rand then [.user dest msg.header.handlerId payload]
    else [.cld dest infofn msg.header.handlerId, .user dest msg.header.handlerId payload]

/-- The fan-out messages of a list send fit. -/
def Fits (ifn : CldInfoFn) (phs : Bool) (msg : Msg) : Route → Prop
  | .multi pes | .group pes => phs = true ∨ Wire.FanoutsFit m me (size (ifn.packed msg)) pes
  | _ => True

end Route

/-! ## Messages of a call -/

theorem packed_handlerId (ifn : CldInfoFn) (msg : Msg) :
    (ifn.packed msg).header.handlerId = msg.header.handlerId := by
  rw [CldInfoFn.packed]
  split
  · exact ifn.pack_handlerId (by assumption)
  · rfl

theorem packed_zcMsgType (ifn : CldInfoFn) (msg : Msg) :
    (ifn.packed msg).header.zcMsgType = msg.header.zcMsgType := by
  rw [CldInfoFn.packed]
  split
  · exact ifn.pack_zcMsgType (by assumption)
  · rfl

theorem copy_size (msg : Msg) : (msg.copy (size msg)).payload = msg.payload := by
  rw [Msg.copy, size, Nat.add_sub_cancel_left]
  exact take_length

namespace Seed

variable {m : Machine} {hs : CldHandlers} {w : Seed m hs} {dests dests' : List Dest}

/-- What is sent owes the calls at `dests`. -/
structure Sends (w : Seed m hs) (dests : List Dest) (sent : List Transit) : Prop where
  ok : ∀ x ∈ sent, w.Ok x
  owes : (sent.flatMap w.owes).Perm (dests.flatMap w.callsAt)

theorem Sends.nil : w.Sends [] [] := ⟨nofun, .refl _⟩

/-- Two groups of messages for two lists of places. -/
theorem Sends.append {sent sent' : List Transit}
    (h : w.Sends dests sent) (h' : w.Sends dests' sent') :
    w.Sends (dests ++ dests') (sent ++ sent') where
  ok x hx := (mem_append.mp hx).elim (h.ok x) (h'.ok x)
  owes := by
    rw [flatMap_append, flatMap_append]
    exact h.owes.append h'.owes

theorem Sends.perm (h : w.Sends dests sent) (hperm : dests.Perm dests') : w.Sends dests' sent :=
  ⟨h.ok, h.owes.trans (hperm.flatMap_right _)⟩

/-- Messages that are sent one by one, with the handler of the seed balancer. -/
theorem sends_each (dests : List Dest) (packet : Dest → Packet)
    (hpacket : ∀ dest ∈ dests, (packet dest).dest = dest ∧ w.Level dest ∧
      (packet dest).msg.header.handlerId = w.wave.handlerId ∧
      (packet dest).msg.payload = w.wave.payload ∧ w.Parks (packet dest).msg) :
    w.Sends dests (dests.map fun dest => .packet (packet dest)) := by
  have harrived {dest : Dest} (h : dest ∈ dests) :
      w.Ok (.packet (packet dest)) ∧ w.owes (.packet (packet dest)) = w.callsAt dest := by
    obtain ⟨hdest, hlevel, hid, hpayload, hparks⟩ := hpacket dest h
    have := ok_arrived hid hpayload hparks (hdest ▸ hlevel)
    exact ⟨this.1, this.2.trans (congrArg w.callsAt hdest)⟩
  constructor
  · intro x hx
    obtain ⟨dest, hdest, rfl⟩ := mem_map.mp hx
    exact (harrived hdest).1
  · rw [flatMap_map]
    exact .of_eq (flatMap_congr fun dest hdest => (harrived hdest).2)

/-- A broadcast call sends to all of its targets. -/
theorem sends_bcast {call : BcastCall} {len : Nat} {msg : Msg}
    (hstarts : call.Starts w.wave len msg) (hparks : w.Parks msg)
    (hlevel : ∀ dest ∈ call.targets m, w.Level dest) :
    ∃ msg' sent, call.tree m hs.toHandlers len msg = some (msg', sent) ∧
      w.Sends (call.targets m) (sent.map .packet) := by
  obtain ⟨msg', sent, htree, -, -, hok, hperm⟩ := hstarts
  have hsame := bcast_call_same htree
  have howes {x : Packet} (hx : x ∈ sent) : ∀ o ∈ w.wave.owes x,
      w.Level o.1 ∧ o.2 = (w.wave.handlerId, w.wave.payload) := by
    intro o ho
    obtain ⟨dest, hdest, rfl⟩ := mem_map.mp
      (hperm.mem_iff.mp (mem_flatMap.mpr ⟨x, hx, ho⟩))
    exact ⟨hlevel dest hdest, rfl⟩
  refine ⟨msg', sent, htree, fun x hx => ?_, ?_⟩
  · obtain ⟨y, hy, rfl⟩ := mem_map.mp hx
    have := hsame y hy
    exact .carried (hok y hy) ⟨this.1.trans hparks.1, this.2.trans hparks.2⟩ (howes hy)
  · have hflat : (sent.map Transit.packet).flatMap w.owes =
        (sent.flatMap w.wave.owes).flatMap fun o => w.callsAt o.1 := by
      rw [flatMap_map, flatMap_assoc]
      exact flatMap_congr fun x hx => owes_carried (carried_ne (hok x hx) (howes hx))
    rw [hflat]
    refine (hperm.flatMap_right _).trans (.of_eq ?_)
    rw [flatMap_map]
    rfl

end Seed

/-! ## List sends -/

section ListSend

variable {m : Machine} {hs : CldHandlers} {w : Seed m hs} {me : Nat} {msg : Msg} {rest : List Nat}
  {first : Nat} {phs : Bool}

/-- The message of a list send. -/
structure IsListMsg (w : Seed m hs) (msg : Msg) : Prop where
  index : w.wave.handlerId = hs.cldHandlerIndex
  handlerId : msg.header.handlerId = hs.cldHandlerIndex
  payload : msg.payload = w.wave.payload
  parks : w.Parks msg

/-- A loop of `CmiSyncSend` sends to every PE of the list. -/
theorem send_loop_sends (hmsg : IsListMsg w msg) (hpes : ∀ pe ∈ pes, pe < m.cmiNumPes) :
    ∃ sent, pes.mapM (m.cmiSyncSend · (size msg) msg) = some sent ∧
      w.Sends (pes.map .pe) (sent.map .packet) := by
  refine ⟨_, sync_send_loop hpes (size msg) msg, ?_⟩
  have hsends := Seed.sends_each (w := w) (pes.map .pe)
    (fun dest => ⟨dest, (msg.copy (size msg)).stamp (dest.casesOn some fun _ => none)⟩) ?_
  · rw [map_map] at hsends ⊢
    exact hsends
  · intro dest hdest
    obtain ⟨pe, -, rfl⟩ := mem_map.mp hdest
    exact ⟨rfl, .inl ⟨hmsg.index, pe, rfl⟩, hmsg.handlerId.trans hmsg.index.symm,
      (copy_size msg).trans hmsg.payload, hmsg.parks⟩

/-- The entries of one other process. -/
theorem list_send_to_process_sends (hmsg : IsListMsg w msg)
    (hpes : ∀ pe ∈ first :: rest, pe < m.cmiNumPes)
    (hnode : ∀ pe ∈ rest, m.cmiNodeOf pe = m.cmiNodeOf first)
    (hfit : rest ≠ [] → Wire.FanoutFits m (size msg) (rest.length + 1)) :
    ∃ sent, cmiListSendToProcess m hs (size msg) msg first rest = some sent ∧
      w.Sends ((first :: rest).map .pe) sent := by
  have hfirst := hpes first mem_cons_self
  rw [cmiListSendToProcess]
  split
  · rename_i hrest
    subst hrest
    obtain ⟨sent, hsent, hsends⟩ := send_loop_sends hmsg hpes
    simp only [mapM_cons, mapM_nil, sync_send_eq hfirst, bind, pure,
      Option.bind_some, Option.some.injEq] at hsent
    rw [← hsent] at hsends
    rw [sync_send_eq hfirst]
    exact ⟨_, rfl, hsends⟩
  · rename_i hrest
    rw [sync_send_eq hfirst, guard, if_pos (hfit hrest (Nat.le_add_right ..)), hmsg.handlerId]
    refine ⟨_, rfl, forall_mem_singleton.mpr ?_, ?_⟩
    · refine .fanout hmsg.index hmsg.parks ?_ (by simp)
      exact (copy_size msg).trans hmsg.payload
    · have hpe : ∀ pe ∈ first :: rest,
          m.cmiNodeFirst (m.cmiNodeOf first) + m.cmiRankOf pe = pe := by
        intro pe hpe
        rcases mem_cons.mp hpe with rfl | hpe
        · exact node_first_add_rank pe
        · rw [← hnode pe hpe]
          exact node_first_add_rank pe
      rw [flatMap_singleton, Seed.owes, flatMap_map, flatMap_map]
      exact .of_eq (flatMap_congr fun pe hmem => by rw [hpe pe hmem])

/-- The PEs of one process get single messages or one fan-out message. -/
theorem send_group_sends (me : Nat) (hmsg : IsListMsg w msg)
    (hpes : ∀ pe ∈ first :: rest, pe < m.cmiNumPes)
    (hnode : ∀ pe ∈ rest, m.cmiNodeOf pe = m.cmiNodeOf first)
    (hfit : m.cmiNodeOf first ≠ m.cmiNodeOf me → rest ≠ [] →
      Wire.FanoutFits m (size msg) (rest.length + 1)) :
    ∃ sent, sendGroup m hs me (size msg) msg first rest = some sent ∧
      w.Sends ((first :: rest).map .pe) sent := by
  rw [sendGroup]
  split
  · obtain ⟨sent, hsent, hsends⟩ := send_loop_sends hmsg hpes
    exact ⟨sent.map .packet, by rw [hsent]; rfl, hsends⟩
  · exact list_send_to_process_sends hmsg hpes hnode (hfit (by assumption))

/-- The list send goes through the list process by process. -/
theorem is_by_process (m : Machine) (hs : CldHandlers) (me len : Nat) (msg : Msg) :
    Wire.IsByProcess m (sendGroup m hs me len msg) (sendByProcess m hs me len msg) where
  nil fuel := by cases fuel <;> rfl
  cons _ _ _ := rfl

/-- A list send whose fan-out messages fit. -/
theorem list_send_sends (me : Nat) (hmsg : IsListMsg w msg) (hpes : ∀ pe ∈ pes, pe < m.cmiNumPes)
    (hfit : phs = true ∨ Wire.FanoutsFit m me (size msg) pes) :
    ∃ sent, cmiSyncListSend m hs me phs pes (size msg) msg = some sent ∧
      w.Sends (pes.map .pe) sent := by
  rw [cmiSyncListSend]
  split
  · obtain ⟨sent, hsent, hsends⟩ := send_loop_sends hmsg hpes
    exact ⟨sent.map .packet, by rw [hsent]; rfl, hsends⟩
  · rename_i hplain
    have hperm : (Wire.sortByNode m pes).Perm pes := mergeSort_perm ..
    have hfit : Wire.FanoutsFit m me (size msg) pes :=
      hfit.resolve_left fun h => hplain (.inr (.inr h))
    obtain ⟨sent, hsent, hsends⟩ := (is_by_process m hs me (size msg) msg).sends
      (fun pes => w.Sends (pes.map .pe)) .nil
      (fun ha hb => map_append ▸ ha.append hb)
      (send_group_sends me hmsg) pes.length (le_of_eq hperm.length_eq)
      (fun pe hpe => hpes pe (hperm.mem_iff.mp hpe)) (Wire.sorted_by_node m pes) (by
        intro node hnode htwo
        rw [Wire.listed_perm hperm] at htwo ⊢
        exact hfit node hnode htwo)
    exact ⟨sent, hsent, hsends.perm (hperm.map _)⟩

/-- A list send with a fan-out message that does not fit. -/
theorem list_send_overflow (hme : me < m.cmiNumPes) (hpes : ∀ pe ∈ pes, pe < m.cmiNumPes)
    (hfit : ¬ (phs = true ∨ Wire.FanoutsFit m me (size msg) pes)) :
    cmiSyncListSend m hs me phs pes (size msg) msg = none := by
  obtain ⟨hphs, hfanouts⟩ := not_or.mp hfit
  simp only [Wire.FanoutsFit, not_forall] at hfanouts
  obtain ⟨node, hnode, htwo, htotal⟩ := hfanouts
  have hlength : 2 ≤ pes.length := le_trans htwo countP_le_length
  -- A listed PE of another node.
  have hnodes : m.numNodes ≠ 1 := by
    obtain ⟨pe, hpe, heq⟩ := countP_pos_iff.mp (lt_of_lt_of_le two_pos htwo)
    have hlt := lt_num_pes_iff.mp (hpes pe hpe)
    have hlt' := lt_num_pes_iff.mp hme
    have : m.cmiNodeOf pe = node := by simpa using heq
    omega
  have hperm : (Wire.sortByNode m pes).Perm pes := mergeSort_perm ..
  rw [cmiSyncListSend, if_neg (by
    intro h
    rcases h with h | h | h
    · omega
    · exact hnodes h
    · exact hphs h)]
  have hgroup {first : Nat} {rest : List Nat} (hne : m.cmiNodeOf first ≠ m.cmiNodeOf me)
      (hrest : rest ≠ []) (htotal : ¬ Wire.FanoutFits m (size msg) (rest.length + 1)) :
      sendGroup m hs me (size msg) msg first rest = none := by
    rw [sendGroup, if_neg hne, cmiListSendToProcess, if_neg hrest, guard,
      if_neg fun h => htotal fun _ => h]
    rfl
  refine (is_by_process m hs me (size msg) msg).overflow hgroup pes.length
    (le_of_eq hperm.length_eq) (Wire.sorted_by_node m pes) hnode ?_ ?_
  · rwa [Wire.listed_perm hperm]
  · rwa [Wire.listed_perm hperm]

end ListSend

/-! ## The routes -/

section Routes

variable {m : Machine} {hs : CldHandlers} {ifn : CldInfoFn} {infofn me : Nat} {rand : Int}
  {phs : Bool} {msg : Msg} {route : Route} {index : Nat}

/-- The messages of a call that carries `msg` with the handler `index` of the seed balancer. -/
def seedOf (hs : CldHandlers) (hme : me < m.cmiNumPes) (infofn index : Nat)
    (hindex : index = hs.cldHandlerIndex ∨ index = hs.cldNodeHandlerIndex) (msg : Msg)
    (hprogram : hs.IsProgram msg.header.handlerId) : Seed m hs where
  handlerId := msg.header.handlerId
  infofn := infofn
  wave :=
    { root := m.cmiNodeOf me
      handlerId := index
      size := size msg
      payload := msg.payload
      root_lt := Machine.lt_num_pes_iff.mp hme
      isUser := by
        rcases hindex with rfl | rfl
        · exact ⟨_, hs.cld_entry⟩
        · exact ⟨_, hs.cldNode_entry⟩ }
  isProgram := hprogram
  index_eq := hindex

/-- A message that is queued at once. -/
theorem yields_direct (hme : me < m.cmiNumPes) (dest : Dest)
    (hprogram : hs.IsProgram msg.header.handlerId) :
    Yields m hs [.packet ⟨dest, msg⟩] [.user dest msg.header.handlerId msg.payload] := by
  have hok : (seedOf hs hme 0 hs.cldHandlerIndex (.inl rfl) msg hprogram).Ok
      (.packet ⟨dest, msg⟩) :=
    .user rfl rfl
  refine Seed.yields _ (forall_mem_singleton.mpr hok) ?_
  rw [flatMap_singleton, Seed.owes, if_pos (by rfl)]
  rfl

/-- What a call leads to that sends a message with the handler of the seed balancer. -/
theorem yields_of_sends {w : Seed m hs} {dests : List Dest}
    (h : w.Sends dests sent) : Yields m hs sent (dests.flatMap fun dest =>
      [.cld dest w.infofn w.handlerId, .user dest w.handlerId w.wave.payload]) :=
  w.yields h.ok h.owes

/-- A spanning-tree broadcast by the seed balancer. -/
theorem yields_bcast (infofn : Nat) (call : BcastCall) (hvalid : call.Valid m)
    (hindex : index = hs.cldHandlerIndex ∨ index = hs.cldNodeHandlerIndex)
    (hprogram : hs.IsProgram msg.header.handlerId)
    (hlevel : ∀ dest ∈ call.targets m, (index = hs.cldHandlerIndex ∧ ∃ pe, dest = .pe pe) ∨
      (index = hs.cldNodeHandlerIndex ∧ ∃ node, dest = .node node)) :
    ∃ msg' sent, call.tree m hs.toHandlers (size (switched infofn index msg))
        (switched infofn index msg) = some (msg', sent) ∧
      Yields m hs (sent.map .packet) ((call.targets m).flatMap fun dest =>
        [.cld dest infofn msg.header.handlerId, .user dest msg.header.handlerId msg.payload]) := by
  have huser : hs.IsUser (switched infofn index msg).header.handlerId := by
    rcases hindex with rfl | rfl
    · exact ⟨_, hs.cld_entry⟩
    · exact ⟨_, hs.cldNode_entry⟩
  obtain ⟨wave, hstarts, hobs⟩ := BcastCall.exists_starts
    (size (switched infofn index msg)) hvalid huser
  have hwave : wave.handlerId = index ∧ wave.payload = msg.payload := by
    have hdest := hobs (.pe 0)
    obtain ⟨hid, hpayload⟩ := Prod.mk.inj (Prod.mk.inj hdest).2
    exact ⟨hid, hpayload.trans (copy_size (switched infofn index msg))⟩
  let w : Seed m hs := ⟨msg.header.handlerId, infofn, wave, hprogram, hwave.1.symm ▸ hindex⟩
  obtain ⟨msg', sent, htree, hsends⟩ := Seed.sends_bcast hstarts ⟨rfl, rfl⟩ (by
    intro dest hdest
    rw [Seed.Level, show w.wave.handlerId = index from hwave.1]
    exact hlevel dest hdest)
  refine ⟨msg', sent, htree, ?_⟩
  have := yields_of_sends hsends
  rwa [show w.wave.payload = msg.payload from hwave.2] at this

/-- A point-to-point send by the seed balancer. -/
theorem yields_send (hme : me < m.cmiNumPes)
    (hindex : index = hs.cldHandlerIndex ∨ index = hs.cldNodeHandlerIndex)
    (hprogram : hs.IsProgram msg.header.handlerId) {dest : Dest} (stamp : Option Nat)
    (hlevel : (index = hs.cldHandlerIndex ∧ ∃ pe, dest = .pe pe) ∨
      (index = hs.cldNodeHandlerIndex ∧ ∃ node, dest = .node node)) :
    Yields m hs [.packet ⟨dest, ((switched infofn index msg).copy
        (size (switched infofn index msg))).stamp stamp⟩]
      [.cld dest infofn msg.header.handlerId, .user dest msg.header.handlerId msg.payload] := by
  have hsends := Seed.sends_each (w := seedOf hs hme infofn index hindex msg hprogram)
    [dest] (fun dest => ⟨dest, ((switched infofn index msg).copy
      (size (switched infofn index msg))).stamp stamp⟩)
    (forall_mem_singleton.mpr ⟨rfl, hlevel, rfl, copy_size _, rfl, rfl⟩)
  exact yields_of_sends hsends

theorem anywhere_lt (rand : Int) (me : Nat) {n : Nat} (hn : 0 < n) : anywhere rand me n < n :=
  Nat.mod_lt _ hn

/-- `CldNodeEnqueue` makes each addressed node run the handler once. -/
theorem node_enqueue_yields (ifn : CldInfoFn) (infofn : Nat) (rand : Int) (hme : me < m.cmiNumPes)
    (hprogram : hs.IsProgram msg.header.handlerId) {node : Int}
    (hvalid : (Route.nodeEnqueue node).Valid m) :
    ∃ sent, cldNodeEnqueue m hs ifn infofn me rand node msg = some sent ∧
      Yields m hs sent ((Route.nodeEnqueue node).expected m me rand ifn infofn msg) := by
  have hroot := lt_num_pes_iff.mp hme
  have hpacked := packed_handlerId ifn msg
  have hprogram' : hs.IsProgram (ifn.packed msg).header.handlerId := hpacked.symm ▸ hprogram
  by_cases hmine : chosenNode m me rand node = m.cmiNodeOf me
  · -- The node queue of the process.
    have hmarkers : node ≠ cldBroadcast ∧ node ≠ cldBroadcastAll := by
      constructor
      · rintro rfl
        rw [chosenNode, if_neg (by decide)] at hmine
        exact absurd hmine (by rw [cldBroadcast]; omega)
      · rintro rfl
        rw [chosenNode, if_neg (by decide)] at hmine
        exact absurd hmine (by rw [cldBroadcastAll]; omega)
    refine ⟨[.packet ⟨.node (m.cmiNodeOf me), msg⟩], if_pos hmine, ?_⟩
    have hyields := yields_direct hme (.node (m.cmiNodeOf me)) hprogram
    have hexpected : (nodeEnqueue node).expected m me rand ifn infofn msg =
        [.user (.node (m.cmiNodeOf me)) msg.header.handlerId msg.payload] := by
      simp only [expected, addressed, sentMsg, Route.Direct, hmine,
        if_neg hmarkers.1, if_neg hmarkers.2, ne_eq, not_true_eq_false, if_false, if_true,
        flatMap_singleton, Int.toNat_natCast]
    rwa [hexpected]
  · have hexpected : (nodeEnqueue node).expected m me rand ifn infofn msg =
        ((nodeEnqueue node).addressed m me rand msg).flatMap fun dest =>
          [.cld dest infofn (ifn.packed msg).header.handlerId,
            .user dest (ifn.packed msg).header.handlerId (ifn.packed msg).payload] := by
      simp only [expected, Route.Direct, sentMsg, hmine, hpacked, ne_eq,
        not_false_eq_true, if_true, if_false]
    rw [hexpected]
    -- A message for one other node.
    have hsend (n : Int) (hn : 0 ≤ n ∧ n < m.numNodes) : ∃ sent,
        (do
          guard (0 ≤ n)
          let packet ← m.cmiSyncNodeSend n.toNat
            (size (switched infofn hs.cldNodeHandlerIndex (ifn.packed msg)))
            (switched infofn hs.cldNodeHandlerIndex (ifn.packed msg))
          some [Transit.packet packet]) = some sent ∧
        Yields m hs sent [.cld (.node n.toNat) infofn (ifn.packed msg).header.handlerId,
          .user (.node n.toNat) (ifn.packed msg).header.handlerId (ifn.packed msg).payload] := by
      have hlt : n.toNat < m.numNodes := by omega
      refine ⟨_, ?_, yields_send hme (.inr rfl) hprogram' none (.inr ⟨rfl, _, rfl⟩)⟩
      rw [sync_node_send_eq hlt, guard, if_pos hn.1]
      rfl
    have hother (node : Int) (hnode : chosenNode m me rand node ≠ m.cmiNodeOf me) :
        cldNodeEnqueue m hs ifn infofn me rand node msg = _ := if_neg hnode
    rw [hother node hmine]
    rcases hvalid with hrange | rfl | rfl | rfl
    · have hmarkers : node ≠ cldAnywhere ∧ node ≠ cldBroadcast ∧ node ≠ cldBroadcastAll := by
        rw [cldAnywhere, cldBroadcast, cldBroadcastAll]
        omega
      have hchosen : chosenNode m me rand node = node := if_neg hmarkers.1
      simp only [addressed, hchosen, if_neg hmarkers.1, if_neg hmarkers.2.1,
        if_neg hmarkers.2.2, flatMap_singleton]
      exact hsend node hrange
    · have hlt := anywhere_lt rand (m.cmiNodeOf me) m.numNodes_pos
      exact hsend _ ⟨by omega, by omega⟩
    · obtain ⟨msg', sent, htree, hyields⟩ := yields_bcast infofn
        (.syncNodeBroadcast (m.cmiNodeOf me)) hroot (.inr rfl) hprogram' fun dest hdest => by
          obtain ⟨node, -, rfl⟩ := mem_map.mp hdest
          exact .inr ⟨rfl, node, rfl⟩
      refine ⟨sent.map .packet, ?_, hyields⟩
      have htree : m.cmiSyncNodeBroadcast hs.toHandlers (m.cmiNodeOf me) _ _ = _ := htree
      simp only [if_neg (show cldBroadcast ≠ cldAnywhere by decide), if_true, htree, bind,
        Option.bind_some]
    · obtain ⟨msg', sent, htree, hyields⟩ := yields_bcast infofn
        (.syncNodeBroadcastAll (m.cmiNodeOf me)) hroot (.inr rfl) hprogram' fun dest hdest => by
          obtain ⟨node, -, rfl⟩ := mem_map.mp hdest
          exact .inr ⟨rfl, node, rfl⟩
      refine ⟨sent.map .packet, ?_, hyields⟩
      have htree : m.cmiSyncNodeBroadcastAll hs.toHandlers (m.cmiNodeOf me) _ _ = _ := htree
      simp only [if_neg (show cldBroadcastAll ≠ cldAnywhere by decide),
        if_neg (show cldBroadcastAll ≠ cldBroadcast by decide), if_true, htree, bind,
        Option.bind_some]

/-- The places that `CldEnqueue` goes to, for a PE or a broadcast marker. -/
def enqueueDests (m : Machine) (me : Nat) (pe : Int) : List Dest :=
  if pe = cldBroadcast then (BcastCall.syncBroadcast me).targets m
  else if pe = cldBroadcastAll then (BcastCall.syncBroadcastAll me).targets m
  else [.pe pe.toNat]

/-- The message that `CldEnqueue` carries there. -/
def enqueueMsg (m : Machine) (ifn : CldInfoFn) (me : Nat) (pe : Int) (msg : Msg) : Msg :=
  if Partition.cmiNodeOf m.nodeSize pe ≠ m.cmiNodeOf me then ifn.packed msg else msg

theorem enqueue_msg_handlerId (m : Machine) (ifn : CldInfoFn) (me : Nat) (pe : Int) (msg : Msg) :
    (enqueueMsg m ifn me pe msg).header.handlerId = msg.header.handlerId := by
  rw [enqueueMsg]
  split
  · exact packed_handlerId ifn msg
  · rfl

/-- The node of a PE that exists. -/
theorem int_node_of (pe : Nat) : Partition.cmiNodeOf m.nodeSize pe = m.cmiNodeOf pe := by
  exact (Int.ofNat_tdiv _ _).symm

/-- `CldEnqueue` for a PE or a broadcast marker. -/
theorem enqueue_at_yields (ifn : CldInfoFn) (infofn : Nat) (hme : me < m.cmiNumPes)
    (hprogram : hs.IsProgram msg.header.handlerId) (pe : Int)
    (hvalid : 0 ≤ pe ∧ pe < m.cmiNumPes ∨ pe = cldBroadcast ∨ pe = cldBroadcastAll) :
    ∃ sent, cldEnqueueAt m hs ifn infofn me pe msg = some sent ∧
      Yields m hs sent ((enqueueDests m me pe).flatMap fun dest =>
        if pe = me then
          [.user dest msg.header.handlerId (enqueueMsg m ifn me pe msg).payload]
        else [.cld dest infofn msg.header.handlerId,
          .user dest msg.header.handlerId (enqueueMsg m ifn me pe msg).payload]) := by
  have hid := enqueue_msg_handlerId m ifn me pe msg
  have hprogram' : hs.IsProgram (enqueueMsg m ifn me pe msg).header.handlerId := hid.symm ▸ hprogram
  by_cases hmine : pe = me
  · -- The PE's own queue.
    subst hmine
    have hdests : enqueueDests m me me = [.pe me] := by
      rw [enqueueDests, if_neg (by rw [cldBroadcast]; omega),
        if_neg (by rw [cldBroadcastAll]; omega), Int.toNat_natCast]
    have hmsg : enqueueMsg m ifn me me msg = msg := if_neg (not_not.mpr (int_node_of me))
    refine ⟨[.packet ⟨.pe me, msg⟩], if_pos rfl, ?_⟩
    rw [hdests, hmsg, flatMap_singleton, if_pos rfl]
    exact yields_direct hme (.pe me) hprogram
  · have hother : cldEnqueueAt m hs ifn infofn me pe msg = _ := if_neg hmine
    simp only [if_neg hmine]
    rw [hother, ← hid]
    have hmsg : (if Partition.cmiNodeOf m.nodeSize pe ≠ m.cmiNodeOf me then ifn.packed msg
      else msg) = enqueueMsg m ifn me pe msg := rfl
    simp only [hmsg]
    rcases hvalid with hrange | rfl | rfl
    · have hmarkers : pe ≠ cldBroadcast ∧ pe ≠ cldBroadcastAll := by
        rw [cldBroadcast, cldBroadcastAll]
        omega
      have hlt : pe.toNat < m.cmiNumPes := by omega
      have hdests : enqueueDests m me pe = [.pe pe.toNat] :=
        (if_neg hmarkers.1).trans (if_neg hmarkers.2)
      rw [hdests, if_neg hmarkers.1, if_neg hmarkers.2]
      refine ⟨_, ?_, yields_send hme (.inl rfl) hprogram' (some pe.toNat) (.inl ⟨rfl, _, rfl⟩)⟩
      rw [sync_send_eq hlt, guard, if_pos hrange.1]
      rfl
    · obtain ⟨msg', sent, htree, hyields⟩ := yields_bcast infofn (.syncBroadcast me) hme
        (.inl rfl) hprogram' fun dest hdest => by
          obtain ⟨pe, -, rfl⟩ := mem_map.mp hdest
          exact .inl ⟨rfl, pe, rfl⟩
      refine ⟨sent.map .packet, ?_, hyields⟩
      have htree : m.cmiSyncBroadcast hs.toHandlers me _ _ = _ := htree
      simp only [if_true, htree, bind, Option.bind_some]
    · obtain ⟨msg', sent, htree, hyields⟩ := yields_bcast infofn (.syncBroadcastAll me) hme
        (.inl rfl) hprogram' fun dest hdest => by
          obtain ⟨pe, -, rfl⟩ := mem_map.mp hdest
          exact .inl ⟨rfl, pe, rfl⟩
      refine ⟨sent.map .packet, ?_, hyields⟩
      have htree : m.cmiSyncBroadcastAll hs.toHandlers me _ _ = _ := htree
      simp only [if_neg (show cldBroadcastAll ≠ cldBroadcast by decide), if_true, htree, bind,
        Option.bind_some]

/-- `CldEnqueue` makes each addressed PE run the handler once. -/
theorem enqueue_yields (hme : me < m.cmiNumPes) (hprogram : hs.IsProgram msg.header.handlerId)
    {pe : Int} (hvalid : (Route.enqueue pe).Valid m) :
    ∃ sent, cldEnqueue m hs ifn infofn me rand pe msg = some sent ∧
      Yields m hs sent ((Route.enqueue pe).expected m me rand ifn infofn msg) := by
  by_cases hany : pe = cldAnywhere
  · subst hany
    have hchosen : chosenPe m me rand cldAnywhere = anywhere rand me m.cmiNumPes := if_pos rfl
    have hlt := anywhere_lt rand me (num_pes_pos (m := m))
    by_cases hnode : m.cmiNodeOf (anywhere rand me m.cmiNumPes) = m.cmiNodeOf me
    · -- The message goes to the node queue of the process.
      have hstays : Route.Stays m me rand cldAnywhere := ⟨rfl, hnode⟩
      have hvalid : (nodeEnqueue (m.cmiNodeOf me)).Valid m :=
        .inl ⟨Int.natCast_nonneg _, Int.ofNat_lt.mpr (lt_num_pes_iff.mp hme)⟩
      obtain ⟨sent, hsent, hyields⟩ := node_enqueue_yields ifn infofn rand hme hprogram hvalid
      refine ⟨sent, ?_, ?_⟩
      · exact (if_pos hnode).trans hsent
      · have hchosen' : chosenNode m me rand (m.cmiNodeOf me) = m.cmiNodeOf me :=
          if_neg (by rw [cldAnywhere]; omega)
        have hleft : (enqueue cldAnywhere).expected m me rand ifn infofn msg =
            [.user (.node (m.cmiNodeOf me)) msg.header.handlerId msg.payload] := by
          simp only [expected, addressed, Route.Direct, sentMsg, hstays, hchosen,
            int_node_of, hnode, if_true, true_or, ne_eq, not_true_eq_false, if_false,
            flatMap_singleton]
        have hright : (nodeEnqueue (m.cmiNodeOf me)).expected m me rand ifn infofn msg =
            [.user (.node (m.cmiNodeOf me)) msg.header.handlerId msg.payload] := by
          simp only [expected, addressed, Route.Direct, sentMsg, hchosen',
            if_true, ne_eq, not_true_eq_false, if_false, Int.toNat_natCast,
            if_neg (show ((m.cmiNodeOf me : Nat) : Int) ≠ cldBroadcast by rw [cldBroadcast]; omega),
            if_neg (show ((m.cmiNodeOf me : Nat) : Int) ≠ cldBroadcastAll by
              rw [cldBroadcastAll]; omega),
            flatMap_singleton]
        rwa [hleft, ← hright]
    · have hstays : ¬ Route.Stays m me rand cldAnywhere := fun h => hnode h.2
      obtain ⟨sent, hsent, hyields⟩ := enqueue_at_yields ifn infofn hme hprogram
        (anywhere rand me m.cmiNumPes)
        (.inl ⟨Int.natCast_nonneg _, Int.ofNat_lt.mpr hlt⟩)
      refine ⟨sent, ?_, ?_⟩
      · exact (if_neg hnode).trans hsent
      · have hdests : enqueueDests m me (anywhere rand me m.cmiNumPes) =
            (enqueue cldAnywhere).addressed m me rand msg := by
          rw [addressed, if_neg hstays, enqueueDests,
            if_neg (by rw [cldBroadcast]; omega), if_neg (by rw [cldBroadcastAll]; omega),
            if_neg (by decide), if_neg (by decide), hchosen]
        rw [hdests] at hyields
        simp only [expected, Route.Direct, hstays, false_or, hchosen]
        exact hyields
  · have hchosen : chosenPe m me rand pe = pe := if_neg hany
    have hstays : ¬ Route.Stays m me rand pe := fun h => hany h.1
    obtain ⟨sent, hsent, hyields⟩ := enqueue_at_yields ifn infofn hme hprogram pe
      (hvalid.imp_right fun h => h.resolve_left hany)
    refine ⟨sent, (if_neg hany).trans hsent, ?_⟩
    have hdests : enqueueDests m me pe = (enqueue pe).addressed m me rand msg := by
      rw [addressed, if_neg hstays, hchosen]
      rfl
    rw [hdests] at hyields
    simp only [expected, Route.Direct, hstays, false_or, hchosen]
    have hmsg : (enqueue pe).sentMsg m me rand ifn msg = enqueueMsg m ifn me pe msg := by
      rw [sentMsg, hchosen]
      rfl
    rwa [hmsg]

/-- A list send by the seed balancer. -/
theorem multi_yields (rand : Int) (hme : me < m.cmiNumPes)
    (hprogram : hs.IsProgram msg.header.handlerId) (hpes : ∀ pe ∈ pes, pe < m.cmiNumPes)
    (hfit : phs = true ∨ Wire.FanoutsFit m me (size (ifn.packed msg)) pes) :
    ∃ sent, cldEnqueueMulti m hs ifn infofn me phs pes msg = some sent ∧
      Yields m hs sent ((Route.multi pes).expected m me rand ifn infofn msg) := by
  have hpacked := packed_handlerId ifn msg
  have hprogram' : hs.IsProgram (ifn.packed msg).header.handlerId := hpacked.symm ▸ hprogram
  have hmsg : IsListMsg
      (seedOf hs hme infofn hs.cldHandlerIndex (.inl rfl) (ifn.packed msg) hprogram')
      (switched infofn hs.cldHandlerIndex (ifn.packed msg)) := ⟨rfl, rfl, rfl, rfl, rfl⟩
  obtain ⟨sent, hsent, hsends⟩ := list_send_sends me hmsg hpes hfit
  refine ⟨sent, hsent, ?_⟩
  have hyields := yields_of_sends hsends
  simp only [expected, addressed, Route.Direct, sentMsg]
  rw [← hpacked]
  exact hyields

/-- A within-node broadcast by the seed balancer. -/
theorem within_node_yields (hme : me < m.cmiNumPes) (hprogram : hs.IsProgram msg.header.handlerId) :
    Yields m hs (cldEnqueueWithinNode m hs ifn infofn me msg)
      (Route.withinNode.expected m me rand ifn infofn msg) := by
  have hsame : (withinNode.sentMsg m me rand ifn msg).header.handlerId = msg.header.handlerId ∧
      (withinNode.sentMsg m me rand ifn msg).header.zcMsgType = msg.header.zcMsgType := by
    rw [sentMsg]
    split
    · exact ⟨rfl, rfl⟩
    · exact ⟨packed_handlerId ifn msg, packed_zcMsgType ifn msg⟩
  obtain ⟨hid, hzc⟩ := hsame
  have hprogram' : hs.IsProgram (withinNode.sentMsg m me rand ifn msg).header.handlerId :=
    hid.symm ▸ hprogram
  have hpes : withinNodePes m me (withinNodeMsg hs ifn infofn msg) = withinNodePes m me msg := by
    have hzc : (withinNodeMsg hs ifn infofn msg).header.zcMsgType = msg.header.zcMsgType := hzc
    rw [withinNodePes, withinNodePes, hzc]
  let w := seedOf hs hme infofn hs.cldHandlerIndex (.inl rfl) _ hprogram'
  let packet (dest : Dest) : Packet :=
    ⟨dest, if dest = .pe me then (withinNodeMsg hs ifn infofn msg).stamp (some me)
      else withinNodeMsg hs ifn infofn msg⟩
  have hsends : w.Sends ((withinNodePes m me msg).map .pe)
      (((withinNodePes m me msg).map Dest.pe).map fun dest => .packet (packet dest)) := by
    refine Seed.sends_each _ packet fun dest hdest => ?_
    obtain ⟨pe, -, rfl⟩ := mem_map.mp hdest
    refine ⟨rfl, .inl ⟨rfl, pe, rfl⟩, ?_⟩
    by_cases hpe : Dest.pe pe = .pe me
    · simp only [packet, if_pos hpe]
      exact ⟨rfl, rfl, rfl, rfl⟩
    · simp only [packet, if_neg hpe]
      exact ⟨rfl, rfl, rfl, rfl⟩
  have hsent : cldEnqueueWithinNode m hs ifn infofn me msg =
      ((withinNodePes m me msg).map Dest.pe).map fun dest => .packet (packet dest) := by
    simp only [cldEnqueueWithinNode, hpes, map_map, packet, Function.comp_def, Dest.pe.injEq]
  rw [hsent]
  have hyields := yields_of_sends hsends
  simp only [expected, addressed, Route.Direct]
  rw [← hid]
  exact hyields

/-- Every call leads to the calls of the handlers that it should, if the fan-out messages of a list
send fit. -/
theorem Route.start_yields (infofn : Nat) (rand : Int) (hme : me < m.cmiNumPes)
    (hprogram : hs.IsProgram msg.header.handlerId) (hvalid : route.Valid m)
    (hfits : route.Fits m me ifn phs msg) :
    ∃ sent, route.start m hs ifn infofn me rand phs msg = some sent ∧
      Yields m hs sent (route.expected m me rand ifn infofn msg) := by
  cases route with
  | enqueue pe => exact enqueue_yields hme hprogram hvalid
  | nodeEnqueue node => exact node_enqueue_yields ifn infofn rand hme hprogram hvalid
  | multi pes => exact multi_yields rand hme hprogram hvalid hfits
  | group pes =>
    obtain ⟨sent, hsent, hyields⟩ := multi_yields rand hme hprogram hvalid.2 hfits
    exact ⟨sent, (if_neg hvalid.1).trans hsent, hyields⟩
  | withinNode => exact ⟨_, rfl, within_node_yields hme hprogram⟩

/-- If one does not fit, there is no room for it. -/
theorem Route.start_eq_none (hme : me < m.cmiNumPes) (hvalid : route.Valid m)
    (hfits : ¬ route.Fits m me ifn phs msg) :
    route.start m hs ifn infofn me rand phs msg = none := by
  cases route with
  | enqueue | nodeEnqueue | withinNode => exact absurd trivial hfits
  | multi pes => exact list_send_overflow hme hvalid hfits
  | group pes => exact (if_neg hvalid.1).trans (list_send_overflow hme hvalid.2 hfits)

end Routes

end Reconverse.Cld
