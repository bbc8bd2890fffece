import Reconverse.Cld.Routes

/-!
# Which messages of the seed balancer are packed

A message that leaves the process has to be packed first. `CldEnqueue` decides this by the node of
the destination, also where the destination is a marker: the division in `CmiNodeOf` truncates, so
that for nodes of several PEs a marker has node 0, and node 0 takes it for itself.
-/

namespace Reconverse.Cld

open Lib List Route Machine

/-- The process that a message is delivered in. -/
def destNode (m : Machine) : Dest → Nat
  | .pe pe => m.cmiNodeOf pe
  | .node node => node

namespace Route

/-- Every call of the message's handler in another process gets what the pack function made of the
message. -/
def PacksRemote (m : Machine) (hs : CldHandlers) (ifn : CldInfoFn) (infofn me : Nat) (rand : Int)
    (phs : Bool) (msg : Msg) (route : Route) : Prop :=
  ∀ pfn, ifn.pack msg = some pfn → ∀ sent, route.start m hs ifn infofn me rand phs msg = some sent →
    ∀ es s, Steps (Dispatch.Delivers (handle m hs)) ⟨sent, []⟩ es s →
      ∀ packet, Run.user packet ∈ s.log → destNode m packet.dest ≠ m.cmiNodeOf me →
        packet.msg.payload = (pfn msg).payload

/-- A broadcast on node 0 whose marker has node 0. -/
def SkipsPack (m : Machine) (me : Nat) : Route → Prop
  | .enqueue pe => m.cmiNodeOf me = 0 ∧ 2 ≤ m.numNodes ∧
      (pe = cldBroadcast ∧ 3 ≤ m.nodeSize ∨ pe = cldBroadcastAll ∧ 4 ≤ m.nodeSize)
  | _ => False

end Route

section Packing

variable {m : Machine} {hs : CldHandlers} {ifn : CldInfoFn} {infofn me : Nat} {rand : Int}
  {phs : Bool} {msg : Msg}

/-- Division that rounds to zero puts a small negative marker on node 0. -/
theorem marker_node {k node : Nat} :
    Partition.cmiNodeOf m.nodeSize (-k) = node ↔ node = 0 ∧ k < m.nodeSize := by
  have hdiv : Partition.cmiNodeOf m.nodeSize (-k) = -((k / m.nodeSize : Nat) : Int) := by
    rw [Partition.cmiNodeOf, Int.neg_tdiv, Int.ofNat_tdiv]
  rw [hdiv, ← Nat.div_eq_zero_iff_lt m.nodeSize_pos]
  generalize k / m.nodeSize = quotient
  omega

/-- A broadcast by `CldEnqueue` that reaches another process, from a node that the marker does not
have, or with small nodes. -/
theorem marker_packed (hme : me < m.cmiNumPes) {k pe : Nat} (hpe : pe < m.cmiNumPes)
    (hne : m.cmiNodeOf pe ≠ m.cmiNodeOf me)
    (hskips : ¬ (m.cmiNodeOf me = 0 ∧ 2 ≤ m.numNodes ∧ k < m.nodeSize)) :
    Partition.cmiNodeOf m.nodeSize (-k) ≠ m.cmiNodeOf me := by
  intro hnode
  obtain ⟨hzero, hsize⟩ := marker_node.mp hnode
  have hthere := lt_num_pes_iff.mp hpe
  have hhere := lt_num_pes_iff.mp hme
  exact hskips ⟨hzero, by omega, hsize⟩

variable {dest : Dest}

/-- `CldEnqueue` packs what it carries to another process, unless it skips that. -/
theorem enqueue_packed (hme : me < m.cmiNumPes) {pe : Int} (hvalid : (Route.enqueue pe).Valid m)
    (hskips : ¬ (Route.enqueue pe).SkipsPack m me)
    (hdest : dest ∈ (Route.enqueue pe).addressed m me rand msg)
    (hremote : destNode m dest ≠ m.cmiNodeOf me) :
    Partition.cmiNodeOf m.nodeSize (Route.chosenPe m me rand pe) ≠ m.cmiNodeOf me := by
  rw [addressed] at hdest
  split at hdest
  next =>
    obtain rfl := mem_singleton.mp hdest
    exact absurd rfl hremote
  next hstays =>
    split at hdest
    next hbcast =>
      obtain ⟨q, hq, rfl⟩ := mem_map.mp hdest
      have hlt := mem_range.mp (mem_filter.mp hq).1
      rw [chosenPe, hbcast]
      exact marker_packed hme hlt hremote fun h => hskips ⟨h.1, h.2.1, .inl ⟨hbcast, h.2.2⟩⟩
    next hbcast =>
      split at hdest
      next hall =>
        obtain ⟨q, hq, rfl⟩ := mem_map.mp hdest
        rw [chosenPe, hall]
        exact marker_packed hme (mem_range.mp hq) hremote
          fun h => hskips ⟨h.1, h.2.1, .inr ⟨hall, h.2.2⟩⟩
      next hall =>
        obtain rfl := mem_singleton.mp hdest
        have hnonneg : 0 ≤ chosenPe m me rand pe := by
          rw [chosenPe]
          split
          · exact Int.natCast_nonneg _
          next hany => exact (hvalid.resolve_right fun h => h.elim hany (·.elim hbcast hall)).1
        intro hnode
        rw [← Int.toNat_of_nonneg hnonneg] at hnode
        exact hremote (Int.ofNat.inj hnode)

/-- `CldNodeEnqueue` packs what it carries to another process. -/
theorem node_enqueue_packed {node : Int} (hvalid : (Route.nodeEnqueue node).Valid m)
    (hdest : dest ∈ (Route.nodeEnqueue node).addressed m me rand msg)
    (hremote : destNode m dest ≠ m.cmiNodeOf me) :
    Route.chosenNode m me rand node ≠ m.cmiNodeOf me := by
  rw [chosenNode]
  split
  next hany =>
    subst hany
    rw [addressed, if_neg (by decide), if_neg (by decide), chosenNode, mem_singleton] at hdest
    subst hdest
    exact fun h => hremote (Int.ofNat.inj h)
  next hany =>
    rcases hvalid with hrange | h | rfl | rfl
    · rw [addressed, if_neg (by rw [cldBroadcast]; omega),
        if_neg (by rw [cldBroadcastAll]; omega), chosenNode, mem_singleton] at hdest
      subst hdest
      intro h
      rw [h] at hremote
      exact hremote (Int.toNat_natCast _)
    · exact absurd h hany
    · rw [cldBroadcast]
      omega
    · rw [cldBroadcastAll]
      omega

variable {route : Route}

/-- What a call carries to another process is packed, unless it skips that. -/
theorem sent_msg_packed (hme : me < m.cmiNumPes) (hvalid : route.Valid m)
    (hroute : route ≠ .withinNode) (hskips : ¬ route.SkipsPack m me)
    (hdest : dest ∈ route.addressed m me rand msg) (hremote : destNode m dest ≠ m.cmiNodeOf me) :
    route.sentMsg m me rand ifn msg = ifn.packed msg := by
  cases route with
  | enqueue pe => exact if_pos (enqueue_packed hme hvalid hskips hdest hremote)
  | nodeEnqueue node => exact if_pos (node_enqueue_packed hvalid hdest hremote)
  | multi pes => rfl
  | group pes => rfl
  | withinNode => exact absurd rfl hroute

/-- A call of the message's handler that should be made. -/
theorem mem_expected_user {id : Nat} {payload : List UInt8}
    (h : Obs.user dest id payload ∈ route.expected m me rand ifn infofn msg) :
    dest ∈ route.addressed m me rand msg ∧
      payload = (route.sentMsg m me rand ifn msg).payload := by
  obtain ⟨dest', hdest', hobs⟩ := mem_flatMap.mp h
  split at hobs
  · cases mem_singleton.mp hobs
    exact ⟨hdest', rfl⟩
  · rcases mem_cons.mp hobs with hobs | hobs
    · cases hobs
    · cases mem_singleton.mp hobs
      exact ⟨hdest', rfl⟩

/-- Each addressed place is expected to run the handler of the message. -/
theorem user_mem_expected (h : dest ∈ route.addressed m me rand msg) :
    Obs.user dest msg.header.handlerId (route.sentMsg m me rand ifn msg).payload ∈
      route.expected m me rand ifn infofn msg := by
  refine mem_flatMap.mpr ⟨dest, h, ?_⟩
  split
  · exact mem_singleton.mpr rfl
  · exact mem_cons_of_mem _ (mem_singleton.mpr rfl)

/-- A route that does not skip the packing packs what leaves the process. -/
theorem packs_remote_of_not_skips (hme : me < m.cmiNumPes)
    (hprogram : hs.IsProgram msg.header.handlerId) (hvalid : route.Valid m)
    (hroute : route ≠ .withinNode) (hskips : ¬ route.SkipsPack m me) :
    route.PacksRemote m hs ifn infofn me rand phs msg := by
  intro pfn hpfn sent hsent es s hsteps packet hpacket hremote
  have hfits : route.Fits m me ifn phs msg := by
    by_contra hfits
    rw [start_eq_none hme hvalid hfits] at hsent
    cases hsent
  obtain ⟨sent', hsent', hyields⟩ := start_yields infofn rand hme hprogram hvalid hfits
  obtain rfl := Option.mem_unique hsent hsent'
  obtain ⟨hdest, hpayload⟩ := mem_expected_user (hyields.sound es s hsteps _ hpacket)
  rw [hpayload, sent_msg_packed hme hvalid hroute hskips hdest hremote, CldInfoFn.packed, hpfn]

/-- An info function that reports a pack function which appends a byte. -/
def CldInfoFn.appending : CldInfoFn where
  pack _ := some fun msg => ⟨msg.header, msg.payload ++ [0]⟩
  pack_handlerId h := by cases h; rfl
  pack_nokeep h := by cases h; rfl
  pack_zcMsgType h := by cases h; rfl

/-- A broadcast that skips the packing carries the message as it is to the first PE of node 1. -/
theorem skips_sent (ifn : CldInfoFn) (rand : Int) (msg : Msg) (hskips : route.SkipsPack m me) :
    route.sentMsg m me rand ifn msg = msg ∧
      Dest.pe (m.cmiNodeFirst 1) ∈ route.addressed m me rand msg ∧
      destNode m (.pe (m.cmiNodeFirst 1)) ≠ m.cmiNodeOf me := by
  cases route with
  | nodeEnqueue _ | multi _ | group _ | withinNode => exact hskips.elim
  | enqueue pe =>
    obtain ⟨hzero, hnodes, hpe⟩ := hskips
    have hnode : m.cmiNodeOf (m.cmiNodeFirst 1) = 1 := by
      rw [cmiNodeOf, cmiNodeFirst, Nat.one_mul, Nat.div_self m.nodeSize_pos]
    have hlt : m.cmiNodeFirst 1 < m.cmiNumPes := by
      rw [lt_num_pes_iff, hnode]
      exact hnodes
    have hne : m.cmiNodeOf (m.cmiNodeFirst 1) ≠ m.cmiNodeOf me := by omega
    have hother : m.cmiNodeFirst 1 ≠ me := fun h => hne (congrArg _ h)
    rcases hpe with ⟨rfl, hsize⟩ | ⟨rfl, hsize⟩
    · have hmarker : Partition.cmiNodeOf m.nodeSize cldBroadcast = m.cmiNodeOf me :=
        marker_node.mpr ⟨hzero, hsize⟩
      refine ⟨if_neg (not_not.mpr hmarker), ?_, hne⟩
      exact mem_map_of_mem (mem_filter.mpr ⟨mem_range.mpr hlt, by simpa using hother⟩)
    · have hmarker : Partition.cmiNodeOf m.nodeSize cldBroadcastAll = m.cmiNodeOf me :=
        marker_node.mpr ⟨hzero, hsize⟩
      refine ⟨if_neg (not_not.mpr hmarker), ?_, hne⟩
      exact mem_map_of_mem (mem_range.mpr hlt)

/-- A route that skips it sends an unpacked message to another process. -/
theorem not_packs_remote_of_skips (hme : me < m.cmiNumPes)
    (hprogram : hs.IsProgram msg.header.handlerId) (hvalid : route.Valid m)
    (hskips : route.SkipsPack m me) :
    ¬ route.PacksRemote m hs .appending infofn me rand phs msg := by
  intro hpacks
  have hfits : route.Fits m me .appending phs msg := by
    cases route with
    | enqueue pe => exact trivial
    | nodeEnqueue _ | multi _ | group _ | withinNode => exact hskips.elim
  obtain ⟨hmsg, hdest, hremote⟩ := skips_sent .appending rand msg hskips
  obtain ⟨sent, hsent, hyields⟩ := start_yields infofn rand hme hprogram hvalid hfits
  -- A run to the end makes the call on the first PE of node 1.
  obtain ⟨es, s, hsteps, hdone⟩ := hyields.ends
  have hcall := (hyields.complete es s hsteps hdone).mem_iff.mpr (user_mem_expected hdest)
  obtain ⟨run, hrun, hobs⟩ := mem_map.mp hcall
  cases run with
  | cld packet => cases hobs
  | user packet =>
    obtain ⟨hpacket, -, hpayload⟩ := Obs.user.inj hobs
    have hpacked := hpacks _ rfl sent hsent es s hsteps packet hrun (hpacket ▸ hremote)
    rw [hpayload, hmsg] at hpacked
    exact absurd (congrArg List.length hpacked) (by simp)

/-- Every copy that is delivered in another process is packed, unless a broadcast by `CldEnqueue` is
started on node 0 of several and the PEs of a node outnumber the marker. -/
theorem packs_remote_iff (infofn : Nat) (rand : Int) (phs : Bool) (hme : me < m.cmiNumPes)
    (hprogram : hs.IsProgram msg.header.handlerId) {route : Route} (hvalid : route.Valid m)
    (hroute : route ≠ .withinNode) :
    (∀ ifn, route.PacksRemote m hs ifn infofn me rand phs msg) ↔ ¬ route.SkipsPack m me := by
  constructor
  · intro hpacks hskips
    exact not_packs_remote_of_skips hme hprogram hvalid hskips (hpacks .appending)
  · intro hskips ifn
    exact packs_remote_of_not_skips hme hprogram hvalid hroute hskips

end Packing

/-- Two nodes of four PEs, with PE 4 broadcasting. -/
theorem broadcast_from_node_one_packed :
    (Route.enqueue cldBroadcast).PacksRemote ⟨2, 4, by decide, by decide, .lci⟩
      (cldModuleInit [] [.user 2] 0 1 (by decide)) .appending 8 4 5 false
      ⟨⟨8, 0, none, 27, 0, 0, 0, false, 0⟩, [1, 2, 3]⟩ := by
  have hprogram : (cldModuleInit [] [.user 2] 0 1 (by decide)).IsProgram 8 :=
    ⟨2, rfl, by decide, by decide⟩
  have hvalid : (enqueue cldBroadcast).Valid ⟨2, 4, by decide, by decide, .lci⟩ :=
    .inr (.inr (.inl rfl))
  have hnode : cmiNodeOf ⟨2, 4, by decide, by decide, .lci⟩ 4 ≠ 0 := by decide
  have hskips : ¬ (enqueue cldBroadcast).SkipsPack ⟨2, 4, by decide, by decide, .lci⟩ 4 :=
    fun h => hnode h.1
  exact (packs_remote_iff 8 5 false (by decide) hprogram hvalid nofun).mpr hskips .appending

/-- Two nodes of four PEs, with PE 0 broadcasting. -/
theorem broadcast_from_node_zero_unpacked :
    ¬ (Route.enqueue cldBroadcast).PacksRemote ⟨2, 4, by decide, by decide, .lci⟩
      (cldModuleInit [] [.user 2] 0 1 (by decide)) .appending 8 0 5 false
      ⟨⟨8, 0, none, 27, 0, 0, 0, false, 0⟩, [1, 2, 3]⟩ := by
  have hprogram : (cldModuleInit [] [.user 2] 0 1 (by decide)).IsProgram 8 :=
    ⟨2, rfl, by decide, by decide⟩
  refine not_packs_remote_of_skips (by decide) hprogram (.inr (.inr (.inl rfl))) ?_
  exact ⟨by decide, by decide, .inl ⟨rfl, by decide⟩⟩

end Reconverse.Cld
