import Reconverse.Persistent.Buffers

/-!
# Delivery over channels that are not destroyed

The remaining events set channels up. They leave every buffer where it is (`State.Grows`), so that
`Buffers` holds after every run in which no channel is destroyed.
-/

namespace Reconverse.Persistent

open Lib Lib.Bytes List State
open Function (update update_of_ne update_self)

namespace Buffers

variable {s : State} {l : Loc}

/-- Everything that names a send slot names one that is there. -/
theorem sources_live (h : Buffers s) {r : Loc × Nat} (hr : r ∈ s.sources) :
    s.sendId r.1 = some r.2 := by
  rcases mem_append.mp hr with hr | hr
  · exact h.live_stages hr
  · obtain ⟨c, hc, rfl⟩ | ⟨m, hm, rfl⟩ | ⟨i, hi⟩ := mem_traffic.mp hr
    · exact (h.live_writes hc).1
    · exact (h.live_held hm).1
    · exact h.live_credits hi

/-- No address of a new send slot is named. -/
theorem unnamed_source (h : Buffers s) (hl : s.ends l = none) : ∀ r ∈ s.sources, r.1 ≠ l := by
  rintro r hr rfl
  obtain ⟨e, he, -⟩ := ends_of_sendId (h.sources_live hr)
  cases hl.symm.trans he

/-- No address of a new receive slot is named. -/
theorem unnamed_target (h : Buffers s) (hl : s.owner l = none) : ∀ r ∈ s.targets, r.1 ≠ l := by
  rintro r hr rfl
  obtain ⟨c, hc, rfl⟩ := mem_map.mp hr
  cases hl.symm.trans (owner_of_recvId (h.live_writes hc).2)

end Buffers

/-- An event that only sets up: slots and messages of the setup are added, and a slot that is filled
in keeps its queue and its buffers. -/
structure State.Grows (s s' : State) : Prop where
  send : ∀ {l k}, s.sendId l = some k → s'.sendId l = some k
  recv : ∀ {l k}, s.recvId l = some k → s'.recvId l = some k
  plain : (s'.network.filter (!·.isStage)).Perm (s.network.filter (!·.isStage))
  puts : s'.puts = s.puts
  held : s'.held = s.held
  landing : s'.landing = s.landing
  sent : s'.sent = s.sent
  written : s'.written = s.written
  handed : s'.handed = s.handed
  le : s.channels ≤ s'.channels
  stages : ∀ {r}, r ∈ s'.stageSources → s'.sendId r.1 = some r.2
  live : ∀ {k}, s.channels ≤ k → k < s'.channels → ∃ l, s'.sendId l = some k
  destroys : ∀ {k q d}, Message.destroy k q d ∈ s'.stages → Message.destroy k q d ∈ s.stages
  slots : ∀ {l x}, s'.sends l = some x →
    (∃ x₀, s.sends l = some x₀ ∧ x.channel = x₀.channel ∧ x.busy = x₀.busy ∧
      x.isLocal = x₀.isLocal ∧ x.destPE = x₀.destPE ∧ x.pending = x₀.pending) ∨
    (x.channel = s.channels ∧ x.busy = (fun _ => false) ∧ x.pending = [])
  receives : ∀ {l k y}, s.recvId l = some k → s'.receives l = some y → s.receives l = some y

namespace State.Grows

variable {s s' : State}

section

variable (hg : s.Grows s')

include hg

/-- A message that does not set up was there before. -/
theorem mem_iff {m : Message} (hm : m.isStage = false) : m ∈ s'.network ↔ m ∈ s.network := by
  have h := hg.plain.mem_iff (a := m)
  rw [mem_filter, mem_filter, hm] at h
  simpa using h

theorem countP_eq {p : Message → Bool} (hp : ∀ m, p m = true → m.isStage = false) :
    s'.network.countP p = s.network.countP p := by
  have hfilter (ms : List Message) : ms.countP p = (ms.filter (!·.isStage)).countP p := by
    rw [countP_filter]
    refine countP_congr fun m _ => ?_
    simpa using hp m
  rw [hfilter, hfilter s.network, hg.plain.countP_eq]

theorem contexts_perm : s'.contexts.Perm s.contexts := by
  have hfilter (ms : List Message) :
      ms.filterMap Message.ctx = (ms.filter (!·.isStage)).filterMap Message.ctx := by
    rw [filterMap_filter]
    refine filterMap_congr fun m _ => ?_
    cases m <;> rfl
  rw [contexts, contexts, hg.puts, hfilter, hfilter s.network]
  exact (hg.plain.filterMap _).append_left _

/-- Setting a channel up uses no buffer. -/
theorem tokens_eq (k : Nat) (j : BufIndex) : s'.tokens k j = s.tokens k j := by
  rw [tokens, inFlight, delivered, credited, hg.contexts_perm.countP_eq, hg.held, hg.countP_eq]
  · rfl
  · intro m hm
    cases m <;> first | rfl | cases hm

/-- It carries no message. -/
theorem total_eq (k : Nat) (b : Buf) : s'.total k b = s.total k b := by
  rw [total, hg.contexts_perm.countP_eq, hg.handed, hg.countP_eq]
  · rfl
  · intro m hm
    cases m <;> first | rfl | cases hm

end

end State.Grows

namespace Buffers

variable {J : Job} {s s' : State} {l : Loc} {i : Nat}

section

variable (h : Buffers s)

include h

/-- Nothing is known of channels that were not created. -/
theorem tokens_new (i : BufIndex) : s.tokens s.channels i = 0 := by
  have hlt {r : Loc × Nat} (hr : r ∈ s.traffic) : r.2 ≠ s.channels :=
    (h.paired.sources_lt (mem_append_right _ hr)).ne
  have hflight : s.inFlight s.channels i = 0 := countP_eq_zero.mpr fun c hc huse =>
    hlt (mem_traffic.mpr (.inl ⟨c, hc, rfl⟩)) (of_decide_eq_true huse).1
  have hheld : s.delivered s.channels i = 0 := countP_eq_zero.mpr fun m hm huse =>
    hlt (mem_traffic.mpr (.inr (.inl ⟨m, hm, rfl⟩))) (of_decide_eq_true huse).1
  have hcredit : s.credited s.channels i = 0 := by
    refine countP_eq_zero.mpr fun m hm huse => ?_
    cases m with
    | credit k q a b =>
      have hmem : (⟨q, a⟩, k) ∈ s.traffic := mem_traffic.mpr (.inr (.inr ⟨b, hm⟩))
      exact hlt hmem (of_decide_eq_true huse).1
    | request | granted | data | destroy | user => cases huse
  rw [State.tokens, hflight, hheld, hcredit]

/-- A new channel carries nothing. -/
theorem total_new (b : Buf) : s.total s.channels b = 0 := by
  have hflight : s.contexts.countP (·.carries s.channels b) = 0 :=
    countP_eq_zero.mpr fun c hc huse =>
      (h.paired.setup.send.lt (h.live_writes hc).1).ne (of_decide_eq_true huse).1
  have huser : s.network.countP (·.carries s.channels b) = 0 := by
    refine countP_eq_zero.mpr fun m hm huse => ?_
    cases m with
    | user k q c => exact (h.user_lt hm).ne (of_decide_eq_true huse).1
    | request | granted | data | destroy | credit => cases huse
  rw [total, hflight, huser, (h.fresh (le_refl _)).2.2]
  rfl

/-- Setting up leaves the buffers of the channels alone. -/
theorem grow (hg : s.Grows s') (hpaired : Paired s') : Buffers s' := by
  have hput {c : PutContext} (hc : c ∈ s'.puts ∨ .data c false ∈ s'.network) :
      c ∈ s.puts ∨ .data c false ∈ s.network := by
    rw [hg.puts, hg.mem_iff rfl] at hc
    exact hc
  constructor
  case paired => exact hpaired
  case live_stages => exact hg.stages
  case live_writes =>
    intro c hc
    have hlive := h.live_writes (hg.contexts_perm.mem_iff.mp hc)
    exact ⟨hg.send hlive.1, hg.recv hlive.2⟩
  case live_held =>
    intro m hm
    rw [hg.held] at hm
    exact ⟨hg.send (h.live_held hm).1, hg.recv (h.live_held hm).2⟩
  case live_credits => exact fun hm => hg.send (h.live_credits ((hg.mem_iff rfl).mp hm))
  case all_live =>
    intro k hk
    rcases lt_or_ge k s.channels with hlt | hge
    · exact (h.all_live hlt).imp fun _ => hg.send
    · exact hg.live hge hk
  case no_destroy => exact fun hm => h.no_destroy (hg.destroys hm)
  case user_lt => exact fun hm => lt_of_lt_of_le (h.user_lt ((hg.mem_iff rfl).mp hm)) hg.le
  case fresh =>
    intro k hge
    rw [hg.sent, hg.written, hg.handed]
    exact h.fresh (le_trans hg.le hge)
  case header =>
    intro m hm y hy
    rw [hg.held] at hm
    exact h.header hm (hg.receives (h.live_held hm).2 hy)
  case tokens =>
    intro l x hx i
    rw [hg.tokens_eq]
    obtain ⟨x₀, hx₀, hchannel, hbusy, -⟩ | ⟨hchannel, hbusy, -⟩ := hg.slots hx
    · rw [hchannel, hbusy]
      exact h.tokens hx₀ i
    · rw [hchannel, hbusy]
      exact h.tokens_new i
  case stored => exact fun hc => h.stored (hg.contexts_perm.mem_iff.mp hc)
  case landed =>
    intro c hc hnot y hy
    rw [hg.landing] at hnot
    exact h.landed (hput hc) hnot (hg.receives (h.live_writes (mem_contexts_of_put (hput hc))).2 hy)
  case landing =>
    intro c hc
    rw [hg.landing] at hc
    rw [hg.puts, hg.mem_iff rfl]
    exact h.landing hc
  case logs =>
    intro l x hx
    obtain ⟨x₀, hx₀, hchannel, -, hlocal, hdest, hpending⟩ | ⟨hchannel, -, hpending⟩ := hg.slots hx
    · exact (h.logs hx₀).congr hlocal hchannel hdest hpending (hg.total_eq _) (by rw [hg.sent])
        (by rw [hg.written])
    · rw [Logged, hchannel, hpending, hg.sent, hg.written, (h.fresh (le_refl _)).1,
        (h.fresh (le_refl _)).2.1]
      have hzero (b : Buf) (n : Nat) : s'.total s.channels b ≤ n := by
        rw [hg.total_eq, h.total_new]
        exact Nat.zero_le n
      split <;> exact ⟨rfl, fun b => hzero b _⟩

variable {a : PersistentHandle} {maxBytes : Int}

/-- A channel that is created keeps the buffers in order. -/
theorem create {pe destPE : Nat}
    (hcall : s.cmiCreatePersistent J pe destPE maxBytes a = some s') : Buffers s' := by
  obtain ⟨hfree, x, s₁, hx, hs₁, hs'⟩ := create_eq_some hcall
  have hpaired := h.paired.create (h.unnamed_source hfree.ends) hcall
  refine h.grow ?_ hpaired
  have hchannel : x.channel = s.channels := by rw [hx]; rfl
  have hends : s'.ends = update s.ends ⟨pe, a⟩
      (some ⟨x.channel, x.destPE, x.destHandle, x.isLocal, x.isLocal⟩) := by
    rw [hs', hs₁]
    split <;> exact ends_setSend _
  have hsend : s'.sendId = update s.sendId ⟨pe, a⟩ (some s.channels) := by
    rw [sendId_update hends, ← hchannel]
    rfl
  have hkeep {l : Loc} {k : Nat} : s.sendId l = some k → s'.sendId l = some k :=
    sendId_insert hsend hfree.ends
  have hnew : s'.sendId ⟨pe, a⟩ = some s.channels := by rw [hsend, update_self]
  have hnetwork : s'.network = s.network ∨
      s'.network = s.network ++ [.request s.channels destPE pe x.sizeMax a] := by
    rw [hs', hs₁]
    split
    · exact .inl rfl
    · exact .inr rfl
  have hstages {m : Message} (hm : m ∈ s'.stages) :
      m ∈ s.stages ∨ m = .request s.channels destPE pe x.sizeMax a := by
    obtain ⟨hm, hstage⟩ := mem_filter.mp hm
    obtain hnet | hnet := hnetwork
    · exact .inl (mem_filter.mpr ⟨hnet ▸ hm, hstage⟩)
    · rw [hnet] at hm
      rcases mem_append.mp hm with hm | hm
      · exact .inl (mem_filter.mpr ⟨hm, hstage⟩)
      · exact .inr (mem_singleton.mp hm)
  have hfields : s'.sends = update s.sends ⟨pe, a⟩ (some { x with setupDone := x.isLocal }) ∧
      s'.receives = s.receives ∧ s'.channels = s.channels + 1 := by
    rw [hs', hs₁]
    split <;> exact ⟨rfl, rfl, rfl⟩
  obtain ⟨hsends, hreceives, hchannels⟩ := hfields
  constructor
  case send => exact hkeep
  case recv =>
    rw [hs', hs₁]
    split <;> exact id
  case plain =>
    obtain hnet | hnet := hnetwork
    · rw [hnet]
    · rw [hnet, filter_append]
      exact List.Perm.of_eq (append_nil _)
  case le =>
    rw [hchannels]
    exact Nat.le_succ _
  case stages =>
    intro r hr
    obtain ⟨m, hm, hr⟩ := mem_filterMap.mp hr
    obtain hm | rfl := hstages hm
    · exact hkeep (h.live_stages (mem_filterMap.mpr ⟨m, hm, hr⟩))
    · cases hr
      exact hnew
  case live =>
    intro k hge hlt
    obtain rfl : k = s.channels := by omega
    exact ⟨_, hnew⟩
  case destroys => exact fun hm => (hstages hm).resolve_right nofun
  case slots =>
    intro l x' hx'
    rw [hsends] at hx'
    obtain ⟨-, hset⟩ | ⟨-, hx'⟩ := update_eq_some.mp hx'
    · refine .inr ?_
      rw [← Option.some.inj hset, hx]
      exact ⟨rfl, rfl, rfl⟩
    · exact .inl ⟨x', hx', rfl, rfl, rfl, rfl, rfl⟩
  case receives =>
    rw [hreceives]
    exact fun _ hy => hy
  case puts | held | landing | sent | written | handed =>
    rw [hs', hs₁]
    split <;> rfl

/-- A new receive slot, to be registered. -/
theorem createReceiver {pe : Nat}
    (hcall : s.cmiCreateReceiverPersistent J pe maxBytes a = some s') : Buffers s' := by
  obtain ⟨hfree, hs'⟩ := create_receiver_eq_some hcall
  have hpaired := h.paired.createReceiver (h.unnamed_target hfree.owner) hcall
  refine h.grow ?_ hpaired
  have howner : s'.owner = update s.owner ⟨pe, a⟩ (some none) := by
    rw [hs']
    exact owner_setRecv _
  have hne {l : Loc} {k : Nat} (hl : s.recvId l = some k) : l ≠ ⟨pe, a⟩ := by
    rintro rfl
    cases hfree.owner.symm.trans (owner_of_recvId hl)
  constructor
  case recv =>
    intro l k hl
    rw [recvId_update howner, update_of_ne (hne hl)]
    exact hl
  case receives =>
    intro l k y hl hy
    rw [hs'] at hy
    exact (update_of_ne (hne hl) ..).symm.trans hy
  all_goals subst hs'
  case send => exact id
  case plain => exact .refl _
  case le => exact le_refl _
  case stages => exact h.live_stages
  case live => exact fun hge hlt => absurd hlt (not_lt.mpr hge)
  case destroys => exact id
  case slots => exact fun {l x} hx => .inl ⟨x, hx, rfl, rfl, rfl, rfl, rfl⟩
  case puts | held | landing | sent | written | handed => rfl

/-- A send slot for an offered receive slot. -/
theorem register {pe j : Nat}
    (hcall : s.cmiRegisterReceivePersistent J pe j a = some s') : Buffers s' := by
  obtain ⟨hfree, req, y, x, hreq, hy, hx, hs'⟩ := register_eq_some hcall
  have hpaired := h.paired.register (h.unnamed_source hfree.ends) hcall
  refine h.grow ?_ hpaired
  have hchannel : x.channel = s.channels := by rw [hx]; rfl
  have hends : s'.ends = update s.ends ⟨pe, a⟩
      (some ⟨x.channel, x.destPE, req.myHand, true, x.isLocal⟩) := by
    rw [hs']
    exact ends_setSend _
  have hsend : s'.sendId = update s.sendId ⟨pe, a⟩ (some s.channels) := by
    rw [sendId_update hends, ← hchannel]
    rfl
  have hkeep {l : Loc} {k : Nat} : s.sendId l = some k → s'.sendId l = some k :=
    sendId_insert hsend hfree.ends
  have howner : s'.owner = update s.owner req.loc (some (some s.channels)) := by
    rw [hs']
    exact owner_setRecv _
  -- The offered slot belongs to no channel.
  have hne {l : Loc} {k : Nat} (hl : s.recvId l = some k) : l ≠ req.loc := by
    rintro rfl
    have hoffered := h.paired.setup.offered (mem_of_getElem? hreq)
    cases Option.mem_unique hoffered (owner_of_recvId hl)
  constructor
  case send => exact hkeep
  case recv =>
    intro l k hl
    rw [recvId_update howner, update_of_ne (hne hl)]
    exact hl
  case receives =>
    intro l k z hl hz
    rw [hs'] at hz
    exact (update_of_ne (hne hl) ..).symm.trans hz
  case stages =>
    intro r hr
    refine hkeep (h.live_stages ?_)
    rw [hs'] at hr
    exact hr
  case live =>
    intro k hge hlt
    rw [hs'] at hlt
    have hlt : k < s.channels + 1 := hlt
    obtain rfl : k = s.channels := by omega
    exact ⟨⟨pe, a⟩, by rw [hsend, update_self]⟩
  case slots =>
    intro l x' hx'
    rw [hs'] at hx'
    obtain ⟨-, hset⟩ | ⟨-, hx'⟩ := update_eq_some.mp hx'
    · refine .inr ?_
      rw [← Option.some.inj hset, hx]
      exact ⟨rfl, rfl, rfl⟩
    · exact .inl ⟨x', hx', rfl, rfl, rfl, rfl, rfl⟩
  all_goals subst hs'
  case plain => exact .refl _
  case le => exact Nat.le_succ _
  case destroys => exact id
  case puts | held | landing | sent | written | handed => rfl

end

/-- The messages that do not set up when one that does is taken. -/
theorem plain_take {m : Message} (hm : s.network[i]? = some m) (hstage : m.isStage = true) :
    ((s.network.eraseIdx i).filter (!·.isStage)).Perm (s.network.filter (!·.isStage)) := by
  have hperm := (perm_cons_eraseIdx hm).filter (!·.isStage)
  rw [filter_cons_of_neg (by rw [hstage]; exact Bool.false_ne_true)] at hperm
  exact hperm.symm

/-- A request is answered with a new receive slot. -/
theorem request (h : Buffers s) {i k q r : Nat} {n : Int} {src a : PersistentHandle}
    (hm : s.network[i]? = some (.request k q r n src))
    (hhandle : (s.take i).persistentRequestHandler J k q r n src a = some s')
    (hpaired : Paired s') : Buffers s' := by
  obtain ⟨hfree, hs'⟩ := request_eq_some hhandle
  have howner : s'.owner = update s.owner ⟨q, a⟩ (some (some k)) := by
    rw [hs']
    exact owner_setRecv _
  have hne {l : Loc} {k : Nat} (hl : s.recvId l = some k) : l ≠ ⟨q, a⟩ := by
    rintro rfl
    have hnone : s.owner ⟨q, a⟩ = none := hfree.owner
    cases hnone.symm.trans (owner_of_recvId hl)
  have hperm := stages_take hm rfl
  have hstages : s'.stages = (s.take i).stages ++ [.granted k r q src a] := by
    rw [hs', stages_post]
    rfl
  refine h.grow ?_ hpaired
  constructor
  case recv =>
    intro l k hl
    rw [recvId_update howner, update_of_ne (hne hl)]
    exact hl
  case receives =>
    intro l k y hl hy
    rw [hs'] at hy
    exact (update_of_ne (hne hl) ..).symm.trans hy
  case stages =>
    intro t ht
    have hsend : s'.sendId = s.sendId := by rw [hs']; rfl
    rw [stageSources, hstages] at ht
    obtain ⟨m, hmem, ht⟩ := mem_filterMap.mp ht
    rw [hsend]
    rcases mem_append.mp hmem with hmem | hmem
    · refine h.live_stages (mem_filterMap.mpr ⟨m, ?_, ht⟩)
      exact hperm.mem_iff.mpr (mem_cons_of_mem _ hmem)
    · refine h.live_stages (mem_filterMap.mpr ⟨_, hperm.mem_iff.mpr mem_cons_self, ?_⟩)
      rw [mem_singleton.mp hmem] at ht
      exact ht
  case destroys =>
    intro k q d hmem
    rw [hstages] at hmem
    rcases mem_append.mp hmem with hmem | hmem
    · exact hperm.mem_iff.mpr (mem_cons_of_mem _ hmem)
    · cases mem_singleton.mp hmem
  case plain =>
    have hnetwork : s'.network = s.network.eraseIdx i ++ [.granted k r q src a] := by rw [hs']; rfl
    rw [hnetwork, filter_append]
    exact (List.Perm.of_eq (append_nil _)).trans (plain_take hm rfl)
  all_goals subst hs'
  case send => exact id
  case le => exact le_refl _
  case live => exact fun hge hlt => absurd hlt (not_lt.mpr hge)
  case slots => exact fun {l x} hx => .inl ⟨x, hx, rfl, rfl, rfl, rfl, rfl⟩
  case puts | held | landing | sent | written | handed => rfl

/-- A grant fills in its send slot, and messages that wait may go. -/
theorem granted (h : Buffers s) {i k q g : Nat} {src d : PersistentHandle}
    (hm : s.network[i]? = some (.granted k q g src d)) (reaches : BufIndex → Bool) :
    Buffers ((s.take i).persistentReqGrantedHandler q src d reaches) := by
  have hperm := stages_take hm rfl
  have hmem : .granted k q g src d ∈ s.stages := hperm.mem_iff.mpr mem_cons_self
  have hlive : s.sendId ⟨q, src⟩ = some k :=
    h.live_stages (mem_filterMap.mpr ⟨_, hmem, rfl⟩)
  obtain ⟨e, he, hek⟩ := ends_of_sendId hlive
  have hd : d ≠ nullptr :=
    h.paired.setup.recv_null (owner_of_recvId (h.paired.setup.stage hmem).1)
  obtain ⟨hnone, -⟩ | ⟨x, s₁, -, hx, hs₁, heq⟩ := granted_cases (s.take i) q src d reaches
  · exact absurd hnone (lookup_send_of_ends he (h.paired.setup.send_null he))
  have hends := ends_of_sends hx
  have hsetup : Setup s₁ := by
    rw [hs₁]
    exact h.paired.setup.granted hperm hends (h.paired.finds_own hmem hends) (ends_setSend _)
      rfl rfl rfl rfl
  have hpaired : Paired s₁ := by
    rw [hs₁] at hsetup ⊢
    exact (h.paired.drop i).granted hx hd rfl hsetup
  have hnew : s₁.ends = update s.ends ⟨q, src⟩
      (some ⟨x.channel, x.destPE, d, true, x.isLocal⟩) := by
    rw [hs₁]
    exact ends_setSend _
  have hsend : s₁.sendId = s.sendId := by
    have hid : s.sendId ⟨q, src⟩ = some x.channel := sendId_of_ends hends
    rw [sendId_update hnew, Option.map_some, ← hid, Function.update_eq_self]
  have hgrows : s.Grows s₁ := by
    constructor
    case send =>
      rw [hsend]
      exact id
    case stages =>
      intro t ht
      rw [hsend]
      rw [hs₁] at ht
      obtain ⟨m, hin, ht⟩ := mem_filterMap.mp ht
      refine h.live_stages (mem_filterMap.mpr ⟨m, ?_, ht⟩)
      exact hperm.mem_iff.mpr (mem_cons_of_mem _ hin)
    case slots =>
      intro l x' hx'
      rw [hs₁] at hx'
      obtain ⟨rfl, hset⟩ | ⟨-, hx'⟩ := update_eq_some.mp hx'
      · rw [← Option.some.inj hset]
        exact .inl ⟨x, hx, rfl, rfl, rfl, rfl, rfl⟩
      · exact .inl ⟨x', hx', rfl, rfl, rfl, rfl, rfl⟩
    all_goals subst hs₁
    case recv => exact id
    case receives => exact fun _ hy => hy
    case plain => exact plain_take hm rfl
    case le => exact le_refl _
    case live => exact fun hge hlt => absurd hlt (not_lt.mpr hge)
    case destroys => exact fun hin => hperm.mem_iff.mpr (mem_cons_of_mem _ hin)
    case puts | held | landing | sent | written | handed => rfl
  rw [heq]
  refine (h.grow hgrows hpaired).flush
    { x with destHandle := d, setupDone := true } ?_ hd reaches rfl
  rw [hs₁]
  exact update_self ..

/-! ## Runs -/

/-- Every message that is handled keeps the buffers in order. -/
theorem deliver (h : Buffers s) {a : PersistentHandle} {reaches : BufIndex → Bool}
    {m : Message} (hm : s.network[i]? = some m)
    (hhandle : (s.take i).handle J m a reaches = some s') : Buffers s' := by
  have hunnamed : s.Unnamed (.deliver i a reaches) := by
    rw [State.Unnamed]
    split
    · rename_i hreq
      obtain rfl := Option.mem_unique hm hreq
      obtain ⟨hfree, -⟩ := request_eq_some hhandle
      exact h.unnamed_target hfree.owner
    · trivial
  have hpaired := h.paired.deliver hunnamed hm hhandle
  cases m with
  | request k q r n src => exact h.request hm hhandle hpaired
  | granted k q g src d =>
    cases hhandle
    exact h.granted hm reaches
  | data ctx inlinePayload => exact h.data hm hhandle
  | credit k q src b =>
    cases hhandle
    exact h.credit hm reaches
  | destroy k q d =>
    have hstage : .destroy k q d ∈ s.stages :=
      (stages_take hm rfl).mem_iff.mpr mem_cons_self
    exact absurd hstage h.no_destroy
  | user k q msg => exact h.user hm hpaired (Option.some.inj hhandle).symm

/-- What one event preserves if it does not destroy a channel. -/
theorem step (h : Buffers s) {e : Event} (hlive : ∀ pe a, e ≠ .destroy pe a)
    (hstep : Step J s e s') : Buffers s' := by
  cases e with
  | create => exact h.create hstep
  | createReceiver => exact h.createReceiver hstep
  | register => exact h.register hstep
  | send => exact h.send hstep
  | deliver i a reaches =>
    obtain ⟨m, hm, hhandle⟩ := Option.bind_eq_some_iff.mp hstep
    exact h.deliver hm hhandle
  | land => exact h.land hstep
  | putDone => exact h.putDone hstep
  | free => exact h.free hstep
  | modify => exact h.modify hstep
  | destroy pe a => exact absurd rfl (hlive pe a)

end Buffers

/-! ## What a handler is given -/

namespace PersistentSendsTable

theorem arrives_local {x : PersistentSendsTable} (h : x.isLocal = false) : x.arrives = some := by
  funext msg
  rw [arrives, h]
  rfl

end PersistentSendsTable

/-- What was handed over on a channel was sent on it, and each message once. -/
theorem Logged.handed {s : State} {x : PersistentSendsTable} (h : Logged s x) :
    (s.handed x.channel).Subperm ((s.sent x.channel).filterMap x.arrives) := by
  refine subperm_ext_iff.mpr fun b _ => ?_
  have hle : (s.handed x.channel).count b ≤ s.total x.channel b := by
    rw [total]
    omega
  rw [Logged] at h
  split at h
  · exact le_trans hle (h.2 b)
  · rename_i hlocal
    rw [PersistentSendsTable.arrives_local (Bool.eq_false_iff.mpr hlocal), filterMap_some, h.1,
      count_append]
    exact Nat.le_trans hle (Nat.le_trans (h.2 b) (Nat.le_add_right ..))

/-- In a run in which no channel is destroyed each buffer of a channel is free at its sender, in a
put or notification, held, or in a credit, and in one of these only. No put or notification is for
a buffer that holds a message. What handlers are given on a channel was sent on it, each message
once; on a channel within the node the send path has set its destination. -/
theorem buffers_not_overwritten {J : Job} {es : List Event} {s : State}
    (hrun : Steps (Step J) State.initial es s) (hlive : ∀ pe a, Event.destroy pe a ∉ es) :
    (∀ l x, s.sends l = some x → ∀ i, (if x.busy i then 0 else 1) + s.inFlight x.channel i +
      s.delivered x.channel i + s.credited x.channel i = 1) ∧
    (∀ c, c ∈ s.contexts ∨ c ∈ s.landing → ∀ m ∈ s.held,
      (⟨c.destPE, c.destHandler⟩ : Loc) ≠ m.slot ∨ c.bufIndex ≠ m.index) ∧
    ∀ k, s.handed k ≠ [] → ∃ l x, s.sends l = some x ∧ x.channel = k ∧
      (s.handed k).Subperm ((s.sent k).filterMap x.arrives) := by
  have h : Buffers s := hrun.invariant_of_mem
    (fun _ _ _ hmem h hstep => h.step (fun pe a heq => hlive pe a (heq ▸ hmem)) hstep)
    initial_buffers
  refine ⟨fun l x hx i => ?_, fun c hc m hm => ?_, fun k hk => ?_⟩
  · have htokens := h.tokens hx i
    rw [tokens] at htokens
    cases hbusy : x.busy i with
    | true =>
      rw [hbusy, if_pos rfl] at htokens
      rw [if_pos rfl]
      omega
    | false =>
      rw [hbusy, if_neg Bool.false_ne_true] at htokens
      rw [if_neg Bool.false_ne_true]
      omega
  · have hmem : c ∈ s.contexts := hc.elim id fun hin => Buffers.mem_contexts_of_put (h.landing hin)
    exact h.write_not_held hmem hm
  · have hlt : k < s.channels := by
      by_contra hge
      exact hk (h.fresh (Nat.le_of_not_lt hge)).2.2
    obtain ⟨l, hl⟩ := h.all_live hlt
    obtain ⟨e, he, rfl⟩ := ends_of_sendId hl
    obtain ⟨x, hx, rfl⟩ := sends_of_ends he
    exact ⟨l, x, hx, rfl, (h.logs hx).handed⟩

/-- Two nodes of two PEs, with one-sided puts. -/
def twoByTwo : Job where
  numNodes := 2
  nodeSize := 2
  numNodes_pos := Nat.two_pos
  nodeSize_pos := Nat.two_pos
  rdmaAvailable := true

/-- PE 0 sends four messages to PE 2. The first is held there, the notification of the second is
ahead of its data, the third has not completed and the fourth carries its payload. -/
theorem first_message_held : ∃ es s, Steps (Step twoByTwo) State.initial es s ∧
    (∀ pe a, Event.destroy pe a ∉ es) ∧ s.held.length = 1 ∧ s.contexts.length = 3 ∧
    ∃ l x, s.sends l = some x ∧ x.channel = 0 ∧
      (s.handed 0).Subperm ((s.sent 0).filterMap x.arrives) := by
  obtain ⟨es, hes⟩ : ∃ es : List Event, es = [.create 0 2 64 16, .send 0 16 [1] fun _ => false,
      .deliver 0 32 fun _ => false, .deliver 0 0 fun _ => false, .send 0 16 [2] fun _ => false,
      .send 0 16 [3] fun _ => false, .send 0 16 [4] fun _ => true, .land 0, .putDone 0, .putDone 0,
      .deliver 1 0 fun _ => false] := ⟨_, rfl⟩
  obtain ⟨s, hsteps, hheld, hcontexts, hhanded⟩ : ∃ s, Steps (Step twoByTwo) initial es s ∧
      s.held.length = 1 ∧ s.contexts.length = 3 ∧ s.handed 0 ≠ [] := by
    rw [hes]
    exact Steps.exists_of_any (by decide)
  have hlive : ∀ pe a, Event.destroy pe a ∉ es := by simp [hes]
  exact ⟨_, s, hsteps, hlive, hheld, hcontexts,
    (buffers_not_overwritten hsteps hlive).2.2 0 hhanded⟩

/-- Within the node a handler is given bytes that were not sent: the destination is set in the
header of the message. -/
theorem local_message_stamped : ∃ es s, Steps (Step twoByTwo) State.initial es s ∧
    (∀ pe a, Event.destroy pe a ∉ es) ∧ ∃ b ∈ s.handed 0, b ∉ s.sent 0 := by
  obtain ⟨s, hsteps, hhanded, hsent⟩ : ∃ s, Steps (Step twoByTwo) initial [.create 0 1 64 16,
      .send 0 16 (replicate 24 0) fun _ => false, .deliver 0 0 fun _ => false] s ∧
      (0 :: 0 :: 0 :: 0 :: 1 :: replicate 19 0) ∈ s.handed 0 ∧
      (0 :: 0 :: 0 :: 0 :: 1 :: replicate 19 0) ∉ s.sent 0 :=
    Steps.exists_of_any (by decide)
  refine ⟨_, s, hsteps, fun pe a hmem => ?_, _, hhanded, hsent⟩
  simp at hmem

end Reconverse.Persistent
