import Reconverse.Persistent.Setup

/-!
# Addresses that are used again

A channel is known on the other PE by the address of its slot. When a slot is freed and another one
is made at the same address, a message that was made for the first finds the second. This does not
happen in runs in which a new slot is never put at an address that something on its way still
names (`Unnamed`): there every grant and every credit finds its own send slot or none, and every
notification its own receive slot or none.
-/

namespace Reconverse.Persistent

open Lib List State
open Function (update update_of_ne update_self)

variable {reaches : BufIndex → Bool} {m : Message} {i : BufIndex} {j : Nat}
  {y : PersistentReceivesTable} {a : PersistentHandle} {l : Loc}

/-! ## What names a slot -/

/-- The send slot a write was made for. -/
def PutContext.source (c : PutContext) : Loc × Nat := (⟨c.srcPE, c.srcHandler⟩, c.channel)

/-- The receive slot a write was made for. -/
def PutContext.target (c : PutContext) : Loc × Option Nat :=
  (⟨c.destPE, c.destHandler⟩, some c.channel)

/-- The send slot to credit for a held message. -/
def Held.source (m : Held) : Loc × Nat := (⟨m.srcPE, m.srcHandle⟩, m.channel)

/-- The write that a notification announces. -/
def Message.ctx : Message → Option PutContext
  | .data ctx _ => some ctx
  | _ => none

/-- The send slot a credit is for. -/
def Message.creditSource : Message → Option (Loc × Nat)
  | .credit k q a _ => some (⟨q, a⟩, k)
  | _ => none

/-- The send slot that is to be granted a receive slot. -/
def Message.stageSource : Message → Option (Loc × Nat)
  | .request k _ r _ a => some (⟨r, a⟩, k)
  | .granted k q _ a _ => some (⟨q, a⟩, k)
  | _ => none

namespace State

variable (s : State)

/-- The writes that have not been handled: puts and notifications. -/
def contexts : List PutContext := s.puts ++ s.network.filterMap Message.ctx

/-- The receive slots that are named by puts and notifications. -/
def targets : List (Loc × Option Nat) := s.contexts.map PutContext.target

/-- The send slots that are named by puts, notifications, held messages and credits. -/
def traffic : List (Loc × Nat) :=
  s.contexts.map PutContext.source ++ s.held.map Held.source ++
    s.network.filterMap Message.creditSource

/-- The send slots that are named by requests and grants. -/
def stageSources : List (Loc × Nat) := s.stages.filterMap Message.stageSource

/-- The send slots that are named by anything on its way. -/
def sources : List (Loc × Nat) := s.stageSources ++ s.traffic

/-- A new send slot is not put where a request, a grant, a put, a notification, a held message or a
credit of an earlier channel says its slot is, and a new receive slot is not put where a put or a
notification goes. -/
def Unnamed : Event → Prop
  | .create pe _ _ a | .register pe _ a => ∀ r ∈ s.sources, r.1 ≠ ⟨pe, a⟩
  | .createReceiver pe _ a => ∀ r ∈ s.targets, r.1 ≠ ⟨pe, a⟩
  | .deliver i a _ =>
    match s.network[i]? with
    | some (.request _ q _ _ _) => ∀ r ∈ s.targets, r.1 ≠ ⟨q, a⟩
    | _ => True
  | _ => True

instance (e : Event) : Decidable (s.Unnamed e) := by
  unfold Unnamed
  split
  · infer_instance
  · infer_instance
  · infer_instance
  · split <;> infer_instance
  · infer_instance

variable {s} {s' : State} {l : Loc} {c : PutContext}

/-- What was written is on its way as a put or as a notification. -/
theorem mem_contexts : c ∈ s.contexts ↔ c ∈ s.puts ∨ ∃ b, .data c b ∈ s.network := by
  rw [contexts, mem_append, mem_filterMap]
  refine or_congr_right ⟨?_, fun ⟨b, hb⟩ => ⟨_, hb, rfl⟩⟩
  rintro ⟨m, hm, hc⟩
  cases m with
  | data c' b =>
    cases hc
    exact ⟨b, hm⟩
  | request | granted | credit | destroy | user => cases hc

variable {r : Loc × Nat}

/-- A sender is named by a write, by a message that is held, or by a credit. -/
theorem mem_traffic : r ∈ s.traffic ↔ (∃ c ∈ s.contexts, c.source = r) ∨
    (∃ m ∈ s.held, m.source = r) ∨ ∃ i, .credit r.2 r.1.pe r.1.addr i ∈ s.network := by
  rw [traffic, mem_append, mem_append, mem_map, mem_map, mem_filterMap, or_assoc]
  refine or_congr_right (or_congr_right ⟨?_, fun ⟨i, hi⟩ => ⟨_, hi, rfl⟩⟩)
  rintro ⟨m, hm, hr⟩
  cases m with
  | credit k q a i =>
    cases hr
    exact ⟨i, hm⟩
  | request | granted | data | destroy | user => cases hr

theorem contexts_post (m : Message) : (s.post m).contexts = s.contexts ++ m.ctx.toList := by
  show s.puts ++ filterMap Message.ctx (s.network ++ [m]) = _
  cases hm : m.ctx <;> simp [hm, contexts]

/-- What is named when a message is posted. -/
theorem mem_traffic_post (hr : r ∈ (s.post m).traffic) :
    r ∈ s.traffic ∨ (∃ c, m.ctx = some c ∧ c.source = r) ∨ m.creditSource = some r := by
  rw [traffic, contexts_post, map_append] at hr
  have hnet : (s.post m).network = s.network ++ [m] := rfl
  rw [hnet, filterMap_append] at hr
  rw [traffic]
  simp only [mem_append, mem_map, mem_filterMap, mem_singleton,
    Option.mem_toList, exists_eq_left] at hr ⊢
  obtain ((hr | hr) | hr) | hr | hr := hr
  · exact .inl (.inl (.inl hr))
  · exact .inr (.inl hr)
  · exact .inl (.inl (.inr hr))
  · exact .inl (.inr hr)
  · exact .inr (.inr hr)

/-- A message that is neither a notification nor a credit. -/
theorem traffic_post_subset (hctx : m.ctx = none) (hcredit : m.creditSource = none) :
    (s.post m).traffic ⊆ s.traffic := by
  intro r hr
  obtain hr | ⟨c, hc, -⟩ | hr := mem_traffic_post hr
  · exact hr
  · cases hctx.symm.trans hc
  · cases hcredit.symm.trans hr

theorem contexts_post_subset (hctx : m.ctx = none) : (s.post m).contexts ⊆ s.contexts := by
  rw [contexts_post, hctx, Option.toList_none, append_nil]
  exact Subset.refl _

/-- Taking a message adds no write. -/
theorem contexts_take (s : State) (i : Nat) : (s.take i).contexts ⊆ s.contexts := by
  intro c hc
  rw [mem_contexts] at hc ⊢
  exact hc.imp_right fun ⟨b, hb⟩ => ⟨b, mem_of_mem_eraseIdx hb⟩

/-- It adds no name of a sender. -/
theorem traffic_take (s : State) (i : Nat) : (s.take i).traffic ⊆ s.traffic := by
  intro r hr
  rw [mem_traffic] at hr ⊢
  obtain ⟨c, hc, rfl⟩ | hr | ⟨j, hj⟩ := hr
  · exact .inl ⟨c, contexts_take s i hc, rfl⟩
  · exact .inr (.inl hr)
  · exact .inr (.inr ⟨j, mem_of_mem_eraseIdx hj⟩)

variable {reaches : BufIndex → Bool} {msg : Lib.Bytes.Buf} {x : PersistentSendsTable}

/-- The write that `writeToBuffer` adds. -/
theorem mem_contexts_write
    (hc : c ∈ (s.writeToBuffer reaches l x i msg).contexts) : c ∈ s.contexts ∨
      (c.source = (l, x.channel) ∧ c.target = (⟨x.destPE, x.destHandle⟩, some x.channel)) := by
  rw [mem_contexts] at hc
  simp only [writeToBuffer] at hc
  rw [mem_contexts]
  split at hc
  · obtain hc | hc := hc
    · rcases mem_append.mp hc with hc | hc
      · exact .inl (.inl hc)
      · rw [mem_singleton.mp hc]
        exact .inr ⟨rfl, rfl⟩
    · exact .inl (.inr hc)
  · obtain hc | ⟨b, hc⟩ := hc
    · exact .inl (.inl hc)
    · rcases mem_append.mp hc with hc | hc
      · exact .inl (.inr ⟨b, hc⟩)
      · obtain ⟨rfl, -⟩ := Message.data.inj (mem_singleton.mp hc)
        exact .inr ⟨rfl, rfl⟩

/-- A write adds the name of its sender. -/
theorem mem_traffic_write (hr : r ∈ (s.writeToBuffer reaches l x i msg).traffic) :
    r ∈ s.traffic ∨ r = (l, x.channel) := by
  rw [mem_traffic, held_write] at hr
  rw [mem_traffic]
  obtain ⟨c, hc, rfl⟩ | hr | ⟨j, hr⟩ := hr
  · obtain hc | ⟨hc, -⟩ := mem_contexts_write hc
    · exact .inl (.inl ⟨c, hc, rfl⟩)
    · exact .inr hc
  · exact .inl (.inr (.inl hr))
  · refine .inl (.inr (.inr ⟨j, ?_⟩))
    simp only [writeToBuffer] at hr
    split at hr
    · exact hr
    · rcases mem_append.mp hr with hr | hr
      · exact hr
      · cases mem_singleton.mp hr

/-- A write names only its own send slot anew. -/
theorem mem_sources_write {x x' : PersistentSendsTable} (hx : s.sends l = some x)
    (hx' : x'.ends = x.ends) (hr : r ∈ (s.writeToBuffer reaches l x' i msg).sources) :
    r ∈ s.sources ++ [(l, x.channel)] := by
  have hk : s.Kept (s.writeToBuffer reaches l x' i msg) := (Kept.refl s).write hx hx'
  rcases mem_append.mp hr with hr | hr
  · obtain ⟨m, hm, hr⟩ := mem_filterMap.mp hr
    exact mem_append_left _ (mem_append_left _ (mem_filterMap.mpr ⟨m, hk.stages.mem_iff.mp hm, hr⟩))
  · obtain hr | rfl := mem_traffic_write hr
    · exact mem_append_left _ (mem_append_right _ hr)
    · rw [(Ends.mk.inj hx').1]
      exact mem_append_right _ mem_cons_self

/-- Requests and grants name the slots that were named before. -/
theorem sources_subset (hstages : ∀ m ∈ s'.stages, m ∈ s.stages ∨
      ∀ r, m.stageSource = some r → r ∈ s.stageSources) (htraffic : s'.traffic ⊆ s.traffic) :
    s'.sources ⊆ s.sources := by
  refine append_subset.mpr
    ⟨fun r hr => mem_append_left _ ?_, fun r hr => mem_append_right _ (htraffic hr)⟩
  obtain ⟨m, hm, hr⟩ := mem_filterMap.mp hr
  obtain hm | hsource := hstages m hm
  · exact mem_filterMap.mpr ⟨m, hm, hr⟩
  · exact hsource r hr

end State

/-- A buffer that says whom to credit holds a message of that sender. -/
def Headers (s : State) : Prop :=
  ∀ l y i src, s.receives l = some y → y.source i = some src →
    y.ref i = cmkPersistentRefbase + 1 ∧
      ∃ m ∈ s.held, m.slot = l ∧ m.index = i ∧ some m.channel = y.channel ∧
        (m.srcPE, m.srcHandle) = src

/-- The headers are right, also after a slot changed in other fields. -/
theorem Headers.setRecv {s : State} (h : Headers s)
    (y' : PersistentReceivesTable) (hy : s.receives l = some y) (hsource : y'.source = y.source)
    (href : y'.ref = y.ref)
    (hchannel : y'.channel = y.channel) : Headers (s.setRecv l (some y')) := by
  intro l' z i src hz hsrc
  obtain ⟨rfl, heq⟩ | ⟨-, hold⟩ := update_eq_some.mp hz
  · cases heq
    rw [hsource] at hsrc
    rw [href, hchannel]
    exact h _ _ _ _ hy hsrc
  · exact h _ _ _ _ hold hsrc

/-- What holds in runs that use no address again too early. -/
structure Paired (s : State) : Prop where
  setup : Setup s
  sources : Faithful s.sendId s.sources
  sources_lt : ∀ {r}, r ∈ s.sources → r.2 < s.channels
  targets : Faithful s.owner s.targets
  traffic_open : ∀ {r}, r ∈ s.traffic → ∀ {e}, s.ends r.1 = some e → e.destHandle ≠ nullptr
  traffic_new : ∀ {k q r n a}, Message.request k q r n a ∈ s.stages → ∀ {t}, t ∈ s.traffic → t.2 ≠ k
  ready : ∀ {l e}, s.ends l = some e → e.setupDone = true → e.isLocal = false →
    e.destHandle ≠ nullptr
  headers : Headers s

/-- In the beginning there are no slots. -/
theorem State.initial_paired : Paired State.initial where
  setup := initial_setup
  sources := nofun
  sources_lt := nofun
  targets := nofun
  traffic_open := nofun
  traffic_new := nofun
  ready := nofun
  headers := nofun

namespace Paired

variable {J : Job} {s s' : State} {l : Loc}

section

variable (h : Paired s) {x : PersistentSendsTable}

include h

theorem finds_own : s.FindsOwn := by
  intro k q g a d hm e he
  exact h.sources.label (mem_append_left _ (mem_filterMap.mpr ⟨_, hm, rfl⟩)) (sendId_of_ends he)

/-- An event that names no slot anew: it is left to show what the slots are. -/
theorem shrink (hsetup : Setup s') (hchannels : s.channels ≤ s'.channels)
    (hsources : s'.sources ⊆ s.sources) (hsend : Faithful s'.sendId s.sources)
    (hcontexts : s'.contexts ⊆ s.contexts) (howner : Faithful s'.owner s.targets)
    (htraffic : s'.traffic ⊆ s.traffic)
    (hends : ∀ {l e}, s'.ends l = some e → s.ends l = some e ∨ e.destHandle ≠ nullptr)
    (hrequest : ∀ {k q r n a}, Message.request k q r n a ∈ s'.stages →
    .request k q r n a ∈ s.stages) (hheaders : Headers s') : Paired s' := by
  constructor
  case setup => exact hsetup
  case sources => exact hsend.mono hsources
  case sources_lt => exact fun hr => lt_of_lt_of_le (h.sources_lt (hsources hr)) hchannels
  case targets => exact howner.mono (map_subset _ hcontexts)
  case traffic_open => exact fun hr _ he => (hends he).elim (h.traffic_open (htraffic hr)) id
  case traffic_new => exact fun hm _ ht => h.traffic_new (hrequest hm) (htraffic ht)
  case ready => exact fun he hdone hlocal => (hends he).elim (h.ready · hdone hlocal) id
  case headers => exact hheaders

/-- A step that keeps the ends and adds no names keeps the slots paired. -/
theorem moved (hk : s.Kept s') (hcontexts : s'.contexts ⊆ s.contexts)
    (htraffic : s'.traffic ⊆ s.traffic) (hheaders : Headers s') : Paired s' := by
  have hsend : s'.sendId = s.sendId := sendId_congr hk.ends
  have hstages {m : Message} (hm : m ∈ s'.stages) : m ∈ s.stages := hk.stages.mem_iff.mp hm
  exact h.shrink (h.setup.kept hk) hk.channels.ge
    (sources_subset (fun m hm => .inl (hstages hm)) htraffic) (hsend ▸ h.sources) hcontexts
    (hk.owner ▸ h.targets) htraffic (fun he => .inl (hk.ends ▸ he)) hstages hheaders

/-- A write names the two slots of its channel. -/
theorem write (hx : s.sends l = some x)
    (hopen : x.destHandle ≠ nullptr) (x' : PersistentSendsTable) (hx' : x'.ends = x.ends)
    (reaches : BufIndex → Bool) (i : BufIndex) (msg : Lib.Bytes.Buf) :
    Paired (s.writeToBuffer reaches l x' i msg) := by
  have hk : s.Kept (s.writeToBuffer reaches l x' i msg) := (State.Kept.refl s).write hx hx'
  have hends := ends_of_sends hx
  have hsendId := sendId_of_ends hends
  have howner := owner_of_recvId (h.setup.opened hends hopen)
  obtain ⟨hchannel, hdestPE, hdestHandle, -, -⟩ := Ends.mk.inj hx'
  have hsend : (s.writeToBuffer reaches l x' i msg).sendId = s.sendId := sendId_congr hk.ends
  constructor
  case setup => exact h.setup.kept hk
  case sources =>
    rw [hsend]
    refine (h.sources.append (Faithful.single hsendId fun l' hl' => ?_)).mono fun r =>
      mem_sources_write hx hx'
    exact h.setup.send.inj hl' hsendId
  case sources_lt =>
    intro r hr
    rw [hk.channels]
    rcases mem_append.mp (mem_sources_write hx hx' hr) with hr | hr
    · exact h.sources_lt hr
    · rw [mem_singleton.mp hr]
      exact h.setup.send.lt hsendId
  case targets =>
    rw [hk.owner]
    refine (h.targets.append (Faithful.single howner fun l' hl' => ?_)).mono fun t ht => ?_
    · exact h.setup.recv.inj (by rw [recvId, hl']; rfl)
        (h.setup.opened hends hopen)
    · obtain ⟨c, hc, rfl⟩ := mem_map.mp ht
      obtain hc | ⟨-, hc⟩ := mem_contexts_write hc
      · exact mem_append_left _ (mem_map_of_mem hc)
      · rw [hc, hdestPE, hdestHandle, hchannel]
        exact mem_append_right _ mem_cons_self
  case traffic_open =>
    intro r hr e he
    rw [hk.ends] at he
    obtain hr | rfl := mem_traffic_write hr
    · exact h.traffic_open hr he
    · rw [Option.mem_unique he hends]
      exact hopen
  case traffic_new =>
    intro k q r n a hm t ht
    have hm := hk.stages.mem_iff.mp hm
    obtain ht | rfl := mem_traffic_write ht
    · exact h.traffic_new hm ht
    · rw [hchannel]
      exact (h.setup.nothing_else hends hopen _ hm).symm
  case ready =>
    rw [hk.ends]
    exact h.ready
  case headers =>
    intro l' y j src hy
    rw [receives_write] at hy
    rw [held_write]
    exact h.headers _ _ _ _ hy

/-- The queue of an open channel is emptied as far as possible. -/
theorem flush (x : PersistentSendsTable) (hx : s.sends l = some x)
    (hopen : x.destHandle ≠ nullptr) (reaches : BufIndex → Bool) {queue : List Lib.Bytes.Buf}
    (hqueue : x.pending = queue) : Paired (s.flushPending reaches l queue) := by
  refine (flush_rule (P := fun s => Paired s ∧ ∃ x, s.sends l = some x ∧
    x.destHandle ≠ nullptr) ?_ queue ⟨h, x, hx, hopen⟩ fun x' hx' => ?_).1
  · intro s x' i msg rest hs hx' _ _
    obtain ⟨h, x, hx, hopen⟩ := hs
    obtain rfl := Option.mem_unique hx hx'
    refine ⟨h.write hx hopen (x.wrote i rest) rfl reaches i msg, ?_⟩
    rw [sends_write, update_self]
    exact ⟨_, rfl, hopen⟩
  · rw [← Option.mem_unique hx hx']
    exact hqueue

/-! ## Messages on open channels -/

variable {a : PersistentHandle} {ctx : PutContext} {maxBytes : Int} {pe : Nat}

/-- A send keeps the slots paired. -/
theorem send {msg : Lib.Bytes.Buf} (hsend : s.cmiSendPersistentMsg J pe a msg reaches = some s') :
    Paired s' := by
  have hk := kept_send hsend
  obtain ⟨x, -, hx, hcases⟩ := send_eq_some hsend
  obtain ⟨-, buf, -, rfl⟩ | ⟨hlocal, s₁, rfl, rfl⟩ := hcases
  · exact h.moved hk (contexts_post_subset rfl) (traffic_post_subset rfl rfl) h.headers
  · have hqueue : Paired (setSend { s with sent := update s.sent x.channel (s.sent x.channel ++
        [msg]) } ⟨pe, a⟩ (some { x with pending := x.pending ++ [msg] })) := by
      refine h.moved ?_ (Subset.refl _) (Subset.refl _) h.headers
      exact ⟨ends_setSend_same hx rfl, rfl, .refl _, rfl, rfl, rfl, rfl, rfl⟩
    split
    · exact hqueue.flush { x with pending := x.pending ++ [msg] } (update_self ..)
        (h.ready (ends_of_sends hx) ‹_› hlocal) reaches rfl
    · exact hqueue

/-- A put that lands keeps the slots paired. -/
theorem land (hland : s.land j = some s') : Paired s' := by
  have hk := kept_land hland
  obtain ⟨ctx, -, ⟨rfl, -⟩ | ⟨y, hy, -, rfl⟩⟩ := land_eq_some hland
  · exact h.moved hk (Subset.refl _) (Subset.refl _) h.headers
  · refine h.moved hk (Subset.refl _) (Subset.refl _) ?_
    exact h.headers.setRecv { y with area := _ } hy rfl rfl rfl

/-- A put that is completed keeps the slots paired. -/
theorem putDone (hput : s.persistentPutDone j = some s') : Paired s' := by
  have hk := kept_put_done hput
  obtain ⟨ctx, hctx, rfl⟩ := put_done_eq_some hput
  have hmem : ctx ∈ s.contexts := mem_append_left _ (mem_of_getElem? hctx)
  have htake : { s with puts := s.puts.eraseIdx j }.contexts ⊆ s.contexts := by
    intro c hc
    rw [mem_contexts] at hc ⊢
    exact hc.imp_left mem_of_mem_eraseIdx
  refine h.moved hk (fun c hc => ?_) (fun r hr => ?_) h.headers
  · rw [contexts_post] at hc
    rcases mem_append.mp hc with hc | hc
    · exact htake hc
    · exact mem_singleton.mp hc ▸ hmem
  · rw [mem_traffic]
    obtain hr | ⟨c, hc, rfl⟩ | hr := mem_traffic_post hr
    · rw [mem_traffic] at hr
      exact hr.imp_left fun ⟨c, hc, heq⟩ => ⟨c, htake hc, heq⟩
    · exact .inl ⟨c, Option.some.inj hc ▸ hmem, rfl⟩
    · cases hr

/-- A notification finds its own receive slot. -/
theorem data_label (hctx : ctx ∈ s.contexts)
    (hy : s.receives ⟨ctx.destPE, ctx.destHandler⟩ = some y) : y.channel = some ctx.channel :=
  h.targets.label (mem_map_of_mem hctx) (owner_of_receives hy)

/-- A notification that is handled keeps the slots paired. -/
theorem data {i : Nat} {inlinePayload : Bool} (hm : s.network[i]? = some (.data ctx inlinePayload))
    (hdata : (s.take i).persistentDataHandler ctx inlinePayload = some s') : Paired s' := by
  have hk := (State.Kept.take hm rfl).trans (kept_data hdata)
  have hctx : ctx ∈ s.contexts :=
    mem_contexts.mpr (.inr ⟨inlinePayload, mem_of_getElem? hm⟩)
  obtain ⟨-, rfl⟩ | ⟨y, area, hy, -, -, rfl⟩ := data_eq_some hdata
  · exact h.moved hk (contexts_take s i) (traffic_take s i) h.headers
  · refine h.moved hk (contexts_take s i) (fun r hr => ?_) ?_
    · rw [mem_traffic] at hr ⊢
      obtain ⟨c, hc, heq⟩ | ⟨m, hheld, rfl⟩ | ⟨j, hj⟩ := hr
      · exact .inl ⟨c, contexts_take s i hc, heq⟩
      · rcases mem_append.mp hheld with hheld | hheld
        · exact .inr (.inl ⟨m, hheld, rfl⟩)
        · rw [mem_singleton.mp hheld]
          exact .inl ⟨ctx, hctx, rfl⟩
      · exact .inr (.inr ⟨j, mem_of_mem_eraseIdx hj⟩)
    · intro l z j src hz hsrc
      obtain ⟨rfl, heq⟩ | ⟨-, hold⟩ := update_eq_some.mp hz
      · cases heq
        obtain ⟨rfl, heq⟩ | ⟨hne, hsrc⟩ := update_eq_some.mp hsrc
        · exact ⟨update_self .., _, mem_append_right _ mem_cons_self, rfl, rfl,
            (h.data_label hctx hy).symm, Option.some.inj heq⟩
        · obtain ⟨href, m, hmem, hrest⟩ := h.headers _ _ _ _ hy hsrc
          exact ⟨(update_of_ne hne ..).trans href, m, mem_append_left _ hmem, hrest⟩
      · obtain ⟨href, m, hmem, hrest⟩ := h.headers _ _ _ _ hold hsrc
        exact ⟨href, m, mem_append_left _ hmem, hrest⟩

/-- A credit that is handled keeps the slots paired. -/
theorem credit {i k q : Nat} {b : BufIndex}
    (hm : s.network[i]? = some (.credit k q a b)) (reaches : BufIndex → Bool) :
    Paired ((s.take i).persistentCreditHandler q a b reaches) := by
  have htake : Paired (s.take i) :=
    h.moved (State.Kept.take hm rfl) (contexts_take s i) (traffic_take s i) h.headers
  have hmem : (⟨q, a⟩, k) ∈ s.traffic :=
    mem_traffic.mpr (.inr (.inr ⟨b, mem_of_getElem? hm⟩))
  obtain ⟨-, heq⟩ | ⟨x, s₁, -, hx, rfl, heq⟩ := credit_cases (s.take i) q a b reaches
  · rw [heq]
    exact htake
  · rw [heq]
    have hopen : x.destHandle ≠ nullptr := h.traffic_open hmem (ends_of_sends hx)
    refine flush ?_ { x with busy := update x.busy b false } (update_self ..) hopen reaches
      rfl
    refine htake.moved ?_ (Subset.refl _) (Subset.refl _) h.headers
    exact (State.Kept.refl _).setSend hx rfl

/-- A message that is released keeps the slots paired. -/
theorem free (hfree : s.cmiFree j = some s') : Paired s' := by
  have hk := kept_free hfree
  obtain ⟨m, y, y', s₁, hm, hy, hchannel, hy', -, hother, hlast, hmore, rfl, hcases⟩ :=
    free_eq_some hfree
  have htraffic : { s with held := s.held.eraseIdx j }.traffic ⊆ s.traffic := by
    intro r hr
    rw [mem_traffic] at hr ⊢
    exact hr.imp_right (Or.imp_left fun ⟨n, hn, heq⟩ => ⟨n, mem_of_mem_eraseIdx hn, heq⟩)
  -- The buffer does not say any more whom to credit.
  have hcleared : y'.source m.index = none := by
    by_cases hone : y.ref m.index = cmkPersistentRefbase + 1
    · exact hlast hone
    · rw [hmore hone]
      cases hsrc : y.source m.index with
      | none => rfl
      | some src => exact absurd (h.headers _ _ _ _ hy hsrc).1 hone
  have hheaders : Headers (setRecv { s with held := s.held.eraseIdx j } m.slot (some y')) := by
    intro l z i src hz hsrc
    have hkeep : ∀ n ∈ s.held, (n.slot ≠ m.slot ∨ n.index ≠ m.index) → n ∈ s.held.eraseIdx j := by
      intro n hn hne
      obtain rfl | hn := mem_cons.mp ((perm_cons_eraseIdx hm).mem_iff.mp hn)
      · exact absurd rfl (hne.elim (fun h => absurd rfl h) id)
      · exact hn
    obtain ⟨rfl, heq⟩ | ⟨hne, hold⟩ := update_eq_some.mp hz
    · cases heq
      rcases eq_or_ne i m.index with rfl | hi
      · cases hcleared.symm.trans hsrc
      · rw [(hother i hi).1] at hsrc
        obtain ⟨href, n, hn, hslot, hindex, hrest⟩ := h.headers _ _ _ _ hy hsrc
        rw [(hother i hi).2, hy']
        exact ⟨href, n, hkeep n hn (.inr (hindex ▸ hi)), hslot, hindex, hrest⟩
    · obtain ⟨href, n, hn, hslot, hrest⟩ := h.headers _ _ _ _ hold hsrc
      exact ⟨href, n, hkeep n hn (.inl (hslot ▸ hne)), hslot, hrest⟩
  obtain ⟨rfl, -⟩ | ⟨src, hsrc, rfl⟩ := hcases
  · exact h.moved hk (Subset.refl _) htraffic hheaders
  · refine h.moved hk (contexts_post_subset rfl) (fun r hr => ?_) hheaders
    obtain hr | ⟨c, hc, -⟩ | hr := mem_traffic_post hr
    · exact htraffic hr
    · cases hc
    · cases hr
      obtain ⟨-, n, hn, -, -, hlabel, rfl⟩ := h.headers _ _ _ _ hy hsrc
      have hlabel : n.channel = m.channel := Option.some.inj (hlabel.trans hchannel)
      exact mem_traffic.mpr (.inr (.inl ⟨n, hn, by rw [Held.source, hlabel]⟩))

/-- A handler that writes to its message changes nothing of this. -/
theorem modify {bytes : Lib.Bytes.Buf} (hmodify : s.modify j bytes = some s') : Paired s' := by
  have hk := kept_modify hmodify
  obtain ⟨m, y, -, hy, -, rfl⟩ := modify_eq_some hmodify
  refine h.moved hk (Subset.refl _) (Subset.refl _) ?_
  exact h.headers.setRecv { y with area := _ } hy rfl rfl rfl

/-! ## Setting up and tearing down -/

/-- A new send slot, with or without the request for a receive slot. -/
theorem create {pe destPE : Nat} (hunnamed : ∀ r ∈ s.sources, r.1 ≠ ⟨pe, a⟩)
    (hcall : s.cmiCreatePersistent J pe destPE maxBytes a = some s') : Paired s' := by
  have hsetup := h.setup.create_call hcall
  obtain ⟨-, x, s₁, hx, rfl, rfl⟩ := create_eq_some hcall
  have hchannel : x.channel = s.channels := by rw [hx]; rfl
  generalize hs' : (if x.isLocal = true then _ else _ : State) = s' at hsetup ⊢
  have hends : s'.ends = update s.ends ⟨pe, a⟩
      (some ⟨x.channel, x.destPE, x.destHandle, x.isLocal, x.isLocal⟩) := by
    rw [← hs']
    split <;> exact ends_setSend _
  have howner : s'.owner = s.owner := by
    rw [← hs']
    split <;> rfl
  have hcontexts : s'.contexts ⊆ s.contexts := by
    rw [← hs']
    split
    · exact Subset.refl _
    · exact contexts_post_subset rfl
  have htraffic : s'.traffic ⊆ s.traffic := by
    rw [← hs']
    split
    · exact Subset.refl _
    · exact traffic_post_subset rfl rfl
  have hstages {m : Message} (hm : m ∈ s'.stages) :
      m ∈ s.stages ∨ m = .request s.channels destPE pe x.sizeMax a := by
    rw [← hs'] at hm
    split at hm
    · exact .inl hm
    · rw [stages_post] at hm
      exact (mem_append.mp hm).imp id mem_singleton.mp
  have hchannels : s'.channels = s.channels + 1 := by
    rw [← hs']
    split <;> rfl
  have hsend := sendId_update hends
  rw [hchannel] at hsend
  have hsources {r : Loc × Nat} (hr : r ∈ s'.sources) :
      r ∈ s.sources ++ [(⟨pe, a⟩, s.channels)] := by
    rcases mem_append.mp hr with hr | hr
    · obtain ⟨m, hm, hr⟩ := mem_filterMap.mp hr
      obtain hm | rfl := hstages hm
      · exact mem_append_left _ (mem_append_left _ (mem_filterMap.mpr ⟨m, hm, hr⟩))
      · exact mem_append_right _ (mem_singleton.mpr (Option.some.inj hr).symm)
    · exact mem_append_left _ (mem_append_right _ (htraffic hr))
  have hold {r : Loc × Nat} (hr : r ∈ s.sources) : r.2 ≠ s.channels := (h.sources_lt hr).ne
  constructor
  case setup => exact hsetup
  case sources =>
    rw [hsend]
    refine ((h.sources.insert fun r hr => ⟨hunnamed r hr, hold hr⟩).append
      (Faithful.single (update_self ..) fun l' hl' => ?_)).mono fun r => hsources
    obtain ⟨rfl, -⟩ | ⟨-, hl'⟩ := update_eq_some.mp hl'
    · rfl
    · exact absurd (h.setup.send.lt hl') (Nat.lt_irrefl _)
  case sources_lt =>
    intro r hr
    rw [hchannels]
    rcases mem_append.mp (hsources hr) with hr | hr
    · exact Nat.lt_succ_of_lt (h.sources_lt hr)
    · rw [mem_singleton.mp hr]
      exact Nat.lt_succ_self _
  case targets => exact howner ▸ h.targets.mono (map_subset _ hcontexts)
  case traffic_open =>
    intro r hr e he
    have hr := htraffic hr
    rw [hends, update_of_ne (hunnamed r (mem_append_right _ hr))] at he
    exact h.traffic_open hr he
  case traffic_new =>
    intro k q r n b hm t ht
    obtain hm | heq := hstages hm
    · exact h.traffic_new hm (htraffic ht)
    · obtain ⟨rfl, -⟩ := Message.request.inj heq
      exact hold (mem_append_right _ (htraffic ht))
  case ready =>
    intro l' e he hdone hlocal
    rw [hends] at he
    obtain ⟨-, heq⟩ | ⟨-, he⟩ := update_eq_some.mp he
    · cases heq
      cases hdone.symm.trans hlocal
    · exact h.ready he hdone hlocal
  case headers =>
    rw [← hs']
    split <;> exact h.headers

/-- A receive slot is on offer. -/
theorem createReceiver (hunnamed : ∀ r ∈ s.targets, r.1 ≠ ⟨pe, a⟩)
    (hcall : s.cmiCreateReceiverPersistent J pe maxBytes a = some s') : Paired s' := by
  have hsetup := h.setup.create_receiver_call hcall
  obtain ⟨-, hs'⟩ := create_receiver_eq_some hcall
  subst hs'
  refine h.shrink hsetup (le_refl _) (Subset.refl _) h.sources (Subset.refl _) ?_ (Subset.refl _)
    .inl id fun l y i src hy hsrc => ?_
  · show Faithful (s.setRecv ⟨pe, a⟩ _).owner _
    rw [owner_setRecv]
    refine h.targets.insert fun r hr => ⟨hunnamed r hr, ?_⟩
    obtain ⟨c, -, rfl⟩ := mem_map.mp hr
    nofun
  · obtain ⟨-, heq⟩ | ⟨-, hy⟩ := update_eq_some.mp hy
    · cases heq
      cases hsrc
    · exact h.headers _ _ _ _ hy hsrc

/-- The slot on offer gets a sender. -/
theorem register {pe j : Nat} (hunnamed : ∀ r ∈ s.sources, r.1 ≠ ⟨pe, a⟩)
    (hcall : s.cmiRegisterReceivePersistent J pe j a = some s') : Paired s' := by
  have hsetup := h.setup.register_call hcall
  obtain ⟨-, r, y, x, hr, hy, hx, hs'⟩ := register_eq_some hcall
  have hchannel : x.channel = s.channels := by rw [hx]; rfl
  have hoffer : s.owner r.loc = some none := h.setup.offered (mem_of_getElem? hr)
  have hold {r : Loc × Nat} (hr : r ∈ s.sources) : r.2 ≠ s.channels := (h.sources_lt hr).ne
  have hends : s'.ends = update s.ends ⟨pe, a⟩
      (some ⟨x.channel, x.destPE, r.myHand, true, x.isLocal⟩) := by
    rw [hs']
    exact ends_setSend _
  have howner : s'.owner = update s.owner r.loc (some (some s.channels)) := by
    rw [hs']
    exact owner_setRecv _
  have hsources : s'.sources = s.sources := by rw [hs']; rfl
  have htargets : s'.targets = s.targets := by rw [hs']; rfl
  have htraffic : s'.traffic = s.traffic := by rw [hs']; rfl
  constructor
  case setup => exact hsetup
  case sources =>
    rw [sendId_update hends, hsources, hchannel]
    exact h.sources.insert fun r hr => ⟨hunnamed r hr, hold hr⟩
  case sources_lt =>
    intro r hr
    rw [hsources] at hr
    rw [hs']
    exact Nat.lt_succ_of_lt (h.sources_lt hr)
  case targets =>
    rw [howner, htargets]
    refine h.targets.insert fun t ht => ?_
    obtain ⟨c, hc, rfl⟩ := mem_map.mp ht
    constructor
    · intro heq
      rw [← heq] at hoffer
      cases h.targets.label ht hoffer
    · intro heq
      have hmem : c.source ∈ s.sources :=
        mem_append_right _ (mem_traffic.mpr (.inl ⟨c, hc, rfl⟩))
      exact hold hmem (Option.some.inj heq)
  case traffic_open =>
    intro t ht e he
    rw [htraffic] at ht
    rw [hends, update_of_ne (hunnamed t (mem_append_right _ ht))] at he
    exact h.traffic_open ht he
  case traffic_new =>
    rw [hs']
    exact h.traffic_new
  case ready =>
    intro l' e he hdone hlocal
    rw [hends] at he
    obtain ⟨-, heq⟩ | ⟨-, he⟩ := update_eq_some.mp he
    · cases heq
      exact h.setup.recv_null hoffer
    · exact h.ready he hdone hlocal
  case headers =>
    rw [hs']
    intro l' z i src hz hsrc
    obtain ⟨-, heq⟩ | ⟨-, hz⟩ := update_eq_some.mp hz
    · cases heq
      -- Nothing was delivered in a slot without a sender.
      obtain ⟨-, m, -, -, -, hm, -⟩ := h.headers _ _ _ _ hy hsrc
      rw [Option.mem_unique (owner_of_receives hy) hoffer] at hm
      cases hm
    · exact h.headers _ _ _ _ hz hsrc

/-- A request that is handled keeps the slots paired. -/
theorem request {i k q r : Nat} {n : Int} {src a : PersistentHandle}
    (hm : s.network[i]? = some (.request k q r n src)) (hunnamed : ∀ t ∈ s.targets, t.1 ≠ ⟨q, a⟩)
    (hhandle : (s.take i).persistentRequestHandler J k q r n src a = some s') (hsetup : Setup s') :
    Paired s' := by
  obtain ⟨-, hs'⟩ := request_eq_some hhandle
  have hmem : .request k q r n src ∈ s.stages :=
    (stages_take hm rfl).mem_iff.mpr mem_cons_self
  have hcontexts : s'.contexts ⊆ s.contexts := by
    rw [hs']
    exact Subset.trans (contexts_post_subset rfl) (contexts_take s i)
  have htraffic : s'.traffic ⊆ s.traffic := by
    rw [hs']
    exact Subset.trans (traffic_post_subset rfl rfl) (traffic_take s i)
  have howner : s'.owner = update s.owner ⟨q, a⟩ (some (some k)) := by
    rw [hs']
    exact owner_setRecv _
  have hstages {m : Message} (hm : m ∈ s'.stages) :
      m ∈ s.stages ∨ m = .granted k r q src a := by
    rw [hs', stages_post] at hm
    rcases mem_append.mp hm with hm | hm
    · exact .inl (((eraseIdx_sublist ..).filter _).subset hm)
    · exact .inr (mem_singleton.mp hm)
  -- The grant names the slot that the request named.
  have hsources : s'.sources ⊆ s.sources := by
    refine sources_subset (fun m hm => (hstages hm).imp_right ?_) htraffic
    rintro rfl t ht
    exact mem_filterMap.mpr ⟨_, hmem, ht⟩
  have hends : s'.ends = s.ends := by rw [hs']; rfl
  have hchannels : s'.channels = s.channels := by rw [hs']; rfl
  have hsend : s'.sendId = s.sendId := sendId_congr hends
  refine h.shrink hsetup hchannels.ge hsources (hsend ▸ h.sources) hcontexts ?_ htraffic
    (fun he => .inl (hends ▸ he)) (fun hm => (hstages hm).resolve_right nofun) ?_
  · rw [howner]
    refine h.targets.insert fun t ht => ⟨hunnamed t ht, ?_⟩
    obtain ⟨c, hc, rfl⟩ := mem_map.mp ht
    have hnew := h.traffic_new hmem (mem_traffic.mpr (.inl ⟨c, hc, rfl⟩))
    exact fun heq => hnew (Option.some.inj heq)
  · rw [hs']
    intro l y j src' hy hsrc
    obtain ⟨-, heq⟩ | ⟨-, hy⟩ := update_eq_some.mp hy
    · cases heq
      cases hsrc
    · exact h.headers _ _ _ _ hy hsrc

/-- A message that sets up or tears down is dropped. -/
theorem drop (i : Nat) : Paired (s.take i) := by
  have hstages {m : Message} (hm : m ∈ (s.take i).stages) : m ∈ s.stages :=
    ((eraseIdx_sublist ..).filter _).subset hm
  exact h.shrink (h.setup.drop i) (le_refl _)
    (sources_subset (fun m hm => .inl (hstages hm)) (traffic_take s i)) h.sources
    (contexts_take s i) h.targets (traffic_take s i) .inl hstages h.headers

/-- A grant fills in its send slot. -/
theorem granted (hx : s.sends l = some x) {d : PersistentHandle} (hd : d ≠ nullptr)
    (hs' : s' = s.setSend l (some { x with destHandle := d, setupDone := true }))
    (hsetup : Setup s') : Paired s' := by
  have hends : s'.ends = update s.ends l (some ⟨x.channel, x.destPE, d, true, x.isLocal⟩) := by
    rw [hs']
    exact ends_setSend _
  have hsend : s'.sendId = s.sendId := by
    have hid : s.sendId l = some x.channel := sendId_of_ends (ends_of_sends hx)
    rw [sendId_update hends]
    show update s.sendId l (some x.channel) = s.sendId
    rw [← hid, Function.update_eq_self]
  subst hs'
  refine h.shrink hsetup (le_refl _) (Subset.refl _) (hsend ▸ h.sources) (Subset.refl _) h.targets
    (Subset.refl _) (fun he => ?_) id h.headers
  rw [hends] at he
  obtain ⟨-, heq⟩ | ⟨-, he⟩ := update_eq_some.mp he
  · cases heq
    exact .inr hd
  · exact .inl he

/-- A channel that is destroyed by its sender keeps the slots paired. -/
theorem destroy (pe : Nat) (a : PersistentHandle) : Paired (s.cmiDestroyPersistent pe a) := by
  have hsetup := h.setup.destroy_call pe a
  obtain ⟨-, heq⟩ | ⟨x, s₁, -, hx, rfl, heq⟩ := destroy_cases s pe a
  · rw [heq]
    exact h
  generalize s.cmiDestroyPersistent pe a = s' at hsetup heq ⊢
  have hends : s'.ends = update s.ends ⟨pe, a⟩ none := by
    rw [heq]
    split <;> exact ends_setSend _
  have hcontexts : s'.contexts ⊆ s.contexts := by
    rw [heq]
    split
    · exact Subset.refl _
    · exact contexts_post_subset rfl
  have htraffic : s'.traffic ⊆ s.traffic := by
    rw [heq]
    split
    · exact Subset.refl _
    · exact traffic_post_subset rfl rfl
  have hstages {m : Message} (hm : m ∈ s'.stages) :
      m ∈ s.stages ∨ m = .destroy x.channel x.destPE x.destHandle := by
    rw [heq] at hm
    split at hm
    · exact .inl hm
    · rw [stages_post] at hm
      exact (mem_append.mp hm).imp id mem_singleton.mp
  have hsources : s'.sources ⊆ s.sources := by
    refine sources_subset (fun m hm => (hstages hm).imp_right ?_) htraffic
    rintro rfl t ht
    cases ht
  refine h.shrink hsetup ?_ hsources ?_ hcontexts ?_ htraffic (fun he => .inl ?_)
    (fun hm => (hstages hm).resolve_right nofun) ?_
  · rw [heq]
    split <;> exact le_refl _
  · rw [sendId_update hends]
    exact h.sources.erase _
  · rw [heq]
    split <;> exact h.targets
  · rw [hends] at he
    obtain ⟨-, hnone⟩ | ⟨-, he⟩ := update_eq_some.mp he
    · cases hnone
    · exact he
  · rw [heq]
    split <;> exact h.headers

/-- A destroy message that is handled keeps the slots paired. -/
theorem destroyed (q : Nat) (d : PersistentHandle)
    (hsetup : Setup (s.persistentDestroyHandler q d)) :
    Paired (s.persistentDestroyHandler q d) := by
  obtain ⟨-, heq⟩ | ⟨y, -, hy, heq⟩ := destroyed_cases s q d
  · rw [heq]
    exact h
  · rw [heq] at hsetup ⊢
    refine h.shrink hsetup (le_refl _) (Subset.refl _) h.sources (Subset.refl _) ?_ (Subset.refl _)
      .inl id fun l z i src hz hsrc => ?_
    · show Faithful (s.setRecv ⟨q, d⟩ none).owner _
      rw [owner_setRecv]
      exact h.targets.erase _
    · obtain ⟨-, hnone⟩ | ⟨-, hz⟩ := update_eq_some.mp hz
      · cases hnone
      · exact h.headers _ _ _ _ hz hsrc

/-! ## Events -/

/-- Every message that is handled keeps the slots paired. -/
theorem deliver {i : Nat}
    (hunnamed : s.Unnamed (.deliver i a reaches)) (hm : s.network[i]? = some m)
    (hhandle : (s.take i).handle J m a reaches = some s') : Paired s' := by
  have hsetup := h.setup.deliver h.finds_own hm hhandle
  cases m with
  | request k q r n src =>
    rw [State.Unnamed, hm] at hunnamed
    exact h.request hm hunnamed hhandle hsetup
  | granted k q g src d =>
    have hperm := stages_take hm rfl
    have hmem : .granted k q g src d ∈ s.stages := hperm.mem_iff.mpr mem_cons_self
    have hd : d ≠ nullptr :=
      h.setup.recv_null (owner_of_recvId (h.setup.stage hmem).1)
    cases hhandle
    obtain ⟨-, heq⟩ | ⟨x, s₁, -, hx, rfl, heq⟩ := granted_cases (s.take i) q src d reaches
    · rw [heq]
      exact h.drop i
    · rw [heq]
      have hends := ends_of_sends hx
      refine flush ?_ { x with destHandle := d, setupDone := true } (update_self ..) hd
        reaches rfl
      refine (h.drop i).granted hx hd rfl ?_
      exact h.setup.granted hperm hends (h.finds_own hmem hends) (ends_setSend _) rfl rfl
        rfl rfl
  | data ctx inlinePayload => exact h.data hm hhandle
  | credit k q src b =>
    cases hhandle
    exact h.credit hm reaches
  | destroy k q d =>
    cases hhandle
    exact (h.drop i).destroyed q d hsetup
  | user k q msg =>
    cases hhandle
    exact (h.drop i).moved ⟨rfl, rfl, .refl _, rfl, rfl, rfl, rfl, rfl⟩
      (Subset.refl _) (Subset.refl _) h.headers

/-- What one event preserves if it uses no address too early. -/
theorem step {e : Event} (hunnamed : s.Unnamed e) (hstep : Step J s e s') : Paired s' := by
  cases e with
  | create => exact h.create hunnamed hstep
  | createReceiver => exact h.createReceiver hunnamed hstep
  | register => exact h.register hunnamed hstep
  | send => exact h.send hstep
  | deliver i a reaches =>
    obtain ⟨m, hm, hhandle⟩ := Option.bind_eq_some_iff.mp hstep
    exact h.deliver hunnamed hm hhandle
  | land => exact h.land hstep
  | putDone => exact h.putDone hstep
  | free => exact h.free hstep
  | modify => exact h.modify hstep
  | destroy pe a =>
    cases hstep
    exact h.destroy pe a

end

end Paired

/-! ## Runs -/

/-- What the handling of a message for a channel changes: a grant and a credit only the send slot
of their channel, a notification only its receive slot. -/
def ActsOnOwn (m : Message) (s s' : State) : Prop :=
  match m with
  | .granted .. | .credit .. =>
    ∀ l x, s.sends l = some x → x.channel ≠ m.channel → s'.sends l = some x
  | .data .. => ∀ l y, s.receives l = some y → y.channel ≠ some m.channel → s'.receives l = some y
  | _ => True

namespace State

variable {s : State} {l l' : Loc}

/-- Changing one send slot and emptying its queue leaves the others alone. -/
theorem sends_flush (hne : l' ≠ l) (reaches : BufIndex → Bool) (x : PersistentSendsTable) :
    ((s.setSend l (some x)).flushPending reaches l x.pending).sends l' = s.sends l' := by
  refine flush_rule (P := fun s' => s'.sends l' = s.sends l') (fun s' x i msg rest hs' _ _ _ => ?_)
    x.pending (update_of_ne hne ..) (pending_setSend _ _ _)
  rw [sends_write, update_of_ne hne]
  exact hs'

end State

/-- A message that is delivered acts on its own channel. -/
theorem Paired.acts_on_own {J : Job} {s s' : State} (h : Paired s) {i : Nat}
    (hm : s.network[i]? = some m)
    (hstep : Step J s (.deliver i a reaches) s') : ActsOnOwn m s s' := by
  obtain ⟨m', hm', hhandle⟩ := Option.bind_eq_some_iff.mp hstep
  obtain rfl := Option.mem_unique hm hm'
  cases m with
  | request | destroy | user => trivial
  | granted k q g src d =>
    have hmem : .granted k q g src d ∈ s.stages :=
      (stages_take hm rfl).mem_iff.mpr mem_cons_self
    cases hhandle
    intro l x hx hne
    obtain ⟨-, heq⟩ | ⟨x', s₁, -, hx', rfl, heq⟩ := granted_cases (s.take i) q src d reaches
    · rw [heq]
      exact hx
    · have hplace : l ≠ ⟨q, src⟩ := by
        rintro rfl
        exact hne (h.finds_own hmem (ends_of_sends hx))
      rw [heq]
      exact (sends_flush hplace reaches { x' with destHandle := d, setupDone := true }).trans hx
  | credit k q src b =>
    have hmem : (⟨q, src⟩, k) ∈ s.sources := mem_append_right _
      (mem_traffic.mpr (.inr (.inr ⟨b, mem_of_getElem? hm⟩)))
    cases hhandle
    intro l x hx hne
    obtain ⟨-, heq⟩ | ⟨x', s₁, -, hx', rfl, heq⟩ := credit_cases (s.take i) q src b reaches
    · rw [heq]
      exact hx
    · have hplace : l ≠ ⟨q, src⟩ := by
        rintro rfl
        exact hne (h.sources.label hmem (sendId_of_ends (ends_of_sends hx)))
      rw [heq]
      exact (sends_flush hplace reaches { x' with busy := update x'.busy b false }).trans hx
  | data ctx inlinePayload =>
    have hmem : ctx ∈ s.contexts :=
      mem_contexts.mpr (.inr ⟨inlinePayload, mem_of_getElem? hm⟩)
    intro l y hy hne
    obtain ⟨-, rfl⟩ | ⟨y', area, hy', -, -, rfl⟩ := data_eq_some hhandle
    · exact hy
    · have hplace : l ≠ ⟨ctx.destPE, ctx.destHandler⟩ := by
        rintro rfl
        exact hne (h.data_label hmem hy)
      exact (update_of_ne hplace ..).trans hy

/-- In every run in which no slot is put at an address that something on its way still names, each
grant and each credit that is delivered changes only the send slot it was made for, and each
notification only the receive slot that its sender was granted. -/
theorem messages_act_on_own_channel {J : Job} {es : List Event} {s s' : State}
    (hrun : Steps (fun s e s' => s.Unnamed e ∧ Step J s e s') State.initial es s) {i : Nat}
    {a : PersistentHandle} {reaches : BufIndex → Bool} {m : Message}
    (hm : s.network[i]? = some m) (hstep : Step J s (.deliver i a reaches) s') :
    ActsOnOwn m s s' := by
  have hinv : Paired s :=
    hrun.invariant (fun _ _ _ h hstep => h.step hstep.1 hstep.2)
      initial_paired
  exact hinv.acts_on_own hm hstep

/-- Three nodes of one PE, without one-sided puts. -/
def threeNodes : Job where
  numNodes := 3
  nodeSize := 1
  numNodes_pos := by decide
  nodeSize_pos := Nat.one_pos
  rdmaAvailable := false

/-- A second channel gets the address of the first after the first is gone and nothing names it any
more. The grant for the second acts on the second. -/
theorem grant_after_address_reuse : ∃ es s s' m, Steps (fun s e s' => s.Unnamed e ∧
    Step threeNodes s e s') State.initial es s ∧ s.network[0]? = some m ∧ m.channel = 1 ∧
    Step threeNodes s (.deliver 0 0 fun _ => false) s' ∧ ActsOnOwn m s s' := by
  obtain ⟨s, hsteps, hnet, hsome⟩ : ∃ s, Steps (fun s e s' => s.Unnamed e ∧ Step threeNodes s e s')
      initial [.create 0 1 64 16, .deliver 0 32 fun _ => false, .deliver 0 0 fun _ => false,
        .destroy 0 16, .deliver 0 0 fun _ => false, .create 0 2 64 16,
        .deliver 0 48 fun _ => false] s ∧ s.network = [.granted 1 0 2 16 48] ∧
      (s.step threeNodes (.deliver 0 0 fun _ => false)).isSome :=
      Steps.exists_of_checked (by decide)
  obtain ⟨s', hs'⟩ := Option.isSome_iff_exists.mp hsome
  have hm : s.network[0]? = some (.granted 1 0 2 16 48) := by rw [hnet]; rfl
  exact ⟨_, s, s', _, hsteps, hm, rfl, hs', messages_act_on_own_channel hsteps hm hs'⟩

/-- A channel to PE 1 is destroyed before its grant arrives, and a channel to PE 2 gets its address.
The grant for the first then sets up the second, with the receive slot on PE 1. -/
theorem grant_acts_on_other_channel : ∃ es s s' m, Steps (Step threeNodes) State.initial es s ∧
    s.network[1]? = some m ∧ Step threeNodes s (.deliver 1 0 fun _ => false) s' ∧
    ¬ ActsOnOwn m s s' := by
  obtain ⟨s, hsteps, hm, hbefore, hafter⟩ : ∃ s, Steps (Step threeNodes) initial
      [.create 0 1 64 16, .destroy 0 16, .create 0 2 64 16, .deliver 0 32 fun _ => false] s ∧
      s.network[1]? = some (.granted 0 0 1 16 32) ∧
      (s.sends ⟨0, 16⟩).any (fun x => x.channel = 1 ∧ x.destHandle = nullptr) ∧
      (s.step threeNodes (.deliver 1 0 fun _ => false)).any fun s' =>
        (s'.sends ⟨0, 16⟩).any (·.destHandle = 32) := Steps.exists_of_any (by decide)
  obtain ⟨s', hs', hafter⟩ := (Option.any_eq_true ..).mp hafter
  obtain ⟨x, hx, hbefore⟩ := (Option.any_eq_true ..).mp hbefore
  obtain ⟨x', hx', hafter⟩ := (Option.any_eq_true ..).mp hafter
  obtain ⟨hchannel, hnull⟩ := of_decide_eq_true hbefore
  refine ⟨_, s, s', _, hsteps, hm, hs', fun hown => ?_⟩
  have hsame := hown ⟨0, 16⟩ x hx (by rw [hchannel]; exact Nat.one_ne_zero)
  rw [Option.mem_unique hsame hx'] at hnull
  cases hnull.symm.trans (of_decide_eq_true hafter)

end Reconverse.Persistent
