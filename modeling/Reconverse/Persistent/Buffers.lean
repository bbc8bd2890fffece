import Reconverse.Persistent.Aliasing

/-!
# Buffers of channels that are not destroyed

Each buffer of a channel is free at its sender, in a put or a notification on its way, delivered and
held, or in a credit on its way, and in only one of these. This is a count (`State.tokens`) that
every event keeps, and from it follow the other results: no message is written over one that is
held, and what a handler is given was sent, and is given once.

As long as no channel is destroyed every reference finds its slot, so that no address is used too
early and `Paired` holds.
-/

namespace Reconverse.Persistent

open Lib Lib.Bytes List State PersistentSendsTable PutContext
open Function (update update_of_ne update_self)

variable {m : Message} {i j : Nat} {c : PutContext} {x x' : PersistentSendsTable} {bytes : Buf}

/-! ## Where a buffer is -/

/-- The write is to buffer `i` of channel `k`. -/
def PutContext.uses (k : Nat) (i : BufIndex) (c : PutContext) : Bool :=
  c.channel = k ∧ c.bufIndex = i

/-- The message is in buffer `i` of channel `k`. -/
def Held.uses (k : Nat) (i : BufIndex) (m : Held) : Bool := m.channel = k ∧ m.index = i

/-- The message is a credit for buffer `i` of channel `k`. -/
def Message.credits (k : Nat) (i : BufIndex) : Message → Bool
  | .credit j _ _ b => j = k ∧ b = i
  | _ => false

/-- The write carries the bytes `b` on channel `k`. -/
def PutContext.carries (k : Nat) (b : Buf) (c : PutContext) : Bool := c.channel = k ∧ c.msg = b

/-- The message carries the bytes `b` on channel `k`, which stays within the node. -/
def Message.carries (k : Nat) (b : Buf) : Message → Bool
  | .user j _ msg => j = k ∧ msg = b
  | _ => false

namespace State

variable (s : State)

/-- The puts and notifications on their way for buffer `i` of channel `k`. -/
def inFlight (k : Nat) (i : BufIndex) : Nat := s.contexts.countP (·.uses k i)

/-- The messages delivered in buffer `i` of channel `k` and not released. -/
def delivered (k : Nat) (i : BufIndex) : Nat := s.held.countP (·.uses k i)

/-- The credits on their way for buffer `i` of channel `k`. -/
def credited (k : Nat) (i : BufIndex) : Nat := s.network.countP (·.credits k i)

/-- All that is away from the sender for buffer `i` of channel `k`. -/
def tokens (k : Nat) (i : BufIndex) : Nat := s.inFlight k i + s.delivered k i + s.credited k i

/-- The messages with bytes `b` that were handed over on channel `k` or are on their way. -/
def total (k : Nat) (b : Buf) : Nat :=
  (s.handed k).count b + s.contexts.countP (·.carries k b) + s.network.countP (·.carries k b)

end State

/-- What a handler is given for a message that is sent on the channel. Within the node the send path
sets the destination in the header. -/
def PersistentSendsTable.arrives (x : PersistentSendsTable) (msg : Buf) : Option Buf :=
  if x.isLocal then Wire.setDestPE msg x.destPE else some msg

/-- What is known of the messages of a channel. -/
def Logged (s : State) (x : PersistentSendsTable) : Prop :=
  if x.isLocal then x.pending = [] ∧
    ∀ b, s.total x.channel b ≤ ((s.sent x.channel).filterMap x.arrives).count b
  else s.sent x.channel = s.written x.channel ++ x.pending ∧
    ∀ b, s.total x.channel b ≤ (s.written x.channel).count b

/-- What holds as long as no channel is destroyed. -/
structure Buffers (s : State) : Prop where
  paired : Paired s
  live_stages : ∀ {r}, r ∈ s.stageSources → s.sendId r.1 = some r.2
  live_writes : ∀ {c}, c ∈ s.contexts → s.sendId ⟨c.srcPE, c.srcHandler⟩ = some c.channel ∧
    s.recvId ⟨c.destPE, c.destHandler⟩ = some c.channel
  live_held : ∀ {m}, m ∈ s.held → s.sendId ⟨m.srcPE, m.srcHandle⟩ = some m.channel ∧
    s.recvId m.slot = some m.channel
  live_credits : ∀ {k q a i}, Message.credit k q a i ∈ s.network → s.sendId ⟨q, a⟩ = some k
  all_live : ∀ {k}, k < s.channels → ∃ l, s.sendId l = some k
  no_destroy : ∀ {k q d}, Message.destroy k q d ∉ s.stages
  user_lt : ∀ {k q b}, Message.user k q b ∈ s.network → k < s.channels
  fresh : ∀ {k}, s.channels ≤ k → s.sent k = [] ∧ s.written k = [] ∧ s.handed k = []
  header : ∀ {m}, m ∈ s.held → ∀ {y}, s.receives m.slot = some y →
    y.source m.index = some (m.srcPE, m.srcHandle) ∧ y.ref m.index = cmkPersistentRefbase + 1
  tokens : ∀ {l x}, s.sends l = some x → ∀ i, s.tokens x.channel i = if x.busy i then 1 else 0
  stored : ∀ {c}, c ∈ s.contexts → c.size = c.msg.length
  landed : ∀ {c}, c ∈ s.puts ∨ .data c false ∈ s.network → c ∉ s.landing →
    ∀ {y}, s.receives ⟨c.destPE, c.destHandler⟩ = some y → (y.area c.bufIndex).take c.size = c.msg
  landing : ∀ {c}, c ∈ s.landing → c ∈ s.puts ∨ .data c false ∈ s.network
  logs : ∀ {l x}, s.sends l = some x → Logged s x

/-- In the beginning no buffer is used. -/
theorem State.initial_buffers : Buffers State.initial where
  paired := initial_paired
  live_stages := nofun
  live_writes := nofun
  live_held := nofun
  live_credits := nofun
  all_live := nofun
  no_destroy := nofun
  user_lt := nofun
  fresh _ := ⟨rfl, rfl, rfl⟩
  header := nofun
  tokens := nofun
  stored := nofun
  landed h := (h.elim nofun nofun)
  landing := nofun
  logs := nofun

namespace State

variable {s s' : State} {l : Loc}

/-- The writes that are left when a message is taken. -/
theorem contexts_take_perm (hm : s.network[i]? = some m) :
    s.contexts.Perm (m.ctx.toList ++ (s.take i).contexts) := by
  have hperm := ((perm_cons_eraseIdx hm).filterMap Message.ctx).append_left s.puts
  refine hperm.trans ?_
  cases hc : m.ctx with
  | none =>
    rw [filterMap_cons_none hc]
    exact .refl _
  | some c =>
    rw [filterMap_cons_some hc]
    exact perm_middle

/-- The write `c` was started: a put, or a notification with the payload. -/
def Starts (s s' : State) (c : PutContext) : Prop :=
  (s'.network = s.network ∧ s'.puts = s.puts ++ [c] ∧ s'.landing = s.landing ++ [c]) ∨
  (s'.network = s.network ++ [.data c true] ∧ s'.puts = s.puts ∧ s'.landing = s.landing)

/-- A write starts a put or sends the data inline. -/
theorem write_starts (s : State) (l : Loc) (x : PersistentSendsTable) (reaches : BufIndex → Bool)
    (i : BufIndex) (msg : Buf) : ∃ c : PutContext, c.channel = x.channel ∧ c.bufIndex = i ∧
      c.msg = msg ∧ c.size = msg.length ∧ c.source = (l, x.channel) ∧
      c.target = (⟨x.destPE, x.destHandle⟩, some x.channel) ∧
      s.Starts (s.writeToBuffer reaches l x i msg) c := by
  simp only [writeToBuffer]
  split
  · exact ⟨_, rfl, rfl, rfl, rfl, rfl, rfl, .inl ⟨rfl, rfl, rfl⟩⟩
  · exact ⟨_, rfl, rfl, rfl, rfl, rfl, rfl, .inr ⟨rfl, rfl, rfl⟩⟩

namespace Starts

variable {c : PutContext} (h : s.Starts s' c)

include h

/-- One more write is on its way. -/
theorem contexts_perm : s'.contexts.Perm (c :: s.contexts) := by
  obtain ⟨hnet, hputs, -⟩ | ⟨hnet, hputs, -⟩ := h
  · rw [contexts, hnet, hputs, append_assoc]
    exact perm_middle
  · rw [contexts, hnet, hputs, filterMap_append, ← append_assoc]
    exact perm_append_comm

/-- Other messages are as many as before. -/
theorem countP_network {p : Message → Bool} (hp : p (.data c true) = false) :
    s'.network.countP p = s.network.countP p := by
  obtain ⟨hnet, -⟩ | ⟨hnet, -⟩ := h
  · rw [hnet]
  · rw [hnet, countP_append, countP_singleton, hp]
    rfl

theorem mem_network {m : Message} (hm : m ∈ s'.network) (hne : m ≠ .data c true) :
    m ∈ s.network := by
  obtain ⟨hnet, -⟩ | ⟨hnet, -⟩ := h
  · exact hnet ▸ hm
  · rw [hnet] at hm
    exact (mem_append.mp hm).resolve_right fun hin => hne (mem_singleton.mp hin)

/-- The buffer of the write is away from the sender. -/
theorem tokens_eq (hheld : s'.held = s.held) (k : Nat) (j : BufIndex) :
    s'.tokens k j = s.tokens k j + if k = c.channel ∧ c.bufIndex = j then 1 else 0 := by
  rw [tokens, tokens, inFlight, inFlight, delivered, delivered, credited, credited,
    h.contexts_perm.countP_eq, hheld, h.countP_network rfl, countP_cons]
  simp only [PutContext.uses, decide_eq_true_eq, eq_comm (a := k)]
  omega

/-- The written message counts once. -/
theorem total_eq (hhanded : s'.handed = s.handed) (k : Nat) (b : Buf) :
    s'.total k b = s.total k b + if k = c.channel ∧ c.msg = b then 1 else 0 := by
  rw [total, total, hhanded, h.contexts_perm.countP_eq, h.countP_network rfl, countP_cons]
  simp only [PutContext.carries, decide_eq_true_eq, eq_comm (a := k)]
  omega

/-- A put that is not on its way any more was not before. -/
theorem put_of_landed {c' : PutContext} (hc : c' ∈ s'.puts ∨ .data c' false ∈ s'.network)
    (hnot : c' ∉ s'.landing) :
    (c' ∈ s.puts ∨ .data c' false ∈ s.network) ∧ c' ∉ s.landing := by
  have hc := hc.imp_right fun hin => h.mem_network hin (by simp)
  obtain ⟨-, hputs, hland⟩ | ⟨-, hputs, hland⟩ := h
  · rw [hland] at hnot
    rw [hputs] at hc
    refine ⟨hc.imp_left fun hin => (mem_append.mp hin).resolve_right fun hin => ?_,
      fun hin => hnot (mem_append_left _ hin)⟩
    exact hnot (mem_append_right _ hin)
  · exact ⟨hputs ▸ hc, hland ▸ hnot⟩

theorem put_of_landing {c' : PutContext} (hc : c' ∈ s'.landing)
    (hbefore : c' ∈ s.landing → c' ∈ s.puts ∨ .data c' false ∈ s.network) :
    c' ∈ s'.puts ∨ .data c' false ∈ s'.network := by
  obtain ⟨hnet, hputs, hland⟩ | ⟨hnet, hputs, hland⟩ := h
  · rw [hland] at hc
    rw [hputs, hnet]
    rcases mem_append.mp hc with hc | hc
    · exact (hbefore hc).imp_left (mem_append_left _)
    · exact .inl (mem_append_right _ hc)
  · rw [hputs, hnet]
    exact (hbefore (hland ▸ hc)).imp_right (mem_append_left _)

end Starts

/-- What a write adds to the logs. -/
theorem logs_write (s : State) (l : Loc) (x : PersistentSendsTable) (reaches : BufIndex → Bool)
    (i : BufIndex) (msg : Buf) : (s.writeToBuffer reaches l x i msg).sent = s.sent ∧
      (s.writeToBuffer reaches l x i msg).handed = s.handed ∧
      (s.writeToBuffer reaches l x i msg).written =
        update s.written x.channel (s.written x.channel ++ [msg]) := by
  simp only [writeToBuffer]
  split <;> exact ⟨rfl, rfl, rfl⟩

/-- A message that is taken gives up its use of a buffer. -/
theorem tokens_take (hm : s.network[i]? = some m) (k : Nat) (j : BufIndex) :
    s.tokens k j = (s.take i).tokens k j +
      (m.ctx.toList.countP (·.uses k j) + if m.credits k j then 1 else 0) := by
  rw [tokens, inFlight, credited, (contexts_take_perm hm).countP_eq, countP_append,
    countP_eq_add_eraseIdx hm]
  show _ = countP _ _ + s.delivered k j + (s.network.eraseIdx i).countP _ + _
  omega

/-- It gives up what it carries. -/
theorem total_take (hm : s.network[i]? = some m) (k : Nat) (b : Buf) :
    s.total k b = (s.take i).total k b +
      (m.ctx.toList.countP (·.carries k b) + if m.carries k b then 1 else 0) := by
  rw [total, (contexts_take_perm hm).countP_eq, countP_append, countP_eq_add_eraseIdx hm]
  show _ = (s.handed k).count b + countP _ _ + (s.network.eraseIdx i).countP _ + _
  omega

/-- A message that is sent uses the buffer it names. -/
theorem tokens_post (m : Message) (k : Nat) (j : BufIndex) : (s.post m).tokens k j =
    s.tokens k j + (m.ctx.toList.countP (·.uses k j) + if m.credits k j then 1 else 0) := by
  rw [tokens, inFlight, contexts_post, countP_append]
  show _ + s.delivered k j + (s.network ++ [m]).countP _ = _
  rw [countP_append, countP_singleton, tokens, inFlight, credited]
  omega

/-- A message that is sent counts for what it carries. -/
theorem total_post (m : Message) (k : Nat) (b : Buf) : (s.post m).total k b =
    s.total k b + (m.ctx.toList.countP (·.carries k b) + if m.carries k b then 1 else 0) := by
  rw [total, contexts_post, countP_append]
  show (s.handed k).count b + _ + (s.network ++ [m]).countP _ = _
  rw [countP_append, countP_singleton, total]
  omega

/-- A message is delivered and held. -/
theorem tokens_hold {m : Held} (hcontexts : s'.contexts = s.contexts)
    (hnetwork : s'.network = s.network) (hheld : s'.held = s.held ++ [m]) (k : Nat) (j : BufIndex) :
    s'.tokens k j = s.tokens k j + if m.uses k j then 1 else 0 := by
  rw [tokens, inFlight, delivered, credited, hcontexts, hnetwork, hheld, countP_append,
    countP_singleton, tokens, inFlight, delivered, credited]
  omega

/-- A message is handed to its handler. -/
theorem total_hand {channel : Nat} (hcontexts : s'.contexts = s.contexts)
    (hnetwork : s'.network = s.network)
    (hhanded : s'.handed = update s.handed channel (s.handed channel ++ [bytes])) (k : Nat)
    (b : Buf) : s'.total k b = s.total k b + if channel = k ∧ bytes = b then 1 else 0 := by
  rw [total, hcontexts, hnetwork, hhanded, total]
  rcases eq_or_ne k channel with rfl | hne
  · rw [update_self, count_append, count_singleton]
    simp only [true_and, beq_iff_eq]
    omega
  · rw [update_of_ne hne, if_neg fun hand => hne hand.1.symm]
    rfl

end State

/-- The messages of another channel, or the same counts. -/
theorem Logged.congr {s s' : State} (h : Logged s x)
    (hlocal : x'.isLocal = x.isLocal) (hchannel : x'.channel = x.channel)
    (hdest : x'.destPE = x.destPE) (hpending : x'.pending = x.pending)
    (htotal : ∀ b, s'.total x.channel b = s.total x.channel b)
    (hsent : s'.sent x.channel = s.sent x.channel)
    (hwritten : s'.written x.channel = s.written x.channel) : Logged s' x' := by
  have harrives : x'.arrives = x.arrives := by
    funext msg
    rw [arrives, arrives, hlocal, hdest]
  rw [Logged] at h ⊢
  rw [hlocal, hchannel, hpending, harrives, hsent, hwritten]
  simp only [htotal]
  exact h

namespace Buffers

variable {J : Job} {s s' : State} {l : Loc} {msg : Buf} {a : PersistentHandle}

/-- What is left to show for an event that leaves the setup alone. -/
theorem kept (h : Buffers s) (hk : s.Kept s') (hpaired : Paired s')
    (hwrites : ∀ {c}, c ∈ s'.contexts → c ∈ s.contexts ∨
      (s.sendId ⟨c.srcPE, c.srcHandler⟩ = some c.channel ∧
        s.recvId ⟨c.destPE, c.destHandler⟩ = some c.channel) ∧ c.size = c.msg.length)
    (hheld : ∀ {m}, m ∈ s'.held → s.sendId ⟨m.srcPE, m.srcHandle⟩ = some m.channel ∧
      s.recvId m.slot = some m.channel)
    (hcredits : ∀ {k q a i}, Message.credit k q a i ∈ s'.network → s.sendId ⟨q, a⟩ = some k)
    (huser : ∀ {k q b}, Message.user k q b ∈ s'.network → k < s.channels)
    (hfresh : ∀ {k}, s.channels ≤ k → s'.sent k = [] ∧ s'.written k = [] ∧ s'.handed k = [])
    (hheader : ∀ {m}, m ∈ s'.held → ∀ {y}, s'.receives m.slot = some y →
      y.source m.index = some (m.srcPE, m.srcHandle) ∧ y.ref m.index = cmkPersistentRefbase + 1)
    (htokens : ∀ {l x}, s'.sends l = some x → ∀ i,
      s'.tokens x.channel i = if x.busy i then 1 else 0)
    (hlanded : ∀ {c}, c ∈ s'.puts ∨ .data c false ∈ s'.network → c ∉ s'.landing →
      ∀ {y}, s'.receives ⟨c.destPE, c.destHandler⟩ = some y →
        (y.area c.bufIndex).take c.size = c.msg)
    (hlanding : ∀ {c}, c ∈ s'.landing → c ∈ s'.puts ∨ .data c false ∈ s'.network)
    (hlogs : ∀ {l x}, s'.sends l = some x → Logged s' x) : Buffers s' := by
  have hsendId : s'.sendId = s.sendId := sendId_congr hk.ends
  have hrecvId : s'.recvId = s.recvId := recvId_congr hk.owner
  constructor
  case paired => exact hpaired
  case live_stages =>
    intro r hr
    obtain ⟨m, hm, hr⟩ := mem_filterMap.mp hr
    rw [hsendId]
    exact h.live_stages (mem_filterMap.mpr ⟨m, hk.stages.mem_iff.mp hm, hr⟩)
  case live_writes =>
    intro c hc
    rw [hsendId, hrecvId]
    exact (hwrites hc).elim h.live_writes And.left
  case live_held =>
    rw [hsendId, hrecvId]
    exact hheld
  case live_credits =>
    rw [hsendId]
    exact hcredits
  case all_live =>
    rw [hk.channels, hsendId]
    exact h.all_live
  case no_destroy => exact fun hm => h.no_destroy (hk.stages.mem_iff.mp hm)
  case user_lt =>
    rw [hk.channels]
    exact huser
  case fresh =>
    rw [hk.channels]
    exact hfresh
  case header => exact hheader
  case tokens => exact htokens
  case stored => exact fun hc => (hwrites hc).elim h.stored And.right
  case landed => exact hlanded
  case landing => exact hlanding
  case logs => exact hlogs

section

variable (h : Buffers s)

include h

/-- Send slots at different places belong to different channels. -/
theorem channel_ne {l' : Loc}
    (hx : s.sends l = some x) (hx' : s.sends l' = some x') (hne : l' ≠ l) :
    x'.channel ≠ x.channel := by
  intro heq
  refine hne (h.paired.setup.send.inj (sendId_of_ends (ends_of_sends hx')) ?_)
  exact (sendId_of_ends (ends_of_sends hx)).trans (congrArg some heq.symm)

/-- A buffer is used at most once. -/
theorem tokens_le {k : Nat} (hk : k < s.channels) (i : BufIndex) : s.tokens k i ≤ 1 := by
  obtain ⟨l, hl⟩ := h.all_live hk
  obtain ⟨e, he, rfl⟩ := ends_of_sendId hl
  obtain ⟨x, hx, rfl⟩ := sends_of_ends he
  have hcount := h.tokens hx i
  show s.tokens x.channel i ≤ 1
  split at hcount <;> omega

/-- The message at the head of the queue moves from the queue to what was written. -/
theorem logged_write {x : PersistentSendsTable} (hx : s.sends l = some x) {rest : List Buf}
    (hpending : x.pending = msg :: rest) (htotal : ∀ b, s'.total x.channel b =
      s.total x.channel b + if msg = b then 1 else 0) (hsent : s'.sent = s.sent)
    (hwritten : s'.written x.channel = s.written x.channel ++ [msg])
    {x' : PersistentSendsTable} (hlocal : x'.isLocal = x.isLocal)
    (hchannel : x'.channel = x.channel) (hrest : x'.pending = rest) : Logged s' x' := by
  have hlog := h.logs hx
  -- A channel within the node has no queue.
  have hremote : x.isLocal = false := by
    cases hlocal : x.isLocal with
    | false => rfl
    | true =>
      rw [Logged, if_pos hlocal] at hlog
      cases hpending.symm.trans hlog.1
  rw [Logged, hremote] at hlog
  rw [Logged, hlocal, hremote, hchannel, hrest, hsent, hwritten]
  obtain ⟨hqueue, hle⟩ := hlog
  refine ⟨by rw [hqueue, hpending, append_assoc]; rfl, fun b => ?_⟩
  rw [htotal, count_append, count_singleton]
  have := hle b
  simp only [beq_iff_eq]
  omega

/-- The message at the head of the queue is written to a free buffer. -/
theorem write {x : PersistentSendsTable} (hx : s.sends l = some x)
    (hopen : x.destHandle ≠ nullptr) {rest : List Buf}
    (hpending : x.pending = msg :: rest) {i : BufIndex} (hbusy : x.busy i = false)
    (reaches : BufIndex → Bool) : Buffers (s.writeToBuffer reaches l (x.wrote i rest) i msg) := by
  have hk : s.Kept (s.writeToBuffer reaches l (x.wrote i rest) i msg) :=
    (State.Kept.refl s).write hx rfl
  have hpaired := h.paired.write hx hopen (x.wrote i rest) rfl reaches i msg
  obtain ⟨c, hchannel, hindex, hmsg, hsize, hsource, htarget, hstarts⟩ := write_starts s l
    (x.wrote i rest) reaches i msg
  obtain ⟨hsent, hhanded, hwritten⟩ := logs_write s l (x.wrote i rest) reaches i msg
  have hsends := sends_write (s := s) (l := l) reaches (x.wrote i rest) i msg
  have hreceives := receives_write (s := s) (l := l) reaches (x.wrote i rest) i msg
  have hheld := held_write (s := s) (l := l) reaches (x.wrote i rest) i msg
  generalize s.writeToBuffer reaches l (x.wrote i rest) i msg = s' at *
  have hends := ends_of_sends hx
  have htokens := hstarts.tokens_eq hheld
  have htotal := hstarts.total_eq hhanded
  rw [hchannel, hindex] at htokens
  rw [hchannel, hmsg] at htotal
  have hslots {l' : Loc} {x' : PersistentSendsTable} (hx' : s'.sends l' = some x') :
      (l' = l ∧ x' = { x.wrote i rest with busy := update x.busy i true }) ∨
      (l' ≠ l ∧ s.sends l' = some x' ∧ x'.channel ≠ x.channel) := by
    rw [hsends] at hx'
    obtain ⟨rfl, heq⟩ | ⟨hne, hx'⟩ := update_eq_some.mp hx'
    · exact .inl ⟨rfl, (Option.some.inj heq).symm⟩
    · exact .inr ⟨hne, hx', h.channel_ne hx hx' hne⟩
  refine h.kept hk hpaired (fun hc' => ?_) (hheld ▸ h.live_held)
    (fun hm => h.live_credits (hstarts.mem_network hm (by simp)))
    (fun hm => h.user_lt (hstarts.mem_network hm (by simp))) (fun hge => ?_)
    (by rw [hheld, hreceives]; exact h.header) ?_ (fun hc' hnot => ?_)
    (fun hc' => hstarts.put_of_landing hc' h.landing) ?_
  case refine_1 =>
    refine (mem_cons.mp (hstarts.contexts_perm.mem_iff.mp hc')).symm.imp_right ?_
    rintro rfl
    have hplace := (Prod.mk.inj hsource).1
    have hdest := (Prod.mk.inj htarget).1
    rw [hplace, hdest, hchannel, hsize, hmsg]
    exact ⟨⟨sendId_of_ends hends, h.paired.setup.opened hends hopen⟩, rfl⟩
  case refine_2 =>
    have hlt : x.channel < s.channels := h.paired.setup.send.lt (sendId_of_ends hends)
    have hne := (lt_of_lt_of_le hlt hge).ne'
    rw [hsent, hhanded, hwritten]
    exact ⟨(h.fresh hge).1, (update_of_ne hne ..).trans (h.fresh hge).2.1, (h.fresh hge).2.2⟩
  case refine_3 =>
    intro l' x' hx' j
    obtain ⟨-, rfl⟩ | ⟨-, hx', hne⟩ := hslots hx'
    · show s'.tokens x.channel j = if update x.busy i true j then 1 else 0
      rw [htokens, h.tokens hx]
      rcases eq_or_ne j i with rfl | hne
      · rw [hbusy]
        simp
      · have hother : ¬(x.channel = x.channel ∧ i = j) := fun hand => hne hand.2.symm
        rw [update_of_ne hne, if_neg hother, add_zero]
    · rw [htokens, if_neg fun hand => hne hand.1]
      exact h.tokens hx' j
  case refine_4 =>
    rw [hreceives]
    obtain ⟨hbefore, hnot⟩ := hstarts.put_of_landed hc' hnot
    exact h.landed hbefore hnot
  case refine_5 =>
    intro l' x' hx'
    obtain ⟨-, rfl⟩ | ⟨-, hx', hne⟩ := hslots hx'
    · refine h.logged_write hx hpending (fun b => ?_) hsent ?_ rfl rfl rfl
      · rw [htotal]
        simp only [true_and]
      · rw [hwritten]
        exact update_self ..
    · refine (h.logs hx').congr rfl rfl rfl rfl (fun b => ?_) (by rw [hsent]) ?_
      · rw [htotal, if_neg fun hand => hne hand.1]
        rfl
      · rw [hwritten]
        exact update_of_ne hne ..

/-- The queue of an open channel is emptied as far as possible. -/
theorem flush (x : PersistentSendsTable) (hx : s.sends l = some x)
    (hopen : x.destHandle ≠ nullptr) (reaches : BufIndex → Bool) {queue : List Buf}
    (hqueue : x.pending = queue) : Buffers (s.flushPending reaches l queue) := by
  refine (flush_rule (P := fun s => Buffers s ∧ ∃ x, s.sends l = some x ∧
    x.destHandle ≠ nullptr) ?_ queue ⟨h, x, hx, hopen⟩ fun x' hx' => ?_).1
  · intro s x' i msg rest hs hx' hpending hbusy
    obtain ⟨h, x, hx, hopen⟩ := hs
    obtain rfl := Option.mem_unique hx hx'
    refine ⟨h.write hx hopen hpending hbusy reaches, ?_⟩
    rw [sends_write, update_self]
    exact ⟨_, rfl, hopen⟩
  · rw [← Option.mem_unique hx hx']
    exact hqueue

/-! ## A buffer is in one place -/

/-- No two writes are on their way to one buffer. -/
theorem write_unique {c c' : PutContext} (hc : c ∈ s.contexts)
    (hc' : c' ∈ s.contexts)
    (hplace : (⟨c.destPE, c.destHandler⟩ : Loc) = ⟨c'.destPE, c'.destHandler⟩)
    (hindex : c.bufIndex = c'.bufIndex) : c = c' := by
  by_contra hne
  have hchannel : c'.channel = c.channel := by
    refine Option.some.inj ?_
    rw [← (h.live_writes hc).2, ← (h.live_writes hc').2, hplace]
  have htwo : 2 ≤ s.inFlight c.channel c.bufIndex :=
    two_le_countP hc hc' hne (decide_eq_true ⟨rfl, rfl⟩) (decide_eq_true ⟨hchannel, hindex.symm⟩)
  have hone := h.tokens_le (h.paired.setup.send.lt (h.live_writes hc).1) c.bufIndex
  rw [State.tokens] at hone
  omega

/-- No write is on its way to a buffer whose message is held. -/
theorem write_not_held (hc : c ∈ s.contexts) {m : Held}
    (hm : m ∈ s.held) : (⟨c.destPE, c.destHandler⟩ : Loc) ≠ m.slot ∨ c.bufIndex ≠ m.index := by
  by_contra hboth
  rw [not_or, not_not, not_not] at hboth
  obtain ⟨hplace, hindex⟩ := hboth
  have hchannel : m.channel = c.channel := by
    refine Option.some.inj ?_
    rw [← (h.live_writes hc).2, ← (h.live_held hm).2, hplace]
  have hflight : 0 < s.inFlight c.channel c.bufIndex :=
    countP_pos_iff.mpr ⟨c, hc, decide_eq_true ⟨rfl, rfl⟩⟩
  have hheld : 0 < s.delivered c.channel c.bufIndex :=
    countP_pos_iff.mpr ⟨m, hm, decide_eq_true ⟨hchannel, hindex.symm⟩⟩
  have hone := h.tokens_le (h.paired.setup.send.lt (h.live_writes hc).1) c.bufIndex
  rw [State.tokens] at hone
  omega

/-- No two messages are held in one buffer. -/
theorem held_unique {m n : Held} (hm : s.held[j]? = some m)
    (hn : n ∈ s.held.eraseIdx j) (hslot : n.slot = m.slot) : n.index ≠ m.index := by
  intro hindex
  have hlive := h.live_held (mem_of_getElem? hm)
  have hchannel : n.channel = m.channel := by
    refine Option.some.inj ?_
    rw [← hlive.2, ← (h.live_held (mem_of_mem_eraseIdx hn)).2, hslot]
  have hcount := countP_eq_add_eraseIdx hm (·.uses m.channel m.index)
  have hrest : 0 < (s.held.eraseIdx j).countP (·.uses m.channel m.index) :=
    countP_pos_iff.mpr ⟨n, hn, decide_eq_true ⟨hchannel, hindex⟩⟩
  rw [if_pos (show m.uses m.channel m.index = true from decide_eq_true ⟨rfl, rfl⟩)] at hcount
  have hone := h.tokens_le (h.paired.setup.send.lt hlive.1) m.index
  rw [State.tokens, State.delivered] at hone
  omega

end

theorem mem_contexts_of_put (hc : c ∈ s.puts ∨ .data c false ∈ s.network) : c ∈ s.contexts :=
  mem_contexts.mpr (hc.imp_right fun hdata => ⟨false, hdata⟩)

/-! ## Messages on open channels -/

theorem take_patch (area msg : Buf) : (patch area 0 msg).take msg.length = msg := by
  simp [patch]

section

variable (h : Buffers s)

include h

/-- A put that lands keeps the buffers in order. -/
theorem land (hland : s.land j = some s') : Buffers s' := by
  have hpaired := h.paired.land hland
  have hk := kept_land hland
  obtain ⟨ctx, hctx, hcases⟩ := land_eq_some hland
  have hmem := mem_contexts_of_put (h.landing (mem_of_getElem? hctx))
  obtain ⟨-, hnone⟩ | ⟨y, hy, hchannel, rfl⟩ := hcases
  · obtain ⟨y, hy, hlabel⟩ :=
      receives_of_owner (owner_of_recvId (h.live_writes hmem).2)
    exact absurd hlabel (hnone y hy)
  refine h.kept hk hpaired .inl h.live_held h.live_credits h.user_lt h.fresh ?_
    h.tokens ?_ (fun hc => h.landing (mem_of_mem_eraseIdx hc)) h.logs
  · intro m hm z hz
    obtain ⟨heq, hset⟩ | ⟨-, hz⟩ := update_eq_some.mp hz
    · cases hset
      have hfound : s.receives m.slot = some y := heq ▸ hy
      exact (h.header hm hfound :)
    · exact h.header hm hz
  · intro c hc hnot z hz
    have hsame : c ≠ ctx → c ∉ s.landing := by
      intro hne hin
      exact hnot ((mem_cons.mp ((perm_cons_eraseIdx hctx).mem_iff.mp hin)).resolve_left hne)
    obtain ⟨heq, hset⟩ | ⟨hne, hz⟩ := update_eq_some.mp hz
    · cases hset
      show (update y.area ctx.bufIndex _ c.bufIndex).take c.size = c.msg
      rcases eq_or_ne c ctx with rfl | hne
      · rw [update_self, h.stored hmem]
        exact take_patch ..
      · rw [update_of_ne]
        · exact h.landed hc (hsame hne) (heq ▸ hy)
        · exact fun hindex => hne (h.write_unique (mem_contexts_of_put hc) hmem heq hindex)
    · refine h.landed hc (hsame ?_) hz
      rintro rfl
      exact hne rfl

/-- A put that is completed keeps the buffers in order. -/
theorem putDone (hput : s.persistentPutDone j = some s') : Buffers s' := by
  have hpaired := h.paired.putDone hput
  have hk := kept_put_done hput
  obtain ⟨ctx, hctx, rfl⟩ := put_done_eq_some hput
  have hperm : (post { s with puts := s.puts.eraseIdx j } (.data ctx false)).contexts.Perm
      s.contexts := by
    rw [contexts_post]
    refine perm_append_comm.trans ?_
    exact ((perm_cons_eraseIdx hctx).append_right _).symm
  have hnetwork (p : Message → Bool) (hp : p (.data ctx false) = false) :
      (s.network ++ [Message.data ctx false]).countP p = s.network.countP p := by
    rw [countP_append, countP_singleton, hp]
    rfl
  have hback {c : PutContext} (hc : c ∈ s.puts.eraseIdx j ∨
      .data c false ∈ s.network ++ [Message.data ctx false]) :
      c ∈ s.puts ∨ .data c false ∈ s.network := by
    obtain hc | hc := hc
    · exact .inl (mem_of_mem_eraseIdx hc)
    · rcases mem_append.mp hc with hc | hc
      · exact .inr hc
      · rw [(Message.data.inj (mem_singleton.mp hc)).1]
        exact .inl (mem_of_getElem? hctx)
  refine h.kept hk hpaired (fun hc => .inl (hperm.subset hc)) h.live_held ?_ ?_ h.fresh h.header ?_
    (fun hc => h.landed (hback hc)) ?_ ?_
  · intro k q a i hm
    rcases mem_append.mp hm with hm | hm
    · exact h.live_credits hm
    · cases mem_singleton.mp hm
  · intro k q b hm
    rcases mem_append.mp hm with hm | hm
    · exact h.user_lt hm
    · cases mem_singleton.mp hm
  · intro l x hx i
    rw [← h.tokens hx i, State.tokens, State.tokens, State.inFlight, hperm.countP_eq]
    exact congrArg (_ + ·) (hnetwork (·.credits x.channel i) rfl)
  · intro c hc
    obtain hc | hc := h.landing hc
    · obtain rfl | hc := mem_cons.mp ((perm_cons_eraseIdx hctx).mem_iff.mp hc)
      · exact .inr (mem_append_right _ mem_cons_self)
      · exact .inl hc
    · exact .inr (mem_append_left _ hc)
  · intro l x hx
    refine (h.logs hx).congr rfl rfl rfl rfl (fun b => ?_) rfl rfl
    rw [total, hperm.countP_eq]
    exact congrArg (_ + ·) (hnetwork (·.carries x.channel b) rfl)

/-- Nothing else is on its way to the buffer of a notification. -/
theorem buffer_alone {ctx c : PutContext} {inlinePayload : Bool}
    (hm : s.network[i]? = some (.data ctx inlinePayload)) (hc : c ∈ (s.take i).contexts)
    (hdest : (⟨c.destPE, c.destHandler⟩ : Loc) = ⟨ctx.destPE, ctx.destHandler⟩) :
    c.bufIndex ≠ ctx.bufIndex := by
  intro hindex
  obtain ⟨hsendId, hrecvId⟩ :=
    h.live_writes (mem_contexts.mpr (.inr ⟨inlinePayload, mem_of_getElem? hm⟩))
  have hchannel : c.channel = ctx.channel := by
    refine Option.some.inj ?_
    rw [← hrecvId, ← (h.live_writes (contexts_take s i hc)).2, hdest]
  have hone := h.tokens_le (h.paired.setup.send.lt hsendId) ctx.bufIndex
  have htwo : 2 ≤ s.inFlight ctx.channel ctx.bufIndex := by
    rw [inFlight, (contexts_take_perm hm).countP_eq]
    show 2 ≤ (ctx :: _).countP _
    have hpos : 0 < (s.take i).contexts.countP
        (uses ctx.channel ctx.bufIndex) :=
      countP_pos_iff.mpr ⟨c, hc, by simp [uses, hchannel, hindex]⟩
    have huses : ctx.uses ctx.channel ctx.bufIndex = true := by simp [uses]
    rw [countP_cons_of_pos huses]
    exact Nat.succ_le_succ hpos
  rw [State.tokens] at hone
  omega

/-- A notification that is handled keeps the buffers in order. -/
theorem data {ctx : PutContext} {inlinePayload : Bool}
    (hm : s.network[i]? = some (.data ctx inlinePayload))
    (hdata : (s.take i).persistentDataHandler ctx inlinePayload = some s') : Buffers s' := by
  have hpaired := h.paired.data hm hdata
  have hk := (State.Kept.take hm rfl).trans (kept_data hdata)
  have hctx : ctx ∈ s.contexts :=
    mem_contexts.mpr (.inr ⟨inlinePayload, mem_of_getElem? hm⟩)
  obtain ⟨hsendId, hrecvId⟩ := h.live_writes hctx
  obtain ⟨hnone, -⟩ | ⟨y, area, hy, hplace, harea, hs'⟩ := data_eq_some hdata
  · have howner := owner_of_recvId hrecvId
    exact absurd hnone (lookup_recv_of_owner howner (h.paired.setup.recv_null howner))
  have hplace : ctx ∉ s.landing := hplace
  -- The handler is given the bytes that were sent.
  have hbytes : area.take ctx.size = ctx.msg := by
    have hsize := h.stored hctx
    cases inlinePayload with
    | true =>
      rw [harea, hsize, take_length]
      exact take_patch ..
    | false =>
      rw [harea]
      exact h.landed (.inr (mem_of_getElem? hm)) hplace hy
  have hlt : ctx.channel < s.channels := h.paired.setup.send.lt hsendId
  have htokens (k : Nat) (j : BufIndex) : s'.tokens k j = s.tokens k j := by
    have htake := tokens_take hm k j
    rw [tokens_hold (s := s.take i) (by rw [hs']; rfl) (by rw [hs']; rfl) (by rw [hs']), htake]
    show _ = _ + ([ctx].countP _ + 0)
    rw [countP_singleton]
    rfl
  have htotal (k : Nat) (b : Buf) : s'.total k b = s.total k b := by
    have htake := total_take hm k b
    rw [total_hand (s := s.take i) (by rw [hs']; rfl)
      (by rw [hs']; rfl) (by rw [hs', hbytes]), htake]
    show _ = _ + ([ctx].countP _ + 0)
    rw [countP_singleton]
    simp only [carries, decide_eq_true_eq]
    rfl
  subst hs'
  refine h.kept hk hpaired (fun hc => .inl (contexts_take s i hc)) ?_
    (fun hin => h.live_credits (mem_of_mem_eraseIdx hin))
    (fun hin => h.user_lt (mem_of_mem_eraseIdx hin)) ?_ ?_ ?_ ?_ ?_ ?_
  case refine_1 =>
    intro m hin
    rcases mem_append.mp hin with hin | hin
    · exact h.live_held hin
    · rw [mem_singleton.mp hin]
      exact ⟨hsendId, hrecvId⟩
  case refine_2 =>
    intro k hge
    refine ⟨(h.fresh hge).1, (h.fresh hge).2.1, ?_⟩
    exact (update_of_ne (lt_of_lt_of_le hlt hge).ne' ..).trans (h.fresh hge).2.2
  case refine_3 =>
    intro m hin z hz
    obtain ⟨heq, hset⟩ | ⟨hne, hz⟩ := update_eq_some.mp hz
    · cases hset
      show update y.source ctx.bufIndex _ m.index = _ ∧ update y.ref ctx.bufIndex _ m.index = _
      rcases mem_append.mp hin with hin | hin
      · have hne := ((h.write_not_held hctx hin).resolve_left fun hdest => hdest heq.symm).symm
        have hfound : s.receives m.slot = some y := heq ▸ hy
        rw [update_of_ne hne, update_of_ne hne]
        exact h.header hin hfound
      · rw [mem_singleton.mp hin, update_self, update_self]
        exact ⟨rfl, rfl⟩
    · rcases mem_append.mp hin with hin | hin
      · exact h.header hin hz
      · exact absurd (congrArg Held.slot (mem_singleton.mp hin)) hne
  case refine_4 =>
    intro l x hx j
    rw [← h.tokens hx j]
    exact htokens ..
  case refine_5 =>
    intro c hc hnot z hz
    have hc' : c ∈ s.puts ∨ .data c false ∈ s.network :=
      hc.imp_right mem_of_mem_eraseIdx
    obtain ⟨heq, hset⟩ | ⟨hne, hz⟩ := update_eq_some.mp hz
    · cases hset
      show (update y.area ctx.bufIndex area c.bufIndex).take c.size = c.msg
      rw [update_of_ne (h.buffer_alone hm (mem_contexts_of_put hc) heq)]
      exact h.landed hc' hnot (heq ▸ hy)
    · exact h.landed hc' hnot hz
  case refine_6 =>
    intro c hc
    refine (h.landing hc).imp_right fun hin => ?_
    obtain heq | hin := mem_cons.mp ((perm_cons_eraseIdx hm).mem_iff.mp hin)
    · exact absurd ((Message.data.inj heq).1 ▸ hc) hplace
    · exact hin
  case refine_7 =>
    exact fun hx => (h.logs hx).congr rfl rfl rfl rfl (htotal _) rfl rfl

/-- A message is released: its buffer goes from the held messages to the credits. -/
theorem free (hfree : s.cmiFree j = some s') : Buffers s' := by
  have hpaired := h.paired.free hfree
  have hk := kept_free hfree
  obtain ⟨m, y, y', s₁, hm, hy, hchannel, hy', harea, hother, -, -, hs₁, hcases⟩ :=
    free_eq_some hfree
  have hmem := mem_of_getElem? hm
  obtain ⟨hsource, href⟩ := h.header hmem hy
  obtain ⟨-, hnone⟩ | ⟨src, hsrc, hs'⟩ := hcases
  · cases hsource.symm.trans (hnone href)
  obtain rfl := Option.mem_unique hsource hsrc
  have htokens (k : Nat) (i : BufIndex) : s'.tokens k i = s.tokens k i := by
    have hheld := countP_eq_add_eraseIdx hm (·.uses k i)
    rw [hs', tokens_post, hs₁]
    show s.inFlight k i + (s.held.eraseIdx j).countP (·.uses k i) + s.credited k i +
      (0 + if m.uses k i then 1 else 0) = s.inFlight k i + s.held.countP _ + s.credited k i
    omega
  have htotal (k : Nat) (b : Buf) : s'.total k b = s.total k b := by
    rw [hs', total_post, hs₁]
    rfl
  subst hs' hs₁
  have hnet {n : Message} (hn : n ∈ s.network ++ [Message.credit m.channel m.srcPE m.srcHandle
      m.index]) : n ∈ s.network ∨ n = .credit m.channel m.srcPE m.srcHandle m.index :=
    (mem_append.mp hn).imp_right mem_singleton.mp
  refine h.kept hk hpaired (fun hc => .inl (contexts_post_subset rfl hc))
    (fun hin => h.live_held (mem_of_mem_eraseIdx hin)) ?_ ?_ h.fresh ?_ ?_ ?_ ?_ ?_
  · intro k q a i hin
    obtain hin | heq := hnet hin
    · exact h.live_credits hin
    · obtain ⟨rfl, rfl, rfl, rfl⟩ := Message.credit.inj heq
      exact (h.live_held hmem).1
  · intro k q b hin
    obtain hin | heq := hnet hin
    · exact h.user_lt hin
    · cases heq
  · intro n hn z hz
    have hin := mem_of_mem_eraseIdx hn
    obtain ⟨heq, hset⟩ | ⟨-, hz⟩ := update_eq_some.mp hz
    · cases hset
      have hfound : s.receives n.slot = some y := heq ▸ hy
      have hindex : n.index ≠ m.index := h.held_unique hm hn heq
      rw [(hother _ hindex).1, (hother _ hindex).2]
      exact h.header hin hfound
    · exact h.header hin hz
  · intro l x hx i
    rw [← h.tokens hx i]
    exact htokens ..
  · intro c hc hnot z hz
    have hc : c ∈ s.puts ∨ .data c false ∈ s.network :=
      hc.imp_right fun hin => (hnet hin).resolve_right nofun
    obtain ⟨heq, hset⟩ | ⟨-, hz⟩ := update_eq_some.mp hz
    · cases hset
      rw [harea]
      exact h.landed hc hnot (heq ▸ hy)
    · exact h.landed hc hnot hz
  · exact fun hc => (h.landing hc).imp_right (mem_append_left _)
  · exact fun hx => (h.logs hx).congr rfl rfl rfl rfl (htotal _) rfl rfl

/-- The program changes a message that it holds. -/
theorem modify (hmodify : s.modify j bytes = some s') : Buffers s' := by
  have hpaired := h.paired.modify hmodify
  have hk := kept_modify hmodify
  obtain ⟨m, y, hm, hy, -, rfl⟩ := modify_eq_some hmodify
  refine h.kept hk hpaired .inl h.live_held h.live_credits h.user_lt h.fresh ?_
    h.tokens ?_ h.landing h.logs
  · intro n hn z hz
    obtain ⟨heq, hset⟩ | ⟨-, hz⟩ := update_eq_some.mp hz
    · cases hset
      have hfound : s.receives n.slot = some y := heq ▸ hy
      exact (h.header hn hfound :)
    · exact h.header hn hz
  · intro c hc hnot z hz
    obtain ⟨heq, hset⟩ | ⟨-, hz⟩ := update_eq_some.mp hz
    · cases hset
      have hindex := (h.write_not_held (mem_contexts_of_put hc)
        (mem_of_getElem? hm)).resolve_left fun hne => hne heq
      show (update y.area m.index bytes c.bufIndex).take c.size = c.msg
      rw [update_of_ne hindex]
      exact h.landed hc hnot (heq ▸ hy)
    · exact h.landed hc hnot hz

end

/-- A message is taken that is no write. -/
theorem put_of_take (hm : s.network[i]? = some m) (hctx : m.ctx = none)
    (hc : c ∈ s.puts ∨ .data c false ∈ s.network) :
    c ∈ s.puts ∨ .data c false ∈ s.network.eraseIdx i := by
  refine hc.imp_right fun hin => ?_
  obtain rfl | hin := mem_cons.mp ((perm_cons_eraseIdx hm).mem_iff.mp hin)
  · cases hctx
  · exact hin

/-- A message within the node is handed over. -/
theorem user (h : Buffers s) {i k q : Nat}
    (hm : s.network[i]? = some (.user k q msg)) (hpaired : Paired s') (hs' : s' = { s with
      network := s.network.eraseIdx i, handed := update s.handed k (s.handed k ++ [msg]) }) :
    Buffers s' := by
  have hk : s.Kept s' := by
    rw [hs']
    exact (State.Kept.take hm rfl).trans ⟨rfl, rfl, .refl _, rfl, rfl, rfl, rfl, rfl⟩
  have htokens (n : Nat) (j : BufIndex) : s'.tokens n j = s.tokens n j := by
    rw [tokens_take hm, hs']
    rfl
  have htotal (n : Nat) (b : Buf) : s'.total n b = s.total n b := by
    have htake := total_take hm n b
    rw [total_hand (s := s.take i) (by rw [hs']; rfl) (by rw [hs']) (by rw [hs']), htake]
    simp only [Message.carries, decide_eq_true_eq]
    show _ = _ + (0 + _)
    rw [zero_add]
  subst hs'
  refine h.kept hk hpaired (fun hc => .inl (contexts_take s i hc)) h.live_held
    (fun hin => h.live_credits (mem_of_mem_eraseIdx hin))
    (fun hin => h.user_lt (mem_of_mem_eraseIdx hin)) ?_ h.header ?_ ?_ ?_ ?_
  · intro n hge
    have hlt := h.user_lt (mem_of_getElem? hm)
    refine ⟨(h.fresh hge).1, (h.fresh hge).2.1, ?_⟩
    exact (update_of_ne (lt_of_lt_of_le hlt hge).ne' ..).trans (h.fresh hge).2.2
  · intro l x hx j
    rw [← h.tokens hx j]
    exact htokens ..
  · exact fun hc => h.landed (hc.imp_right mem_of_mem_eraseIdx)
  · exact fun hc => put_of_take hm rfl (h.landing hc)
  · exact fun hx => (h.logs hx).congr rfl rfl rfl rfl (htotal _) rfl rfl

/-- A credit arrives: the buffer is free at its sender, and messages that wait may go. -/
theorem credit (h : Buffers s) {i k q : Nat} {b : BufIndex}
    (hm : s.network[i]? = some (.credit k q a b)) (reaches : BufIndex → Bool) :
    Buffers ((s.take i).persistentCreditHandler q a b reaches) := by
  have hmem := mem_of_getElem? hm
  have hlive := h.live_credits hmem
  obtain ⟨e, he, hek⟩ := ends_of_sendId hlive
  have hnull := h.paired.setup.send_null he
  have htraffic : (⟨q, a⟩, k) ∈ s.traffic := mem_traffic.mpr (.inr (.inr ⟨b, hmem⟩))
  have hopen := h.paired.traffic_open htraffic he
  obtain ⟨hnone, -⟩ | ⟨x, s₁, -, hx, hs₁, heq⟩ := credit_cases (s.take i) q a b reaches
  · exact absurd hnone (lookup_send_of_ends he hnull)
  obtain rfl := Option.mem_unique he (ends_of_sends hx)
  have hxk : x.channel = k := hek
  have hfree : s₁.sends ⟨q, a⟩ = some { x with busy := update x.busy b false } := by
    rw [hs₁]
    exact update_self ..
  have hk : s.Kept s₁ := by
    rw [hs₁]
    exact (State.Kept.take hm rfl).setSend hx rfl
  have hpaired : Paired s₁ := by
    rw [hs₁]
    refine (h.paired.drop i).moved ?_ (Subset.refl _) (Subset.refl _) h.paired.headers
    exact (State.Kept.refl _).setSend hx rfl
  have htokens (n : Nat) (j : BufIndex) :
      s.tokens n j = s₁.tokens n j + if k = n ∧ b = j then 1 else 0 := by
    rw [tokens_take hm, hs₁]
    simp only [Message.credits, decide_eq_true_eq]
    show _ + (0 + _) = _
    rw [zero_add]
    rfl
  have htotal (n : Nat) (c : Buf) : s₁.total n c = s.total n c := by
    rw [total_take hm, hs₁]
    rfl
  have hslots {l : Loc} {x' : PersistentSendsTable} (hx' : s₁.sends l = some x') :
      x' = { x with busy := update x.busy b false } ∨
      (s.sends l = some x' ∧ x'.channel ≠ x.channel) := by
    rw [hs₁] at hx'
    obtain ⟨rfl, hset⟩ | ⟨hne, hx'⟩ := update_eq_some.mp hx'
    · exact .inl (Option.some.inj hset).symm
    · exact .inr ⟨hx', h.channel_ne hx hx' hne⟩
  rw [heq]
  refine flush ?_ { x with busy := update x.busy b false } hfree hopen reaches rfl
  have hbufs : s₁.contexts = (s.take i).contexts := by
    rw [hs₁]
    rfl
  refine h.kept hk hpaired (fun hc => .inl (contexts_take s i (hbufs ▸ hc)))
    ?_ ?_ ?_ ?_ ?_ ?_ ?_ ?_ ?_
  case refine_6 =>
    intro l x' hx' j
    obtain rfl | ⟨hx', hne⟩ := hslots hx'
    · show s₁.tokens x.channel j = if update x.busy b false j then 1 else 0
      have hcount := htokens x.channel j
      rcases eq_or_ne j b with rfl | hne
      · have hone := h.tokens_le (hxk ▸ h.paired.setup.send.lt hlive) j
        rw [if_pos ⟨hxk.symm, rfl⟩] at hcount
        rw [update_self, if_neg Bool.false_ne_true]
        omega
      · rw [if_neg fun hand => hne hand.2.symm] at hcount
        rw [update_of_ne hne, ← h.tokens hx j]
        exact hcount.symm
    · have hcount := htokens x'.channel j
      rw [if_neg fun hand => hne (hand.1.symm.trans hxk.symm)] at hcount
      rw [← h.tokens hx' j]
      exact hcount.symm
  case refine_9 =>
    intro l x' hx'
    obtain rfl | ⟨hx', -⟩ := hslots hx'
    · exact (h.logs hx).congr rfl rfl rfl rfl (htotal _) (by rw [hs₁]; rfl) (by rw [hs₁]; rfl)
    · exact (h.logs hx').congr rfl rfl rfl rfl (htotal _) (by rw [hs₁]; rfl) (by rw [hs₁]; rfl)
  all_goals subst hs₁
  · exact h.live_held
  · exact fun hin => h.live_credits (mem_of_mem_eraseIdx hin)
  · exact fun hin => h.user_lt (mem_of_mem_eraseIdx hin)
  · exact h.fresh
  · exact h.header
  · exact fun hc => h.landed (hc.imp_right mem_of_mem_eraseIdx)
  · exact fun hc => put_of_take hm rfl (h.landing hc)

/-- The log of what was sent on other channels is as before. -/
theorem sent_other (h : Buffers s) {l' : Loc} (hx : s.sends l = some x) (hx' : s.sends l' = some x')
    (hne : l' ≠ l) (msg : Buf) :
    update s.sent x.channel (s.sent x.channel ++ [msg]) x'.channel = s.sent x'.channel :=
  update_of_ne (h.channel_ne hx hx' hne) ..

/-- Nothing was sent on channels to come. -/
theorem sent_fresh (h : Buffers s) (hx : s.sends l = some x) {k : Nat} (hge : s.channels ≤ k)
    (msg : Buf) : update s.sent x.channel (s.sent x.channel ++ [msg]) k = [] := by
  have hlt : x.channel < s.channels := h.paired.setup.send.lt (sendId_of_ends (ends_of_sends hx))
  exact (update_of_ne (lt_of_lt_of_le hlt hge).ne' ..).trans (h.fresh hge).1

/-- On a channel within the node the message is posted. -/
theorem post_local (h : Buffers s) {buf : Buf} (hx : s.sends l = some x) (hlocal : x.isLocal = true)
    (hbuf : Wire.setDestPE msg x.destPE = some buf)
    (hs' : s' = { s with sent := update s.sent x.channel (s.sent x.channel ++ [msg]) }.post
      (.user x.channel x.destPE buf))
    (hk : s.Kept s') (hpaired : Paired s') : Buffers s' := by
  have htokens (k : Nat) (j : BufIndex) : s'.tokens k j = s.tokens k j := by
    rw [hs', tokens_post]
    rfl
  have htotal (k : Nat) (b : Buf) :
      s'.total k b = s.total k b + if x.channel = k ∧ buf = b then 1 else 0 := by
    rw [hs', total_post]
    simp only [Message.carries, decide_eq_true_eq]
    show _ + (0 + _) = _
    rw [zero_add]
    rfl
  have hlogs {l' : Loc} {x' : PersistentSendsTable} (hx' : s.sends l' = some x') :
      Logged s' x' := by
    rcases eq_or_ne l' l with rfl | hne
    · obtain rfl := Option.mem_unique hx hx'
      have hlog := h.logs hx
      have hsent : s'.sent x.channel = s.sent x.channel ++ [msg] := by
        rw [hs']
        exact update_self ..
      have harrives : x.arrives msg = some buf := by
        rw [arrives, if_pos hlocal, hbuf]
      rw [Logged, if_pos hlocal] at hlog ⊢
      refine ⟨hlog.1, fun b => ?_⟩
      rw [htotal, hsent, filterMap_append, count_append,
        filterMap_cons_some harrives, filterMap_nil, count_singleton]
      have := hlog.2 b
      simp only [true_and, beq_iff_eq]
      omega
    · have hchannel := h.channel_ne hx hx' hne
      refine (h.logs hx').congr rfl rfl rfl rfl (fun b => ?_) ?_ (by rw [hs']; rfl)
      · rw [htotal, if_neg fun hand => hchannel hand.1.symm]
        rfl
      · rw [hs']
        exact h.sent_other hx hx' hne msg
  subst hs'
  refine h.kept hk hpaired (fun hc => .inl (contexts_post_subset rfl hc)) h.live_held ?_ ?_
    (fun hge => ⟨h.sent_fresh hx hge msg, (h.fresh hge).2⟩) h.header ?_ ?_ ?_ hlogs
  · intro k q b i hin
    rcases mem_append.mp hin with hin | hin
    · exact h.live_credits hin
    · cases mem_singleton.mp hin
  · intro k q b hin
    rcases mem_append.mp hin with hin | hin
    · exact h.user_lt hin
    · rw [(Message.user.inj (mem_singleton.mp hin)).1]
      exact h.paired.setup.send.lt (sendId_of_ends (ends_of_sends hx))
  · intro l' x' hx' i
    rw [← h.tokens hx' i]
    exact htokens ..
  · refine fun hc => h.landed (hc.imp_right fun hin => ?_)
    rcases mem_append.mp hin with hin | hin
    · exact hin
    · cases mem_singleton.mp hin
  · exact fun hc => (h.landing hc).imp_right (mem_append_left _)

/-- On any other channel the message joins the queue. -/
theorem enqueue (h : Buffers s) (hx : s.sends l = some x) (hlocal : x.isLocal = false)
    (hs' : s' = { s with sent := update s.sent x.channel (s.sent x.channel ++ [msg]) }.setSend l
      (some { x with pending := x.pending ++ [msg] })) : Buffers s' := by
  have hkept : s.Kept s' := by
    rw [hs']
    exact ⟨ends_setSend_same hx rfl, rfl, .refl _, rfl, rfl, rfl, rfl, rfl⟩
  have hmoved : Paired s' := by
    rw [hs'] at hkept ⊢
    exact h.paired.moved hkept (Subset.refl _) (Subset.refl _) h.paired.headers
  have hslots {l' : Loc} {x' : PersistentSendsTable} (hx' : s'.sends l' = some x') :
      x' = { x with pending := x.pending ++ [msg] } ∨ (l' ≠ l ∧ s.sends l' = some x') := by
    rw [hs'] at hx'
    obtain ⟨-, hset⟩ | hother := update_eq_some.mp hx'
    · exact .inl (Option.some.inj hset).symm
    · exact .inr hother
  have hlogs {l' : Loc} {x' : PersistentSendsTable} (hx' : s'.sends l' = some x') :
      Logged s' x' := by
    obtain rfl | ⟨hne, hx'⟩ := hslots hx'
    · have hlog := h.logs hx
      rw [Logged, hlocal] at hlog ⊢
      obtain ⟨hsent, hle⟩ := hlog
      rw [hs']
      show update s.sent x.channel _ x.channel = s.written x.channel ++ (x.pending ++ [msg]) ∧ _
      rw [update_self, hsent, append_assoc]
      exact ⟨rfl, hle⟩
    · refine (h.logs hx').congr rfl rfl rfl rfl (fun b => by rw [hs']; rfl) ?_ (by rw [hs']; rfl)
      rw [hs']
      exact h.sent_other hx hx' hne msg
  refine h.kept hkept hmoved ?_ ?_ ?_ ?_ ?_ ?_ ?_ ?_ ?_ hlogs
  case refine_7 =>
    intro l' x' hx' i
    have htokens : s'.tokens x'.channel i = s.tokens x'.channel i := by
      rw [hs']
      rfl
    rw [htokens]
    obtain rfl | ⟨-, hx'⟩ := hslots hx'
    · exact h.tokens hx i
    · exact h.tokens hx' i
  all_goals subst hs'
  · exact .inl
  · exact h.live_held
  · exact h.live_credits
  · exact h.user_lt
  · exact fun hge => ⟨h.sent_fresh hx hge msg, (h.fresh hge).2⟩
  · exact h.header
  · exact h.landed
  · exact h.landing

/-- A message is sent: it is posted, or it joins the queue and the queue is emptied as far as
possible. -/
theorem send (h : Buffers s) {pe : Nat}
    {reaches : BufIndex → Bool} (hsend : s.cmiSendPersistentMsg J pe a msg reaches = some s') :
    Buffers s' := by
  obtain ⟨x, -, hx, hcases⟩ := send_eq_some hsend
  obtain ⟨hlocal, buf, hbuf, hs'⟩ | ⟨hlocal, s₁, hs₁, hs'⟩ := hcases
  · exact h.post_local hx hlocal hbuf hs' (kept_send hsend) (h.paired.send hsend)
  · have hqueue : s₁.sends ⟨pe, a⟩ = some { x with pending := x.pending ++ [msg] } := by
      rw [hs₁]
      exact update_self ..
    have hbuffers := h.enqueue hx hlocal hs₁
    rw [hs']
    split
    · exact hbuffers.flush { x with pending := x.pending ++ [msg] } hqueue
        (h.paired.ready (ends_of_sends hx) ‹_› hlocal) reaches rfl
    · exact hbuffers

end Buffers

end Reconverse.Persistent
