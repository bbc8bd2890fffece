import Reconverse.Persistent.Delivery

/-!
# The order of the messages of a channel

The messages that were passed to `writeToBuffer` for a channel to another node, followed by those
that are pending, are the messages that were sent on it, in this order. Nothing is pending on a
channel that is set up and has a free buffer. This holds after every event, also if channels are
destroyed and their addresses are used again: a grant or credit that finds the slot of another
channel does not reorder the messages of that channel either.
-/

namespace Reconverse.Persistent

open Lib Lib.Bytes List State
open Function (update update_of_ne update_self)

variable {x : PersistentSendsTable} {queue : List Buf} {msg : Buf} (reaches : BufIndex → Bool)

namespace PersistentSendsTable

/-- A buffer is found unless all are busy. -/
theorem find_free_buffer_eq_none : x.findFreeBuffer = none ↔ ∀ i, x.busy i = true := by
  have hturn : ∀ first i : BufIndex, first + (i - first) = i := by decide
  rw [findFreeBuffer, Option.map_eq_none_iff, find?_eq_none]
  constructor
  · intro h i
    have hmem : i ∈ (List.finRange persistBuffersNum).map (x.nextBuf + ·) :=
      mem_map.mpr ⟨i - x.nextBuf, mem_finRange _, hturn x.nextBuf i⟩
    simpa using h i hmem
  · intro h i _
    rw [h i]
    exact Bool.false_ne_true

/-- Nothing is pending that could be written. -/
def Settled (x : PersistentSendsTable) : Prop :=
  x.pending = [] ∨ x.setupDone = false ∨ x.findFreeBuffer = none

end PersistentSendsTable

/-- The messages of every channel to another node are in order. A channel has one send slot. -/
structure Ordered (J : Job) (s : State) : Prop where
  lt : ∀ {l x}, s.sends l = some x → x.channel < s.channels
  unique : ∀ {l l' x x'}, s.sends l = some x → s.sends l' = some x' → x.channel = x'.channel →
    l = l'
  here : ∀ {l x}, s.sends l = some x → x.isLocal = decide (J.cmiNodeOf x.destPE = J.cmiNodeOf l.pe)
  fresh : ∀ {k}, s.channels ≤ k → s.sent k = [] ∧ s.written k = []
  order : ∀ {l x}, s.sends l = some x → x.isLocal = false →
    s.written x.channel ++ x.pending = s.sent x.channel

namespace Ordered

variable {J : Job} {s s' : State} {l : Loc}

section

variable (h : Ordered J s)

include h

/-- An event that leaves the send slots alone. -/
theorem congr (hsends : s'.sends = s.sends) (hchannels : s'.channels = s.channels)
    (hsent : s'.sent = s.sent) (hwritten : s'.written = s.written) : Ordered J s' := by
  constructor
  case lt =>
    rw [hsends, hchannels]
    exact h.lt
  case unique =>
    rw [hsends]
    exact h.unique
  case here =>
    rw [hsends]
    exact h.here
  case fresh =>
    rw [hchannels, hsent, hwritten]
    exact h.fresh
  case order =>
    rw [hsends, hsent, hwritten]
    exact h.order

/-- The slot at `l` is filled in. It stays the slot of its channel. -/
theorem touch {x x' : PersistentSendsTable} (hx : s.sends l = some x)
    (hsends : s'.sends = update s.sends l (some x')) (hchannel : x'.channel = x.channel)
    (hlocal : x'.isLocal = x.isLocal) (hdest : x'.destPE = x.destPE)
    (hchannels : s'.channels = s.channels)
    (hlogs : ∀ k ≠ x.channel, s'.sent k = s.sent k ∧ s'.written k = s.written k)
    (horder : x.isLocal = false → s'.written x.channel ++ x'.pending = s'.sent x.channel) :
    Ordered J s' := by
  -- What a slot of `s'` was before: the changed one, or the same.
  have hcases {l' : Loc} {y : PersistentSendsTable} (hy : s'.sends l' = some y) :
      (l' = l ∧ y = x') ∨ (l' ≠ l ∧ s.sends l' = some y) := by
    rw [hsends] at hy
    obtain ⟨rfl, hset⟩ | hy := update_eq_some.mp hy
    · exact .inl ⟨rfl, (Option.some.inj hset).symm⟩
    · exact .inr hy
  have hother {l' : Loc} {y : PersistentSendsTable} (hl : l' ≠ l) (hy : s.sends l' = some y) :
      y.channel ≠ x.channel := fun heq => hl (h.unique hy hx heq)
  constructor
  case lt =>
    intro l' y hy
    rw [hchannels]
    obtain ⟨-, rfl⟩ | ⟨-, hy⟩ := hcases hy
    · rw [hchannel]
      exact h.lt hx
    · exact h.lt hy
  case unique =>
    intro l₁ l₂ y₁ y₂ hy₁ hy₂ heq
    obtain ⟨rfl, rfl⟩ | ⟨hl₁, hy₁⟩ := hcases hy₁
    · obtain ⟨rfl, -⟩ | ⟨hl₂, hy₂⟩ := hcases hy₂
      · rfl
      · exact absurd (heq.symm.trans hchannel) (hother hl₂ hy₂)
    · obtain ⟨rfl, rfl⟩ | ⟨-, hy₂⟩ := hcases hy₂
      · exact absurd (heq.trans hchannel) (hother hl₁ hy₁)
      · exact h.unique hy₁ hy₂ heq
  case here =>
    intro l' y hy
    obtain ⟨rfl, rfl⟩ | ⟨-, hy⟩ := hcases hy
    · rw [hlocal, hdest]
      exact h.here hx
    · exact h.here hy
  case fresh =>
    intro k hk
    rw [hchannels] at hk
    obtain ⟨hsent, hwritten⟩ := hlogs k (Nat.ne_of_gt (Nat.lt_of_lt_of_le (h.lt hx) hk))
    rw [hsent, hwritten]
    exact h.fresh hk
  case order =>
    intro l' y hy hyl
    obtain ⟨-, rfl⟩ | ⟨hl, hy⟩ := hcases hy
    · rw [hchannel]
      exact horder (hlocal.symm.trans hyl)
    · obtain ⟨hsent, hwritten⟩ := hlogs _ (hother hl hy)
      rw [hsent, hwritten]
      exact h.order hy hyl

/-- A new channel, of which nothing was sent. -/
theorem add (hsends : s'.sends = update s.sends l (some x)) (hchannel : x.channel = s.channels)
    (hhere : x.isLocal = decide (J.cmiNodeOf x.destPE = J.cmiNodeOf l.pe))
    (hpending : x.pending = [])
    (hchannels : s'.channels = s.channels + 1) (hsent : s'.sent = s.sent)
    (hwritten : s'.written = s.written) : Ordered J s' := by
  have hcases {l' : Loc} {y : PersistentSendsTable} (hy : s'.sends l' = some y) :
      (l' = l ∧ y = x) ∨ s.sends l' = some y := by
    rw [hsends] at hy
    obtain ⟨rfl, hset⟩ | ⟨-, hy⟩ := update_eq_some.mp hy
    · exact .inl ⟨rfl, (Option.some.inj hset).symm⟩
    · exact .inr hy
  constructor
  case lt =>
    intro l' y hy
    rw [hchannels]
    obtain ⟨-, rfl⟩ | hy := hcases hy
    · rw [hchannel]
      exact Nat.lt_succ_self _
    · exact Nat.lt_succ_of_lt (h.lt hy)
  case unique =>
    intro l₁ l₂ y₁ y₂ hy₁ hy₂ heq
    obtain ⟨rfl, rfl⟩ | hy₁ := hcases hy₁
    · obtain ⟨rfl, -⟩ | hy₂ := hcases hy₂
      · rfl
      · exact absurd (heq.symm.trans hchannel) (h.lt hy₂).ne
    · obtain ⟨rfl, rfl⟩ | hy₂ := hcases hy₂
      · exact absurd (heq.trans hchannel) (h.lt hy₁).ne
      · exact h.unique hy₁ hy₂ heq
  case here =>
    intro l' y hy
    obtain ⟨rfl, rfl⟩ | hy := hcases hy
    · exact hhere
    · exact h.here hy
  case fresh =>
    intro k hk
    rw [hchannels] at hk
    rw [hsent, hwritten]
    exact h.fresh (Nat.le_of_succ_le hk)
  case order =>
    intro l' y hy hyl
    rw [hsent, hwritten]
    obtain ⟨-, rfl⟩ | hy := hcases hy
    · obtain ⟨hnone, hnothing⟩ := h.fresh hchannel.ge
      rw [hnone, hnothing, hpending]
      rfl
    · exact h.order hy hyl

/-- A channel that is destroyed keeps the order. -/
theorem drop (hsends : s'.sends = update s.sends l none)
    (hchannels : s'.channels = s.channels) (hsent : s'.sent = s.sent)
    (hwritten : s'.written = s.written) : Ordered J s' := by
  have hold {l' : Loc} {y : PersistentSendsTable} (hy : s'.sends l' = some y) :
      s.sends l' = some y := by
    rw [hsends] at hy
    obtain ⟨-, hset⟩ | ⟨-, hy⟩ := update_eq_some.mp hy
    · cases hset
    · exact hy
  constructor
  case lt =>
    rw [hchannels]
    exact fun hy => h.lt (hold hy)
  case unique => exact fun hy hy' => h.unique (hold hy) (hold hy')
  case here => exact fun hy => h.here (hold hy)
  case fresh =>
    rw [hchannels, hsent, hwritten]
    exact h.fresh
  case order =>
    rw [hsent, hwritten]
    exact fun hy => h.order (hold hy)

/-- The first pending message is written. -/
theorem write (hx : s.sends l = some x)
    {rest : List Buf} (hpending : x.pending = msg :: rest) (reaches : BufIndex → Bool)
    (i : BufIndex) : Ordered J
      (s.writeToBuffer reaches l (x.wrote i rest) i msg) := by
  have hlogs := logs_write s l (x.wrote i rest) reaches i msg
  refine h.touch hx (sends_write ..) rfl rfl rfl ?_ ?_ ?_
  · rw [writeToBuffer]
    split <;> rfl
  · intro k hk
    rw [hlogs.1, hlogs.2.2]
    exact ⟨rfl, update_of_ne hk ..⟩
  · intro hlocal
    rw [hlogs.1, hlogs.2.2, ← h.order hx hlocal, update_self, hpending, append_assoc]
    rfl

/-- As many pending messages as there are free buffers are written. -/
theorem flush (hqueue : ∀ x, s.sends l = some x → x.pending = queue) :
    Ordered J (s.flushPending reaches l queue) :=
  flush_rule
    (fun _ _ i _ _ h hx hpending _ => h.write hx hpending reaches i) queue h hqueue

end

end Ordered

/-! ## Emptying the queue -/

namespace State

variable {s : State} {l : Loc}

/-- `flushPending` changes no other slot. -/
theorem flush_other {l' : Loc} (hne : l' ≠ l) (reaches : BufIndex → Bool) (queue : List Buf) :
    (s.flushPending reaches l queue).sends l' = s.sends l' := by
  induction queue generalizing s with
  | nil => rfl
  | cons msg rest ih =>
    rw [flushPending]
    split
    · rfl
    · split
      · rfl
      · rw [ih, sends_write, update_of_ne hne]

/-- `flushPending` goes on as long as there is a free buffer. -/
theorem flush_settled
    (hqueue : ∀ x, s.sends l = some x → x.pending = queue)
    (hx : (s.flushPending reaches l queue).sends l = some x) : x.Settled := by
  induction queue generalizing s with
  | nil => exact .inl (hqueue x hx)
  | cons msg rest ih =>
    rw [flushPending] at hx
    split at hx
    case h_1 hnone => cases hnone.symm.trans hx
    case h_2 y hy =>
      split at hx
      case h_1 hbusy =>
        obtain rfl := Option.mem_unique hy hx
        exact .inr (.inr hbusy)
      case h_2 i y' hfree =>
        refine ih (fun z hz => ?_) hx
        rw [sends_write, update_self] at hz
        rw [← Option.some.inj hz]

/-- No channel has a message pending that could be written. -/
def Settled (s : State) : Prop := ∀ l x, s.sends l = some x → x.isLocal = false → x.Settled

variable {s' : State}

/-- A step that leaves the slots alone. -/
theorem Settled.congr (h : s.Settled) (hsends : s'.sends = s.sends) : s'.Settled := by
  intro l x hx
  rw [hsends] at hx
  exact h l x hx

/-- A step that changes one slot. -/
theorem Settled.update (h : s.Settled) {o : Option PersistentSendsTable}
    (hsends : s'.sends = Function.update s.sends l o)
    (ho : ∀ x, o = some x → x.isLocal = false → x.Settled) : s'.Settled := by
  intro l' x hx
  rw [hsends] at hx
  obtain ⟨-, hset⟩ | ⟨-, hx⟩ := update_eq_some.mp hx
  · exact ho x hset
  · exact h l' x hx

/-- The queue of a slot that was filled in is emptied. -/
theorem Settled.flush (h : s.Settled) (hsends : s'.sends = Function.update s.sends l (some x))
    (hqueue : x.pending = queue) (reaches : BufIndex → Bool) :
    (s'.flushPending reaches l queue).Settled := by
  intro l' y hy hlocal
  by_cases hl : l' = l
  · subst hl
    refine flush_settled reaches (fun z hz => ?_) hy
    rw [hsends, update_self] at hz
    rw [← Option.some.inj hz]
    exact hqueue
  · rw [flush_other hl, hsends, update_of_ne hl] at hy
    exact h l' y hy hlocal

end State

/-! ## Runs -/

/-- What holds between two events. -/
structure InOrder (J : Job) (s : State) : Prop where
  ordered : Ordered J s
  settled : s.Settled

namespace InOrder

variable {J : Job} {s s' : State} {l : Loc}

section

variable (h : InOrder J s)

include h

theorem congr (hsends : s'.sends = s.sends) (hchannels : s'.channels = s.channels)
    (hsent : s'.sent = s.sent) (hwritten : s'.written = s.written) : InOrder J s' :=
  ⟨h.ordered.congr hsends hchannels hsent hwritten, h.settled.congr hsends⟩

/-- The slot at `l` is filled in without changing its queue, and the queue is emptied. -/
theorem fill (hx : s.sends l = some x)
    (x' : PersistentSendsTable) (hchannel : x'.channel = x.channel)
    (hlocal : x'.isLocal = x.isLocal) (hdest : x'.destPE = x.destPE)
    (hpending : x'.pending = x.pending) (reaches : BufIndex → Bool) :
    InOrder J ((s.setSend l (some x')).flushPending reaches l x.pending) := by
  have hset : Ordered J (s.setSend l (some x')) := by
    refine h.ordered.touch hx rfl hchannel hlocal hdest rfl (fun _ _ => ⟨rfl, rfl⟩) fun hfar => ?_
    rw [hpending]
    exact h.ordered.order hx hfar
  rw [← hpending]
  exact ⟨hset.flush reaches (pending_setSend s l x'), h.settled.flush rfl rfl reaches⟩

variable {a : PersistentHandle} {reaches : BufIndex → Bool}

/-- A send keeps the order. -/
theorem send {pe : Nat} (hsend : s.cmiSendPersistentMsg J pe a msg reaches = some s') :
    InOrder J s' := by
  obtain ⟨x, -, hx, ⟨hlocal, buf, -, rfl⟩ | ⟨hlocal, s₁, rfl, rfl⟩⟩ := send_eq_some hsend
  · -- Within the node the message does not pass through the slot.
    have hself : update s.sends ⟨pe, a⟩ (some x) = s.sends := by
      rw [← hx]
      exact Function.update_eq_self ..
    refine ⟨h.ordered.touch hx hself.symm rfl rfl rfl rfl
      (fun k hk => ⟨update_of_ne hk .., rfl⟩) fun hfar => ?_, h.settled.congr rfl⟩
    cases hlocal.symm.trans hfar
  · have hset : Ordered J ({ s with
        sent := update s.sent x.channel (s.sent x.channel ++ [msg]) }.setSend ⟨pe, a⟩
          (some { x with pending := x.pending ++ [msg] })) := by
      refine h.ordered.touch hx rfl rfl rfl rfl rfl (fun k hk => ⟨update_of_ne hk .., rfl⟩)
        fun hfar => ?_
      show s.written x.channel ++ (x.pending ++ [msg]) =
        update s.sent x.channel (s.sent x.channel ++ [msg]) x.channel
      rw [update_self, ← append_assoc, h.ordered.order hx hfar]
    split
    · exact ⟨hset.flush reaches (pending_setSend _ _ _),
        h.settled.flush (x := { x with pending := x.pending ++ [msg] }) rfl rfl reaches⟩
    · rename_i hdone
      refine ⟨hset, h.settled.update rfl fun x' hx' _ => ?_⟩
      rw [← Option.some.inj hx']
      exact .inr (.inl (Bool.eq_false_iff.mpr hdone))

/-- A channel that is created keeps the order. -/
theorem create {pe destPE : Nat} {maxBytes : Int}
    (hcall : s.cmiCreatePersistent J pe destPE maxBytes a = some s') : InOrder J s' := by
  obtain ⟨-, x, s₁, rfl, rfl, rfl⟩ := create_eq_some hcall
  have hnew : InOrder J { s.setSend ⟨pe, a⟩ (some { J.sendSlot pe destPE maxBytes s.channels with
      setupDone := (J.sendSlot pe destPE maxBytes s.channels).isLocal }) with
      channels := s.channels + 1 } := by
    refine ⟨h.ordered.add rfl rfl rfl rfl rfl rfl rfl, h.settled.update rfl fun x hx _ => ?_⟩
    rw [← Option.some.inj hx]
    exact .inl rfl
  split
  · exact hnew
  · exact hnew.congr rfl rfl rfl rfl

/-- A channel that is set up from the receiver's side keeps the order. -/
theorem register {pe j : Nat}
    (hcall : s.cmiRegisterReceivePersistent J pe j a = some s') : InOrder J s' := by
  obtain ⟨-, req, y, x, -, -, rfl, rfl⟩ := register_eq_some hcall
  refine ⟨h.ordered.add rfl rfl rfl rfl rfl rfl rfl, h.settled.update rfl fun x hx _ => ?_⟩
  rw [← Option.some.inj hx]
  exact .inl rfl

/-- A channel that is destroyed keeps the order. -/
theorem destroy (pe : Nat) (a : PersistentHandle) : InOrder J (s.cmiDestroyPersistent pe a) := by
  obtain ⟨-, hs⟩ | ⟨x, s₁, -, -, rfl, hs⟩ := s.destroy_cases pe a
  · rw [hs]
    exact h
  · rw [hs]
    have hgone : InOrder J
        { s.setSend ⟨pe, a⟩ none with destroyed := s.destroyed ++ [x.channel] } :=
      ⟨h.ordered.drop rfl rfl rfl rfl, h.settled.update rfl nofun⟩
    split
    · exact hgone
    · exact hgone.congr rfl rfl rfl rfl

/-- Every message that is handled keeps the order. -/
theorem handle {m : Message} (hhandle : s.handle J m a reaches = some s') : InOrder J s' := by
  cases m with
  | request channel destPE requestorPE maxBytes sourceHandler =>
    obtain ⟨-, rfl⟩ := request_eq_some hhandle
    exact h.congr rfl rfl rfl rfl
  | granted channel destPE grantor sourceHandler destHandler =>
    cases hhandle
    obtain ⟨-, hs⟩ | ⟨x, s₁, -, hx, rfl, hs⟩ :=
      s.granted_cases destPE sourceHandler destHandler reaches
    · rw [hs]
      exact h
    · rw [hs]
      exact h.fill hx { x with destHandle := destHandler, setupDone := true } rfl rfl rfl rfl
        reaches
  | data ctx inlinePayload =>
    obtain ⟨-, rfl⟩ | ⟨y, area, -, -, -, rfl⟩ := data_eq_some hhandle
    · exact h
    · exact h.congr rfl rfl rfl rfl
  | credit channel destPE sourceHandler bufIndex =>
    cases hhandle
    obtain ⟨-, hs⟩ | ⟨x, s₁, -, hx, rfl, hs⟩ :=
      s.credit_cases destPE sourceHandler bufIndex reaches
    · rw [hs]
      exact h
    · rw [hs]
      exact h.fill hx { x with busy := update x.busy bufIndex false } rfl rfl rfl rfl reaches
  | destroy channel destPE destHandler =>
    cases hhandle
    obtain ⟨-, hs⟩ | ⟨y, -, -, hs⟩ := s.destroyed_cases destPE destHandler
    · rw [hs]
      exact h
    · rw [hs]
      exact h.congr rfl rfl rfl rfl
  | user channel destPE msg =>
    cases hhandle
    exact h.congr rfl rfl rfl rfl

/-- Every step keeps the order. -/
theorem step {e : Event} (hstep : Step J s e s') : InOrder J s' := by
  cases e with
  | create pe destPE maxBytes a => exact h.create hstep
  | createReceiver pe maxBytes a =>
    obtain ⟨-, rfl⟩ := create_receiver_eq_some hstep
    exact h.congr rfl rfl rfl rfl
  | register pe j a => exact h.register hstep
  | send pe a msg reaches => exact h.send hstep
  | deliver i a reaches =>
    obtain ⟨m, -, hhandle⟩ := Option.bind_eq_some_iff.mp hstep
    have htaken : InOrder J (s.take i) := h.congr rfl rfl rfl rfl
    exact htaken.handle hhandle
  | land j =>
    obtain ⟨ctx, -, ⟨rfl, -⟩ | ⟨y, -, -, rfl⟩⟩ := land_eq_some hstep
    all_goals exact h.congr rfl rfl rfl rfl
  | putDone j =>
    obtain ⟨ctx, -, rfl⟩ := put_done_eq_some hstep
    exact h.congr rfl rfl rfl rfl
  | free j =>
    obtain ⟨m, y, y', s₁, -, -, -, -, -, -, -, -, rfl, ⟨rfl, -⟩ | ⟨src, -, rfl⟩⟩ :=
      free_eq_some hstep
    all_goals exact h.congr rfl rfl rfl rfl
  | modify j bytes =>
    obtain ⟨m, y, -, -, -, rfl⟩ := modify_eq_some hstep
    exact h.congr rfl rfl rfl rfl
  | destroy pe a =>
    cases hstep
    exact h.destroy pe a

end

end InOrder

theorem State.initial_in_order (J : Job) : InOrder J State.initial where
  ordered := ⟨nofun, nofun, nofun, fun _ => ⟨rfl, rfl⟩, nofun⟩
  settled := nofun

/-- In every run, what was written on a channel to another node and what is pending on it are the
messages that were sent on it, in the order in which they were sent. Messages are pending only if
the channel is not set up or all its buffers are busy, and the buffer that is found for a message is
not busy. -/
theorem sends_in_order {J : Job} {es : List Event} {s : State}
    (hrun : Steps (Step J) State.initial es s) {l : Loc} {x : PersistentSendsTable}
    (hx : s.sends l = some x) (hfar : J.cmiNodeOf x.destPE ≠ J.cmiNodeOf l.pe) :
    s.written x.channel ++ x.pending = s.sent x.channel ∧
    (x.pending ≠ [] → x.setupDone = false ∨ ∀ i, x.busy i = true) ∧
    ∀ i x', x.findFreeBuffer = some (i, x') → x.busy i = false := by
  have h : InOrder J s :=
    hrun.invariant (fun _ _ _ h hstep => h.step hstep) (initial_in_order J)
  have hlocal : x.isLocal = false := by
    rw [h.ordered.here hx]
    exact decide_eq_false hfar
  refine ⟨h.ordered.order hx hlocal, fun hne => ?_, fun i x' hfree => ?_⟩
  · obtain hempty | hsetup | hbusy := h.settled l x hx hlocal
    · exact absurd hempty hne
    · exact .inl hsetup
    · exact .inr (PersistentSendsTable.find_free_buffer_eq_none.mp hbusy)
  · exact (find_free_buffer_eq_some hfree).1

/-- PE 0 sends six messages to PE 2, the first before the channel is set up. The fourth buffer's
message is the last that is written; two are pending. -/
theorem two_messages_pending : ∃ es s x, Steps (Step twoByTwo) State.initial es s ∧
    s.sends ⟨0, 16⟩ = some x ∧ x.pending.length = 2 ∧
    s.written x.channel ++ x.pending = s.sent x.channel := by
  obtain ⟨s, hsteps, hend⟩ : ∃ s, Steps (Step twoByTwo) initial [.create 0 2 64 16,
      .send 0 16 [1] fun _ => false, .deliver 0 32 fun _ => false, .deliver 0 0 fun _ => false,
      .send 0 16 [2] fun _ => false, .send 0 16 [3] fun _ => true, .send 0 16 [4] fun _ => true,
      .send 0 16 [5] fun _ => true, .send 0 16 [6] fun _ => true] s ∧
      (s.sends ⟨0, 16⟩).any fun x => x.pending.length = 2 ∧ x.destPE = 2 :=
    Steps.exists_of_any (by decide)
  obtain ⟨x, hx, hpending⟩ := (Option.any_eq_true ..).mp hend
  obtain ⟨hpending, hdest⟩ := of_decide_eq_true hpending
  have hfar : twoByTwo.cmiNodeOf x.destPE ≠ twoByTwo.cmiNodeOf 0 := by
    rw [hdest]
    decide
  exact ⟨_, s, x, hsteps, hx, hpending, (sends_in_order hsteps hx hfar).1⟩

end Reconverse.Persistent
