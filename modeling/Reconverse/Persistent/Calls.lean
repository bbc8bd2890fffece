import Reconverse.Lib.Handles
import Reconverse.Persistent.Model

/-!
# What the functions of the module do

One lemma for each function says what it does to the state. Most events leave the setup of channels
alone: `Kept` says what that means, and the `kept` lemmas which events these are.
-/

namespace Reconverse.Persistent

open Lib Lib.Bytes List
open Function (update update_eq_self update_idem update_of_ne update_self)
open Option (bind_eq_some_iff map_eq_some_iff map_none map_some)

/-! ## What the slots and messages name -/

/-- The part of a send slot that says which channel it belongs to and where that leads. -/
structure Ends where
  channel : Nat
  destPE : Nat
  destHandle : PersistentHandle
  setupDone : Bool
  isLocal : Bool

/-- The ends of a send slot. -/
def PersistentSendsTable.ends (x : PersistentSendsTable) : Ends :=
  ⟨x.channel, x.destPE, x.destHandle, x.setupDone, x.isLocal⟩

/-- The channel a message was made for. -/
def Message.channel : Message → Nat
  | .request channel .. | .granted channel .. | .credit channel .. | .destroy channel ..
  | .user channel .. => channel
  | .data ctx _ => ctx.channel

/-- The messages that set up or tear down. -/
def Message.isStage : Message → Bool
  | .request .. | .granted .. | .destroy .. => true
  | .data .. | .credit .. | .user .. => false

/-- A send slot whose first pending message goes to the buffer `i`. -/
abbrev PersistentSendsTable.wrote (x : PersistentSendsTable) (i : BufIndex) (rest : List Buf) :
    PersistentSendsTable :=
  { x with nextBuf := i + 1, pending := rest }

namespace State

/-- The ends of the send slot at a place. -/
def ends (s : State) (l : Loc) : Option Ends := (s.sends l).map (·.ends)

/-- The channel of the receive slot at a place. -/
def owner (s : State) (l : Loc) : Option (Option Nat) := (s.receives l).map (·.channel)

/-- The messages in flight that set up or tear down. -/
def stages (s : State) : List Message := s.network.filter (·.isStage)

variable {s s' : State} {l : Loc} {y y' : PersistentReceivesTable} {e : Ends}

theorem ends_of_sends {x : PersistentSendsTable} (h : s.sends l = some x) :
    s.ends l = some x.ends := by
  rw [ends, h, map_some]

theorem owner_of_receives {y : PersistentReceivesTable} (h : s.receives l = some y) :
    s.owner l = some y.channel := by
  rw [owner, h, map_some]

theorem sends_of_ends (h : s.ends l = some e) : ∃ x, s.sends l = some x ∧ x.ends = e :=
  map_eq_some_iff.mp h

theorem receives_of_owner {k : Option Nat} (h : s.owner l = some k) :
    ∃ y, s.receives l = some y ∧ y.channel = k :=
  map_eq_some_iff.mp h

@[simp] theorem ends_setSend (o : Option PersistentSendsTable) :
    (s.setSend l o).ends = update s.ends l (o.map (·.ends)) := by
  exact Function.comp_update ..

@[simp] theorem owner_setRecv (o : Option PersistentReceivesTable) :
    (s.setRecv l o).owner = update s.owner l (o.map (·.channel)) := by
  exact Function.comp_update ..

theorem stages_post (m : Message) :
    (s.post m).stages = s.stages ++ if m.isStage then [m] else [] := by
  show filter _ (s.network ++ [m]) = _
  rw [filter_append, filter_singleton, cond_eq_ite]
  rfl

theorem ends_setSend_same {x x' : PersistentSendsTable} (h : s.sends l = some x)
    (hx : x'.ends = x.ends) : (s.setSend l (some x')).ends = s.ends := by
  rw [ends_setSend, map_some, hx, ← ends_of_sends h, update_eq_self]

theorem owner_setRecv_same (h : s.receives l = some y)
    (hy : y'.channel = y.channel) : (s.setRecv l (some y')).owner = s.owner := by
  rw [owner_setRecv, map_some, hy, ← owner_of_receives h, update_eq_self]

variable {a : PersistentHandle} {pe : Nat} {J : Job}

/-- An address that the allocator may return is not in use on the PE. -/
theorem Unallocated.ends (h : s.Unallocated J pe a) : s.ends ⟨pe, a⟩ = none := by
  have hnone := (h.2 pe (Machine.mem_node_pes.mpr rfl)).1
  rw [State.ends, Option.isNone_iff_eq_none.mp hnone, map_none]

theorem Unallocated.owner (h : s.Unallocated J pe a) : s.owner ⟨pe, a⟩ = none := by
  have hnone := (h.2 pe (Machine.mem_node_pes.mpr rfl)).2
  rw [State.owner, Option.isNone_iff_eq_none.mp hnone, map_none]

variable {h : PersistentHandle} {msg : Buf} {i : BufIndex}

theorem lookup_send_eq_some {x : PersistentSendsTable} :
    s.lookupSendSlot pe h = some x ↔ h ≠ nullptr ∧ s.sends ⟨pe, h⟩ = some x := by
  rw [lookupSendSlot]
  split
  · exact ⟨nofun, fun ⟨hne, _⟩ => absurd ‹_› hne⟩
  · exact ⟨fun hx => ⟨‹_›, hx⟩, And.right⟩

theorem lookup_recv_eq_some {y : PersistentReceivesTable} :
    s.lookupRecvSlot pe h = some y ↔ h ≠ nullptr ∧ s.receives ⟨pe, h⟩ = some y := by
  rw [lookupRecvSlot]
  split
  · exact ⟨nofun, fun ⟨hne, _⟩ => absurd ‹_› hne⟩
  · exact ⟨fun hy => ⟨‹_›, hy⟩, And.right⟩

/-- A slot in the table is found. -/
theorem lookup_send_of_ends
    (he : s.ends ⟨pe, h⟩ = some e) (hnull : h ≠ nullptr) : s.lookupSendSlot pe h ≠ none := by
  obtain ⟨x, hx, -⟩ := sends_of_ends he
  rw [lookup_send_eq_some.mpr ⟨hnull, hx⟩]
  nofun

/-- A slot that belongs to a channel is found. -/
theorem lookup_recv_of_owner {o : Option Nat}
    (ho : s.owner ⟨pe, h⟩ = some o) (hnull : h ≠ nullptr) : s.lookupRecvSlot pe h ≠ none := by
  obtain ⟨y, hy, -⟩ := receives_of_owner ho
  rw [lookup_recv_eq_some.mpr ⟨hnull, hy⟩]
  nofun

/-! ## Steps that leave the setup alone -/

/-- The state after a message has left the network. -/
abbrev take (s : State) (i : Nat) : State := { s with network := s.network.eraseIdx i }

/-- `s'` differs from `s` neither in the ends of the slots nor in what is on offer, no slot was
destroyed, and the same messages that set up or tear down are in flight. -/
structure Kept (s s' : State) : Prop where
  ends : s'.ends = s.ends
  owner : s'.owner = s.owner
  stages : s'.stages.Perm s.stages
  reqs : s'.reqs = s.reqs
  channels : s'.channels = s.channels
  destroyed : s'.destroyed = s.destroyed
  freed : s'.freed = s.freed
  freedHeld : s'.freedHeld = s.freedHeld

namespace Kept

theorem refl (s : State) : Kept s s :=
  ⟨rfl, rfl, .refl _, rfl, rfl, rfl, rfl, rfl⟩

theorem trans {s'' : State} (h : Kept s s') (h' : Kept s' s'') : Kept s s'' where
  ends := h'.ends.trans h.ends
  owner := h'.owner.trans h.owner
  stages := h'.stages.trans h.stages
  reqs := h'.reqs.trans h.reqs
  channels := h'.channels.trans h.channels
  destroyed := h'.destroyed.trans h.destroyed
  freed := h'.freed.trans h.freed
  freedHeld := h'.freedHeld.trans h.freedHeld

/-- A message that neither sets up nor tears down leaves the network. -/
theorem take {i : Nat} {m : Message} (hm : s.network[i]? = some m) (hstage : m.isStage = false) :
    Kept s (s.take i) := by
  refine ⟨rfl, rfl, ?_, rfl, rfl, rfl, rfl, rfl⟩
  have hperm := ((perm_cons_eraseIdx hm).filter (·.isStage)).symm
  rwa [filter_cons_of_neg (by rw [hstage]; exact Bool.false_ne_true)] at hperm

theorem setSend (h : Kept s s') {x x' : PersistentSendsTable} (hx : s'.sends l = some x)
    (hx' : x'.ends = x.ends) : Kept s (s'.setSend l (some x')) :=
  h.trans ⟨ends_setSend_same hx hx', rfl, .refl _, rfl, rfl, rfl, rfl, rfl⟩

theorem setRecv (h : Kept s s') (hy : s'.receives l = some y)
    (hy' : y'.channel = y.channel) : Kept s (s'.setRecv l (some y')) :=
  h.trans ⟨rfl, owner_setRecv_same hy hy', .refl _, rfl, rfl, rfl, rfl, rfl⟩

theorem post (h : Kept s s') {m : Message} (hm : m.isStage = false) : Kept s (s'.post m) := by
  refine h.trans ⟨rfl, rfl, ?_, rfl, rfl, rfl, rfl, rfl⟩
  rw [stages_post, hm]
  simp

/-- A write keeps the ends of all channels. -/
theorem write (h : Kept s s') {reaches : BufIndex → Bool} {x x' : PersistentSendsTable}
    (hx : s'.sends l = some x) (hx' : x'.ends = x.ends) :
    Kept s (s'.writeToBuffer reaches l x' i msg) := by
  have hbusy : PersistentSendsTable.ends { x' with busy := update x'.busy i true } = x.ends := hx'
  have hset : Kept s { s'.setSend l (some { x' with busy := update x'.busy i true }) with
      writes := s'.writes + 1
      written := update s'.written x'.channel (s'.written x'.channel ++ [msg]) } :=
    h.trans ⟨ends_setSend_same hx hbusy, rfl, .refl _, rfl, rfl, rfl, rfl, rfl⟩
  simp only [writeToBuffer]
  split
  · exact hset.trans ⟨rfl, rfl, .refl _, rfl, rfl, rfl, rfl, rfl⟩
  · exact hset.post rfl

end Kept

section

variable (reaches : BufIndex → Bool) (x : PersistentSendsTable)

include reaches x

theorem sends_write (i : BufIndex) (msg : Buf) : (s.writeToBuffer reaches l x i msg).sends =
      update s.sends l (some { x with busy := update x.busy i true }) := by
  simp only [writeToBuffer]
  split <;> rfl

theorem receives_write (i : BufIndex)
    (msg : Buf) : (s.writeToBuffer reaches l x i msg).receives = s.receives := by
  simp only [writeToBuffer]
  split <;> rfl

theorem held_write (i : BufIndex)
    (msg : Buf) : (s.writeToBuffer reaches l x i msg).held = s.held := by
  simp only [writeToBuffer]
  split <;> rfl

end

/-- A buffer that is found was not busy. -/
theorem find_free_buffer_eq_some {x x' : PersistentSendsTable}
    (h : x.findFreeBuffer = some (i, x')) :
    x.busy i = false ∧ x' = { x with nextBuf := i + 1 } := by
  obtain ⟨j, hj, hpair⟩ := map_eq_some_iff.mp h
  obtain ⟨rfl, rfl⟩ := Prod.mk.inj hpair
  exact ⟨by simpa using find?_some hj, rfl⟩

theorem pending_setSend (s : State) (l : Loc) (x : PersistentSendsTable) :
    ∀ x', (s.setSend l (some x)).sends l = some x' → x'.pending = x.pending := by
  intro x' hx'
  have hself : (s.setSend l (some x)).sends l = some x := update_self ..
  rw [Option.mem_unique hself hx']

variable {reaches : BufIndex → Bool}

/-- What every write of the queue preserves, emptying the queue preserves. -/
theorem flush_rule {P : State → Prop}
    (hwrite : ∀ s x i msg rest, P s → s.sends l = some x → x.pending = msg :: rest →
      x.busy i = false → P (s.writeToBuffer reaches l (x.wrote i rest) i msg))
    (queue : List Buf) {s : State} (hs : P s)
    (hqueue : ∀ x, s.sends l = some x → x.pending = queue) :
    P (s.flushPending reaches l queue) := by
  induction queue generalizing s with
  | nil => exact hs
  | cons msg rest ih =>
    rw [flushPending]
    split
    · exact hs
    · rename_i x hx
      split
      · exact hs
      · rename_i i x' hfree
        obtain ⟨hbusy, rfl⟩ := find_free_buffer_eq_some hfree
        refine ih (hwrite s x i msg rest hs hx (hqueue x hx) hbusy) fun x' hx' => ?_
        rw [sends_write, update_self] at hx'
        cases hx'
        rfl

/-- Sending what waits keeps the ends of all channels. -/
theorem Kept.flush (h : Kept s s') {queue : List Buf}
    (hqueue : ∀ x, s'.sends l = some x → x.pending = queue) :
    Kept s (s'.flushPending reaches l queue) :=
  flush_rule (fun _ _ _ _ _ hkept hx _ _ => hkept.write hx rfl) queue h hqueue

/-! ## What the functions do -/

/-- Writing at once is queueing and emptying the queue. -/
theorem flush_singleton {x : PersistentSendsTable} (hempty : x.pending = [])
    (reaches : BufIndex → Bool) (msg : Buf) :
    (s.setSend l (some { x with pending := [msg] })).flushPending reaches l [msg] =
      match x.findFreeBuffer with
      | none => s.setSend l (some { x with pending := [msg] })
      | some (i, x') => s.writeToBuffer reaches l x' i msg := by
  have hself : (s.setSend l (some { x with pending := [msg] })).sends l =
    some { x with pending := [msg] } := update_self ..
  have hfind : PersistentSendsTable.findFreeBuffer { x with pending := [msg] } =
      x.findFreeBuffer.map fun r => (r.1, { r.2 with pending := [msg] }) := by
    simp only [PersistentSendsTable.findFreeBuffer, Option.map_map]
    rfl
  simp only [flushPending, hself, hfind]
  cases hfree : x.findFreeBuffer with
  | none => rfl
  | some r =>
    obtain ⟨i, x'⟩ := r
    obtain ⟨-, rfl⟩ := find_free_buffer_eq_some hfree
    simp only [map_some, writeToBuffer, setSend, update_idem, hempty]

/-- A message on a channel within the node is posted. Any other one joins the queue, and the queue
is emptied as far as possible if the channel is set up. -/
theorem send_eq_some (hsend : s.cmiSendPersistentMsg J pe h msg reaches = some s') :
    ∃ x, h ≠ nullptr ∧ s.sends ⟨pe, h⟩ = some x ∧
      ((x.isLocal = true ∧ ∃ buf, Wire.setDestPE msg x.destPE = some buf ∧
        s' = { s with sent := update s.sent x.channel (s.sent x.channel ++ [msg]) }.post
          (.user x.channel x.destPE buf)) ∨
      (x.isLocal = false ∧ ∃ s₁,
        s₁ = { s with sent := update s.sent x.channel (s.sent x.channel ++ [msg]) }.setSend ⟨pe, h⟩
          (some { x with pending := x.pending ++ [msg] }) ∧
        s' = if x.setupDone then s₁.flushPending reaches ⟨pe, h⟩ (x.pending ++ [msg])
          else s₁)) := by
  obtain ⟨x, hx, hsend⟩ := bind_eq_some_iff.mp hsend
  obtain ⟨hnull, hx⟩ := lookup_send_eq_some.mp hx
  refine ⟨x, hnull, hx, ?_⟩
  split at hsend
  · cases hsend
  split at hsend
  case isTrue hlocal =>
    refine .inl ⟨hlocal, ?_⟩
    split at hsend
    case h_1 destPE buf hqueue =>
      cases hsend
      obtain ⟨rfl, hstamp⟩ := Wire.sync_send_queue hqueue
      exact ⟨buf, hstamp, rfl⟩
    case h_2 => cases hsend
  case isFalse hlocal =>
    refine .inr ⟨by simpa using hlocal, _, rfl, ?_⟩
    split at hsend
    case isTrue =>
      split at hsend
      case isTrue hdone => rw [if_pos hdone, ← Option.some.inj hsend]
      case isFalse hdone => rw [if_neg hdone, ← Option.some.inj hsend]
    case isFalse hready =>
      simp only [Bool.or_eq_true, Bool.not_eq_true', isEmpty_eq_false_iff, not_or,
        Bool.not_eq_false, ne_eq, not_not] at hready
      obtain ⟨hdone, hempty⟩ := hready
      rw [if_pos hdone, hempty, nil_append, flush_singleton hempty]
      simp only [hempty, nil_append] at hsend
      cases hfree : x.findFreeBuffer with
      | none | some =>
        simp only [hfree] at hsend ⊢
        exact (Option.some.inj hsend).symm

variable {maxBytes : Int}

/-- The slot of a new channel. A channel within the node is set up at once, any other one asks its
destination for buffers. -/
theorem create_eq_some {pe destPE : Nat}
    (h : s.cmiCreatePersistent J pe destPE maxBytes a = some s') :
    s.Unallocated J pe a ∧ ∃ x s₁, x = J.sendSlot pe destPE maxBytes s.channels ∧
      s₁ = { s.setSend ⟨pe, a⟩ (some { x with setupDone := x.isLocal }) with
        channels := s.channels + 1 } ∧
      s' = if x.isLocal then s₁ else s₁.post (.request s.channels destPE pe x.sizeMax a) := by
  obtain ⟨⟨s₁, x⟩, hnew, h⟩ := bind_eq_some_iff.mp h
  simp only [newSendSlot] at hnew
  split at hnew
  case isFalse => cases hnew
  case isTrue hfree =>
    cases hnew
    refine ⟨hfree.2, _, _, rfl, rfl, ?_⟩
    have hdone : (J.sendSlot pe destPE maxBytes s.channels).setupDone = false := rfl
    have hchannel : (J.sendSlot pe destPE maxBytes s.channels).channel = s.channels := rfl
    generalize J.sendSlot pe destPE maxBytes s.channels = x at h hdone hchannel ⊢
    simp only at h
    split at h
    case isTrue hlocal =>
      have hset : { x with setupDone := x.isLocal } = { x with setupDone := true } :=
        congrArg (fun b => { x with setupDone := b }) hlocal
      rw [if_pos hlocal, hset, ← Option.some.inj h]
      simp only [setSend, update_idem]
    case isFalse hlocal =>
      have hset : { x with setupDone := x.isLocal } = x :=
        congrArg (fun b => { x with setupDone := b })
          (((Bool.not_eq_true _).mp hlocal).trans hdone.symm)
      rw [if_neg hlocal, hset, ← Option.some.inj h, hchannel]

/-- A new receive slot is at an address that was free. -/
theorem new_recv_slot_eq_some
    {channel : Option Nat} (h : s.newRecvSlot J pe maxBytes a channel = some s') :
    s.Unallocated J pe a ∧ s' = s.setRecv ⟨pe, a⟩ (some (recvSlot maxBytes channel)) := by
  simp only [newRecvSlot] at h
  split at h
  · exact ⟨(by assumption : _ ∧ _ ∧ _).2.2, (Option.some.inj h).symm⟩
  · cases h

/-- A request makes a receive slot and answers with a grant. -/
theorem request_eq_some {channel pe requestorPE : Nat} {sourceHandler a : PersistentHandle}
    (h : s.persistentRequestHandler J channel pe requestorPE maxBytes sourceHandler a = some s') :
    s.Unallocated J pe a ∧ s' = (s.setRecv ⟨pe, a⟩ (some (recvSlot maxBytes (some channel)))).post
      (.granted channel requestorPE pe sourceHandler a) := by
  obtain ⟨s₁, hnew, h⟩ := bind_eq_some_iff.mp h
  obtain ⟨hfree, rfl⟩ := new_recv_slot_eq_some hnew
  exact ⟨hfree, (Option.some.inj h).symm⟩

/-- A receiver makes a slot and hands out a request. -/
theorem create_receiver_eq_some (h : s.cmiCreateReceiverPersistent J pe maxBytes a = some s') :
    s.Unallocated J pe a ∧ s' = { s.setRecv ⟨pe, a⟩ (some (recvSlot maxBytes none)) with
      reqs := s.reqs ++ [⟨pe, sizeMaxOf maxBytes, a⟩] } := by
  obtain ⟨s₁, hnew, h⟩ := bind_eq_some_iff.mp h
  obtain ⟨hfree, rfl⟩ := new_recv_slot_eq_some hnew
  exact ⟨hfree, (Option.some.inj h).symm⟩

/-- A sender takes such a request for its own slot. -/
theorem register_eq_some {pe j : Nat} (h : s.cmiRegisterReceivePersistent J pe j a = some s') :
    s.Unallocated J pe a ∧ ∃ req y x, s.reqs[j]? = some req ∧
      s.receives ⟨req.pe, req.myHand⟩ = some y ∧
      x = J.sendSlot pe req.pe req.maxBytes s.channels ∧
      s' = ({ s with reqs := s.reqs.eraseIdx j, channels := s.channels + 1 }.setSend ⟨pe, a⟩
        (some { x with destHandle := req.myHand, setupDone := true })).setRecv
          ⟨req.pe, req.myHand⟩ (some { y with channel := some s.channels }) := by
  obtain ⟨req, hreq, h⟩ := bind_eq_some_iff.mp h
  obtain ⟨y, hy, h⟩ := bind_eq_some_iff.mp h
  obtain ⟨⟨s₁, x⟩, hnew, h⟩ := bind_eq_some_iff.mp h
  simp only [newSendSlot] at hnew
  split at hnew
  case isFalse => cases hnew
  case isTrue hfree =>
    cases hnew
    refine ⟨hfree.2, req, y, _, hreq, hy, rfl, ?_⟩
    rw [← Option.some.inj h]
    simp only [setSend, update_idem]
    rfl

variable {j : Nat} {inlinePayload : Bool} {ctx : PutContext} {bytes : Buf}

/-- The data of a put lands in the buffer, or nowhere. -/
theorem land_eq_some (h : s.land j = some s') : ∃ ctx, s.landing[j]? = some ctx ∧
    ((s' = { s with landing := s.landing.eraseIdx j } ∧
        ∀ y, s.receives ⟨ctx.destPE, ctx.destHandler⟩ = some y → y.channel ≠ some ctx.channel) ∨
      ∃ y, s.receives ⟨ctx.destPE, ctx.destHandler⟩ = some y ∧ y.channel = some ctx.channel ∧
        s' = { s with landing := s.landing.eraseIdx j }.setRecv ⟨ctx.destPE, ctx.destHandler⟩
          (some { y with
            area := update y.area ctx.bufIndex (patch (y.area ctx.bufIndex) 0 ctx.msg) })) := by
  obtain ⟨ctx, hctx, h⟩ := bind_eq_some_iff.mp h
  refine ⟨ctx, hctx, ?_⟩
  simp only at h
  split at h
  · rename_i y hy
    split at h
    · exact .inr ⟨y, hy, by assumption, (Option.some.inj h).symm⟩
    · rename_i hne
      refine .inl ⟨(Option.some.inj h).symm, fun y' hy' => ?_⟩
      rw [Option.mem_unique hy' hy]
      exact hne
  · rename_i hnone
    exact .inl ⟨(Option.some.inj h).symm, fun y hy => nomatch hnone.symm.trans hy⟩

/-- A put that is completed is followed by its notification. -/
theorem put_done_eq_some (h : s.persistentPutDone j = some s') :
    ∃ ctx, s.puts[j]? = some ctx ∧
      s' = { s with puts := s.puts.eraseIdx j }.post (.data ctx false) := by
  obtain ⟨ctx, hctx, h⟩ := bind_eq_some_iff.mp h
  exact ⟨ctx, hctx, (Option.some.inj h).symm⟩

/-- A notification is dropped, or its message is handed over. -/
theorem data_eq_some (h : s.persistentDataHandler ctx inlinePayload = some s') :
    (s.lookupRecvSlot ctx.destPE ctx.destHandler = none ∧ s' = s) ∨
    ∃ y area, s.receives ⟨ctx.destPE, ctx.destHandler⟩ = some y ∧ ctx ∉ s.landing ∧
      area = (if inlinePayload then patch (y.area ctx.bufIndex) 0 (ctx.msg.take ctx.size)
        else y.area ctx.bufIndex) ∧
      s' = { s.setRecv ⟨ctx.destPE, ctx.destHandler⟩ (some { y with
          area := update y.area ctx.bufIndex area
          source := update y.source ctx.bufIndex (some (ctx.srcPE, ctx.srcHandler))
          size := update y.size ctx.bufIndex ctx.size
          ref := update y.ref ctx.bufIndex (cmkPersistentRefbase + 1) }) with
        held := s.held ++
          [⟨⟨ctx.destPE, ctx.destHandler⟩, ctx.bufIndex, ctx.channel, ctx.srcPE, ctx.srcHandler⟩]
        handed := update s.handed ctx.channel
          (s.handed ctx.channel ++ [area.take ctx.size]) } := by
  simp only [persistentDataHandler] at h
  split at h
  · exact .inl ⟨by assumption, (Option.some.inj h).symm⟩
  · rename_i y hy
    split at h
    · cases h
    · rename_i hguard
      obtain ⟨-, hy⟩ := lookup_recv_eq_some.mp hy
      exact .inr ⟨y, _, hy, fun hmem => hguard (.inr hmem), rfl, (Option.some.inj h).symm⟩

/-- A held message is given up. The last reference to a message that was handed over credits the
buffer to its sender. -/
theorem free_eq_some (h : s.cmiFree j = some s') :
    ∃ m y y' s₁, s.held[j]? = some m ∧ s.receives m.slot = some y ∧
      y.channel = some m.channel ∧ y'.channel = y.channel ∧ y'.area = y.area ∧
      (∀ i ≠ m.index, y'.source i = y.source i ∧ y'.ref i = y.ref i) ∧
      (y.ref m.index = cmkPersistentRefbase + 1 → y'.source m.index = none) ∧
      (y.ref m.index ≠ cmkPersistentRefbase + 1 → y'.source m.index = y.source m.index) ∧
      s₁ = { s with held := s.held.eraseIdx j }.setRecv m.slot (some y') ∧
      ((s' = s₁ ∧ (y.ref m.index = cmkPersistentRefbase + 1 → y.source m.index = none)) ∨
        ∃ src, y.source m.index = some src ∧
          s' = s₁.post (.credit m.channel src.1 src.2 m.index)) := by
  obtain ⟨m, hm, h⟩ := bind_eq_some_iff.mp h
  obtain ⟨y, hy, h⟩ := bind_eq_some_iff.mp h
  split at h
  case isTrue => cases h
  case isFalse hchannel =>
    rw [not_not] at hchannel
    simp only at h
    split at h
    case isFalse href =>
      refine ⟨m, y, { y with ref := update y.ref m.index (y.ref m.index - 1) }, _, hm, hy,
        hchannel, rfl, rfl, fun i hi => ⟨rfl, update_of_ne hi ..⟩,
        fun hone => absurd hone href, fun _ => rfl, rfl,
        .inl ⟨(Option.some.inj h).symm, fun hone => absurd hone href⟩⟩
    case isTrue href =>
      have h := (Option.some.inj h).symm
      refine ⟨m, y, { y with
          ref := update y.ref m.index (y.ref m.index - 1)
          source := update y.source m.index none }, _, hm, hy, hchannel, rfl, rfl,
        fun i hi => ⟨update_of_ne hi .., update_of_ne hi ..⟩,
        fun _ => update_self .., fun hne => absurd href hne, rfl, ?_⟩
      simp only [cmiPersistentReleaseBuffer] at h
      cases hsource : y.source m.index with
      | none =>
        rw [hsource] at h
        exact .inl ⟨h, fun _ => rfl⟩
      | some src =>
        rw [hsource] at h
        exact .inr ⟨src, rfl, h⟩

/-- A handler writes to the buffer of its message. -/
theorem modify_eq_some (h : s.modify j bytes = some s') :
    ∃ m y, s.held[j]? = some m ∧ s.receives m.slot = some y ∧ y.channel = some m.channel ∧
      s' = s.setRecv m.slot (some { y with area := update y.area m.index bytes }) := by
  obtain ⟨m, hm, h⟩ := bind_eq_some_iff.mp h
  obtain ⟨y, hy, h⟩ := bind_eq_some_iff.mp h
  split at h
  case isTrue => cases h
  case isFalse hguard =>
    rw [not_or, not_not] at hguard
    exact ⟨m, y, hm, hy, hguard.1, (Option.some.inj h).symm⟩

/-- A grant is dropped, or fills in the send slot and empties its queue as far as possible. -/
theorem granted_cases (s : State) (pe : Nat) (h d : PersistentHandle) (reaches : BufIndex → Bool) :
    (s.lookupSendSlot pe h = none ∧ s.persistentReqGrantedHandler pe h d reaches = s) ∨
    ∃ x s₁, h ≠ nullptr ∧ s.sends ⟨pe, h⟩ = some x ∧
      s₁ = s.setSend ⟨pe, h⟩ (some { x with destHandle := d, setupDone := true }) ∧
      s.persistentReqGrantedHandler pe h d reaches =
        s₁.flushPending reaches ⟨pe, h⟩ x.pending := by
  simp only [persistentReqGrantedHandler]
  split
  · exact .inl ⟨by assumption, rfl⟩
  · rename_i x hx
    obtain ⟨hnull, hx⟩ := lookup_send_eq_some.mp hx
    exact .inr ⟨x, _, hnull, hx, rfl, rfl⟩

/-- A credit is dropped, or frees the buffer and empties the queue as far as possible. -/
theorem credit_cases (s : State) (pe : Nat) (h : PersistentHandle) (i : BufIndex)
    (reaches : BufIndex → Bool) :
    (s.lookupSendSlot pe h = none ∧ s.persistentCreditHandler pe h i reaches = s) ∨
    ∃ x s₁, h ≠ nullptr ∧ s.sends ⟨pe, h⟩ = some x ∧
      s₁ = s.setSend ⟨pe, h⟩ (some { x with busy := update x.busy i false }) ∧
      s.persistentCreditHandler pe h i reaches =
        s₁.flushPending reaches ⟨pe, h⟩ x.pending := by
  simp only [persistentCreditHandler]
  split
  · exact .inl ⟨by assumption, rfl⟩
  · rename_i x hx
    obtain ⟨hnull, hx⟩ := lookup_send_eq_some.mp hx
    exact .inr ⟨x, _, hnull, hx, rfl, rfl⟩

/-- A send slot that is destroyed goes away and, if it knows a receive slot, tells it. -/
theorem destroy_cases (s : State) (pe : Nat) (h : PersistentHandle) :
    (s.lookupSendSlot pe h = none ∧ s.cmiDestroyPersistent pe h = s) ∨
    ∃ x s₁, h ≠ nullptr ∧ s.sends ⟨pe, h⟩ = some x ∧
      s₁ = { s.setSend ⟨pe, h⟩ none with destroyed := s.destroyed ++ [x.channel] } ∧
      s.cmiDestroyPersistent pe h = if x.destHandle = nullptr then s₁
        else s₁.post (.destroy x.channel x.destPE x.destHandle) := by
  simp only [cmiDestroyPersistent]
  split
  · exact .inl ⟨by assumption, rfl⟩
  · rename_i x hx
    obtain ⟨hnull, hx⟩ := lookup_send_eq_some.mp hx
    refine .inr ⟨x, _, hnull, hx, rfl, ?_⟩
    split <;> rfl

/-- A destroy message finds nothing, or the receive slot and its buffers go away. -/
theorem destroyed_cases (s : State) (pe : Nat) (d : PersistentHandle) :
    (s.lookupRecvSlot pe d = none ∧ s.persistentDestroyHandler pe d = s) ∨
    ∃ y, d ≠ nullptr ∧ s.receives ⟨pe, d⟩ = some y ∧
      s.persistentDestroyHandler pe d = { s.setRecv ⟨pe, d⟩ none with
        freed := s.freed ++ (finRange persistBuffersNum).map (y.channel, ·)
        freedHeld := s.freedHeld ++
          s.held.filter fun m => m.slot = ⟨pe, d⟩ ∧ some m.channel = y.channel } := by
  simp only [persistentDestroyHandler]
  split
  · exact .inl ⟨by assumption, rfl⟩
  · rename_i y hy
    obtain ⟨hnull, hy⟩ := lookup_recv_eq_some.mp hy
    exact .inr ⟨y, hnull, hy, rfl⟩

/-! ## The events that leave the setup alone -/

theorem kept_send (hsend : s.cmiSendPersistentMsg J pe h msg reaches = some s') : Kept s s' := by
  obtain ⟨x, -, hx, hcases⟩ := send_eq_some hsend
  have hlog : Kept s { s with sent := update s.sent x.channel (s.sent x.channel ++ [msg]) } :=
    ⟨rfl, rfl, .refl _, rfl, rfl, rfl, rfl, rfl⟩
  obtain ⟨-, buf, -, rfl⟩ | ⟨-, s₁, rfl, rfl⟩ := hcases
  · exact hlog.post rfl
  · split
    · refine Kept.flush ?_ (pending_setSend _ _ _)
      exact hlog.setSend hx rfl
    · exact hlog.setSend hx rfl

theorem kept_land (h : s.land j = some s') : Kept s s' := by
  have htake : Kept s { s with landing := s.landing.eraseIdx j } :=
    ⟨rfl, rfl, .refl _, rfl, rfl, rfl, rfl, rfl⟩
  obtain ⟨ctx, -, ⟨rfl, -⟩ | ⟨y, hy, -, rfl⟩⟩ := land_eq_some h
  · exact htake
  · exact htake.setRecv hy rfl

theorem kept_put_done (h : s.persistentPutDone j = some s') : Kept s s' := by
  have htake : Kept s { s with puts := s.puts.eraseIdx j } :=
    ⟨rfl, rfl, .refl _, rfl, rfl, rfl, rfl, rfl⟩
  obtain ⟨ctx, -, rfl⟩ := put_done_eq_some h
  exact htake.post rfl

theorem kept_data (h : s.persistentDataHandler ctx inlinePayload = some s') : Kept s s' := by
  obtain ⟨-, rfl⟩ | ⟨y, area, hy, -, -, rfl⟩ := data_eq_some h
  · exact Kept.refl _
  · exact ⟨rfl, owner_setRecv_same hy rfl, .refl _, rfl, rfl, rfl, rfl, rfl⟩

theorem kept_credit (pe : Nat) (h : PersistentHandle) (i : BufIndex) (reaches : BufIndex → Bool) :
    Kept s (s.persistentCreditHandler pe h i reaches) := by
  obtain ⟨-, heq⟩ | ⟨x, s₁, -, hx, rfl, heq⟩ := credit_cases s pe h i reaches
  · rw [heq]
    exact Kept.refl s
  · rw [heq]
    refine Kept.flush ?_ (pending_setSend _ _ _)
    exact (Kept.refl s).setSend hx rfl

theorem kept_free (h : s.cmiFree j = some s') : Kept s s' := by
  have htake : Kept s { s with held := s.held.eraseIdx j } :=
    ⟨rfl, rfl, .refl _, rfl, rfl, rfl, rfl, rfl⟩
  obtain ⟨m, y, y', s₁, -, hy, -, hy', -, -, -, -, rfl, h⟩ := free_eq_some h
  obtain ⟨rfl, -⟩ | ⟨src, -, rfl⟩ := h
  · exact htake.setRecv hy hy'
  · exact (htake.setRecv hy hy').post rfl

theorem kept_modify (h : s.modify j bytes = some s') : Kept s s' := by
  obtain ⟨m, y, -, hy, -, rfl⟩ := modify_eq_some h
  exact (Kept.refl s).setRecv hy rfl

end State

end Reconverse.Persistent
