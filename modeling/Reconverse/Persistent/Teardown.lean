import Reconverse.Persistent.Aliasing

/-!
# Destroying channels

`CmiDestroyPersistent` tells the receiver to free its buffers, but only if the sender knows the
receive slot by then; and the receiver frees them whether or not a message in them is still held.
So the buffers of destroyed channels are freed, once and not too early, in the runs in which a
channel is destroyed after it was granted and after all that was written to its buffers was
released.
-/

namespace Reconverse.Persistent

open Lib List State
open Function (update update_of_ne)

/-- The events of programs that set up channels from the sender's side, to other nodes. -/
def Event.SenderSide (J : Job) : Event → Prop
  | .create pe destPE _ _ => J.cmiNodeOf destPE ≠ J.cmiNodeOf pe
  | .createReceiver .. | .register .. => False
  | .send .. | .deliver .. | .land .. | .putDone .. | .free .. | .modify .. | .destroy .. => True

instance (J : Job) : (e : Event) → Decidable (e.SenderSide J)
  | .create .. => inferInstanceAs (Decidable (_ ≠ _))
  | .createReceiver .. | .register .. => .isFalse id
  | .send .. | .deliver .. | .land .. | .putDone .. | .free .. | .modify .. | .destroy .. =>
    .isTrue trivial

/-- Something that was written to a buffer of the channel is on its way, or was delivered and is
held. -/
def State.Carries (s : State) (k : Nat) : Prop :=
  (∃ c ∈ s.contexts, c.channel = k) ∨ ∃ m ∈ s.held, m.channel = k

instance (s : State) (k : Nat) : Decidable (s.Carries k) := inferInstanceAs (Decidable (_ ∨ _))

/-- A channel is destroyed after its grant was handled, and after everything that was written to its
buffers was released. -/
def State.Orderly (s : State) : Event → Prop
  | .destroy pe h => ∀ x ∈ s.sends ⟨pe, h⟩, x.setupDone = true ∧ ¬ s.Carries x.channel
  | _ => True

instance (s : State) : (e : Event) → Decidable (s.Orderly e)
  | .destroy .. => Option.decidableForallMem _
  | .create .. | .createReceiver .. | .register .. | .send .. | .deliver .. | .land .. | .putDone ..
  | .free .. | .modify .. => .isTrue trivial

/-- No message is in flight, and every message that was delivered has been released. -/
def State.Quiet (s : State) : Prop := s.network = [] ∧ s.puts = [] ∧ s.held = []

instance (s : State) : Decidable s.Quiet := inferInstanceAs (Decidable (_ ∧ _))

/-- The destroyed channels are gone: no receive slot of one is left, and each of its buffers was
freed exactly once. -/
def State.TornDown (s : State) : Prop :=
  (∀ l y, s.receives l = some y → ∀ k ∈ s.destroyed, y.channel ≠ some k) ∧
    ∀ k ∈ s.destroyed, ∀ i, s.freed.count (some k, i) = 1

/-- The message tears down the channel. -/
def Message.destroys (k : Nat) : Message → Bool
  | .destroy j _ _ => j = k
  | _ => false

@[simp] theorem Message.destroys_destroy (k j q : Nat) (d : PersistentHandle) :
    (Message.destroy j q d).destroys k = decide (j = k) := rfl

/-! ## What is written to the buffers -/

namespace State

variable {J : Job} {s s' : State} {k i j pe : Nat} {l : Loc} {a : PersistentHandle}
  {msg : Lib.Bytes.Buf} {reaches : BufIndex → Bool}

theorem Carries.of_subset (h : s'.Carries k) (hcontexts : s'.contexts ⊆ s.contexts)
    (hheld : s'.held ⊆ s.held) : s.Carries k := by
  obtain ⟨c, hc, hk⟩ | ⟨m, hm, hk⟩ := h
  · exact .inl ⟨c, hcontexts hc, hk⟩
  · exact .inr ⟨m, hheld hm, hk⟩

/-- The setup is left alone, and only send slots write to buffers. -/
structure Moves (s s' : State) : Prop where
  kept : s.Kept s'
  carries : ∀ {k}, s'.Carries k → s.Carries k ∨ ∃ l, s.sendId l = some k

namespace Moves

theorem of_subset (hk : s.Kept s') (hcontexts : s'.contexts ⊆ s.contexts)
    (hheld : s'.held ⊆ s.held) : Moves s s' :=
  ⟨hk, fun h => .inl (h.of_subset hcontexts hheld)⟩

theorem trans {s'' : State} (h : Moves s s') (h' : Moves s' s'') : Moves s s'' := by
  refine ⟨h.kept.trans h'.kept, fun {k} hk => ?_⟩
  rcases h'.carries hk with hk | hlive
  · exact h.carries hk
  · rw [sendId_congr h.kept.ends] at hlive
    exact .inr hlive

/-- A write belongs to a channel that its sender has not destroyed. -/
theorem write (h : Moves s s') {x x' : PersistentSendsTable} {b : BufIndex}
    (hx : s'.sends l = some x)
    (hx' : x'.ends = x.ends) : Moves s (s'.writeToBuffer reaches l x' b msg) := by
  refine h.trans ⟨(Kept.refl s').write hx hx', fun {k} hk => ?_⟩
  rw [Carries, held_write] at hk
  obtain ⟨c, hc, rfl⟩ | hheld := hk
  · obtain hc | ⟨hsource, -⟩ := mem_contexts_write hc
    · exact .inl (.inl ⟨c, hc, rfl⟩)
    · have hchannel : c.channel = x'.channel := congrArg Prod.snd hsource
      refine .inr ⟨l, ?_⟩
      rw [hchannel, (Ends.mk.inj hx').1]
      exact sendId_of_ends (ends_of_sends hx)
  · exact .inl (.inr hheld)

/-- So does everything that is sent from the queue. -/
theorem flush (h : Moves s s') {queue : List Lib.Bytes.Buf}
    (hqueue : ∀ x, s'.sends l = some x → x.pending = queue) :
    Moves s (s'.flushPending reaches l queue) :=
  flush_rule (fun _ _ _ _ _ hmoves hx _ _ => hmoves.write hx rfl) queue h hqueue

/-- A send leaves the setup alone. -/
theorem send (hsend : s.cmiSendPersistentMsg J pe a msg reaches = some s') : Moves s s' := by
  obtain ⟨x, -, hx, hcases⟩ := send_eq_some hsend
  obtain ⟨-, buf, -, rfl⟩ | ⟨-, s₁, rfl, heq⟩ := hcases
  · exact .of_subset (kept_send hsend) (contexts_post_subset rfl) (Subset.refl _)
  · have hlog : Kept s { s with sent := update s.sent x.channel (s.sent x.channel ++ [msg]) } :=
      ⟨rfl, rfl, .refl _, rfl, rfl, rfl, rfl, rfl⟩
    have hends : PersistentSendsTable.ends { x with pending := x.pending ++ [msg] } = x.ends := rfl
    have hqueued := of_subset (hlog.setSend hx hends) (Subset.refl _) (Subset.refl _)
    rw [heq]
    split
    · exact hqueued.flush (pending_setSend _ _ _)
    · exact hqueued

/-- A put that lands leaves the setup alone. -/
theorem land (h : s.land j = some s') : Moves s s' := by
  refine .of_subset (kept_land h) ?_ ?_
  all_goals
    obtain ⟨ctx, -, ⟨rfl, -⟩ | ⟨y, -, -, rfl⟩⟩ := land_eq_some h
    · exact Subset.refl _
    · exact Subset.refl _

/-- A put that is completed leaves the setup alone. -/
theorem put_done (h : s.persistentPutDone j = some s') : Moves s s' := by
  have hkept := kept_put_done h
  obtain ⟨ctx, hctx, rfl⟩ := put_done_eq_some h
  refine .of_subset hkept (fun c hc => ?_) (Subset.refl _)
  rw [contexts_post] at hc
  rcases mem_append.mp hc with hc | hc
  · rw [mem_contexts] at hc ⊢
    exact hc.imp_left mem_of_mem_eraseIdx
  · rw [mem_singleton.mp hc]
    exact mem_contexts.mpr (.inl (mem_of_getElem? hctx))

/-- A notification that is handled leaves the setup alone. -/
theorem data {ctx : PutContext} {b : Bool} (hm : s.network[i]? = some (.data ctx b))
    (h : (s.take i).persistentDataHandler ctx b = some s') : Moves s s' := by
  refine ⟨(Kept.take hm rfl).trans (kept_data h), fun {k} hk => .inl ?_⟩
  have htake := contexts_take s i
  obtain ⟨-, rfl⟩ | ⟨y, area, -, -, -, rfl⟩ := data_eq_some h
  · exact hk.of_subset htake (Subset.refl _)
  · obtain ⟨c, hc, hck⟩ | ⟨m, hm', hmk⟩ := hk
    · exact .inl ⟨c, htake hc, hck⟩
    · rcases mem_append.mp hm' with hm' | hm'
      · exact .inr ⟨m, hm', hmk⟩
      · rw [mem_singleton.mp hm'] at hmk
        exact .inl ⟨ctx, mem_contexts.mpr (.inr ⟨b, mem_of_getElem? hm⟩), hmk⟩

/-- A credit that is handled leaves the setup alone. -/
theorem credit {q : Nat} {src : PersistentHandle} {b : BufIndex}
    (hm : s.network[i]? = some (.credit k q src b)) :
    Moves s ((s.take i).persistentCreditHandler q src b reaches) := by
  have htake : Moves s (s.take i) :=
    .of_subset (Kept.take hm rfl) (contexts_take s i) (Subset.refl _)
  obtain ⟨-, heq⟩ | ⟨x, s₁, -, hx, rfl, heq⟩ := credit_cases (s.take i) q src b reaches
  · rw [heq]
    exact htake
  · rw [heq]
    refine Moves.flush ?_ (pending_setSend _ _ _)
    exact htake.trans (.of_subset ((Kept.refl _).setSend hx rfl) (Subset.refl _) (Subset.refl _))

/-- A message that is released leaves the setup alone. -/
theorem free (h : s.cmiFree j = some s') : Moves s s' := by
  have hkept := kept_free h
  obtain ⟨m, y, y', s₁, -, -, -, -, -, -, -, -, rfl, h⟩ := free_eq_some h
  obtain ⟨rfl, -⟩ | ⟨src, -, rfl⟩ := h
  · exact .of_subset hkept (Subset.refl _) (eraseIdx_subset ..)
  · exact .of_subset hkept (contexts_post_subset rfl) (eraseIdx_subset ..)

/-- A handler that writes to its message changes nothing of this. -/
theorem modify {bytes : Lib.Bytes.Buf} (h : s.modify j bytes = some s') : Moves s s' := by
  have hkept := kept_modify h
  obtain ⟨m, y, -, -, -, rfl⟩ := modify_eq_some h
  exact .of_subset hkept (Subset.refl _) (Subset.refl _)

end Moves

end State

/-! ## The invariant -/

/-- What holds in orderly runs. A request and a grant find their send slot; a receive slot is about
to be granted, known to its sender, or about to be destroyed; and a destroyed channel has its
buffers freed or a destroy message on its way, and nothing is written to them any more. -/
structure Teardown (s : State) : Prop where
  setup : Setup s
  requesting : ∀ {k q r n a}, Message.request k q r n a ∈ s.stages → s.sendId ⟨r, a⟩ = some k
  granting : ∀ {k q g a d}, Message.granted k q g a d ∈ s.stages → s.sendId ⟨q, a⟩ = some k
  known : ∀ {l e}, s.ends l = some e → e.setupDone = true → e.destHandle ≠ nullptr
  owned : ∀ {l k}, s.recvId l = some k →
    (∃ m ∈ s.stages, m.channel = k) ∨ ∃ l', s.sendId l' = some k
  gone : ∀ {k}, k ∈ s.destroyed → ∀ l, s.sendId l ≠ some k
  destroyed_lt : ∀ {k}, k ∈ s.destroyed → k < s.channels
  destroyed_nodup : s.destroyed.Nodup
  freed : ∀ k i, s.freed.count (some k, i) + s.stages.countP (·.destroys k) = s.destroyed.count k
  idle : ∀ {k}, k ∈ s.destroyed → ¬ s.Carries k
  freedHeld : s.freedHeld = []

/-- In the beginning nothing was destroyed. -/
theorem State.initial_teardown : Teardown State.initial where
  setup := initial_setup
  requesting := nofun
  granting := nofun
  known := nofun
  owned := nofun
  gone := nofun
  destroyed_lt := nofun
  destroyed_nodup := nodup_nil
  freed _ _ := rfl
  idle := nofun
  freedHeld := rfl

namespace Teardown

variable {J : Job} {s s' : State} {l : Loc}

section

variable (h : Teardown s) {a : PersistentHandle}

include h

theorem finds_own : s.FindsOwn := by
  intro k q g a d hm e he
  exact Option.mem_unique (sendId_of_ends he) (h.granting hm)

/-- An event that creates and destroys no send slot. -/
theorem same_sends (hsetup : Setup s') (hsend : s'.sendId = s.sendId)
    (hchannels : s'.channels = s.channels) (hdestroyed : s'.destroyed = s.destroyed)
    (hheld : s'.freedHeld = s.freedHeld)
    (hcarries : ∀ {k}, s'.Carries k → s.Carries k ∨ ∃ l, s.sendId l = some k)
    (hrequest : ∀ {k q r n a}, Message.request k q r n a ∈ s'.stages →
    .request k q r n a ∈ s.stages)
    (hgrant : ∀ {k q g a d}, Message.granted k q g a d ∈ s'.stages → s.sendId ⟨q, a⟩ = some k)
    (hknown : ∀ {l e}, s'.ends l = some e → e.setupDone = true → e.destHandle ≠ nullptr)
    (howned : ∀ {l k}, s'.recvId l = some k →
      (∃ m ∈ s'.stages, m.channel = k) ∨ ∃ l', s.sendId l' = some k)
    (hfreed : ∀ k i, s'.freed.count (some k, i) + s'.stages.countP (·.destroys k) =
      s.freed.count (some k, i) + s.stages.countP (·.destroys k)) : Teardown s' := by
  constructor
  case setup => exact hsetup
  case requesting => exact fun hm => hsend ▸ h.requesting (hrequest hm)
  case granting => exact hsend ▸ hgrant
  case known => exact hknown
  case owned => exact hsend ▸ howned
  case gone =>
    rw [hdestroyed, hsend]
    exact h.gone
  case destroyed_lt =>
    rw [hdestroyed, hchannels]
    exact h.destroyed_lt
  case destroyed_nodup => exact hdestroyed ▸ h.destroyed_nodup
  case freed =>
    intro k i
    rw [hfreed, hdestroyed, h.freed]
  case idle =>
    intro k hk hcarried
    rw [hdestroyed] at hk
    obtain hcarried | ⟨l, hl⟩ := hcarries hcarried
    · exact h.idle hk hcarried
    · exact h.gone hk l hl
  case freedHeld => exact hheld.trans h.freedHeld

/-- A step that leaves the setup alone keeps the invariant. -/
theorem moved (hmoves : s.Moves s') : Teardown s' := by
  have hk := hmoves.kept
  have hmem {m : Message} (hm : m ∈ s'.stages) : m ∈ s.stages := hk.stages.mem_iff.mp hm
  refine h.same_sends (h.setup.kept hk) (sendId_congr hk.ends) hk.channels hk.destroyed hk.freedHeld
    hmoves.carries hmem (fun hm => h.granting (hmem hm)) (hk.ends ▸ h.known)
    (fun {l k} hl => ?_) fun k i => ?_
  · rw [recvId_congr hk.owner] at hl
    obtain ⟨m, hm, heq⟩ | hlive := h.owned hl
    · exact .inl ⟨m, hk.stages.mem_iff.mpr hm, heq⟩
    · exact .inr hlive
  · rw [hk.freed, hk.stages.countP_eq]

section

variable (hsetup : Setup s') {e : Ends} {n : Int}

include hsetup

/-- A new send slot and the request for its receive slot. -/
theorem create {r q : Nat} (hl : s.ends ⟨r, a⟩ = none) (he : e.channel = s.channels)
    (hdone : e.setupDone = false) (hends : s'.ends = update s.ends ⟨r, a⟩ (some e))
    (howner : s'.owner = s.owner) (hstages : s'.stages = s.stages ++ [.request s.channels q r n a])
    (hchannels : s'.channels = s.channels + 1) (hdestroyed : s'.destroyed = s.destroyed)
    (hfreed : s'.freed = s.freed) (hheld : s'.freedHeld = s.freedHeld)
    (hcarries : ∀ {k}, s'.Carries k → s.Carries k) : Teardown s' := by
  have hsend := sendId_update hends
  have hkeep {l' : Loc} {k : Nat} : s.sendId l' = some k → s'.sendId l' = some k :=
    sendId_insert hsend hl
  have hmem {m : Message} (hm : m ∈ s'.stages) : m ∈ s.stages ∨
      m = .request s.channels q r n a := by
    rw [hstages] at hm
    simpa using hm
  constructor
  case setup => exact hsetup
  case requesting =>
    intro k q' r' n' a' hm
    obtain hm | heq := hmem hm
    · exact hkeep (h.requesting hm)
    · obtain ⟨rfl, -, rfl, -, rfl⟩ := Message.request.inj heq
      rw [hsend, Option.map_some, he]
      exact Function.update_self ..
  case granting =>
    intro k q g a' d hm
    obtain hm | heq := hmem hm
    · exact hkeep (h.granting hm)
    · cases heq
  case known =>
    intro l' e' he' hdone'
    rw [hends] at he'
    obtain ⟨-, heq⟩ | ⟨-, hold⟩ := update_eq_some.mp he'
    · rw [← Option.some.inj heq, hdone] at hdone'
      cases hdone'
    · exact h.known hold hdone'
  case owned =>
    intro l' k hl'
    rw [recvId, howner] at hl'
    obtain ⟨m, hm, heq⟩ | ⟨l'', hlive⟩ := h.owned hl'
    · exact .inl ⟨m, hstages ▸ mem_append_left _ hm, heq⟩
    · exact .inr ⟨l'', hkeep hlive⟩
  case gone =>
    intro k hk l' hl'
    rw [hdestroyed] at hk
    rw [hsend] at hl'
    obtain ⟨-, heq⟩ | ⟨-, hold⟩ := update_eq_some.mp hl'
    · exact absurd (h.destroyed_lt hk) (Option.some.inj heq ▸ he ▸ Nat.lt_irrefl _)
    · exact h.gone hk l' hold
  case destroyed_lt =>
    intro k hk
    rw [hchannels]
    exact Nat.lt_succ_of_lt (h.destroyed_lt (hdestroyed ▸ hk))
  case destroyed_nodup => exact hdestroyed ▸ h.destroyed_nodup
  case freed =>
    intro k i
    rw [hfreed, hdestroyed, hstages, countP_append]
    exact h.freed k i
  case idle => exact fun hk hcarried => h.idle (hdestroyed ▸ hk) (hcarries hcarried)
  case freedHeld => exact hheld.trans h.freedHeld

variable {ms : List Message} {a d : PersistentHandle}

/-- A request that is handled keeps the invariant. -/
theorem request {k q r : Nat}
    (hm : s.stages.Perm (.request k q r n a :: ms)) (hends : s'.ends = s.ends)
    (howner : s'.owner = update s.owner ⟨q, d⟩ (some (some k)))
    (hstages : s'.stages = ms ++ [.granted k r q a d]) (hchannels : s'.channels = s.channels)
    (hdestroyed : s'.destroyed = s.destroyed) (hfreed : s'.freed = s.freed)
    (hheld : s'.freedHeld = s.freedHeld) (hcarries : ∀ {k}, s'.Carries k → s.Carries k) :
    Teardown s' := by
  have hsend : s'.sendId = s.sendId := sendId_congr hends
  have hmem {m : Message} (hm' : m ∈ s'.stages) : m ∈ s.stages ∨ m = .granted k r q a d := by
    rw [hstages] at hm'
    rcases mem_append.mp hm' with hm' | hm'
    · exact .inl (hm.mem_iff.mpr (mem_cons_of_mem _ hm'))
    · exact .inr (mem_singleton.mp hm')
  refine h.same_sends hsetup hsend hchannels hdestroyed hheld (fun hk => .inl (hcarries hk))
    (fun hm' => (hmem hm').resolve_right nofun) (fun hm' => ?_) (hends ▸ h.known)
    (fun {l' k'} hl' => ?_) fun k' i => ?_
  · obtain hm' | heq := hmem hm'
    · exact h.granting hm'
    · obtain ⟨rfl, rfl, -, rfl, -⟩ := Message.granted.inj heq
      exact h.requesting (hm.mem_iff.mpr mem_cons_self)
  · rw [hstages]
    rw [recvId_update howner] at hl'
    have hgrant : .granted k r q a d ∈ ms ++ [Message.granted k r q a d] :=
      mem_append_right _ mem_cons_self
    obtain ⟨-, heq⟩ | ⟨-, hold⟩ := update_eq_some.mp hl'
    · exact .inl ⟨_, hgrant, Option.some.inj heq⟩
    · obtain ⟨m, hm', rfl⟩ | hlive := h.owned hold
      · obtain rfl | hm' := mem_cons.mp (hm.mem_iff.mp hm')
        · exact .inl ⟨_, hgrant, rfl⟩
        · exact .inl ⟨m, mem_append_left _ hm', rfl⟩
      · exact .inr hlive
  · rw [hm.countP_eq, hfreed, hstages, countP_append]
    rfl

/-- A grant that is handled keeps the invariant. -/
theorem granted {k q g : Nat} (hm : s.stages.Perm (.granted k q g a d :: ms))
    (hl : s.ends ⟨q, a⟩ = some e)
    (hends : s'.ends = update s.ends ⟨q, a⟩ (some { e with destHandle := d, setupDone := true }))
    (howner : s'.owner = s.owner) (hstages : s'.stages = ms) (hchannels : s'.channels = s.channels)
    (hdestroyed : s'.destroyed = s.destroyed) (hfreed : s'.freed = s.freed)
    (hheld : s'.freedHeld = s.freedHeld) (hcarries : ∀ {k}, s'.Carries k → s.Carries k) :
    Teardown s' := by
  have hmem : .granted k q g a d ∈ s.stages := hm.mem_iff.mpr mem_cons_self
  have hsend : s'.sendId = s.sendId := by
    rw [sendId_update hends, Option.map_some, ← sendId_of_ends hl, Function.update_eq_self]
  have hrest {m : Message} (hm' : m ∈ s'.stages) : m ∈ s.stages :=
    hm.mem_iff.mpr (mem_cons_of_mem _ (hstages ▸ hm'))
  refine h.same_sends hsetup hsend hchannels hdestroyed hheld (fun hk => .inl (hcarries hk)) hrest
    (fun hm' => h.granting (hrest hm')) (fun {l' e'} he' hdone => ?_) (fun {l' k'} hl' => ?_)
    fun k' i => ?_
  · rw [hends] at he'
    obtain ⟨-, heq⟩ | ⟨-, hold⟩ := update_eq_some.mp he'
    · rw [← Option.some.inj heq]
      exact h.setup.recv_null (owner_of_recvId (h.setup.stage hmem).1)
    · exact h.known hold hdone
  · rw [hstages]
    rw [recvId, howner] at hl'
    obtain ⟨m, hm', rfl⟩ | hlive := h.owned hl'
    · obtain rfl | hm' := mem_cons.mp (hm.mem_iff.mp hm')
      · exact .inr ⟨_, h.granting hmem⟩
      · exact .inl ⟨m, hm', rfl⟩
    · exact .inr hlive
  · rw [hm.countP_eq, hfreed, hstages]
    rfl

/-- A send slot that knows its receive slot goes away. -/
theorem destroyCall (hl : s.ends l = some e)
    (hopen : e.destHandle ≠ nullptr) (hends : s'.ends = update s.ends l none)
    (howner : s'.owner = s.owner)
    (hstages : s'.stages = s.stages ++ [.destroy e.channel e.destPE e.destHandle])
    (hchannels : s'.channels = s.channels)
    (hdestroyed : s'.destroyed = s.destroyed ++ [e.channel]) (hfreed : s'.freed = s.freed)
    (hheld : s'.freedHeld = s.freedHeld) (hcarries : ∀ {k}, s'.Carries k → s.Carries k)
    (hidle : ¬ s.Carries e.channel) : Teardown s' := by
  have hid := sendId_of_ends hl
  have hsend := sendId_update hends
  have hkeep {l' : Loc} {k : Nat} (hne : k ≠ e.channel) (hl' : s.sendId l' = some k) :
      s'.sendId l' = some k := by
    rw [hsend, update_of_ne]
    · exact hl'
    · rintro rfl
      exact hne (Option.mem_unique hl' hid)
  have hsub {l' : Loc} {k : Nat} (hl' : s'.sendId l' = some k) : l' ≠ l ∧ s.sendId l' = some k := by
    rw [hsend] at hl'
    obtain ⟨-, hnone⟩ | hold := update_eq_some.mp hl'
    · cases hnone
    · exact hold
  have hmem {m : Message} (hm : m ∈ s'.stages) : m ∈ s.stages ∨
      m = .destroy e.channel e.destPE e.destHandle := by
    rw [hstages] at hm
    simpa using hm
  have hnot : e.channel ∉ s.destroyed := fun hk => h.gone hk l hid
  constructor
  case setup => exact hsetup
  case requesting =>
    intro k q r n a hm
    obtain hm | heq := hmem hm
    · exact hkeep (h.setup.nothing_else hl hopen _ hm) (h.requesting hm)
    · cases heq
  case granting =>
    intro k q g a d hm
    obtain hm | heq := hmem hm
    · exact hkeep (h.setup.nothing_else hl hopen _ hm) (h.granting hm)
    · cases heq
  case known =>
    intro l' e' he'
    rw [hends] at he'
    obtain ⟨-, hnone⟩ | ⟨-, hold⟩ := update_eq_some.mp he'
    · cases hnone
    · exact h.known hold
  case owned =>
    intro l' k hl'
    rw [recvId, howner] at hl'
    rw [hstages]
    obtain ⟨m, hm, heq⟩ | ⟨l'', hlive⟩ := h.owned hl'
    · exact .inl ⟨m, mem_append_left _ hm, heq⟩
    · by_cases hk : k = e.channel
      · exact .inl ⟨_, mem_append_right _ mem_cons_self, hk.symm⟩
      · exact .inr ⟨l'', hkeep hk hlive⟩
  case gone =>
    intro k hk l' hl'
    obtain ⟨hne, hold⟩ := hsub hl'
    rw [hdestroyed] at hk
    rcases mem_append.mp hk with hk | hk
    · exact h.gone hk l' hold
    · rw [mem_singleton.mp hk] at hold
      exact hne (h.setup.send.inj hold hid)
  case destroyed_lt =>
    intro k hk
    rw [hdestroyed] at hk
    rw [hchannels]
    rcases mem_append.mp hk with hk | hk
    · exact h.destroyed_lt hk
    · exact mem_singleton.mp hk ▸ h.setup.send.lt hid
  case destroyed_nodup =>
    rw [hdestroyed]
    refine nodup_append'.mpr ⟨h.destroyed_nodup, nodup_singleton _, ?_⟩
    exact fun k hk hk' => hnot (mem_singleton.mp hk' ▸ hk)
  case freed =>
    intro k i
    have hcount := h.freed k i
    rw [hfreed, hdestroyed, hstages, countP_append, count_append]
    simp only [countP_singleton, count_singleton, Message.destroys_destroy,
      decide_eq_true_eq, beq_iff_eq]
    omega
  case idle =>
    intro k hk hcarried
    rw [hdestroyed] at hk
    rcases mem_append.mp hk with hk | hk
    · exact h.idle hk (hcarries hcarried)
    · rw [mem_singleton.mp hk] at hcarried
      exact hidle (hcarries hcarried)
  case freedHeld => exact hheld.trans h.freedHeld

/-- A receive slot, in which no message is held, goes away. -/
theorem destroyed {k q : Nat} {d : PersistentHandle} (hm : s.stages.Perm (.destroy k q d :: ms))
    (hends : s'.ends = s.ends)
    (howner : s'.owner = update s.owner ⟨q, d⟩ none) (hstages : s'.stages = ms)
    (hchannels : s'.channels = s.channels) (hdestroyed : s'.destroyed = s.destroyed)
    (hfreed : s'.freed = s.freed ++ (List.finRange persistBuffersNum).map (some k, ·))
    (hheld : s'.freedHeld = s.freedHeld) (hcarries : ∀ {k}, s'.Carries k → s.Carries k) :
    Teardown s' := by
  have hmem : .destroy k q d ∈ s.stages := hm.mem_iff.mpr mem_cons_self
  have hsend : s'.sendId = s.sendId := sendId_congr hends
  have hrest {m : Message} (hm' : m ∈ s'.stages) : m ∈ s.stages :=
    hm.mem_iff.mpr (mem_cons_of_mem _ (hstages ▸ hm'))
  refine h.same_sends hsetup hsend hchannels hdestroyed hheld (fun hk => .inl (hcarries hk)) hrest
    (fun hm' => h.granting (hrest hm')) (hends ▸ h.known) (fun {l' k'} hl' => ?_) fun k' i => ?_
  · rw [hstages]
    rw [recvId_update howner] at hl'
    obtain ⟨-, hnone⟩ | ⟨hne, hold⟩ := update_eq_some.mp hl'
    · cases hnone
    · obtain ⟨m, hm', rfl⟩ | hlive := h.owned hold
      · obtain rfl | hm' := mem_cons.mp (hm.mem_iff.mp hm')
        · exact absurd (h.setup.recv.inj hold (h.setup.stage hmem).1) hne
        · exact .inl ⟨m, hm', rfl⟩
      · exact .inr hlive
  · have hbuffers : ((List.finRange persistBuffersNum).map (some k, ·)).count (some k', i) =
        if k = k' then 1 else 0 := by
      split
      · rename_i heq
        rw [heq]
        refine (count_map_of_injective _ _ (fun _ _ heq => (Prod.mk.inj heq).2) i).trans ?_
        exact count_eq_one_of_mem (nodup_finRange _) (mem_finRange i)
      · refine count_eq_zero.mpr fun hin => ?_
        obtain ⟨i', -, heq⟩ := mem_map.mp hin
        exact absurd (Option.some.inj (Prod.mk.inj heq).1) (by assumption)
    rw [hm.countP_eq, countP_cons, hfreed, hstages, count_append]
    simp only [Message.destroys_destroy, decide_eq_true_eq]
    omega

end

/-! ## Events -/

/-- Nothing is written any more to the buffers that a destroy message is about. -/
theorem not_carried {k q : Nat} {d : PersistentHandle} (hm : .destroy k q d ∈ s.stages) :
    ¬ s.Carries k := by
  refine h.idle (count_pos_iff.mp ?_)
  rw [← h.freed k 0]
  have hpos : 0 < s.stages.countP (·.destroys k) :=
    countP_pos_iff.mpr ⟨_, hm, decide_eq_true (rfl : k = k)⟩
  omega

/-- Every message that is handled keeps the invariant. -/
theorem deliver {i : Nat} {reaches : BufIndex → Bool} {m : Message} (hm : s.network[i]? = some m)
    (hhandle : (s.take i).handle J m a reaches = some s') : Teardown s' := by
  have hsetup := h.setup.deliver h.finds_own hm hhandle
  have htake {k : Nat} (hk : (s.take i).Carries k) : s.Carries k :=
    hk.of_subset (contexts_take s i) (Subset.refl _)
  cases m with
  | request k q r n src =>
    obtain ⟨hfree, rfl⟩ := request_eq_some hhandle
    refine h.request hsetup (stages_take hm rfl) rfl (owner_setRecv _) ?_ rfl rfl rfl rfl
      fun hk => htake (hk.of_subset (contexts_post_subset rfl) (Subset.refl _))
    rw [stages_post]
    rfl
  | granted k q g src d =>
    have hperm := stages_take hm rfl
    have hmem : .granted k q g src d ∈ s.stages := hperm.mem_iff.mpr mem_cons_self
    obtain ⟨e, he, -⟩ := ends_of_sendId (h.granting hmem)
    cases hhandle
    obtain ⟨hnone, -⟩ | ⟨x, s₁, -, hx, rfl, heq⟩ := granted_cases (s.take i) q src d reaches
    · exact absurd hnone (lookup_send_of_ends he (h.setup.send_null he))
    · have hown := h.finds_own hmem (ends_of_sends hx)
      rw [heq]
      refine moved ?_ (.flush (.of_subset (.refl _) (Subset.refl _) (Subset.refl _))
        (pending_setSend _ _ _))
      refine h.granted ?_ hperm (ends_of_sends hx) (ends_setSend _) rfl rfl rfl rfl
        rfl rfl htake
      exact h.setup.granted hperm (ends_of_sends hx) hown (ends_setSend _) rfl rfl
        rfl rfl
  | data ctx inlinePayload =>
    exact h.moved (.data hm hhandle)
  | credit k q src b =>
    cases hhandle
    exact h.moved (.credit hm)
  | destroy k q d =>
    have hperm := stages_take hm rfl
    have hmem : .destroy k q d ∈ s.stages := hperm.mem_iff.mpr mem_cons_self
    have howner := owner_of_recvId (h.setup.stage hmem).1
    cases hhandle
    obtain ⟨hnone, -⟩ | ⟨y, -, hy, heq⟩ := destroyed_cases (s.take i) q d
    · exact absurd hnone (lookup_recv_of_owner howner (h.setup.recv_null howner))
    · have hchannel : y.channel = some k :=
        Option.mem_unique (owner_of_receives hy) howner
      have hheld : s.held.filter (fun m => m.slot = ⟨q, d⟩ ∧ some m.channel = y.channel) = [] :=
        filter_eq_nil_iff.mpr fun m hin htrue => h.not_carried hmem <| .inr ⟨m, hin,
          Option.some.inj ((of_decide_eq_true htrue).2.trans hchannel)⟩
      have hsetup' := hsetup
      rw [heq] at hsetup' ⊢
      refine h.destroyed hsetup' hperm rfl (owner_setRecv _) rfl rfl rfl ?_ ?_ htake
      · rw [hchannel]
      · rw [hheld, append_nil]
  | user k q msg =>
    cases hhandle
    exact h.moved (.of_subset ((State.Kept.take hm rfl).trans
      ⟨rfl, rfl, .refl _, rfl, rfl, rfl, rfl, rfl⟩) (contexts_take s i) (Subset.refl _))

/-- What one event of an orderly run preserves. -/
theorem step {e : Event} (hside : e.SenderSide J) (horderly : s.Orderly e)
    (hstep : Step J s e s') : Teardown s' := by
  have hsetup := h.setup.step h.finds_own hstep
  cases e with
  | create pe destPE maxBytes a =>
    obtain ⟨hfree, x, s₁, hx, rfl, rfl⟩ := create_eq_some hstep
    have hchannel : x.channel = s.channels := by rw [hx]; rfl
    have hlocal : x.isLocal = false := by
      rw [hx]
      exact decide_eq_false hside
    rw [if_neg (by rw [hlocal]; exact Bool.false_ne_true)] at hsetup ⊢
    refine h.create (n := x.sizeMax)
      (q := destPE) hsetup hfree.ends hchannel hlocal (ends_setSend _) rfl ?_ rfl rfl rfl rfl
      fun hk => hk.of_subset (contexts_post_subset rfl) (Subset.refl _)
    rw [stages_post]
    rfl
  | createReceiver => exact absurd hside id
  | register => exact absurd hside id
  | send => exact h.moved (.send hstep)
  | deliver i a reaches =>
    obtain ⟨m, hm, hhandle⟩ := Option.bind_eq_some_iff.mp hstep
    exact h.deliver hm hhandle
  | land => exact h.moved (.land hstep)
  | putDone => exact h.moved (.put_done hstep)
  | free => exact h.moved (.free hstep)
  | modify => exact h.moved (.modify hstep)
  | destroy pe a =>
    cases hstep
    obtain ⟨-, heq⟩ | ⟨x, s₁, -, hx, rfl, heq⟩ := destroy_cases s pe a
    · rw [heq]
      exact h
    · have hends := ends_of_sends hx
      obtain ⟨hdone, hidle⟩ := horderly x hx
      have hopen : x.destHandle ≠ nullptr := h.known hends hdone
      rw [heq, if_neg hopen] at hsetup ⊢
      refine h.destroyCall hsetup hends hopen (ends_setSend _) rfl ?_ rfl rfl rfl rfl
        (fun hk => hk.of_subset (contexts_post_subset rfl) (Subset.refl _)) hidle
      rw [stages_post]
      rfl

/-- When nothing is in flight, nothing is left of destroyed channels. -/
theorem torn_down (hnet : s.network = []) : s.TornDown := by
  have hstages : s.stages = [] := by
    rw [stages, hnet, filter_nil]
  refine ⟨fun l y hy k hk heq => ?_, fun k hk i => ?_⟩
  · have hrecv : s.recvId l = some k := by
      rw [recvId, owner_of_receives hy, heq, Option.join_some]
    obtain ⟨m, hm, -⟩ | ⟨l', hlive⟩ := h.owned hrecv
    · rw [hstages] at hm
      cases hm
    · exact h.gone hk l' hlive
  · have hcount := h.freed k i
    rw [hstages, count_eq_one_of_mem h.destroyed_nodup hk] at hcount
    exact hcount

end

end Teardown

/-! ## Runs -/

/-- In every run in which channels to other nodes are destroyed only after their grant was handled
and after everything that was written to their buffers was delivered and released: when no message
is in flight and every delivered message has been released, no receive slot of a destroyed
channel is left and each of its buffers was freed exactly once; and at no time was a buffer freed
that held a message. -/
theorem destroyed_channels_torn_down {J : Job} {es : List Event} {s : State}
    (hrun : Steps (fun s e s' => e.SenderSide J ∧ s.Orderly e ∧ Step J s e s') State.initial es s) :
    (s.Quiet → s.TornDown) ∧ s.freedHeld = [] := by
  have hinv : Teardown s :=
    hrun.invariant (fun _ _ _ h hstep => h.step hstep.1 hstep.2.1 hstep.2.2)
      initial_teardown
  exact ⟨fun hquiet => hinv.torn_down hquiet.1, hinv.freedHeld⟩

/-- Two nodes of one PE, without one-sided puts. -/
def twoNodes : Job where
  numNodes := 2
  nodeSize := 1
  numNodes_pos := Nat.two_pos
  nodeSize_pos := Nat.one_pos
  rdmaAvailable := false

/-- A channel is set up, carries one message, and is destroyed after the message was released. -/
theorem message_released_before_destroy : ∃ es s, Steps (fun s e s' => e.SenderSide twoNodes ∧
    s.Orderly e ∧ Step twoNodes s e s') State.initial es s ∧ s.Quiet ∧ s.destroyed = [0] ∧
    s.TornDown ∧ s.freedHeld = [] := by
  obtain ⟨s, hrun, hquiet, hdestroyed⟩ : ∃ s, Steps (fun s e s' =>
      (e.SenderSide twoNodes ∧ s.Orderly e) ∧ Step twoNodes s e s') initial
      [.create 0 1 64 16, .deliver 0 32 fun _ => false, .deliver 0 0 fun _ => false,
        .send 0 16 [1, 2, 3] fun _ => false, .deliver 0 0 fun _ => false, .free 0,
        .deliver 0 0 fun _ => false, .destroy 0 16, .deliver 0 0 fun _ => false] s ∧
      s.Quiet ∧ s.destroyed = [0] := Steps.exists_of_checked (by decide)
  have hsteps := hrun.mono fun _ _ _ hstep => and_assoc.mp hstep
  obtain ⟨hdown, hheld⟩ := destroyed_channels_torn_down hsteps
  exact ⟨_, s, hsteps, hquiet, hdestroyed, hdown hquiet, hheld⟩

/-- A channel that is destroyed before its grant arrives leaves its receive slot behind. And a
destroy message that overtakes the release of a message frees the buffer the message is in. -/
theorem destroy_leaks_or_frees_early :
    (∃ es s, (∀ e ∈ es, Event.SenderSide twoNodes e) ∧
      Steps (Step twoNodes) State.initial es s ∧ s.Quiet ∧ ¬ s.TornDown) ∧
    ∃ es s, (∀ e ∈ es, Event.SenderSide twoNodes e) ∧
      Steps (Step twoNodes) State.initial es s ∧ s.freedHeld ≠ [] := by
  constructor
  · obtain ⟨s, hsteps, hquiet, hzero, hleft⟩ : ∃ s, Steps (Step twoNodes) initial
        [.create 0 1 64 16, .destroy 0 16, .deliver 0 32 fun _ => false,
          .deliver 0 0 fun _ => false] s ∧ s.Quiet ∧ 0 ∈ s.destroyed ∧
        (s.receives ⟨1, 32⟩).any (·.channel = some 0) := Steps.exists_of_any (by decide)
    obtain ⟨y, hy, hchannel⟩ := (Option.any_eq_true ..).mp hleft
    refine ⟨_, s, ?_, hsteps, hquiet, fun hdown => ?_⟩
    · decide
    · exact hdown.1 _ y hy 0 hzero (of_decide_eq_true hchannel)
  · obtain ⟨s, hsteps, hfreed⟩ : ∃ s, Steps (Step twoNodes) initial [.create 0 1 64 16,
        .deliver 0 32 fun _ => false, .deliver 0 0 fun _ => false,
        .send 0 16 [1, 2, 3] fun _ => false, .deliver 0 0 fun _ => false, .destroy 0 16,
        .deliver 0 0 fun _ => false] s ∧ s.freedHeld ≠ [] := Steps.exists_of_any (by decide)
    refine ⟨_, s, ?_, hsteps, hfreed⟩
    decide

end Reconverse.Persistent
