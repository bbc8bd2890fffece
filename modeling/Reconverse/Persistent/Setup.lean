import Reconverse.Persistent.Calls

/-!
# Setting up and tearing down channels

What the two ends of a channel know about each other. `Setup` relates the send slots, the receive
slots and the messages that set a channel up or tear it down. It holds along every run in which a
grant finds its own send slot or none (`FindsOwn`), which each of the results about channels
establishes in its own way.

Every event touches the setup of at most one channel, and `Setup.touch` says what is left to show
about that one.
-/

namespace Reconverse.Persistent

open Lib List State
open Function (update update_eq_self update_of_ne update_self)
open Option (join_none join_some map_eq_some_iff map_some)

variable {o : Option (Option Nat)} {m : Message} {r : PersistentReq} {l' : Loc} {i : Nat}

/-- The place of the receive slot on offer. -/
def PersistentReq.loc (r : PersistentReq) : Loc := ⟨r.pe, r.myHand⟩

namespace State

/-- The channel of the send slot at a place. -/
def sendId (s : State) (l : Loc) : Option Nat := (s.ends l).map (·.channel)

/-- The channel of the receive slot at a place, if it has one. -/
def recvId (s : State) (l : Loc) : Option Nat := (s.owner l).join

variable {s s' : State} {l : Loc} {k : Nat}

theorem sendId_congr (h : s'.ends = s.ends) : s'.sendId = s.sendId := by
  funext l
  rw [sendId, sendId, h]

theorem recvId_congr (h : s'.owner = s.owner) : s'.recvId = s.recvId := by
  funext l
  rw [recvId, recvId, h]

/-- The send slots stay when one is put in a free place. -/
theorem sendId_insert {o : Option Nat} (h : s'.sendId = update s.sendId l o)
    (hfree : s.ends l = none) (hl' : s.sendId l' = some k) : s'.sendId l' = some k := by
  rw [h, update_of_ne]
  · exact hl'
  · rintro rfl
    rw [sendId, hfree] at hl'
    cases hl'

theorem sendId_update {o : Option Ends} (h : s'.ends = update s.ends l o) :
    s'.sendId = update s.sendId l (o.map (·.channel)) := by
  funext l'
  rw [sendId, h]
  rcases eq_or_ne l' l with rfl | hne
  · rw [update_self, update_self]
  · rw [update_of_ne hne, update_of_ne hne, sendId]

theorem recvId_update (h : s'.owner = update s.owner l o) :
    s'.recvId = update s.recvId l o.join := by
  funext l'
  rw [recvId, h]
  rcases eq_or_ne l' l with rfl | hne
  · rw [update_self, update_self]
  · rw [update_of_ne hne, update_of_ne hne, recvId]

theorem sendId_of_ends {e : Ends} (h : s.ends l = some e) : s.sendId l = some e.channel := by
  rw [sendId, h, map_some]

theorem ends_of_sendId (h : s.sendId l = some k) : ∃ e, s.ends l = some e ∧ e.channel = k :=
  map_eq_some_iff.mp h

theorem owner_of_recvId (h : s.recvId l = some k) : s.owner l = some (some k) :=
  Option.join_eq_some_iff.mp h

/-- A message that sets up or tears down is taken from the network. -/
theorem stages_take (hm : s.network[i]? = some m) (hstage : m.isStage = true) :
    s.stages.Perm (m :: (s.take i).stages) := by
  have hperm := (perm_cons_eraseIdx hm).filter (·.isStage)
  rwa [filter_cons_of_pos hstage] at hperm

end State

/-- What holds while a message that sets up or tears down is on its way. While a request is, its
channel has no receive slot; while a grant is, it has one that the sender does not know yet; and
while a destroy message is, the send slot is gone. -/
def StageOk (s : State) : Message → Prop
  | .request k q _ _ _ => (∀ l, s.recvId l ≠ some k) ∧
      ∀ l e, s.ends l = some e → e.channel = k → e.destPE = q ∧ e.destHandle = nullptr
  | .granted k _ g _ d => s.recvId ⟨g, d⟩ = some k ∧
      ∀ l e, s.ends l = some e → e.channel = k → e.destPE = g ∧ e.destHandle = nullptr
  | .destroy k q d => s.recvId ⟨q, d⟩ = some k ∧ ∀ l, s.sendId l ≠ some k
  | .data .. | .credit .. | .user .. => True

/-- The setup of channels. A channel has at most one send slot and one receive slot. A send slot
that knows a receive slot knows the one of its channel. At most one message that sets up or tears
down is on its way for a channel. -/
structure Setup (s : State) : Prop where
  send_null : ∀ {l e}, s.ends l = some e → l.addr ≠ nullptr
  recv_null : ∀ {l o}, s.owner l = some o → l.addr ≠ nullptr
  send : Distinct s.sendId s.channels
  recv : Distinct s.recvId s.channels
  opened : ∀ {l e}, s.ends l = some e → e.destHandle ≠ nullptr →
    s.recvId ⟨e.destPE, e.destHandle⟩ = some e.channel
  stage : ∀ {m}, m ∈ s.stages → StageOk s m
  stage_lt : ∀ {m}, m ∈ s.stages → m.channel < s.channels
  stage_nodup : (s.stages.map Message.channel).Nodup
  offered : ∀ {r}, r ∈ s.reqs → s.owner r.loc = some none
  offers_nodup : (s.reqs.map PersistentReq.loc).Nodup

/-- Every grant in flight finds its own send slot or none. -/
def State.FindsOwn (s : State) : Prop :=
  ∀ {k q g a d}, Message.granted k q g a d ∈ s.stages → ∀ {e}, s.ends ⟨q, a⟩ = some e →
    e.channel = k

/-- In the beginning there are no channels. -/
theorem State.initial_setup : Setup State.initial where
  send_null := nofun
  recv_null := nofun
  send := ⟨nofun, nofun⟩
  recv := ⟨nofun, nofun⟩
  opened := nofun
  stage := nofun
  stage_lt := nofun
  stage_nodup := nodup_nil
  offered := nofun
  offers_nodup := nodup_nil

/-- The slots of the channel are the same. -/
structure SameAt (s s' : State) (k : Nat) : Prop where
  ends : ∀ {l e}, s'.ends l = some e → e.channel = k → s.ends l = some e
  recv : ∀ {l}, s'.recvId l = some k ↔ s.recvId l = some k

variable {s s' : State} {l : Loc} {j k : Nat}

/-- No slot is at the null address after one is set at another one. -/
theorem null_update {α : Type} {f : Loc → Option α} {o : Option α}
    (hf : ∀ {l v}, f l = some v → l.addr ≠ nullptr) (hl : o ≠ none → l.addr ≠ nullptr)
    {v : α} (h : update f l o l' = some v) : l'.addr ≠ nullptr := by
  obtain ⟨rfl, ho⟩ | ⟨-, hold⟩ := update_eq_some.mp h
  · exact hl (ho ▸ nofun)
  · exact hf hold

/-- Other channels are as before if a send slot changes. -/
theorem same_at_ends (hj : j ≠ k) {o : Option Ends}
    (hends : s'.ends = update s.ends l o) (ho : ∀ e, o = some e → e.channel = k)
    (howner : s'.owner = s.owner) : SameAt s s' j where
  ends := by
    intro l' e he hk
    rw [hends] at he
    obtain ⟨-, heq⟩ | ⟨-, he⟩ := update_eq_some.mp he
    · exact absurd (hk.symm.trans (ho e heq)) hj
    · exact he
  recv := by
    intro l'
    rw [recvId, recvId, howner]

/-- Other channels are as before if a receive slot changes. -/
theorem same_at_owner (hj : j ≠ k)
    (howner : s'.owner = update s.owner l o) (ho : o.join = none ∨ o.join = some k)
    (hl : s.recvId l = none ∨ s.recvId l = some k) (hends : s'.ends = s.ends) :
    SameAt s s' j where
  ends := by
    intro l' e he _
    rwa [hends] at he
  recv := by
    intro l'
    rw [recvId_update howner]
    rcases eq_or_ne l' l with rfl | hne
    · rw [update_self]
      have hne : ∀ o : Option Nat, o = none ∨ o = some k → o ≠ some j := by
        rintro o (rfl | rfl)
        · nofun
        · exact fun heq => hj (Option.some.inj heq).symm
      exact iff_of_false (hne _ ho) (hne _ hl)
    · rw [update_of_ne hne]

/-- A message of a channel that is as before. -/
theorem StageOk.congr (h : StageOk s m) (hsame : SameAt s s' m.channel) : StageOk s' m := by
  cases m with
  | request k q r n a =>
    exact ⟨fun l hl => h.1 l (hsame.recv.mp hl), fun l e hl hk => h.2 l e (hsame.ends hl hk) hk⟩
  | granted k q g a d =>
    exact ⟨hsame.recv.mpr h.1, fun l e hl hk => h.2 l e (hsame.ends hl hk) hk⟩
  | destroy k q d =>
    refine ⟨hsame.recv.mpr h.1, fun l hl => ?_⟩
    obtain ⟨e, he, hk⟩ := map_eq_some_iff.mp hl
    exact h.2 l (map_eq_some_iff.mpr ⟨e, hsame.ends he hk, hk⟩)
  | data | credit | user => trivial

namespace Setup

section

variable (h : Setup s)

include h

/-- A step that leaves all channels but `k` alone. -/
theorem touch (k : Nat) (hsame : ∀ j ≠ k, SameAt s s' j)
    (hsend_null : ∀ {l e}, s'.ends l = some e → l.addr ≠ nullptr)
    (hrecv_null : ∀ {l o}, s'.owner l = some o → l.addr ≠ nullptr)
    (hsend : Distinct s'.sendId s'.channels) (hrecv : Distinct s'.recvId s'.channels)
    (hopened : ∀ {l e}, s'.ends l = some e → e.channel = k → e.destHandle ≠ nullptr →
      s'.recvId ⟨e.destPE, e.destHandle⟩ = some k)
    (hold : ∀ {m}, m ∈ s'.stages → m.channel ≠ k → m ∈ s.stages)
    (hnew : ∀ {m}, m ∈ s'.stages → m.channel = k → k < s'.channels ∧ StageOk s' m)
    (hnodup : (s'.stages.map Message.channel).Nodup) (hle : s.channels ≤ s'.channels)
    (hoffered : ∀ {r}, r ∈ s'.reqs → s'.owner r.loc = some none)
    (hoffers : (s'.reqs.map PersistentReq.loc).Nodup) : Setup s' where
  send_null := hsend_null
  recv_null := hrecv_null
  send := hsend
  recv := hrecv
  opened := by
    intro l e he hopen
    by_cases hk : e.channel = k
    · exact hk ▸ hopened he hk hopen
    · exact (hsame _ hk).recv.mpr (h.opened ((hsame _ hk).ends he rfl) hopen)
  stage := by
    intro m hm
    by_cases hk : m.channel = k
    · exact (hnew hm hk).2
    · exact (h.stage (hold hm hk)).congr (hsame _ hk)
  stage_lt := by
    intro m hm
    by_cases hk : m.channel = k
    · exact hk ▸ (hnew hm hk).1
    · exact lt_of_lt_of_le (h.stage_lt (hold hm hk)) hle
  stage_nodup := hnodup
  offered := hoffered
  offers_nodup := hoffers

/-- The same slots, and the same messages or fewer. -/
theorem fewer (hends : s'.ends = s.ends) (howner : s'.owner = s.owner)
    (hstages : s'.stages.Subperm s.stages) (hreqs : s'.reqs = s.reqs)
    (hchannels : s'.channels = s.channels) : Setup s' := by
  have hsend : s'.sendId = s.sendId := sendId_congr hends
  have hrecv : s'.recvId = s.recvId := recvId_congr howner
  have hsame (j : Nat) : SameAt s s' j :=
    ⟨fun he _ => by rwa [hends] at he, by rw [hrecv]⟩
  have hstage {m : Message} (hm : m ∈ s'.stages) : m ∈ s.stages := hstages.subset hm
  refine h.touch s.channels (fun j _ => hsame j) ?_ ?_ ?_ ?_ ?_ (fun hm _ => hstage hm) ?_ ?_
    hchannels.ge ?_ ?_
  · rw [hends]
    exact h.send_null
  · rw [howner]
    exact h.recv_null
  · rw [hsend, hchannels]
    exact h.send
  · rw [hrecv, hchannels]
    exact h.recv
  · intro l e he hlast _
    rw [hends] at he
    exact absurd (h.send.lt (sendId_of_ends he)) (hlast ▸ lt_irrefl _)
  · intro m hm hlast
    exact absurd (h.stage_lt (hstage hm)) (hlast ▸ lt_irrefl _)
  · obtain ⟨ms, hperm, hsublist⟩ := hstages
    exact (hperm.map _).nodup_iff.mp ((hsublist.map _).nodup h.stage_nodup)
  · rw [howner, hreqs]
    exact h.offered
  · rw [hreqs]
    exact h.offers_nodup

theorem kept (hk : s.Kept s') : Setup s' :=
  h.fewer hk.ends hk.owner hk.stages.subperm hk.reqs hk.channels

theorem drop (i : Nat) : Setup (s.take i) :=
  h.fewer rfl rfl ((eraseIdx_sublist ..).filter _).subperm rfl rfl

variable {e : Ends} {n : Int}

/-- The last channel is that of a new send slot. -/
theorem last_ends (hends : s'.ends = update s.ends l (some e)) {e' : Ends}
    (he' : s'.ends l' = some e') (hk : e'.channel = s.channels) : e' = e := by
  rw [hends] at he'
  obtain ⟨-, heq⟩ | ⟨-, hold⟩ := update_eq_some.mp he'
  · exact (Option.some.inj heq).symm
  · exact absurd (h.send.lt (sendId_of_ends hold)) (hk ▸ lt_irrefl _)

/-- A new send slot that knows no receive slot yet, with or without the request for one. -/
theorem create (hnull : l.addr ≠ nullptr)
    (he : e.channel = s.channels) (hclosed : e.destHandle = nullptr)
    (hends : s'.ends = update s.ends l (some e)) (howner : s'.owner = s.owner)
    {r : Nat} {a : PersistentHandle} (hstages : s'.stages = s.stages ∨
      s'.stages = s.stages ++ [.request s.channels e.destPE r n a])
    (hreqs : s'.reqs = s.reqs) (hchannels : s'.channels = s.channels + 1) : Setup s' := by
  have hrecv : s'.recvId = s.recvId := recvId_congr howner
  have hmem {m : Message} (hm : m ∈ s'.stages) :
      m ∈ s.stages ∨ m = .request s.channels e.destPE r n a := by
    obtain hs | hs := hstages
    · exact .inl (hs ▸ hm)
    · rw [hs] at hm
      simpa using hm
  refine h.touch s.channels (fun j hj => ?_) ?_ ?_ ?_ ?_ ?_ ?_ ?_ ?_ ?_ ?_ ?_
  · exact same_at_ends hj hends (fun e' heq => Option.some.inj heq ▸ he) howner
  · rw [hends]
    exact null_update h.send_null fun _ => hnull
  · rw [howner]
    exact h.recv_null
  · rw [sendId_update hends, hchannels, map_some, he]
    exact h.send.insert_next
  · rw [hrecv, hchannels]
    exact h.recv.mono (Nat.le_succ _)
  · intro l' e' he' hk hopen
    exact absurd (h.last_ends hends he' hk ▸ hclosed) hopen
  · intro m hm hne
    obtain hm | rfl := hmem hm
    · exact hm
    · exact absurd rfl hne
  · intro m hm hk
    obtain hm | rfl := hmem hm
    · exact absurd (h.stage_lt hm) (hk ▸ lt_irrefl _)
    · refine ⟨hchannels ▸ Nat.lt_succ_self _, fun l' hl' => ?_, fun l' e' he' hk => ?_⟩
      · rw [hrecv] at hl'
        exact lt_irrefl _ (h.recv.lt hl')
      · rw [h.last_ends hends he' hk]
        exact ⟨rfl, hclosed⟩
  · obtain hs | hs := hstages
    · rw [hs]
      exact h.stage_nodup
    · rw [hs]
      exact nodup_map_concat h.stage_nodup fun m hm => (h.stage_lt hm).ne
  · rw [hchannels]
    exact Nat.le_succ _
  · rw [howner, hreqs]
    exact h.offered
  · rw [hreqs]
    exact h.offers_nodup

/-- A receive slot is on offer. -/
theorem createReceiver (hl : s.owner r.loc = none)
    (hnull : r.loc.addr ≠ nullptr) (hends : s'.ends = s.ends)
    (howner : s'.owner = update s.owner r.loc (some none)) (hstages : s'.stages = s.stages)
    (hreqs : s'.reqs = s.reqs ++ [r]) (hchannels : s'.channels = s.channels) : Setup s' := by
  have hnone : s.recvId r.loc = none := by
    rw [recvId, hl, join_none]
  have hrecv : s'.recvId = s.recvId := by
    rw [recvId_update howner, join_some, ← hnone, update_eq_self]
  have hnotin : ∀ r' ∈ s.reqs, r'.loc ≠ r.loc := by
    intro r' hr' heq
    have hoffer := h.offered hr'
    rw [heq, hl] at hoffer
    cases hoffer
  refine h.touch s.channels (fun j hj => ?_) ?_ ?_ ?_ ?_ ?_ ?_ ?_ ?_ hchannels.ge ?_ ?_
  · exact same_at_owner hj howner (.inl rfl) (.inl hnone) hends
  · rw [hends]
    exact h.send_null
  · rw [howner]
    exact null_update h.recv_null fun _ => hnull
  · rw [hchannels, sendId_congr hends]
    exact h.send
  · rw [hrecv, hchannels]
    exact h.recv
  · intro l e he hlast _
    rw [hends] at he
    exact absurd (h.send.lt (sendId_of_ends he)) (hlast ▸ lt_irrefl _)
  · intro m hm _
    exact hstages ▸ hm
  · intro m hm hlast
    exact absurd (h.stage_lt (hstages ▸ hm)) (hlast ▸ lt_irrefl _)
  · rw [hstages]
    exact h.stage_nodup
  · intro r' hr'
    rw [hreqs] at hr'
    rw [howner]
    rcases mem_append.mp hr' with hr' | hr'
    · rw [update_of_ne (hnotin r' hr')]
      exact h.offered hr'
    · rw [mem_singleton.mp hr', update_self]
  · rw [hreqs]
    exact nodup_map_concat h.offers_nodup hnotin

/-- The slot on offer gets a sender. -/
theorem register {j : Nat}
    (hr : s.reqs[j]? = some r) (hnull : l.addr ≠ nullptr) (he : e.channel = s.channels)
    (hdest : (⟨e.destPE, e.destHandle⟩ : Loc) = r.loc) (hends : s'.ends = update s.ends l (some e))
    (howner : s'.owner = update s.owner r.loc (some (some s.channels)))
    (hstages : s'.stages = s.stages) (hreqs : s'.reqs = s.reqs.eraseIdx j)
    (hchannels : s'.channels = s.channels + 1) : Setup s' := by
  have hoffer : s.owner r.loc = some none := h.offered (mem_of_getElem? hr)
  have hnone : s.recvId r.loc = none := by
    rw [recvId, hoffer, join_some]
  have hnotin : ∀ r' ∈ s.reqs.eraseIdx j, r'.loc ≠ r.loc := by
    intro r' hr' heq
    have hnodup := ((perm_cons_eraseIdx hr).map PersistentReq.loc).nodup_iff.mp h.offers_nodup
    exact (nodup_cons.mp hnodup).1 (mem_map.mpr ⟨r', hr', heq⟩)
  refine h.touch s.channels (fun j hj => ⟨fun {l' e'} he' hk => ?_, fun {l'} => ?_⟩)
    ?_ ?_ ?_ ?_ ?_ ?_ ?_ ?_ ?_ ?_ ?_
  · rw [hends] at he'
    obtain ⟨-, heq⟩ | ⟨-, hold⟩ := update_eq_some.mp he'
    · rw [← Option.some.inj heq, he] at hk
      exact absurd hk.symm hj
    · exact hold
  · rw [recvId_update howner]
    rcases eq_or_ne l' r.loc with rfl | hne
    · rw [update_self, hnone]
      exact iff_of_false (fun heq => hj (Option.some.inj heq).symm) nofun
    · rw [update_of_ne hne]
  · rw [hends]
    exact null_update h.send_null fun _ => hnull
  · rw [howner]
    exact null_update h.recv_null fun _ => h.recv_null hoffer
  · rw [sendId_update hends, hchannels, map_some, he]
    exact h.send.insert_next
  · rw [recvId_update howner, hchannels]
    exact h.recv.insert_next
  · intro l' e' he' hk _
    rw [h.last_ends hends he' hk, hdest, recvId_update howner]
    exact update_self ..
  · intro m hm _
    exact hstages ▸ hm
  · intro m hm hk
    exact absurd (h.stage_lt (hstages ▸ hm)) (hk ▸ lt_irrefl _)
  · rw [hstages]
    exact h.stage_nodup
  · rw [hchannels]
    exact Nat.le_succ _
  · intro r' hr'
    rw [hreqs] at hr'
    rw [howner, update_of_ne (hnotin r' hr')]
    exact h.offered (mem_of_mem_eraseIdx hr')
  · rw [hreqs]
    exact ((eraseIdx_sublist ..).map _).nodup h.offers_nodup

variable {ms : List Message} {a d : PersistentHandle}

/-- The other messages are about other channels. -/
theorem others (hm : s.stages.Perm (m :: ms)) :
    (∀ m' ∈ ms, m'.channel ≠ m.channel) ∧ (ms.map Message.channel).Nodup := by
  have hnodup := (hm.map Message.channel).nodup_iff.mp h.stage_nodup
  rw [map_cons, nodup_cons] at hnodup
  exact ⟨fun m' hm' heq => hnodup.1 (mem_map.mpr ⟨m', hm', heq⟩), hnodup.2⟩

/-- The offers do not notice what happens to a receive slot that is not on offer. -/
theorem offered_update (hl : s.owner l ≠ some none)
    (howner : s'.owner = update s.owner l o) (hreqs : s'.reqs = s.reqs)
    (hr : r ∈ s'.reqs) : s'.owner r.loc = some none := by
  have hoffer := h.offered (hreqs ▸ hr)
  have hne : r.loc ≠ l := fun heq => hl (heq ▸ hoffer)
  rw [howner, update_of_ne hne]
  exact hoffer

/-- A request is answered: the receive slot of its channel is made and granted. -/
theorem request {k q r : Nat}
    (hm : s.stages.Perm (.request k q r n a :: ms)) (hl : s.owner ⟨q, d⟩ = none)
    (hnull : d ≠ nullptr) (hends : s'.ends = s.ends)
    (howner : s'.owner = update s.owner ⟨q, d⟩ (some (some k)))
    (hstages : s'.stages = ms ++ [.granted k r q a d]) (hreqs : s'.reqs = s.reqs)
    (hchannels : s'.channels = s.channels) : Setup s' := by
  have hmem : .request k q r n a ∈ s.stages := hm.mem_iff.mpr mem_cons_self
  have hk : k < s.channels := h.stage_lt hmem
  obtain ⟨hnew, hdest⟩ := h.stage hmem
  obtain ⟨hother, hnodup⟩ := h.others hm
  have hnone : s.recvId ⟨q, d⟩ = none := by
    rw [recvId, hl, join_none]
  refine h.touch k (fun j hj => ?_) ?_ ?_ ?_ ?_ ?_ ?_ ?_ ?_ hchannels.ge ?_ ?_
  · exact same_at_owner hj howner (.inr rfl) (.inl hnone) hends
  · rw [hends]
    exact h.send_null
  · rw [howner]
    exact null_update h.recv_null fun _ => hnull
  · rw [hchannels, sendId_congr hends]
    exact h.send
  · rw [recvId_update howner, hchannels]
    exact h.recv.insert hk hnew
  · intro l' e' he' hk hopen
    rw [hends] at he'
    exact absurd (hdest l' e' he' hk).2 hopen
  · intro m hm' hne
    rw [hstages] at hm'
    rcases mem_append.mp hm' with hm' | hm'
    · exact hm.mem_iff.mpr (mem_cons_of_mem _ hm')
    · rw [mem_singleton.mp hm'] at hne
      exact absurd rfl hne
  · intro m hm' heq
    rw [hstages] at hm'
    rcases mem_append.mp hm' with hm' | hm'
    · exact absurd heq (hother m hm')
    · rw [mem_singleton.mp hm', hchannels]
      refine ⟨hk, ?_, fun l' e' he' => ?_⟩
      · rw [recvId_update howner]
        exact update_self ..
      · rw [hends] at he'
        exact hdest l' e' he'
  · rw [hstages]
    exact nodup_map_concat hnodup hother
  · exact h.offered_update (hl ▸ nofun) howner hreqs
  · rw [hreqs]
    exact h.offers_nodup

/-- A grant arrives at its own send slot. -/
theorem granted {k q g : Nat}
    (hm : s.stages.Perm (.granted k q g a d :: ms)) (hl : s.ends l = some e) (hown : e.channel = k)
    (hends : s'.ends = update s.ends l (some { e with destHandle := d, setupDone := true }))
    (howner : s'.owner = s.owner) (hstages : s'.stages = ms) (hreqs : s'.reqs = s.reqs)
    (hchannels : s'.channels = s.channels) : Setup s' := by
  have hmem : .granted k q g a d ∈ s.stages := hm.mem_iff.mpr mem_cons_self
  obtain ⟨hrecv, hdest⟩ := h.stage hmem
  obtain ⟨hother, hnodup⟩ := h.others hm
  have hid : s'.sendId = s.sendId := by
    rw [sendId_update hends, map_some, ← sendId_of_ends hl, update_eq_self]
  have hid' : s'.recvId = s.recvId := recvId_congr howner
  refine h.touch k (fun j hj => ?_) ?_ ?_ ?_ ?_ ?_ ?_ ?_ ?_ hchannels.ge ?_ ?_
  · exact same_at_ends hj hends (fun e' heq => Option.some.inj heq ▸ hown) howner
  · rw [hends]
    exact null_update h.send_null fun _ => h.send_null hl
  · rw [howner]
    exact h.recv_null
  · rw [hid, hchannels]
    exact h.send
  · rw [hid', hchannels]
    exact h.recv
  · intro l' e' he' hk _
    have hplace : l' = l := by
      refine h.send.inj ?_ ((sendId_of_ends hl).trans (congrArg some hown))
      rw [← hid, sendId_of_ends he', hk]
    rw [hends, hplace, update_self] at he'
    rw [← Option.some.inj he', hid', (hdest l e hl hown).1]
    exact hrecv
  · intro m hm' _
    exact hm.mem_iff.mpr (mem_cons_of_mem _ (hstages ▸ hm'))
  · intro m hm' heq
    exact absurd heq (hother m (hstages ▸ hm'))
  · rw [hstages]
    exact hnodup
  · rw [howner, hreqs]
    exact h.offered
  · rw [hreqs]
    exact h.offers_nodup

/-- A sender that knows its receive slot has nothing else under way. -/
theorem nothing_else (hl : s.ends l = some e)
    (hopen : e.destHandle ≠ nullptr) : ∀ m ∈ s.stages, m.channel ≠ e.channel := by
  intro m hm heq
  have hstage := h.stage hm
  cases m with
  | request | granted => exact hopen (hstage.2 l e hl heq.symm).2
  | destroy => exact hstage.2 l ((sendId_of_ends hl).trans (congrArg some heq.symm))
  | data | credit | user => simp [stages, Message.isStage] at hm

/-- A send slot goes away. If it knew a receive slot, a destroy message is sent there. -/
theorem destroyCall (hl : s.ends l = some e)
    (hends : s'.ends = update s.ends l none) (howner : s'.owner = s.owner)
    (hstages : s'.stages = if e.destHandle = nullptr then s.stages
      else s.stages ++ [.destroy e.channel e.destPE e.destHandle])
    (hreqs : s'.reqs = s.reqs) (hchannels : s'.channels = s.channels) : Setup s' := by
  have hid' : s'.recvId = s.recvId := recvId_congr howner
  have hgone {l' : Loc} {e' : Ends} (he' : s'.ends l' = some e') : e'.channel ≠ e.channel := by
    intro heq
    rw [hends] at he'
    obtain ⟨-, hnone⟩ | ⟨hne, hold⟩ := update_eq_some.mp he'
    · cases hnone
    · exact hne (h.send.inj (sendId_of_ends hold)
        ((sendId_of_ends hl).trans (congrArg some heq.symm)))
  have hmem {m : Message} (hm : m ∈ s'.stages) : m ∈ s.stages ∨
      (e.destHandle ≠ nullptr ∧ m = .destroy e.channel e.destPE e.destHandle) := by
    rw [hstages] at hm
    split at hm
    · exact .inl hm
    · rcases mem_append.mp hm with hm | hm
      · exact .inl hm
      · exact .inr ⟨by assumption, mem_singleton.mp hm⟩
  refine h.touch e.channel (fun j hj => ?_) ?_ ?_ ?_ ?_ ?_ ?_ ?_ ?_ hchannels.ge ?_ ?_
  · exact same_at_ends hj hends nofun howner
  · rw [hends]
    exact null_update h.send_null fun hnone => absurd rfl hnone
  · rw [howner]
    exact h.recv_null
  · rw [sendId_update hends, hchannels]
    exact h.send.erase
  · rw [hid', hchannels]
    exact h.recv
  · exact fun he' hk _ => absurd hk (hgone he')
  · intro m hm hne
    obtain hm | ⟨-, rfl⟩ := hmem hm
    · exact hm
    · exact absurd rfl hne
  · intro m hm hk
    refine ⟨hchannels ▸ h.send.lt (sendId_of_ends hl), ?_⟩
    obtain hm | ⟨hopen, rfl⟩ := hmem hm
    · have hstage := h.stage hm
      cases m with
      | request | granted =>
        exact ⟨hid' ▸ hstage.1, fun l' e' he' heq => absurd (heq.trans hk) (hgone he')⟩
      | destroy =>
        exact absurd ((sendId_of_ends hl).trans (congrArg some hk.symm)) (hstage.2 l)
      | data | credit | user => trivial
    · refine ⟨hid' ▸ h.opened hl hopen, fun l' hl' => ?_⟩
      obtain ⟨e', he', heq⟩ := map_eq_some_iff.mp hl'
      exact hgone he' heq
  · rw [hstages]
    split
    · exact h.stage_nodup
    · rename_i hopen
      exact nodup_map_concat h.stage_nodup (h.nothing_else hl hopen)
  · rw [howner, hreqs]
    exact h.offered
  · rw [hreqs]
    exact h.offers_nodup

/-- A destroy message that is handled keeps the setup right. -/
theorem destroyed {k q : Nat} {d : PersistentHandle}
    (hm : s.stages.Perm (.destroy k q d :: ms)) (hends : s'.ends = s.ends)
    (howner : s'.owner = update s.owner ⟨q, d⟩ none) (hstages : s'.stages = ms)
    (hreqs : s'.reqs = s.reqs) (hchannels : s'.channels = s.channels) : Setup s' := by
  have hmem : .destroy k q d ∈ s.stages := hm.mem_iff.mpr mem_cons_self
  obtain ⟨hrecv, hgone⟩ := h.stage hmem
  obtain ⟨hother, hnodup⟩ := h.others hm
  refine h.touch k (fun j hj => ?_) ?_ ?_ ?_ ?_ ?_ ?_ ?_ ?_ hchannels.ge ?_ ?_
  · exact same_at_owner hj howner (.inl rfl) (.inr hrecv) hends
  · rw [hends]
    exact h.send_null
  · rw [howner]
    exact null_update h.recv_null fun hnone => absurd rfl hnone
  · rw [hchannels, sendId_congr hends]
    exact h.send
  · rw [recvId_update howner, hchannels]
    exact h.recv.erase
  · intro l' e' he' hk _
    rw [hends] at he'
    exact absurd ((sendId_of_ends he').trans (congrArg some hk)) (hgone l')
  · intro m hm' _
    exact hm.mem_iff.mpr (mem_cons_of_mem _ (hstages ▸ hm'))
  · intro m hm' heq
    exact absurd heq (hother m (hstages ▸ hm'))
  · rw [hstages]
    exact hnodup
  · exact h.offered_update (owner_of_recvId hrecv ▸ nofun) howner hreqs
  · rw [hreqs]
    exact h.offers_nodup

end

/-! ## Events -/

variable {J : Job}

section

variable (h : Setup s)

include h

variable {a : PersistentHandle} {maxBytes : Int}

/-- A channel that is created keeps the setup right. -/
theorem create_call {pe destPE : Nat}
    (hcall : s.cmiCreatePersistent J pe destPE maxBytes a = some s') : Setup s' := by
  obtain ⟨hfree, x, s₁, rfl, rfl, rfl⟩ := create_eq_some hcall
  generalize hx : J.sendSlot pe destPE maxBytes s.channels = x
  have hclosed : x.destHandle = nullptr := by rw [← hx]; rfl
  have hchannel : x.channel = s.channels := by rw [← hx]; rfl
  have hdest : x.destPE = destPE := by rw [← hx]; rfl
  split
  · exact h.create (r := pe)
      (n := x.sizeMax) (a := a) hfree.1 hchannel hclosed (ends_setSend _) rfl (.inl rfl)
      rfl rfl
  · refine h.create (r := pe)
      (n := x.sizeMax) (a := a) hfree.1 hchannel hclosed (ends_setSend _) rfl (.inr ?_)
      rfl rfl
    rw [stages_post, ← hdest]
    rfl

/-- A receive slot that is created by its own PE keeps the setup right. -/
theorem create_receiver_call {pe : Nat}
    (hcall : s.cmiCreateReceiverPersistent J pe maxBytes a = some s') : Setup s' := by
  obtain ⟨hfree, rfl⟩ := create_receiver_eq_some hcall
  exact h.createReceiver (r := ⟨pe, sizeMaxOf maxBytes, a⟩) hfree.owner hfree.1 rfl
    (owner_setRecv _) rfl rfl rfl

/-- A channel that is set up from the receiver's side keeps the setup right. -/
theorem register_call {pe j : Nat}
    (hcall : s.cmiRegisterReceivePersistent J pe j a = some s') : Setup s' := by
  obtain ⟨hfree, r, y, x, hr, hy, rfl, rfl⟩ := register_eq_some hcall
  exact h.register hr hfree.1 rfl rfl (ends_setSend _) (owner_setRecv _) rfl rfl rfl

/-- A channel that is destroyed keeps the setup right. -/
theorem destroy_call (pe : Nat) (a : PersistentHandle) : Setup (s.cmiDestroyPersistent pe a) := by
  obtain ⟨-, heq⟩ | ⟨x, s₁, -, hx, rfl, heq⟩ := destroy_cases s pe a
  · rw [heq]
    exact h
  · rw [heq]
    have hends := ends_of_sends hx
    split
    · rename_i hclosed
      exact h.destroyCall hends (ends_setSend _) rfl (if_pos hclosed).symm rfl rfl
    · rename_i hopen
      refine h.destroyCall hends (ends_setSend _) rfl ?_ rfl rfl
      rw [stages_post]
      exact (if_neg hopen).symm

/-- What the handler of a message preserves. -/
theorem deliver (hown : s.FindsOwn) {reaches : BufIndex → Bool} (hm : s.network[i]? = some m)
    (hhandle : (s.take i).handle J m a reaches = some s') : Setup s' := by
  cases m with
  | request k q r n src =>
    obtain ⟨hfree, rfl⟩ := request_eq_some hhandle
    refine h.request (stages_take hm rfl) hfree.owner hfree.1 rfl
      (owner_setRecv _) ?_ rfl rfl
    rw [stages_post]
    rfl
  | granted k q g src d =>
    have hperm := stages_take hm rfl
    have hmem : .granted k q g src d ∈ s.stages := hperm.mem_iff.mpr mem_cons_self
    cases hhandle
    obtain ⟨-, heq⟩ | ⟨x, s₁, -, hx, rfl, heq⟩ := granted_cases _ q src d reaches
    · rw [heq]
      exact h.drop i
    · rw [heq]
      refine Setup.kept ?_ ((State.Kept.refl _).flush (pending_setSend _ _ _))
      exact h.granted hperm (ends_of_sends hx) (hown hmem (ends_of_sends hx))
        (ends_setSend _) rfl rfl rfl rfl
  | data ctx inlinePayload => exact (h.drop i).kept (kept_data hhandle)
  | credit k q src b =>
    cases hhandle
    exact (h.drop i).kept (kept_credit q src b reaches)
  | destroy k q d =>
    have hperm := stages_take hm rfl
    cases hhandle
    obtain ⟨-, heq⟩ | ⟨y, -, hy, heq⟩ := destroyed_cases _ q d
    · rw [heq]
      exact h.drop i
    · rw [heq]
      exact h.destroyed hperm rfl (owner_setRecv _) rfl rfl rfl
  | user k q msg =>
    cases hhandle
    exact (h.drop i).kept ⟨rfl, rfl, .refl _, rfl, rfl, rfl, rfl, rfl⟩

/-- Every step keeps the setup right. -/
theorem step (hown : s.FindsOwn) {e : Event} (hstep : Step J s e s') : Setup s' := by
  cases e with
  | create => exact h.create_call hstep
  | createReceiver => exact h.create_receiver_call hstep
  | register => exact h.register_call hstep
  | send => exact h.kept (kept_send hstep)
  | deliver i a reaches =>
    obtain ⟨m, hm, hhandle⟩ := Option.bind_eq_some_iff.mp hstep
    exact h.deliver hown hm hhandle
  | land => exact h.kept (kept_land hstep)
  | putDone => exact h.kept (kept_put_done hstep)
  | free => exact h.kept (kept_free hstep)
  | modify => exact h.kept (kept_modify hstep)
  | destroy pe a =>
    cases hstep
    exact h.destroy_call pe a

end

end Setup

end Reconverse.Persistent
