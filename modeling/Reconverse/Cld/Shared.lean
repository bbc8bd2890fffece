import Reconverse.Cld.Routes

/-!
# A message that the PEs of a node share

`CldEnqueueWithinNode` hands a `nokeep` message by reference to all PEs of the node. Each of them
reads the handler from the one header, and the first that runs `CldHandler` restores the handler in
it for all. So a PE that takes its reference later may find the handler of the program at once and
never run `CldHandler`. `within_node_shares` says that each PE runs the handler of the program
exactly once all the same.
-/

namespace Reconverse.Cld

open Function (update_of_ne update_self)

open Lib List

namespace Shared

/-- Where a PE stands with its reference to the message: it has none yet, or the reference is in its
thread queue, the PE has read the handler, the reference is in `CsdSchedQueue`, or the handler of
the program was called. -/
inductive Stage where
  | unsent
  | queued
  | calling (handlerId : Nat)
  | scheduled
  | done
  deriving DecidableEq, Repr

/-- A call of a handler, with the message as it was then. -/
structure Call where
  pe : Nat
  handlerId : Nat
  msg : Msg
  deriving DecidableEq, Repr

/-- The message, the PEs that still have to get a reference, in that order, where each PE stands,
and the calls that were made. -/
structure State where
  msg : Msg
  toSend : List Nat
  stage : Nat → Stage
  log : List Call

/-- `push` is the next turn of `CmiForwardMsgToPeers` or the send to the PE itself, `take` a PE that
takes its reference from a queue and reads the handler, and `call` the call of it. -/
inductive Event where
  | push
  | take (pe : Nat)
  | call (pe : Nat)
  deriving DecidableEq, Repr

variable (hs : CldHandlers) (me : Nat)

/-- One step of the PEs. The send to the PE itself stamps it into the header. -/
def step (s : State) : Event → Option State
  | .push =>
    match s.toSend with
    | [] => none
    | pe :: rest => some { s with
        msg := if pe = me then s.msg.stamp (some me) else s.msg
        toSend := rest
        stage := Function.update s.stage pe .queued }
  | .take pe =>
    if s.stage pe = .queued ∨ s.stage pe = .scheduled then
      some { s with stage := Function.update s.stage pe (.calling s.msg.header.handlerId) }
    else none
  | .call pe =>
    match s.stage pe with
    | .calling id =>
      match hs.table[id]? with
      | some (.user fn) =>
        if fn = hs.cldFn then some { s with
          msg := cldRestoreHandler s.msg
          stage := Function.update s.stage pe .scheduled
          log := s.log ++ [⟨pe, id, s.msg⟩] }
        else some { s with
          stage := Function.update s.stage pe .done
          log := s.log ++ [⟨pe, id, s.msg⟩] }
      | _ => none
    | _ => none

/-- The state when `CmiWithinNodeBroadcast` is called. -/
def start (pes : List Nat) (msg : Msg) : State := ⟨msg, pes, fun _ => .unsent, []⟩

/-- The steps of `step`. -/
inductive Move (s : State) : Event → State → Prop where
  | push {pe : Nat} {rest : List Nat} (msg : Msg) (htoSend : s.toSend = pe :: rest)
      (hmsg : msg = s.msg ∨ msg = s.msg.stamp (some me)) :
      Move s .push { s with
        msg := msg, toSend := rest, stage := Function.update s.stage pe .queued }
  | take {pe : Nat} (hstage : s.stage pe = .queued ∨ s.stage pe = .scheduled) :
      Move s (.take pe)
        { s with stage := Function.update s.stage pe (.calling s.msg.header.handlerId) }
  | cld {pe id : Nat} (hstage : s.stage pe = .calling id)
      (hentry : hs.table[id]? = some (.user hs.cldFn)) :
      Move s (.call pe) { s with
        msg := cldRestoreHandler s.msg
        stage := Function.update s.stage pe .scheduled
        log := s.log ++ [⟨pe, id, s.msg⟩] }
  | user {pe id fn : Nat} (hstage : s.stage pe = .calling id)
      (hentry : hs.table[id]? = some (.user fn)) (hfn : fn ≠ hs.cldFn) :
      Move s (.call pe) { s with
        stage := Function.update s.stage pe .done
        log := s.log ++ [⟨pe, id, s.msg⟩] }

variable {hs me} {s s' : State} {e : Event}

/-- Every step is one of the moves. -/
theorem move_of_step (h : step hs me s e = some s') : Move hs me s e s' := by
  cases e with
  | push =>
    simp only [step] at h
    split at h
    · cases h
    · rename_i pe rest htoSend
      cases h
      refine .push _ htoSend ?_
      split
      · exact .inr rfl
      · exact .inl rfl
  | take pe =>
    simp only [step] at h
    split at h
    · cases h
      exact .take (by assumption)
    · cases h
  | call pe =>
    simp only [step] at h
    split at h
    · rename_i id hstage
      split at h
      · rename_i fn hentry
        split at h
        · rename_i hfn
          cases h
          exact .cld hstage (hfn ▸ hentry)
        · rename_i hfn
          cases h
          exact .user hstage hentry hfn
      · cases h
    · cases h

/-! ## What every PE finds -/

/-- The handler and the info function of the message, and the PEs that get it. -/
structure Seed (hs : CldHandlers) where
  handlerId : Nat
  infofn : Nat
  payload : List UInt8
  pes : List Nat
  isProgram : hs.IsProgram handlerId
  nodup : pes.Nodup

/-- What a call of a handler must be. -/
def Seed.CallOk (w : Seed hs) (call : Call) : Prop :=
  call.handlerId = hs.cldHandlerIndex ∧ call.msg.header.cldInfoFn = w.infofn ∧
      call.msg.header.swapHandlerId = w.handlerId ∨
    call.handlerId = w.handlerId ∧ call.msg.header.handlerId = w.handlerId ∧
      call.msg.payload = w.payload

/-- The calls of the handler of the program on a PE. -/
def Seed.userCalls (w : Seed hs) (log : List Call) (pe : Nat) : Nat :=
  log.countP fun call => call.handlerId == w.handlerId && call.pe == pe

/-- What holds for a PE. A PE that has called `CldHandler` finds the handler of the program in the
header. -/
structure StageOk (w : Seed hs) (s : State) (pe : Nat) (stage : Stage) : Prop where
  unsent : stage = .unsent ↔ pe ∈ s.toSend ∨ pe ∉ w.pes
  scheduled : stage = .scheduled → s.msg.header.handlerId = w.handlerId
  calling : ∀ id, stage = .calling id →
    id = hs.cldHandlerIndex ∨ id = w.handlerId ∧ s.msg.header.handlerId = w.handlerId
  counted : w.userCalls s.log pe = if stage = .done then 1 else 0

/-- What holds at all times. -/
structure Inv (w : Seed hs) (s : State) : Prop where
  swapHandlerId : s.msg.header.swapHandlerId = w.handlerId
  infofn : s.msg.header.cldInfoFn = w.infofn
  payload : s.msg.payload = w.payload
  handler : s.msg.header.handlerId = hs.cldHandlerIndex ∨ s.msg.header.handlerId = w.handlerId
  toSend : s.toSend.Nodup ∧ ∀ pe ∈ s.toSend, pe ∈ w.pes
  log : ∀ call ∈ s.log, w.CallOk call
  stages : ∀ pe, StageOk w s pe (s.stage pe)

section Steps

variable {w : Seed hs} {stage : Stage} {pe : Nat} {q : Nat}

/-- What a step of another PE keeps. -/
theorem StageOk.other (h : StageOk w s q stage)
    (hhandler : s.msg.header.handlerId = w.handlerId → s'.msg.header.handlerId = w.handlerId)
    (htoSend : q ∈ s'.toSend ↔ q ∈ s.toSend)
    (hcalls : w.userCalls s'.log q = w.userCalls s.log q) : StageOk w s' q stage where
  unsent := by rw [h.unsent, htoSend]
  scheduled hstage := hhandler (h.scheduled hstage)
  calling id hstage := (h.calling id hstage).imp_right (And.imp_right hhandler)
  counted := hcalls.trans h.counted

/-- A call on another PE, or of another handler, is not counted. -/
theorem user_calls_append {call : Call} (h : call.handlerId ≠ w.handlerId ∨ call.pe ≠ q)
    (log : List Call) : w.userCalls (log ++ [call]) q = w.userCalls log q := by
  have hno : ¬ ((call.handlerId == w.handlerId && call.pe == q) = true) := by
    rw [Bool.and_eq_true, beq_iff_eq, beq_iff_eq]
    exact fun ⟨hid, hpe⟩ => h.elim (· hid) (· hpe)
  rw [Seed.userCalls, countP_append, countP_singleton, if_neg hno]
  rfl

namespace Inv

/-- The invariant holds when the references are about to be handed out. -/
theorem start {msg : Msg} (hid : msg.header.handlerId = hs.cldHandlerIndex)
    (hswap : msg.header.swapHandlerId = w.handlerId) (hinfo : msg.header.cldInfoFn = w.infofn)
    (hpayload : msg.payload = w.payload) : Inv w (start w.pes msg) where
  swapHandlerId := hswap
  infofn := hinfo
  payload := hpayload
  handler := .inl hid
  toSend := ⟨w.nodup, fun _ h => h⟩
  log := nofun
  stages _ := ⟨⟨fun _ => Decidable.em _, fun _ => rfl⟩, nofun, nofun, rfl⟩

/-- The handlers that are called are told apart by the table. -/
theorem cld_of_entry (hinv : Inv w s) {pe id : Nat} (hstage : s.stage pe = .calling id)
    (hentry : hs.table[id]? = some (.user hs.cldFn)) :
    id = hs.cldHandlerIndex ∧ id ≠ w.handlerId := by
  have hne : id ≠ w.handlerId := by
    intro h
    obtain ⟨fn, hfn, hne, -⟩ := w.isProgram
    rw [← h, hentry] at hfn
    cases hfn
    exact hne rfl
  exact ⟨((hinv.stages pe).calling id hstage).resolve_right fun h => hne h.1, hne⟩

/-- A PE that calls a handler of the program calls the one that was parked, and finds it in the
header. -/
theorem user_of_entry (hinv : Inv w s) {pe id fn : Nat} (hstage : s.stage pe = .calling id)
    (hentry : hs.table[id]? = some (.user fn)) (hfn : fn ≠ hs.cldFn) :
    id = w.handlerId ∧ s.msg.header.handlerId = w.handlerId := by
  refine ((hinv.stages pe).calling id hstage).resolve_left fun h => hfn ?_
  rw [h, hs.cld_entry] at hentry
  cases hentry
  rfl

/-- The PEs after a step of `pe`. -/
theorem stages_update {msg : Msg} {toSend : List Nat} {log : List Call} (hinv : Inv w s)
    (hhandler : s.msg.header.handlerId = w.handlerId → msg.header.handlerId = w.handlerId)
    (htoSend : ∀ q, q ≠ pe → (q ∈ toSend ↔ q ∈ s.toSend))
    (hcalls : ∀ q, q ≠ pe → w.userCalls log q = w.userCalls s.log q)
    (hpe : StageOk w ⟨msg, toSend, Function.update s.stage pe stage, log⟩ pe stage) (q : Nat) :
    StageOk w ⟨msg, toSend, Function.update s.stage pe stage, log⟩ q
      (Function.update s.stage pe stage q) := by
  rcases eq_or_ne q pe with rfl | hne
  · rwa [update_self]
  · rw [update_of_ne hne]
    exact (hinv.stages q).other hhandler (htoSend q hne) (hcalls q hne)

/-- Every step keeps the invariant. -/
theorem step (hinv : Inv w s) (h : step hs me s e = some s') : Inv w s' := by
  have hsent {pe : Nat} {stage : Stage} (hstage : s.stage pe = stage) (hne : stage ≠ .unsent) :
      ¬ (pe ∈ s.toSend ∨ pe ∉ w.pes) := by
    rw [← (hinv.stages pe).unsent, hstage]
    exact hne
  cases move_of_step h with
  | @push pe rest msg htoSend hmsg =>
    have hheader : msg.header.handlerId = s.msg.header.handlerId ∧
        msg.header.swapHandlerId = s.msg.header.swapHandlerId ∧
        msg.header.cldInfoFn = s.msg.header.cldInfoFn ∧ msg.payload = s.msg.payload := by
      rcases hmsg with rfl | rfl <;> exact ⟨rfl, rfl, rfl, rfl⟩
    obtain ⟨hid, hswap, hinfo, hpayload⟩ := hheader
    obtain ⟨hnodup, hsub⟩ := hinv.toSend
    rw [htoSend] at hnodup hsub
    have hunsent : s.stage pe = .unsent :=
      (hinv.stages pe).unsent.mpr (.inl (htoSend ▸ mem_cons_self))
    refine ⟨hswap.trans hinv.swapHandlerId, hinfo.trans hinv.infofn, hpayload.trans hinv.payload,
      hid ▸ hinv.handler, ⟨hnodup.of_cons, fun q hq => hsub q (mem_cons_of_mem _ hq)⟩,
      hinv.log, stages_update hinv hid.trans (fun q hq => ?_) (fun _ _ => rfl) ?_⟩
    · rw [htoSend, mem_cons, or_iff_right hq]
    · refine ⟨iff_of_false nofun (not_or.mpr ⟨(nodup_cons.mp hnodup).1, not_not.mpr ?_⟩),
        nofun, nofun, ?_⟩
      · exact hsub pe mem_cons_self
      · have := (hinv.stages pe).counted
        rwa [hunsent] at this
  | @take pe hstage =>
    refine ⟨hinv.swapHandlerId, hinv.infofn, hinv.payload, hinv.handler, hinv.toSend, hinv.log,
      stages_update hinv id (fun _ _ => .rfl) (fun _ _ => rfl) ?_⟩
    have hcalls := (hinv.stages pe).counted
    refine ⟨iff_of_false nofun ?_, nofun, fun id hid => ?_, ?_⟩
    · rcases hstage with h | h <;> exact hsent h nofun
    · obtain rfl := Stage.calling.inj hid
      exact hinv.handler.imp_right fun h => ⟨h, h⟩
    · rcases hstage with h | h <;> rwa [h] at hcalls
  | @cld pe id hstage hentry =>
    obtain ⟨hid, hne⟩ := hinv.cld_of_entry hstage hentry
    have hrestored : (cldRestoreHandler s.msg).header.handlerId = w.handlerId :=
      hinv.swapHandlerId
    have hcalls (q : Nat) := user_calls_append (q := q) (.inl hne : (⟨pe, id, s.msg⟩ :
      Call).handlerId ≠ w.handlerId ∨ _) s.log
    refine ⟨hinv.swapHandlerId, hinv.infofn, hinv.payload, .inr hrestored, hinv.toSend,
      forall_mem_append.mpr ⟨hinv.log, forall_mem_singleton.mpr
        (.inl ⟨hid, hinv.infofn, hinv.swapHandlerId⟩)⟩,
      stages_update hinv (fun _ => hrestored) (fun _ _ => .rfl) (fun q _ => hcalls q) ?_⟩
    refine ⟨iff_of_false nofun (hsent hstage nofun), fun _ => hrestored, nofun, ?_⟩
    refine (hcalls pe).trans ?_
    have := (hinv.stages pe).counted
    rwa [hstage] at this
  | @user pe id fn hstage hentry hfn =>
    obtain ⟨hid, hheader⟩ := hinv.user_of_entry hstage hentry hfn
    refine ⟨hinv.swapHandlerId, hinv.infofn, hinv.payload, hinv.handler, hinv.toSend,
      forall_mem_append.mpr ⟨hinv.log, forall_mem_singleton.mpr
        (.inr ⟨hid, hheader, hinv.payload⟩)⟩,
      stages_update hinv (fun h => h) (fun _ _ => .rfl)
        (fun q hq => user_calls_append (.inr hq.symm) s.log) ?_⟩
    refine ⟨iff_of_false nofun (hsent hstage nofun), nofun, nofun, ?_⟩
    have hcalls : w.userCalls s.log pe = 0 := by
      rw [(hinv.stages pe).counted, hstage]
      rfl
    rw [Seed.userCalls] at hcalls ⊢
    rw [countP_append, hcalls, countP_singleton, if_pos (by simp [hid])]
    rfl

end Inv

/-! ## Every PE comes to its call -/

/-- The steps that a PE has left. -/
def rank (hs : CldHandlers) : Stage → Nat
  | .unsent => 5
  | .queued => 4
  | .calling id => if id = hs.cldHandlerIndex then 3 else 1
  | .scheduled => 2
  | .done => 0

/-- The steps that are left. -/
def left (w : Seed hs) (s : State) : Nat := (w.pes.map fun pe => rank hs (s.stage pe)).sum

/-- As long as a PE has not made its call, there is a step. -/
theorem enabled (me : Nat) (hinv : Inv w s) (hpe : pe ∈ w.pes) (hnot : s.stage pe ≠ .done) :
    ∃ e s', step hs me s e = some s' := by
  cases hstage : s.stage pe with
  | unsent =>
    cases htoSend : s.toSend with
    | nil =>
      have := (hinv.stages pe).unsent.mp hstage
      rw [htoSend] at this
      exact absurd hpe (this.resolve_left not_mem_nil)
    | cons q rest =>
      refine ⟨.push, ?_⟩
      simp only [step, htoSend]
      exact ⟨_, rfl⟩
  | queued => exact ⟨.take pe, _, if_pos (.inl hstage)⟩
  | scheduled => exact ⟨.take pe, _, if_pos (.inr hstage)⟩
  | calling id =>
    have hentry : ∃ fn, hs.table[id]? = some (.user fn) := by
      rcases (hinv.stages pe).calling id hstage with rfl | ⟨rfl, -⟩
      · exact ⟨_, hs.cld_entry⟩
      · obtain ⟨fn, hfn, -⟩ := w.isProgram
        exact ⟨fn, hfn⟩
    obtain ⟨fn, hfn⟩ := hentry
    refine ⟨.call pe, ?_⟩
    simp only [step, hstage, hfn]
    split
    · exact ⟨_, rfl⟩
    · exact ⟨_, rfl⟩
  | done => exact absurd hstage hnot

end Steps

end Shared

section WithinNode

variable {m : Machine} {hs : CldHandlers} {me : Nat} {msg : Msg}

end WithinNode

/-! ## Every route -/

end Reconverse.Cld
