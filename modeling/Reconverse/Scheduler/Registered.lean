import Reconverse.Lib.Runs
import Reconverse.Scheduler.Queues
import Reconverse.Scheduler.Registry

/-!
# The default scheduler

`CsdSchedulerRegistered` polls the thread queue and the node queues first and then sweeps the slot
table from a start that moves by one with each iteration, until a handler finds work. Each poll is a
step, and others may push to the queues and take from them between any two steps.

After `node_queue_max` node-level messages in a row an iteration skips the node queues. But its
sweep may meet a slot of `pollProgress`, which runs node-level messages again, or the slot of
`pollNodePrioQueue`, before it meets one of `pollThreadPrioQueue`. Whether the PE's own messages are
sure to get a turn depends on how the slots lie (`Config.HasTurn`).
-/

namespace Reconverse.Scheduler.Registered

open Lib

variable {t : Nat} {c : Config}

/-- `node_queue_max`, the slot table, and whether the PE polls the network (`t_pollsProgress`). -/
structure Config where
  nodeQueueMax : Nat
  pollHandlers : List Poll
  pollsProgress : Bool

/-- The handler in a slot; indices wrap around. -/
def Config.slot (c : Config) (i : Nat) : Poll := c.pollHandlers.getD (i % schedTableSize) .noWork

/-- Where the loop is: at the start of an iteration, at `pollNodeQueuesFirst`, at step `t` of the
sweep, or there in `pollProgress` after the network has delivered something. -/
inductive Pc where
  | top
  | nodeQueues
  | sweep (t : Nat)
  | progressThread (t : Nat)
  | progressNode (t : Nat)
  deriving DecidableEq, Repr

/-- The queues and the variables of the loop: `t_nodeStreak`, `loop_counter` and
`t_progressFoundNothing`. `nodeRun` and `localRun` count the node-level messages and the messages of
`CsdSchedQueue` that were run. -/
structure State where
  queues : Queues
  streak : Nat
  counter : Nat
  foundNothing : Bool
  pc : Pc
  nodeRun : Nat
  localRun : Nat
  deriving DecidableEq, Repr

/-- `CsdSchedulerRegistered` is called. -/
def State.start (queues : Queues) (streak : Nat) : State where
  queues := queues
  streak := streak
  counter := 0
  foundNothing := false
  pc := .top
  nodeRun := 0
  localRun := 0

namespace State

variable (c : Config) (s : State)

/-- The iteration ends. -/
def endIteration : State := { s with counter := s.counter + 1, pc := .top }

/-- A node-level message is taken and run. -/
def runNode (queues : Queues) : State := { s with queues := queues, nodeRun := s.nodeRun + 1 }

/-- `pollNodeQueuesFirst`, and whether it ran a message. -/
def pollNodeQueuesFirst (lock : Bool) : State × Bool :=
  if s.streak ≥ c.nodeQueueMax ∧ s.queues.csdSchedQueue ≠ [] then
    ({ s with streak := 0 }, false)
  else
    match s.queues.cmiTakeNodeQueue with
    | some queues => ({ s.runNode queues with streak := s.streak + 1 }, true)
    | none =>
      match s.queues.cmiTakeNodePrioQueueIfAhead lock with
      | some queues => ({ s.runNode queues with streak := s.streak + 1 }, true)
      | none => ({ s with streak := 0 }, false)

/-- The handler in the slot at step `t` of the sweep. `progress` is what `comm_backend::progress`
returns if it is called. -/
def pollSlot (t : Nat) (lock progress : Bool) : State :=
  let next := { s with pc := .sweep (t + 1) }
  match c.slot (s.counter + t) with
  | .noWork => next
  | .converseThreadQueue =>
    match s.queues.cmiTakeThreadQueue with
    | some queues => { s with queues := queues }.endIteration
    | none => next
  | .nodePrioQueue =>
    match s.queues.cmiTakeNodePrioQueue lock with
    | some queues => (s.runNode queues).endIteration
    | none => next
  | .threadPrioQueue =>
    match s.queues.cmiTakeThreadPrioQueue with
    | some queues => { s with queues := queues, localRun := s.localRun + 1 }.endIteration
    | none => next
  | .progress =>
    if s.foundNothing || !c.pollsProgress then next
    else if progress then { s with pc := .progressThread t }
    else { next with foundNothing := true }

/-- The next poll of the loop. -/
def poll (lock progress : Bool) : State :=
  match s.pc with
  | .top =>
    let s := { s with foundNothing := false }
    match s.queues.cmiTakeThreadQueue with
    | some queues => { s with queues := queues }.endIteration
    | none => { s with pc := .nodeQueues }
  | .nodeQueues =>
    match s.pollNodeQueuesFirst c lock with
    | (s, true) => s.endIteration
    | (s, false) => { s with pc := .sweep 0 }
  | .sweep t => if t < schedTableSize then s.pollSlot c t lock progress else s.endIteration
  | .progressThread t =>
    match s.queues.cmiTakeThreadQueue with
    | some queues => { s with queues := queues }.endIteration
    | none => { s with pc := .progressNode t }
  | .progressNode t =>
    match s.pollNodeQueuesFirst c lock with
    | (s, true) => s.endIteration
    | (s, false) => { s with pc := .sweep (t + 1) }

end State

/-- A push or a take by others, or the next poll of the PE. -/
inductive Event where
  | traffic (t : Traffic)
  | poll (lock progress : Bool)
  deriving DecidableEq, Repr

/-- One event. -/
def State.step (c : Config) (s : State) : Event → State
  | .traffic t => { s with queues := s.queues.after t }
  | .poll lock progress => s.poll c lock progress

/-- `s` goes to `s'` by the event. -/
def Step (c : Config) (s : State) (e : Event) (s' : State) : Prop := s' = s.step c e

/-- The PE has messages of its own, and no message is delivered to it. -/
def State.Waiting (s : State) : Prop :=
  s.queues.csdSchedQueue ≠ [] ∧ s.queues.threadQueue = 0

/-- In every run, as long as the PE waits and no message of `CsdSchedQueue` is run, at most `bound`
node-level messages are run. -/
def Config.Bounded (c : Config) (bound : Nat) : Prop :=
  ∀ queues streak es s fs s', Steps (Step c) (State.start queues streak) es s →
    Steps (fun s e s' => Step c s e s' ∧ s.Waiting ∧ s'.Waiting) s fs s' →
    s'.localRun = s.localRun → s'.nodeRun ≤ s.nodeRun + bound

/-- A sweep from slot `i` meets a slot of `pollThreadPrioQueue` before one of
`pollNodePrioQueue`. -/
def Config.LocalFirst (c : Config) (i : Nat) : Prop :=
  ∃ t < schedTableSize, c.slot (i + t) = .threadPrioQueue ∧
    ∀ j < t, c.slot (i + j) ≠ .nodePrioQueue

/-- A sweep from slot `i` meets a slot of `pollThreadPrioQueue` before one of `pollNodePrioQueue` or
`pollProgress`. -/
def Config.LocalNext (c : Config) (i : Nat) : Prop :=
  ∃ t < schedTableSize, c.slot (i + t) = .threadPrioQueue ∧
    ∀ j < t, c.slot (i + j) ≠ .nodePrioQueue ∧ c.slot (i + j) ≠ .progress

/-- Somewhere in the table `node_queue_max` slots in a row, from each of which a sweep meets
`pollThreadPrioQueue` before `pollNodePrioQueue` and `pollProgress`, follow a slot from which it
meets `pollThreadPrioQueue` before `pollNodePrioQueue`. -/
def Config.HasTurn (c : Config) : Prop :=
  ∃ p < schedTableSize, c.LocalFirst p ∧ ∀ k < c.nodeQueueMax, c.LocalNext (p + 1 + k)

instance (c : Config) (i : Nat) : Decidable (c.LocalFirst i) :=
  inferInstanceAs (Decidable (∃ t < _, _))

instance (c : Config) (i : Nat) : Decidable (c.LocalNext i) :=
  inferInstanceAs (Decidable (∃ t < _, _))

instance (c : Config) : Decidable c.HasTurn := inferInstanceAs (Decidable (∃ p < _, _))

/-! ## Slots -/

namespace Config

variable {c : Config} {i j : Nat}

theorem slot_congr (h : i % schedTableSize = j % schedTableSize) (t : Nat) :
    c.slot (i + t) = c.slot (j + t) := by
  rw [slot, slot, Nat.add_mod, h, ← Nat.add_mod]

theorem LocalFirst.congr (hi : c.LocalFirst i) (h : i % schedTableSize = j % schedTableSize) :
    c.LocalFirst j := by
  obtain ⟨t, ht, hslot, hbefore⟩ := hi
  refine ⟨t, ht, (slot_congr h t).symm.trans hslot, fun k hk => ?_⟩
  rw [← slot_congr h k]
  exact hbefore k hk

theorem LocalNext.congr (hi : c.LocalNext i) (h : i % schedTableSize = j % schedTableSize) :
    c.LocalNext j := by
  obtain ⟨t, ht, hslot, hbefore⟩ := hi
  refine ⟨t, ht, (slot_congr h t).symm.trans hslot, fun k hk => ?_⟩
  rw [← slot_congr h k]
  exact hbefore k hk

theorem LocalNext.localFirst (h : c.LocalNext i) : c.LocalFirst i := by
  obtain ⟨t, ht, hslot, hbefore⟩ := h
  exact ⟨t, ht, hslot, fun j hj => (hbefore j hj).1⟩

/-- The places of a turn, wherever the counter is. -/
theorem HasTurn.after (h : c.HasTurn) (n : Nat) : ∃ q, n < q ∧ q ≤ n + schedTableSize ∧
    c.LocalFirst q ∧ ∀ k < c.nodeQueueMax, c.LocalNext (q + 1 + k) := by
  obtain ⟨p, hp, hfirst, hnext⟩ := h
  -- The first counter above `n` that is at slot `p`.
  have hsize : 0 < schedTableSize := by decide
  have hq : ∃ q, n < q ∧ q ≤ n + schedTableSize ∧ q % schedTableSize = p % schedTableSize := by
    refine ⟨n + 1 + (p + schedTableSize - (n + 1) % schedTableSize) % schedTableSize, by omega, ?_,
      ?_⟩
    · have := Nat.mod_lt (p + schedTableSize - (n + 1) % schedTableSize) hsize
      omega
    · have hlt := Nat.mod_lt (n + 1) hsize
      rw [Nat.add_mod, Nat.mod_mod, ← Nat.add_mod]
      have hsplit : n + 1 = schedTableSize * ((n + 1) / schedTableSize) +
          (n + 1) % schedTableSize :=
        (Nat.div_add_mod ..).symm
      have hsum : n + 1 + (p + schedTableSize - (n + 1) % schedTableSize) =
          p + schedTableSize * ((n + 1) / schedTableSize + 1) := by
        rw [Nat.mul_succ]
        omega
      rw [hsum, Nat.add_mul_mod_self_left]
  obtain ⟨q, hlt, hle, hmod⟩ := hq
  refine ⟨q, hlt, hle, hfirst.congr hmod.symm, fun k hk => (hnext k hk).congr ?_⟩
  rw [Nat.add_assoc, Nat.add_assoc, Nat.add_mod, ← hmod, ← Nat.add_mod]

end Config

/-! ## A poll of a PE that waits -/

namespace State

variable {c : Config} {s s' : State} {lock : Bool}

/-- A node message was run: the streak was not used up. -/
theorem poll_node_queues_eq_true (h : s.pollNodeQueuesFirst c lock = (s', true)) :
    (s.queues.csdSchedQueue ≠ [] → s.streak < c.nodeQueueMax) ∧
    ∃ queues, s' = { s.runNode queues with streak := s.streak + 1 } := by
  rw [pollNodeQueuesFirst] at h
  split at h
  · cases h
  rename_i hturn
  refine ⟨fun hsched => Nat.lt_of_not_le fun hge => hturn ⟨hge, hsched⟩, ?_⟩
  split at h
  · exact ⟨_, (Prod.mk.inj h).1.symm⟩
  · split at h
    · exact ⟨_, (Prod.mk.inj h).1.symm⟩
    · cases h

theorem poll_node_queues_eq_false (h : s.pollNodeQueuesFirst c lock = (s', false)) :
    s' = { s with streak := 0 } := by
  rw [pollNodeQueuesFirst] at h
  split at h
  · exact (Prod.mk.inj h).1.symm
  · split at h
    · cases h
    · split at h
      · cases h
      · exact (Prod.mk.inj h).1.symm

/-- What a poll can do when the PE waits. -/
inductive Move (c : Config) (s : State) : State → Prop where
  | start : s.pc = .top → Move c s { s with foundNothing := false, pc := .nodeQueues }
  | node {queues : Queues} : s.pc = .nodeQueues → s.streak < c.nodeQueueMax →
      Move c s { s.runNode queues with streak := s.streak + 1 }.endIteration
  | skip : s.pc = .nodeQueues → Move c s { s with streak := 0, pc := .sweep 0 }
  | pass {t : Nat} {found : Bool} : s.pc = .sweep t → c.slot (s.counter + t) ≠ .threadPrioQueue →
      Move c s { s with foundNothing := found, pc := .sweep (t + 1) }
  | nodePrio {t : Nat} {queues : Queues} : s.pc = .sweep t →
      c.slot (s.counter + t) = .nodePrioQueue → Move c s (s.runNode queues).endIteration
  | own {t : Nat} {queues : Queues} : s.pc = .sweep t →
      Move c s { s with queues := queues, localRun := s.localRun + 1 }.endIteration
  | progress {t : Nat} : s.pc = .sweep t → c.slot (s.counter + t) = .progress →
      Move c s { s with pc := .progressThread t }
  | delivered {t : Nat} : s.pc = .progressThread t → Move c s { s with pc := .progressNode t }
  | progressNode {t : Nat} {queues : Queues} : s.pc = .progressNode t →
      Move c s { s.runNode queues with streak := s.streak + 1 }.endIteration
  | progressSkip {t : Nat} : s.pc = .progressNode t →
      Move c s { s with streak := 0, pc := .sweep (t + 1) }
  | swept {t : Nat} : s.pc = .sweep t → schedTableSize ≤ t → Move c s s.endIteration

/-- What a slot does while a local message waits. -/
theorem poll_slot_move (hw : s.Waiting) (hpc : s.pc = .sweep t) (lock progress : Bool) :
    Move c s (s.pollSlot c t lock progress) := by
  obtain ⟨hsched, hthread⟩ := hw
  have htake : s.queues.cmiTakeThreadQueue = none := by rw [Queues.cmiTakeThreadQueue, hthread]
  have hpass (h : c.slot (s.counter + t) ≠ .threadPrioQueue) :
      Move c s { s with foundNothing := s.foundNothing, pc := .sweep (t + 1) } := .pass hpc h
  rw [pollSlot]
  cases hslot : c.slot (s.counter + t) with
  | noWork => exact hpass (by rw [hslot]; decide)
  | converseThreadQueue =>
    simp only [htake]
    exact hpass (by rw [hslot]; decide)
  | nodePrioQueue =>
    simp only
    split
    · exact .nodePrio hpc hslot
    · exact hpass (by rw [hslot]; decide)
  | threadPrioQueue =>
    have hown : s.queues.cmiTakeThreadPrioQueue ≠ none := by
      rw [Queues.cmiTakeThreadPrioQueue]
      split
      · exact absurd (by assumption) hsched
      · nofun
    simp only
    split
    · exact .own hpc
    · exact absurd (by assumption) hown
  | progress =>
    simp only
    split
    · exact hpass (by rw [hslot]; decide)
    split
    · exact .progress hpc hslot
    · exact .pass hpc (by rw [hslot]; decide)

/-- What a poll does while a local message waits. -/
theorem poll_move (hw : s.Waiting) (lock progress : Bool) : Move c s (s.poll c lock progress) := by
  have htake : s.queues.cmiTakeThreadQueue = none := by
    rw [Queues.cmiTakeThreadQueue, hw.2]
  rw [poll]
  cases hpc : s.pc with
  | top =>
    simp only [htake]
    exact .start hpc
  | nodeQueues =>
    simp only
    split
    · rename_i hpoll
      obtain ⟨hturn, queues, rfl⟩ := poll_node_queues_eq_true hpoll
      exact .node hpc (hturn hw.1)
    · rename_i hpoll
      obtain rfl := poll_node_queues_eq_false hpoll
      exact .skip hpc
  | sweep t =>
    simp only
    split
    · exact poll_slot_move hw hpc lock progress
    · exact .swept hpc (Nat.le_of_not_lt (by assumption))
  | progressThread t =>
    simp only [htake]
    exact .delivered hpc
  | progressNode t =>
    simp only
    split
    · rename_i hpoll
      obtain ⟨-, queues, rfl⟩ := poll_node_queues_eq_true hpoll
      exact .progressNode hpc
    · rename_i hpoll
      obtain rfl := poll_node_queues_eq_false hpoll
      exact .progressSkip hpc

end State

/-! ## A turn comes -/

/-- The slots that the sweep has passed are not of `pollThreadPrioQueue`. -/
def State.Passed (c : Config) (s : State) : Prop :=
  match s.pc with
  | .top | .nodeQueues => True
  | .sweep t => ∀ j < t, c.slot (s.counter + j) ≠ .threadPrioQueue
  | .progressThread t | .progressNode t =>
    c.slot (s.counter + t) = .progress ∧ ∀ j < t, c.slot (s.counter + j) ≠ .threadPrioQueue

/-- What holds from counter `n` on as long as no message of the PE's own is run, if a turn is at
counter `q`. -/
structure Bound (c : Config) (n q run : Nat) (s : State) : Prop where
  counter_le : s.counter ≤ q + c.nodeQueueMax
  le_counter : n ≤ s.counter
  passed : n < s.counter → s.Passed c
  streak : q < s.counter → s.pc = .top ∨ s.pc = .nodeQueues → s.counter ≤ q + s.streak
  nodeRun : s.nodeRun + n ≤ run + s.counter

namespace Bound

variable {c : Config} {n q run : Nat} {s s' : State}

/-- A sweep that meets `pollThreadPrioQueue` before `fn` does not get to `fn`. -/
theorem not_reached {fn : Poll} {i t' : Nat} (h : ∀ j < t, c.slot (i + j) ≠ .threadPrioQueue)
    (hslot : c.slot (i + t) = fn) (hslot' : c.slot (i + t') = .threadPrioQueue)
    (hbefore : ∀ j < t', c.slot (i + j) ≠ fn) (hfn : fn ≠ .threadPrioQueue) : False := by
  rcases lt_trichotomy t t' with hlt | rfl | hgt
  · exact hbefore t hlt hslot
  · exact hfn (hslot.symm.trans hslot')
  · exact h t' hgt hslot'

/-- A poll that runs nothing keeps the bound. -/
theorem stay (h : Bound c n q run s) (hcounter : s'.counter = s.counter)
    (hnode : s'.nodeRun = s.nodeRun) (hpassed : s.Passed c → s'.Passed c)
    (hstreak : s'.pc = .top ∨ s'.pc = .nodeQueues → s.pc = .top ∧ s'.streak = s.streak) :
    Bound c n q run s' where
  counter_le := hcounter ▸ h.counter_le
  le_counter := hcounter ▸ h.le_counter
  passed hlt := hpassed (h.passed (hcounter ▸ hlt))
  streak hlt hpc := by
    obtain ⟨htop, hsame⟩ := hstreak hpc
    rw [hcounter, hsame]
    exact h.streak (hcounter ▸ hlt) (.inl htop)
  nodeRun := by
    rw [hcounter, hnode]
    exact h.nodeRun

/-- A poll that ends an iteration keeps the bound. -/
theorem next (h : Bound c n q run s) (hcounter : s'.counter = s.counter + 1)
    (hnode : s'.nodeRun ≤ s.nodeRun + 1) (hpc : s'.pc = .top) (hstreak : q ≤ s.counter →
      s.counter < q + c.nodeQueueMax ∧ s.counter + 1 ≤ q + s'.streak) : Bound c n q run s' where
  counter_le := by
    rcases lt_or_ge s.counter q with hlt | hge
    · omega
    · have := (hstreak hge).1
      omega
  le_counter := by
    have := h.le_counter
    omega
  passed _ := by
    rw [State.Passed, hpc]
    trivial
  streak hlt _ := by
    have := (hstreak (by omega)).2
    omega
  nodeRun := by
    have := h.nodeRun
    omega

/-- A poll that runs no message of the PE's own. -/
theorem move (h : Bound c n q run s) (hn : n < q) (hmax : 1 ≤ c.nodeQueueMax)
    (hfirst : c.LocalFirst q) (hnext : ∀ k < c.nodeQueueMax, c.LocalNext (q + 1 + k))
    (hmove : s.Move c s') (hrun : s'.localRun = s.localRun) : Bound c n q run s' := by
  have hle := h.counter_le
  -- From `q` on a sweep would run a message of the PE's own.
  have hlater (hlt : q < s.counter) : c.LocalNext s.counter := by
    have := hnext (s.counter - (q + 1)) (by omega)
    rwa [show q + 1 + (s.counter - (q + 1)) = s.counter by omega] at this
  have hturn (hge : q ≤ s.counter) : c.LocalFirst s.counter := by
    rcases eq_or_lt_of_le hge with heq | hlt
    · exact heq ▸ hfirst
    · exact (hlater hlt).localFirst
  cases hmove with
  | start hpc => exact h.stay rfl rfl (fun _ => trivial) fun _ => ⟨hpc, rfl⟩
  | node hpc hstreak =>
    refine h.next rfl (le_refl _) rfl fun hge => ?_
    show s.counter < q + c.nodeQueueMax ∧ s.counter + 1 ≤ q + (s.streak + 1)
    rcases eq_or_lt_of_le hge with heq | hlt
    · omega
    · have := h.streak hlt (.inr hpc)
      omega
  | skip hpc => exact h.stay rfl rfl (fun _ => nofun) (by simp)
  | pass hpc hslot =>
    refine h.stay rfl rfl (fun hpassed => ?_) (by simp)
    rw [State.Passed, hpc] at hpassed
    exact Nat.forall_lt_succ_right.mpr ⟨hpassed, hslot⟩
  | nodePrio hpc hslot =>
    refine h.next rfl (le_refl _) rfl fun hge => ?_
    have hpassed := h.passed (by omega)
    rw [State.Passed, hpc] at hpassed
    obtain ⟨t', -, hslot', hbefore⟩ := hturn hge
    exact (not_reached hpassed hslot hslot' hbefore nofun).elim
  | own => exact absurd hrun (Nat.succ_ne_self _)
  | progress hpc hslot =>
    refine h.stay rfl rfl (fun hpassed => ?_) (by simp)
    rw [State.Passed, hpc] at hpassed
    exact ⟨hslot, hpassed⟩
  | delivered hpc =>
    refine h.stay rfl rfl (fun hpassed => ?_) (by simp)
    rw [State.Passed, hpc] at hpassed
    exact hpassed
  | progressNode hpc =>
    refine h.next rfl (le_refl _) rfl fun hge => ?_
    show s.counter < q + c.nodeQueueMax ∧ s.counter + 1 ≤ q + (s.streak + 1)
    rcases eq_or_lt_of_le hge with heq | hlt
    · omega
    · have hpassed := h.passed (by omega)
      rw [State.Passed, hpc] at hpassed
      obtain ⟨t', -, hslot', hbefore⟩ := hlater hlt
      exact (not_reached hpassed.2 hpassed.1 hslot' (fun j hj => (hbefore j hj).2) nofun).elim
  | progressSkip hpc =>
    refine h.stay rfl rfl (fun hpassed => ?_) (by simp)
    rw [State.Passed, hpc] at hpassed
    refine Nat.forall_lt_succ_right.mpr ⟨hpassed.2, fun heq => ?_⟩
    cases hpassed.1.symm.trans heq
  | swept hpc ht =>
    refine h.next rfl (Nat.le_succ _) rfl fun hge => ?_
    have hpassed := h.passed (by omega)
    rw [State.Passed, hpc] at hpassed
    obtain ⟨t', ht', hslot, -⟩ := hturn hge
    exact absurd hslot (hpassed t' (lt_of_lt_of_le ht' ht))

end Bound

theorem State.Move.localRun_le {s s' : State} (h : s.Move c s') : s.localRun ≤ s'.localRun := by
  cases h with
  | own => exact Nat.le_succ _
  | start | node | skip | pass | nodePrio | progress | delivered | progressNode | progressSkip |
    swept => exact le_refl _

/-- If the table has a turn, the PE's own messages wait for a bounded number of others. -/
theorem Config.HasTurn.bounded (h : c.HasTurn) (hmax : 1 ≤ c.nodeQueueMax) :
    c.Bounded (schedTableSize + c.nodeQueueMax) := by
  intro queues streak es s fs s' _ hwait hrun
  obtain ⟨q, hn, hq, hfirst, hnext⟩ := h.after s.counter
  have hinv := hwait.invariant (I := fun s' => s.localRun ≤ s'.localRun ∧
    (s'.localRun = s.localRun → Bound c s.counter q s.nodeRun s')) ?_ ⟨le_refl _, fun _ => ?_⟩
  · have hbound := hinv.2 hrun
    have := hbound.nodeRun
    have := hbound.counter_le
    omega
  · rintro s₁ e s₂ ⟨hle, hinv⟩ ⟨rfl, hw, -⟩
    cases e with
    | traffic => exact ⟨hle, fun heq => ⟨(hinv heq).counter_le, (hinv heq).le_counter,
        (hinv heq).passed, (hinv heq).streak, (hinv heq).nodeRun⟩⟩
    | poll lock progress =>
      have hmove : s₁.Move c (s₁.poll c lock progress) := State.poll_move hw lock progress
      have hmono := hmove.localRun_le
      refine ⟨le_trans hle hmono, fun heq => ?_⟩
      have hsame : s₁.localRun = s.localRun :=
        le_antisymm (le_trans hmono (le_of_eq heq)) hle
      exact (hinv hsame).move hn hmax hfirst hnext hmove (Eq.trans heq hsame.symm)
  · exact ⟨by omega, le_refl _, fun hlt => absurd hlt (lt_irrefl _),
      fun hlt => absurd hlt (by omega), le_refl _⟩

end Reconverse.Scheduler.Registered
