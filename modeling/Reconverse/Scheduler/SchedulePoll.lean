import Reconverse.Scheduler.Slots
import Reconverse.Scheduler.Starvation

/-!
# `CsdSchedulePoll` of the default scheduler

`CsdSchedulePollRegistered` runs the loop of the default scheduler until a sweep finds nothing to
do. Here the queues hold the messages themselves, so that it can be said which ones were run, and
the process has one PE, so that the lock of the node priority queue is free.

A sweep that does nothing has looked at every queue, but `comm_backend::progress` may put messages
into the queues in the middle of it. `pollProgress` looks at the thread queue and the two node-level
queues right away. A completion that is reported by `comm_backend::progress` may also send a message
to the PE itself, which goes to `CsdSchedQueue`, and that is looked at only if a slot of
`pollThreadPrioQueue` is still to come. So nothing is left behind if and only if
`comm_backend::progress` does not put messages into `CsdSchedQueue` (`schedule_poll_empties_iff`).
-/

namespace Reconverse.Scheduler.SchedulePoll

open Lib Registered List

/-- The queue that a message is put into. -/
inductive Target where
  | thread
  | node
  | nodePrio (priority : Int)
  | sched (priority : Int)
  deriving DecidableEq, Repr

variable {μ : Type}

/-- The queues of the PE and of the process, with the messages in the order in which they come
out. -/
@[ext]
structure Contents (μ : Type) where
  threadQueue : List μ
  nodeQueue : List μ
  csdNodeQueue : List (Int × μ)
  csdSchedQueue : List (Int × μ)
  deriving DecidableEq, Repr

namespace Contents

variable (q : Contents μ)

/-- `QueuePush`: messages of one priority are in FIFO order. -/
def queuePush (queue : List (Int × μ)) (priority : Int) (msg : μ) : List (Int × μ) :=
  queue.orderedInsert (fun a b => a.1 < b.1) (priority, msg)

/-- A message is put into a queue. -/
def push (msg : μ) : Target → Contents μ
  | .thread => { q with threadQueue := q.threadQueue ++ [msg] }
  | .node => { q with nodeQueue := q.nodeQueue ++ [msg] }
  | .nodePrio priority => { q with csdNodeQueue := queuePush q.csdNodeQueue priority msg }
  | .sched priority => { q with csdSchedQueue := queuePush q.csdSchedQueue priority msg }

/-- The messages in the queues. -/
def all : List μ :=
  q.threadQueue ++ q.nodeQueue ++ q.csdNodeQueue.map Prod.snd ++ q.csdSchedQueue.map Prod.snd

/-- `CmiTakeThreadQueue`. -/
def cmiTakeThreadQueue : Option (μ × Contents μ) :=
  match q.threadQueue with
  | [] => none
  | msg :: rest => some (msg, { q with threadQueue := rest })

/-- `CmiTakeNodeQueue`. -/
def cmiTakeNodeQueue : Option (μ × Contents μ) :=
  match q.nodeQueue with
  | [] => none
  | msg :: rest => some (msg, { q with nodeQueue := rest })

/-- `CmiTakeNodePrioQueue`. -/
def cmiTakeNodePrioQueue : Option (μ × Contents μ) :=
  match q.csdNodeQueue with
  | [] => none
  | (_, msg) :: rest => some (msg, { q with csdNodeQueue := rest })

/-- `CmiTakeNodePrioQueueIfAhead`. No priority exceeds the `LLONG_MAX` of an empty queue. -/
def cmiTakeNodePrioQueueIfAhead : Option (μ × Contents μ) :=
  match q.csdNodeQueue, q.csdSchedQueue with
  | [], _ => none
  | (_, msg) :: rest, [] => some (msg, { q with csdNodeQueue := rest })
  | (priority, msg) :: rest, (own, _) :: _ =>
    if priority ≤ own then some (msg, { q with csdNodeQueue := rest }) else none

/-- `CmiTakeThreadPrioQueue`. -/
def cmiTakeThreadPrioQueue : Option (μ × Contents μ) :=
  match q.csdSchedQueue with
  | [] => none
  | (_, msg) :: rest => some (msg, { q with csdSchedQueue := rest })

end Contents

/-- Where the loop is: as in `Registered.Pc`, or it has returned. -/
inductive Pc where
  | top
  | nodeQueues
  | sweep (t : Nat)
  | progressThread (t : Nat)
  | progressNode (t : Nat)
  | returned
  deriving DecidableEq, Repr

/-- The queues, the inbox of the shared-memory pool and its receive queues (with the queue that each
message is for), the variables of the loop, and the messages that were run. -/
structure State (μ : Type) where
  contents : Contents μ
  inbox : List (Bool × μ)
  received : List (Bool × μ)
  streak : Nat
  counter : Nat
  foundNothing : Bool
  ipcDone : Bool
  pc : Pc
  log : List μ
  deriving DecidableEq, Repr

namespace State

variable (c : Config) (s : State μ)

/-- The call with the given queues and a streak that earlier calls have left. -/
def start (contents : Contents μ) (inbox received : List (Bool × μ)) (streak : Nat) : State μ where
  contents := contents
  inbox := inbox
  received := received
  streak := streak
  counter := 0
  foundNothing := false
  ipcDone := false
  pc := .top
  log := []

/-- The iteration ends. -/
def endIteration : State μ := { s with counter := s.counter + 1, pc := .top }

/-- A message is run. -/
def run (taken : μ × Contents μ) : State μ :=
  { s with contents := taken.2, log := s.log ++ [taken.1] }

/-- `CmiDeliverIpcBlockMsg`, to the node queue or the PE. -/
def cmiDeliverIpcBlockMsg (contents : Contents μ) (block : Bool × μ) : Contents μ :=
  contents.push block.2 (if block.1 then .node else .thread)

/-- `CmiDeliverIpcInbox`: an empty inbox is refilled from the receive queues first. -/
def cmiDeliverIpcInbox : State μ :=
  let blocks := if s.inbox.isEmpty then s.received else s.inbox
  { s with
    contents := blocks.foldl cmiDeliverIpcBlockMsg s.contents
    inbox := []
    received := if s.inbox.isEmpty then [] else s.received
    ipcDone := !blocks.isEmpty }

/-- `pollNodeQueuesFirst`, and whether it ran a message. -/
def pollNodeQueuesFirst : State μ × Bool :=
  if s.streak ≥ c.nodeQueueMax ∧ s.contents.csdSchedQueue ≠ [] then
    ({ s with streak := 0 }, false)
  else
    match s.contents.cmiTakeNodeQueue with
    | some taken => ({ s.run taken with streak := s.streak + 1 }, true)
    | none =>
      match s.contents.cmiTakeNodePrioQueueIfAhead with
      | some taken => ({ s.run taken with streak := s.streak + 1 }, true)
      | none => ({ s with streak := 0 }, false)

/-- A poll of a queue in the sweep. -/
def pollTaken (t : Nat) : Option (μ × Contents μ) → State μ
  | some taken => (s.run taken).endIteration
  | none => { s with pc := .sweep (t + 1) }

/-- The handler in the slot at step `t` of the sweep. -/
def pollSlot (t : Nat) (progress : Bool) : State μ :=
  match c.slot (s.counter + t) with
  | .noWork => { s with pc := .sweep (t + 1) }
  | .converseThreadQueue => s.pollTaken t s.contents.cmiTakeThreadQueue
  | .nodePrioQueue => s.pollTaken t s.contents.cmiTakeNodePrioQueue
  | .threadPrioQueue => s.pollTaken t s.contents.cmiTakeThreadPrioQueue
  | .progress =>
    if s.foundNothing || !c.pollsProgress then { s with pc := .sweep (t + 1) }
    else if progress then { s with pc := .progressThread t }
    else { s with foundNothing := true, pc := .sweep (t + 1) }

/-- The next poll of the loop. -/
def poll (progress : Bool) : State μ :=
  match s.pc with
  | .top =>
    let s := { s with foundNothing := false }.cmiDeliverIpcInbox
    match s.contents.cmiTakeThreadQueue with
    | some taken => (s.run taken).endIteration
    | none => { s with pc := .nodeQueues }
  | .nodeQueues =>
    match s.pollNodeQueuesFirst c with
    | (s, true) => s.endIteration
    | (s, false) => { s with pc := .sweep 0 }
  | .sweep t =>
    if t < schedTableSize then s.pollSlot c t progress
    else if s.ipcDone then s.endIteration
    else { s with pc := .returned }
  | .progressThread t =>
    match s.contents.cmiTakeThreadQueue with
    | some taken => (s.run taken).endIteration
    | none => { s with pc := .progressNode t }
  | .progressNode t =>
    match s.pollNodeQueuesFirst c with
    | (s, true) => s.endIteration
    | (s, false) => { s with pc := .sweep (t + 1) }
  | .returned => s

/-- All messages that wait to be run. -/
def waiting : List μ := s.contents.all ++ (s.inbox ++ s.received).map Prod.snd

end State

/-- What happens: a message is put into a queue, by a handler or a callback between iterations or by
`comm_backend::progress`, a peer process puts a message into a receive queue, a handler or a
callback has run the scheduler itself, which has run the messages `ran`, or the next poll. -/
inductive Event (μ : Type) where
  | push (target : Target) (msg : μ)
  | ipcPush (toNode : Bool) (msg : μ)
  | reenter (ran : List μ) (after : State μ)
  | poll (progress : Bool)

/-- The messages that are put into a queue with an event. -/
def Event.pushed : Event μ → List μ
  | .push _ msg => [msg]
  | .ipcPush .. | .reenter .. | .poll _ => []

/-- The messages that are put into a receive queue with an event. -/
def Event.received : Event μ → List (Bool × μ)
  | .ipcPush toNode msg => [(toNode, msg)]
  | .push .. | .reenter .. | .poll _ => []

/-- The messages that arrive with an event. -/
def Event.arrived (e : Event μ) : List μ := e.pushed ++ e.received.map Prod.snd

/-- One event, if `comm_backend::progress` puts messages only into the queues `delivers`. A
scheduler that a handler or a callback has called runs some of the messages that wait and leaves the
others. -/
def Step (c : Config) (delivers : Target → Prop) (s : State μ) (e : Event μ) (s' : State μ) :
    Prop :=
  match e with
  | .push target msg => s' = { s with contents := s.contents.push msg target } ∧
      (s.pc = .top ∨ (∃ t, s.pc = .progressThread t) ∧ delivers target)
  | .ipcPush toNode msg => s' = { s with received := s.received ++ [(toNode, msg)] }
  | .reenter ran after =>
    s' = { after with counter := s.counter, pc := .top, log := s.log ++ ran } ∧ s.pc = .top ∧
      s.waiting.Perm (ran ++ after.waiting)
  | .poll progress => s' = s.poll c progress

/-! ## The default scheduler -/

section Registered

variable {c : Config} {q : Contents μ} {s : State μ} {r : Registered.State} {t : Nat}

/-- The queues of the default scheduler, which does not look at the messages. -/
def Contents.counts (q : Contents μ) : Queues where
  threadQueue := q.threadQueue.length
  nodeQueue := q.nodeQueue.length
  csdNodeQueue := q.csdNodeQueue.map Prod.fst
  csdSchedQueue := q.csdSchedQueue.map Prod.fst

/-- The place of the default scheduler, which does not return. -/
def Pc.registered : Pc → Option Registered.Pc
  | .top => some .top
  | .nodeQueues => some .nodeQueues
  | .sweep t => some (.sweep t)
  | .progressThread t => some (.progressThread t)
  | .progressNode t => some (.progressNode t)
  | .returned => none

/-- The default scheduler is in the same place with the same queues. -/
structure Matches (s : State μ) (r : Registered.State) : Prop where
  queues : r.queues = s.contents.counts
  streak : r.streak = s.streak
  counter : r.counter = s.counter
  foundNothing : r.foundNothing = s.foundNothing
  pc : s.pc.registered = some r.pc

theorem counts_take_thread :
    q.counts.cmiTakeThreadQueue = q.cmiTakeThreadQueue.map fun taken => taken.2.counts := by
  obtain ⟨threads, nodes, prios, own⟩ := q
  cases threads <;> rfl

theorem counts_take_node :
    q.counts.cmiTakeNodeQueue = q.cmiTakeNodeQueue.map fun taken => taken.2.counts := by
  obtain ⟨threads, nodes, prios, own⟩ := q
  cases nodes <;> rfl

theorem counts_take_node_prio :
    q.counts.cmiTakeNodePrioQueue true = q.cmiTakeNodePrioQueue.map fun taken =>
    taken.2.counts := by
  obtain ⟨threads, nodes, prios, own⟩ := q
  cases prios <;> rfl

theorem counts_take_thread_prio :
    q.counts.cmiTakeThreadPrioQueue = q.cmiTakeThreadPrioQueue.map fun taken => taken.2.counts := by
  obtain ⟨threads, nodes, prios, own⟩ := q
  cases own <;> rfl

/-- Node messages go first in the same cases. -/
theorem counts_take_if_ahead (hmax : ∀ entry ∈ q.csdNodeQueue, entry.1 ≤ 2 ^ 63 - 1) :
    q.counts.cmiTakeNodePrioQueueIfAhead true =
      q.cmiTakeNodePrioQueueIfAhead.map fun taken => taken.2.counts := by
  obtain ⟨threads, nodes, prios, own⟩ := q
  cases prios with
  | nil => rfl
  | cons entry rest =>
    cases own with
    | nil => exact if_pos (hmax entry mem_cons_self)
    | cons first others =>
      show (if entry.1 ≤ first.1 then _ else _) = Option.map _ (if entry.1 ≤ first.1 then _ else _)
      split <;> rfl

/-- `pollNodeQueuesFirst` does the same in both. -/
theorem Matches.node_queues (h : Matches s r)
    (hmax : ∀ entry ∈ s.contents.csdNodeQueue, entry.1 ≤ 2 ^ 63 - 1) :
    (r.pollNodeQueuesFirst c true).2 = (s.pollNodeQueuesFirst c).2 ∧
      Matches (s.pollNodeQueuesFirst c).1 (r.pollNodeQueuesFirst c true).1 := by
  obtain ⟨queues, streak, counter, foundNothing, place, nodeRun, localRun⟩ := r
  obtain ⟨rfl, rfl, rfl, rfl, hpc⟩ := h
  have hsched : s.contents.counts.csdSchedQueue ≠ [] ↔ s.contents.csdSchedQueue ≠ [] :=
    map_eq_nil_iff.not
  rw [Registered.State.pollNodeQueuesFirst, State.pollNodeQueuesFirst]
  by_cases hskip : s.streak ≥ c.nodeQueueMax ∧ s.contents.csdSchedQueue ≠ []
  · rw [if_pos hskip, if_pos ⟨hskip.1, hsched.mpr hskip.2⟩]
    exact ⟨rfl, rfl, rfl, rfl, rfl, hpc⟩
  · rw [if_neg hskip, if_neg fun hskip' => hskip ⟨hskip'.1, hsched.mp hskip'.2⟩, counts_take_node,
      counts_take_if_ahead hmax]
    cases s.contents.cmiTakeNodeQueue with
    | some taken => exact ⟨rfl, rfl, rfl, rfl, rfl, hpc⟩
    | none =>
      cases s.contents.cmiTakeNodePrioQueueIfAhead with
      | some taken => exact ⟨rfl, rfl, rfl, rfl, rfl, hpc⟩
      | none => exact ⟨rfl, rfl, rfl, rfl, rfl, hpc⟩

/-- A slot of the sweep does the same in both. -/
theorem Matches.slot (h : Matches s r) (t : Nat) (progress : Bool) :
    Matches (s.pollSlot c t progress) (r.pollSlot c t true progress) := by
  obtain ⟨queues, streak, counter, foundNothing, place, nodeRun, localRun⟩ := r
  obtain ⟨rfl, rfl, rfl, rfl, hpc⟩ := h
  rw [Registered.State.pollSlot, State.pollSlot]
  cases c.slot (s.counter + t) with
  | noWork => exact ⟨rfl, rfl, rfl, rfl, rfl⟩
  | converseThreadQueue =>
    simp only [counts_take_thread]
    cases s.contents.cmiTakeThreadQueue <;> exact ⟨rfl, rfl, rfl, rfl, rfl⟩
  | nodePrioQueue =>
    simp only [counts_take_node_prio]
    cases s.contents.cmiTakeNodePrioQueue <;> exact ⟨rfl, rfl, rfl, rfl, rfl⟩
  | threadPrioQueue =>
    simp only [counts_take_thread_prio]
    cases s.contents.cmiTakeThreadPrioQueue <;> exact ⟨rfl, rfl, rfl, rfl, rfl⟩
  | progress =>
    simp only
    split
    · exact ⟨rfl, rfl, rfl, rfl, rfl⟩
    · split <;> exact ⟨rfl, rfl, rfl, rfl, rfl⟩

theorem Matches.end_iteration (h : Matches s r) : Matches s.endIteration r.endIteration :=
  ⟨h.queues, h.streak, congrArg (· + 1) h.counter, h.foundNothing, rfl⟩

theorem Matches.goto (h : Matches s r) (pc : Pc) {pc' : Registered.Pc}
    (hpc : pc.registered = some pc') : Matches { s with pc := pc } { r with pc := pc' } :=
  ⟨h.queues, h.streak, h.counter, h.foundNothing, hpc⟩

/-- The thread queues give a message in the same cases. -/
theorem Matches.take_thread (h : Matches s r) : r.queues.cmiTakeThreadQueue =
    s.contents.cmiTakeThreadQueue.map fun taken => taken.2.counts := by
  rw [h.queues, counts_take_thread]

/-- A message of the thread queue is run. -/
theorem Matches.run (h : Matches s r) (taken : μ × Contents μ) :
    Matches (s.run taken) { r with queues := taken.2.counts } :=
  ⟨rfl, h.streak, h.counter, h.foundNothing, h.pc⟩

/-- A poll is one of the default scheduler, with the lock free and after what the shared-memory pool
holds was put into the queues, unless it is the end of a sweep at which the call returns. -/
theorem Matches.poll (progress : Bool)
    (h : Matches (if s.pc = .top then s.cmiDeliverIpcInbox else s) r)
    (hmax : ∀ entry ∈ s.contents.csdNodeQueue, entry.1 ≤ 2 ^ 63 - 1)
    (hlast : ∀ t, s.pc = .sweep t → schedTableSize ≤ t → s.ipcDone = true) :
    Matches (s.poll c progress) (r.poll c true progress) := by
  rw [State.poll, Registered.State.poll]
  have hnodes (h : Matches s r) : ∃ s' r' ran, s.pollNodeQueuesFirst c = (s', ran) ∧
      r.pollNodeQueuesFirst c true = (r', ran) ∧ Matches s' r' := by
    obtain ⟨hran, hmatch⟩ := h.node_queues (c := c) hmax
    exact ⟨_, _, _, rfl, Prod.ext rfl hran, hmatch⟩
  have haway {pc : Pc} {pc' : Registered.Pc} (hpc : s.pc = pc) (hne : pc ≠ .top)
      (hplace : pc.registered = some pc') : Matches s r ∧ pc' = r.pc := by
    rw [if_neg (hpc ▸ hne)] at h
    exact ⟨h, Option.some.inj (hplace.symm.trans (hpc ▸ h.pc))⟩
  cases hpc : s.pc with
  | top =>
    rw [if_pos hpc] at h
    rw [← Option.some.inj ((congrArg Pc.registered hpc).symm.trans h.pc)]
    have hstart : Matches { s with foundNothing := false, pc := .top }.cmiDeliverIpcInbox
        { r with foundNothing := false, pc := .top } :=
      ⟨h.queues, h.streak, h.counter, rfl, rfl⟩
    have htake : r.queues.cmiTakeThreadQueue = _ := hstart.take_thread
    simp only [htake]
    cases { s with
      foundNothing := false, pc := .top }.cmiDeliverIpcInbox.contents.cmiTakeThreadQueue with
    | some taken => exact (hstart.run taken).end_iteration
    | none => exact hstart.goto .nodeQueues rfl
  | nodeQueues =>
    obtain ⟨h, hplace⟩ := haway hpc (by simp) rfl
    obtain ⟨s', r', ran, hs, hr, hmatch⟩ := hnodes h
    rw [← hplace]
    simp only [hs, hr]
    cases ran with
    | true => exact hmatch.end_iteration
    | false => exact hmatch.goto _ rfl
  | sweep t =>
    obtain ⟨h, hplace⟩ := haway hpc (by simp) rfl
    rw [← hplace]
    simp only
    split
    · exact h.slot t progress
    · rename_i hend
      rw [if_pos (hlast t hpc (Nat.le_of_not_lt hend))]
      exact ⟨h.queues, h.streak, congrArg (· + 1) h.counter, h.foundNothing, rfl⟩
  | progressThread t =>
    obtain ⟨h, hplace⟩ := haway hpc (by simp) rfl
    rw [← hplace]
    simp only [h.take_thread]
    cases s.contents.cmiTakeThreadQueue with
    | some taken => exact (h.run taken).end_iteration
    | none => exact h.goto (.progressNode t) rfl
  | progressNode t =>
    obtain ⟨h, hplace⟩ := haway hpc (by simp) rfl
    obtain ⟨s', r', ran, hs, hr, hmatch⟩ := hnodes h
    rw [← hplace]
    simp only [hs, hr]
    cases ran with
    | true => exact hmatch.end_iteration
    | false => exact hmatch.goto _ rfl
  | returned =>
    rw [if_neg (by simp [hpc])] at h
    cases hpc ▸ h.pc

end Registered

/-! ## Every message is run or waits -/

namespace Contents

variable {q : Contents μ} {taken : μ × Contents μ}

/-- A message is taken out of the queues. -/
def Takes (q : Contents μ) (taken : μ × Contents μ) : Prop := q.all.Perm (taken.1 :: taken.2.all)

theorem take_thread_takes (h : q.cmiTakeThreadQueue = some taken) : q.Takes taken := by
  unfold cmiTakeThreadQueue at h
  split at h
  · cases h
  · rename_i hqueue
    cases h
    rw [Takes, all, hqueue]
    exact .refl _

theorem take_node_takes (h : q.cmiTakeNodeQueue = some taken) : q.Takes taken := by
  unfold cmiTakeNodeQueue at h
  split at h
  · cases h
  · rename_i hqueue
    cases h
    rw [Takes, all, all, hqueue]
    simp only [append_assoc, cons_append]
    exact perm_middle

theorem take_node_prio_takes (h : q.cmiTakeNodePrioQueue = some taken) : q.Takes taken := by
  unfold cmiTakeNodePrioQueue at h
  split at h
  · cases h
  · rename_i hqueue
    cases h
    rw [Takes, all, all, hqueue]
    simp only [map_cons, append_assoc, cons_append]
    rw [← append_assoc, ← append_assoc]
    exact perm_middle

/-- `CmiTakeNodePrioQueueIfAhead` takes what `CmiTakeNodePrioQueue` takes, or nothing. -/
theorem take_if_ahead_eq (h : q.cmiTakeNodePrioQueueIfAhead = some taken) :
    q.cmiTakeNodePrioQueue = some taken := by
  unfold cmiTakeNodePrioQueueIfAhead at h
  rw [cmiTakeNodePrioQueue]
  split at h
  · cases h
  · rename_i hqueue _
    rw [hqueue]
    exact h
  · rename_i hqueue _
    rw [hqueue]
    split at h
    · exact h
    · cases h

theorem take_thread_prio_takes (h : q.cmiTakeThreadPrioQueue = some taken) : q.Takes taken := by
  unfold cmiTakeThreadPrioQueue at h
  split at h
  · cases h
  · rename_i hqueue
    cases h
    rw [Takes, all, hqueue]
    exact perm_middle

/-- A message that is pushed is there. -/
theorem push_all (msg : μ) (target : Target) : (q.push msg target).all.Perm (q.all ++ [msg]) := by
  have hinsert (queue : List (Int × μ)) (priority : Int) :
      ((queuePush queue priority msg).map Prod.snd).Perm (queue.map Prod.snd ++ [msg]) := by
    refine ((perm_orderedInsert _ _ _).map Prod.snd).trans ?_
    exact (perm_append_singleton msg _).symm
  cases target with
  | thread =>
    simp only [push, all, append_assoc]
    refine Perm.append_left _ ?_
    exact perm_append_comm.trans (by simp only [append_assoc]; exact .refl _)
  | node =>
    simp only [push, all, append_assoc]
    refine Perm.append_left _ (Perm.append_left _ ?_)
    exact perm_append_comm.trans (by simp only [append_assoc]; exact .refl _)
  | nodePrio priority =>
    simp only [push, all, append_assoc]
    refine Perm.append_left _ (Perm.append_left _ ?_)
    refine ((hinsert _ priority).append_right _).trans ?_
    rw [append_assoc]
    exact Perm.append_left _ perm_append_comm
  | sched priority =>
    simp only [push, all, append_assoc]
    refine Perm.append_left _ (Perm.append_left _ (Perm.append_left _ ?_))
    exact hinsert _ priority

/-- Messages of the pool are put into the queues. -/
theorem deliver_all (blocks : List (Bool × μ)) (q : Contents μ) :
    (blocks.foldl State.cmiDeliverIpcBlockMsg q).all.Perm (q.all ++ blocks.map Prod.snd) := by
  induction blocks generalizing q with
  | nil =>
    rw [map_nil, append_nil]
    exact .refl _
  | cons block blocks ih =>
    refine (ih _).trans ?_
    refine ((push_all block.2 _).append_right _).trans ?_
    rw [append_assoc]
    exact .refl _

end Contents

namespace State

variable {c : Config} {s s' : State μ}

/-- The messages that were run or wait. -/
def kept (s : State μ) : List μ := s.log ++ s.waiting

/-- A message that is run is in the log. -/
theorem run_kept {taken : μ × Contents μ} (h : s.contents.Takes taken) :
    (s.run taken).kept.Perm s.kept := by
  show ((s.log ++ [taken.1]) ++ (taken.2.all ++ _)).Perm (s.log ++ (s.contents.all ++ _))
  rw [append_assoc]
  refine Perm.append_left _ ?_
  exact h.symm.append_right _

/-- A look at the pool loses nothing. -/
theorem deliver_kept : s.cmiDeliverIpcInbox.kept.Perm s.kept := by
  refine Perm.append_left _ ?_
  have hdeliver := Contents.deliver_all (if s.inbox.isEmpty then s.received else s.inbox) s.contents
  refine (hdeliver.append_right _).trans ?_
  rw [append_assoc]
  refine Perm.append_left _ ?_
  show (map Prod.snd (if s.inbox.isEmpty then s.received else s.inbox) ++
    map Prod.snd ([] ++ if s.inbox.isEmpty then [] else s.received)).Perm _
  cases hinbox : s.inbox with
  | nil => simp
  | cons block inbox => simp

/-- Nor does a look at the node queues. -/
theorem poll_node_queues_kept : (s.pollNodeQueuesFirst c).1.kept.Perm s.kept := by
  rw [pollNodeQueuesFirst]
  split
  · exact .refl _
  · split
    · exact run_kept (Contents.take_node_takes (by assumption))
    · split
      · exact run_kept (Contents.take_node_prio_takes (Contents.take_if_ahead_eq (by assumption)))
      · exact .refl _

theorem poll_taken_kept (t : Nat) {take : Option (μ × Contents μ)}
    (h : ∀ taken, take = some taken → s.contents.Takes taken) :
    (s.pollTaken t take).kept.Perm s.kept := by
  cases take with
  | none => exact .refl _
  | some taken => exact run_kept (h taken rfl)

/-- Nor does a slot. -/
theorem poll_slot_kept (t : Nat) (progress : Bool) :
    (s.pollSlot c t progress).kept.Perm s.kept := by
  rw [pollSlot]
  cases c.slot (s.counter + t) with
  | noWork => exact .refl _
  | converseThreadQueue => exact poll_taken_kept t fun _ h => Contents.take_thread_takes h
  | nodePrioQueue => exact poll_taken_kept t fun _ h => Contents.take_node_prio_takes h
  | threadPrioQueue => exact poll_taken_kept t fun _ h => Contents.take_thread_prio_takes h
  | progress =>
    simp only
    split
    · exact .refl _
    · split <;> exact .refl _

/-- A poll loses no message and runs none twice. -/
theorem poll_kept (progress : Bool) : (s.poll c progress).kept.Perm s.kept := by
  rw [poll]
  cases hpc : s.pc with
  | top =>
    have hdeliver : { s with foundNothing := false }.cmiDeliverIpcInbox.kept.Perm s.kept :=
      deliver_kept
    simp only
    split
    · exact (run_kept (Contents.take_thread_takes (by assumption))).trans hdeliver
    · exact hdeliver
  | nodeQueues | progressNode =>
    have hnodes := poll_node_queues_kept (c := c) (s := s)
    simp only
    split
    all_goals
      rename_i heq
      rw [heq] at hnodes
      exact hnodes
  | sweep t =>
    simp only
    split
    · exact poll_slot_kept t progress
    · split <;> exact .refl _
  | progressThread t =>
    simp only
    split
    · exact run_kept (Contents.take_thread_takes (by assumption))
    · exact .refl _
  | returned => exact .refl _

end State

variable {delivers : Target → Prop} {t : Nat} {c : Config} {priority : Int}

/-- Over a run, the messages that were run or wait are those that were there and those that have
arrived. -/
theorem run_kept {s s' : State μ} {es : List (Event μ)} (h : Steps (Step c delivers) s es s') :
    s'.kept.Perm (s.kept ++ es.flatMap Event.arrived) := by
  induction h with
  | nil => rw [flatMap_nil, append_nil]
  | @cons s s₁ s' e es hstep _ ih =>
    have hone : s₁.kept.Perm (s.kept ++ e.arrived) := by
      cases e with
      | push target msg =>
        obtain ⟨rfl, -⟩ := hstep
        show (s.log ++ ((s.contents.push msg target).all ++ _)).Perm _
        rw [State.kept, State.waiting, append_assoc]
        refine Perm.append_left _ (((Contents.push_all msg target).append_right _).trans ?_)
        rw [append_assoc, append_assoc]
        exact Perm.append_left _ perm_append_comm
      | ipcPush toNode msg =>
        obtain rfl := hstep
        simp [State.kept, State.waiting, Event.arrived, Event.pushed, Event.received]
      | reenter ran after =>
        obtain ⟨rfl, -, hperm⟩ := hstep
        rw [show (Event.reenter ran after).arrived = [] from rfl, append_nil]
        show ((s.log ++ ran) ++ after.waiting).Perm (s.log ++ s.waiting)
        rw [append_assoc]
        exact Perm.append_left _ hperm.symm
      | poll progress =>
        obtain rfl := hstep
        rw [show (Event.poll progress : Event μ).arrived = [] from rfl, append_nil]
        exact State.poll_kept progress
    rw [flatMap_cons, ← append_assoc]
    exact ih.trans (hone.append_right _)

/-! ## A sweep that finds nothing -/

/-- The slots that the sweep has passed are not of `pollThreadPrioQueue`. -/
def Passed (c : Config) (s : State μ) (t : Nat) : Prop :=
  ∀ j < t, c.slot (s.counter + j) ≠ .threadPrioQueue

/-- What the polls of an iteration have found out so far. -/
def Inv (c : Config) (s : State μ) : Prop :=
  match s.pc with
  | .top => True
  | .nodeQueues => s.contents.threadQueue = []
  | .sweep t => s.contents.threadQueue = [] ∧
      (s.contents.csdSchedQueue ≠ [] ∧ Passed c s t ∨ s.contents = ⟨[], [], [], []⟩)
  | .progressThread t => c.slot (s.counter + t) = .progress ∧
      (s.contents.csdSchedQueue ≠ [] → Passed c s t)
  | .progressNode t => s.contents.threadQueue = [] ∧ c.slot (s.counter + t) = .progress ∧
      (s.contents.csdSchedQueue ≠ [] → Passed c s t)
  | .returned => s.ipcDone = false ∧ s.contents = ⟨[], [], [], []⟩

section Sweep

variable {c : Config} {s s' : State μ}

theorem take_thread_eq_none {q : Contents μ} (h : q.cmiTakeThreadQueue = none) :
    q.threadQueue = [] := by
  unfold Contents.cmiTakeThreadQueue at h
  split at h
  · assumption
  · cases h

/-- `pollNodeQueuesFirst` runs nothing: the PE has messages of its own, or the node-level queues are
empty. -/
theorem poll_node_queues_none (hthread : s.contents.threadQueue = [])
    (h : s.pollNodeQueuesFirst c = (s', false)) : s' = { s with streak := 0 } ∧
      (s.contents.csdSchedQueue ≠ [] ∨ s.contents = ⟨[], [], [], []⟩) := by
  rw [State.pollNodeQueuesFirst] at h
  split at h
  · rename_i hskip
    exact ⟨(Prod.mk.inj h).1.symm, .inl hskip.2⟩
  split at h
  · cases h
  rename_i hnode
  split at h
  · cases h
  rename_i hprio
  refine ⟨(Prod.mk.inj h).1.symm, ?_⟩
  -- With nothing in `CsdSchedQueue` both takes look at the whole of their queues.
  by_cases hsched : s.contents.csdSchedQueue = []
  · refine .inr ?_
    have hnode : s.contents.nodeQueue = [] := by
      unfold Contents.cmiTakeNodeQueue at hnode
      split at hnode
      · assumption
      · cases hnode
    have hprio : s.contents.csdNodeQueue = [] := by
      unfold Contents.cmiTakeNodePrioQueueIfAhead at hprio
      split at hprio
      · assumption
      · cases hprio
      · rename_i hown
        rw [hsched] at hown
        cases hown
    exact Contents.ext hthread hnode hprio hsched
  · exact .inl hsched

/-- The next slot of the sweep. -/
theorem Passed.succ (h : Passed c s t) (hslot : c.slot (s.counter + t) ≠ .threadPrioQueue) :
    Passed c s (t + 1) := by
  intro j hj
  rcases Nat.lt_succ_iff_lt_or_eq.mp hj with hlt | rfl
  · exact h j hlt
  · exact hslot

/-- The sweep after a slot at which nothing was run. -/
theorem Inv.next (h : Inv c s) (hpc : s.pc = .sweep t)
    (hslot : c.slot (s.counter + t) = .threadPrioQueue → s.contents.csdSchedQueue = [])
    (found : Bool) : Inv c { s with foundNothing := found, pc := .sweep (t + 1) } := by
  rw [Inv, hpc] at h
  obtain ⟨hthread, hrest⟩ := h
  refine ⟨hthread, hrest.imp_left fun hown => ⟨hown.1, ?_⟩⟩
  exact hown.2.succ fun heq => hown.1 (hslot heq)

/-- A slot keeps the invariant: if it finds nothing its queue is empty. -/
theorem Inv.pollSlot (h : Inv c s) (hpc : s.pc = .sweep t) (progress : Bool) :
    Inv c (s.pollSlot c t progress) := by
  have hnext := h.next hpc
  have htaken (take : Option (μ × Contents μ)) (hslot : c.slot (s.counter + t) = .threadPrioQueue →
      take = none → s.contents.csdSchedQueue = []) : Inv c (s.pollTaken t take) := by
    cases take with
    | none => exact hnext (fun heq => hslot heq rfl) s.foundNothing
    | some taken => exact trivial
  rw [State.pollSlot]
  cases hslot : c.slot (s.counter + t) with
  | noWork => exact hnext (fun heq => by rw [hslot] at heq; cases heq) s.foundNothing
  | converseThreadQueue | nodePrioQueue =>
    exact htaken _ fun heq => by rw [hslot] at heq; cases heq
  | threadPrioQueue =>
    refine htaken _ fun _ hnone => ?_
    unfold Contents.cmiTakeThreadPrioQueue at hnone
    split at hnone
    · assumption
    · cases hnone
  | progress =>
    have hprogress (heq : c.slot (s.counter + t) = .threadPrioQueue) :
        s.contents.csdSchedQueue = [] := by
      rw [hslot] at heq
      cases heq
    simp only
    split
    · exact hnext hprogress s.foundNothing
    · split
      · rw [Inv, hpc] at h
        refine ⟨hslot, fun hown => ?_⟩
        refine (h.2.resolve_right fun hempty => hown ?_).2
        rw [hempty]
      · exact hnext hprogress true

/-- The next poll, if every sweep meets `pollThreadPrioQueue`. -/
theorem Inv.poll (hturn : ∀ n, ∃ j < schedTableSize, c.slot (n + j) = .threadPrioQueue)
    (h : Inv c s) (progress : Bool) : Inv c (s.poll c progress) := by
  rw [State.poll]
  cases hpc : s.pc with
  | top =>
    simp only
    split
    · exact trivial
    · exact take_thread_eq_none (by assumption)
  | nodeQueues =>
    rw [Inv, hpc] at h
    simp only
    split
    · exact trivial
    · obtain ⟨rfl, hfound⟩ := poll_node_queues_none h (by assumption)
      exact ⟨h, hfound.imp_left fun hown => ⟨hown, fun j hj => absurd hj (Nat.not_lt_zero j)⟩⟩
  | sweep t =>
    simp only
    split
    · exact h.pollSlot hpc progress
    · rename_i hlast
      split
      · exact trivial
      · rename_i hdone
        -- The sweep has met every slot.
        rw [Inv, hpc] at h
        refine ⟨eq_false_of_ne_true hdone, h.2.resolve_left fun hown => ?_⟩
        obtain ⟨j, hj, hslot⟩ := hturn s.counter
        exact hown.2 j (lt_of_lt_of_le hj (Nat.le_of_not_lt hlast)) hslot
  | progressThread t =>
    rw [Inv, hpc] at h
    simp only
    split
    · exact trivial
    · exact ⟨take_thread_eq_none (by assumption), h⟩
  | progressNode t =>
    rw [Inv, hpc] at h
    obtain ⟨hthread, hslot, hpassed⟩ := h
    simp only
    split
    · exact trivial
    · obtain ⟨rfl, hfound⟩ := poll_node_queues_none hthread (by assumption)
      refine ⟨hthread, hfound.imp_left fun hown => ⟨hown, ?_⟩⟩
      refine (hpassed hown).succ fun heq => ?_
      rw [hslot] at heq
      cases heq
  | returned =>
    rw [Inv, hpc] at h
    rw [Inv, hpc]
    exact h

/-- One event, if `comm_backend::progress` puts nothing into `CsdSchedQueue`. -/
theorem Inv.step {delivers : Target → Prop} {e : Event μ}
    (hturn : ∀ n, ∃ j < schedTableSize, c.slot (n + j) = .threadPrioQueue)
    (hdelivers : ∀ priority, ¬ delivers (.sched priority)) (h : Inv c s)
    (hstep : Step c delivers s e s') : Inv c s' := by
  cases e with
  | push target msg =>
    obtain ⟨rfl, htop | ⟨⟨t, hpc⟩, htarget⟩⟩ := hstep
    · rw [htop]
      trivial
    · rw [Inv, hpc] at h ⊢
      cases target with
      | sched priority => exact absurd htarget (hdelivers priority)
      | thread | node | nodePrio _ => exact h
  | ipcPush toNode msg =>
    obtain rfl := hstep
    exact h
  | reenter ran after =>
    obtain ⟨rfl, -, -⟩ := hstep
    exact trivial
  | poll progress =>
    obtain rfl := hstep
    exact h.poll hturn progress

end Sweep

/-! ## The shared-memory pool -/

section Pool

variable {c : Config} {s s' : State μ} {es : List (Event μ)}

/-- What the pool holds for the PE, and whether the last look has found anything. -/
def State.pool (s : State μ) : List (Bool × μ) × List (Bool × μ) × Bool :=
  (s.inbox, s.received, s.ipcDone)

theorem poll_node_queues_pool : (s.pollNodeQueuesFirst c).1.pool = s.pool := by
  rw [State.pollNodeQueuesFirst]
  split
  · rfl
  · split
    · rfl
    · split <;> rfl

theorem poll_slot_pool (t : Nat) (progress : Bool) : (s.pollSlot c t progress).pool = s.pool := by
  have htaken (take : Option (μ × Contents μ)) : (s.pollTaken t take).pool = s.pool := by
    cases take <;> rfl
  rw [State.pollSlot]
  cases c.slot (s.counter + t) with
  | noWork => rfl
  | converseThreadQueue | nodePrioQueue | threadPrioQueue => exact htaken _
  | progress =>
    simp only
    split
    · rfl
    · split <;> rfl

/-- Only the first poll of an iteration looks at the pool. -/
theorem poll_pool (hpc : s.pc ≠ .top) (progress : Bool) : (s.poll c progress).pool = s.pool := by
  rw [State.poll]
  cases hat : s.pc with
  | top => exact absurd hat hpc
  | nodeQueues | progressNode =>
    have hnodes := poll_node_queues_pool (c := c) (s := s)
    simp only
    split
    all_goals
      rename_i heq
      rw [heq] at hnodes
      exact hnodes
  | sweep t =>
    simp only
    split
    · exact poll_slot_pool t progress
    · split <;> rfl
  | progressThread t =>
    simp only
    split <;> rfl
  | returned => rfl

/-- Between two looks at the pool messages are added to the receive queues, and nothing else
happens there. -/
theorem pool_away (hrun : Steps (fun s e s' => Step c delivers s e s' ∧ s'.pc ≠ .top) s es s')
    (hpc : s.pc ≠ .top) : s'.inbox = s.inbox ∧ s'.ipcDone = s.ipcDone ∧
      s'.received = s.received ++ es.flatMap Event.received := by
  induction hrun with
  | nil => exact ⟨rfl, rfl, (append_nil _).symm⟩
  | @cons s s₁ s' e es hstep _ ih =>
    obtain ⟨hstep, hpc₁⟩ := hstep
    obtain ⟨hinbox, hdone, hreceived⟩ := ih hpc₁
    obtain ⟨hinbox₁, hreceived₁, hdone₁⟩ : s₁.inbox = s.inbox ∧
        s₁.received = s.received ++ e.received ∧ s₁.ipcDone = s.ipcDone := by
      cases e with
      | push target msg =>
        obtain ⟨rfl, -⟩ := hstep
        exact ⟨rfl, (append_nil _).symm, rfl⟩
      | ipcPush toNode msg =>
        obtain rfl := hstep
        exact ⟨rfl, rfl, rfl⟩
      | reenter ran after =>
        obtain ⟨rfl, -, -⟩ := hstep
        exact absurd rfl hpc₁
      | poll progress =>
        obtain rfl := hstep
        obtain ⟨hinbox, hrest⟩ := Prod.mk.inj (poll_pool (c := c) hpc progress)
        obtain ⟨hreceived, hdone⟩ := Prod.mk.inj hrest
        exact ⟨hinbox, hreceived.trans (append_nil _).symm, hdone⟩
    rw [hinbox, hinbox₁, hdone, hdone₁, hreceived, hreceived₁, flatMap_cons, append_assoc]
    exact ⟨rfl, rfl, rfl⟩

/-- A look that finds nothing leaves nothing. -/
theorem look_found_nothing (htop : s.pc = .top) (progress : Bool)
    (hdone : (s.poll c progress).ipcDone = false) :
    (s.poll c progress).inbox = [] ∧ (s.poll c progress).received = [] := by
  have hlook : (s.poll c progress).pool =
      { s with foundNothing := false }.cmiDeliverIpcInbox.pool := by
    rw [State.poll, htop]
    simp only
    split <;> rfl
  obtain ⟨hinbox, hrest⟩ := Prod.mk.inj hlook
  obtain ⟨hreceived, hfound⟩ := Prod.mk.inj hrest
  rw [hdone, State.cmiDeliverIpcInbox] at hfound
  rw [hinbox, hreceived, State.cmiDeliverIpcInbox]
  refine ⟨rfl, ?_⟩
  cases h : s.inbox with
  | nil => rfl
  | cons block inbox =>
    simp only [h] at hfound
    cases hfound

/-- When the call returns, the pool holds only what was put there since the last look. -/
theorem last_look {contents : Contents μ} {inbox received : List (Bool × μ)} {streak : Nat}
    (hrun : Steps (Step c delivers) (.start contents inbox received streak) es s)
    (hpc : s.pc ≠ .top) (hdone : s.ipcDone = false) :
    s.inbox = [] ∧ ∃ es₁ s₁ progress es₂, es = es₁ ++ .poll progress :: es₂ ∧
      Steps (Step c delivers) (.start contents inbox received streak) es₁ s₁ ∧ s₁.pc = .top ∧
      s.received = es₂.flatMap Event.received := by
  obtain ⟨es₁, s₁, es₂, rfl, hbefore, htop, hafter⟩ : ∃ es₁ s₁ es₂, es = es₁ ++ es₂ ∧
      Steps (Step c delivers) (.start contents inbox received streak) es₁ s₁ ∧ s₁.pc = .top ∧
      Steps (fun s e s' => Step c delivers s e s' ∧ s'.pc ≠ .top) s₁ es₂ s := by
    obtain hsplit | haway := hrun.split_last (P := fun s => s.pc = .top)
    · exact hsplit
    · exact ⟨[], _, es, rfl, .nil _, rfl, haway⟩
  cases hafter with
  | nil => exact absurd htop hpc
  | @cons _ s₂ _ e es₂ hstep hrest =>
    obtain ⟨hstep, hpc₂⟩ := hstep
    cases e with
    | push target msg =>
      obtain ⟨rfl, -⟩ := hstep
      exact absurd htop hpc₂
    | ipcPush toNode msg =>
      obtain rfl := hstep
      exact absurd htop hpc₂
    | reenter ran after =>
      obtain ⟨rfl, -, -⟩ := hstep
      exact absurd rfl hpc₂
    | poll progress =>
      obtain rfl := hstep
      obtain ⟨hinbox, hdone', hreceived⟩ := pool_away hrest hpc₂
      obtain ⟨hnone, hnone'⟩ := look_found_nothing htop progress (hdone'.symm.trans hdone)
      rw [hnone', nil_append] at hreceived
      exact ⟨hinbox.trans hnone, es₁, s₁, progress, es₂, rfl, hbefore, htop, hreceived⟩

end Pool

/-! ## A message that is left behind -/

section LeftBehind

variable {c : Config} (delivers : Target → Prop) (streak counter : Nat)

/-- Only the thread queue may have messages, and the network has always had something to report. -/
def calm (threadQueue : List μ) (streak counter : Nat) (pc : Pc) (log : List μ) : State μ :=
  ⟨⟨threadQueue, [], [], []⟩, [], [], streak, counter, false, false, pc, log⟩

/-- Iterations that run the messages of the thread queue. -/
theorem drain_run (msg : μ) (n streak counter : Nat) (log : List μ) :
    ∃ es log', Steps (Step c delivers) (calm (List.replicate n msg) streak counter .top log) es
      (calm [] streak (counter + n) .top log') := by
  induction n generalizing counter log with
  | zero => exact ⟨[], log, .nil _⟩
  | succ n ih =>
    obtain ⟨es, log', hrun⟩ := ih (counter + 1) (log ++ [msg])
    rw [add_right_comm] at hrun
    exact ⟨.poll true :: es, log', .cons rfl hrun⟩

/-- `pollNodeQueuesFirst` finds nothing. -/
theorem calm_node_queues (pc : Pc) (log : List μ) :
    (calm [] streak counter pc log).pollNodeQueuesFirst c = (calm [] 0 counter pc log, false) := by
  rw [State.pollNodeQueuesFirst, if_neg (fun h => h.2 rfl)]
  rfl

/-- The polls ahead of the sweep find nothing. -/
theorem calm_start (log : List μ) :
    ∃ es, Steps (Step c delivers) (calm [] streak counter .top log) es
      (calm [] 0 counter (.sweep 0) log) := by
  have hthread : Step c delivers (calm [] streak counter .top log) (.poll true)
      (calm [] streak counter .nodeQueues log) := rfl
  have hnodes : Step c delivers (calm [] streak counter .nodeQueues log) (.poll true)
      (calm [] 0 counter (.sweep 0) log) := by
    have hpoll : (calm [] streak counter .nodeQueues log).poll c true =
        match (calm [] streak counter .nodeQueues log).pollNodeQueuesFirst c with
        | (s, true) => s.endIteration
        | (s, false) => { s with pc := .sweep 0 } := rfl
    rw [Step, hpoll, calm_node_queues]
    rfl
  exact ⟨_, .cons hthread (.single hnodes)⟩

section

variable (hpolls : c.pollsProgress = true)

include hpolls

/-- The network is polled in the sweep and reports something. -/
theorem calm_progress (ht : t < schedTableSize)
    (counter : Nat) (log : List μ) (hslot : c.slot (counter + t) = .progress) :
    Step c delivers (calm [] 0 counter (.sweep t) log) (.poll true)
      (calm [] 0 counter (.progressThread t) log) := by
  have hpoll : (calm [] 0 counter (.sweep t) log).poll c true =
      (calm [] 0 counter (.sweep t) log).pollSlot c t true := if_pos ht
  have hcounter : c.slot ((calm [] 0 counter (.sweep t) log).counter + t) = .progress := hslot
  rw [Step, hpoll, State.pollSlot, hcounter]
  simp only [hpolls]
  rfl

/-- A slot of the sweep finds nothing. -/
theorem calm_pass (ht : t < schedTableSize)
    (counter : Nat) (log : List μ) : ∃ es, Steps (Step c delivers)
      (calm [] 0 counter (.sweep t) log) es (calm [] 0 counter (.sweep (t + 1)) log) := by
  by_cases hslot : c.slot (counter + t) = .progress
  · have hprogress := calm_progress delivers hpolls ht counter log hslot
    have hthread : Step c delivers (calm [] 0 counter (.progressThread t) log) (.poll true)
        (calm [] 0 counter (.progressNode t) log) := rfl
    have hnodes : Step c delivers (calm [] 0 counter (.progressNode t) log) (.poll true)
        (calm [] 0 counter (.sweep (t + 1)) log) := by
      have hpoll : (calm [] 0 counter (.progressNode t) log).poll c true =
          match (calm [] 0 counter (.progressNode t) log).pollNodeQueuesFirst c with
          | (s, true) => s.endIteration
          | (s, false) => { s with pc := .sweep (t + 1) } := rfl
      rw [Step, hpoll, calm_node_queues]
      rfl
    exact ⟨_, .cons hprogress (.cons hthread (.single hnodes))⟩
  · have hpoll : (calm [] 0 counter (.sweep t) log).poll c true =
        (calm [] 0 counter (.sweep t) log).pollSlot c t true := if_pos ht
    have hnext : (calm [] 0 counter (.sweep t) log).pollSlot c t true =
        calm [] 0 counter (.sweep (t + 1)) log := by
      rw [State.pollSlot, show (calm [] 0 counter (.sweep t) log).counter = counter from rfl]
      cases h : c.slot (counter + t) with
      | progress => exact absurd h hslot
      | noWork | converseThreadQueue | nodePrioQueue | threadPrioQueue => rfl
    exact ⟨[.poll true], .single (hpoll.trans hnext).symm⟩

/-- A sweep over empty queues. -/
theorem calm_sweep (counter : Nat) (log : List μ)
    (ht : t ≤ schedTableSize) : ∃ es, Steps (Step c delivers)
      (calm [] 0 counter (.sweep 0) log) es (calm [] 0 counter (.sweep t) log) := by
  induction t with
  | zero => exact ⟨[], .nil _⟩
  | succ t ih =>
    obtain ⟨es, hrun⟩ := ih (Nat.le_of_succ_le ht)
    obtain ⟨fs, hpass⟩ := calm_pass delivers hpolls ht counter log
    exact ⟨es ++ fs, hrun.append hpass⟩

/-- The network is polled in the last slot of a sweep, and a completion sends a message to the PE
itself. -/
theorem left_behind (ht : t + 1 = schedTableSize)
    {counter : Nat} (hslot : c.slot (counter + t) = .progress) (log : List μ) (msg : μ)
    (hdelivers : delivers (.sched priority)) :
    ∃ es s, Steps (Step c delivers) (calm [] 0 counter (.sweep t) log) es s ∧
      s.pc = .returned ∧ s.contents.csdSchedQueue = [(priority, msg)] := by
  let left (pc : Pc) : State μ :=
    ⟨⟨[], [], [], [(priority, msg)]⟩, [], [], 0, counter, false, false, pc, log⟩
  have hprogress := calm_progress delivers hpolls (by omega) counter log hslot
  have hpush : Step c delivers (calm [] 0 counter (.progressThread t) log)
      (.push (.sched priority) msg) (left (.progressThread t)) :=
    ⟨rfl, .inr ⟨⟨t, rfl⟩, hdelivers⟩⟩
  have hthread : Step c delivers (left (.progressThread t)) (.poll true) (left (.progressNode t)) :=
    rfl
  have hnodes : Step c delivers (left (.progressNode t)) (.poll true) (left (.sweep (t + 1))) := by
    have hnone : (left (.progressNode t)).pollNodeQueuesFirst c =
        (left (.progressNode t), false) := by
      rw [State.pollNodeQueuesFirst]
      split
      · rfl
      · rfl
    have hpoll : (left (.progressNode t)).poll c true =
        match (left (.progressNode t)).pollNodeQueuesFirst c with
        | (s, true) => s.endIteration
        | (s, false) => { s with pc := .sweep (t + 1) } := rfl
    rw [Step, hpoll, hnone]
  have hlast : Step c delivers (left (.sweep (t + 1))) (.poll true) (left .returned) := by
    have hswept : ¬ t + 1 < schedTableSize := by omega
    exact (if_neg hswept).symm
  exact ⟨_, _, .cons hprogress (.cons hpush (.cons hthread (.cons hnodes (.single hlast)))),
    rfl, rfl⟩

end

end LeftBehind

/-! ## The result -/

/-- In every run that returns, the four queues and the inbox are empty. The receive queues hold what
peer processes have put there since they were last looked at, in the first poll of an iteration.
Everything else that was there or has arrived was run exactly once. -/
def Empties (μ : Type) (c : Config) (delivers : Target → Prop) : Prop :=
  ∀ contents inbox received streak es (s : State μ),
    Steps (Step c delivers) (.start contents inbox received streak) es s → s.pc = .returned →
      s.contents = ⟨[], [], [], []⟩ ∧ s.inbox = [] ∧
      ∃ es₁ s₁ progress es₂, es = es₁ ++ .poll progress :: es₂ ∧
        Steps (Step c delivers) (.start contents inbox received streak) es₁ s₁ ∧ s₁.pc = .top ∧
        s.received = es₂.flatMap Event.received ∧
        s.log.Perm ((State.start contents inbox received streak).waiting ++
          es₁.flatMap Event.arrived ++ es₂.flatMap Event.pushed)

/-- The table of `CmiQueueRegisterInitThread` has a slot of `pollProgress` and one of
`pollThreadPrioQueue`. -/
theorem registered_slots {backendPollFreq : Nat} {table : List Poll}
    (h : cmiQueueRegisterInitThread backendPollFreq = some table) :
    (∃ p < schedTableSize, table.getD p .noWork = .progress) ∧
      ∃ p < schedTableSize, table.getD p .noWork = .threadPrioQueue := by
  obtain ⟨hlength, hmem⟩ := mem_of_add_list (Nat.le_of_ble_eq_true rfl) h
  have hprogress := hmem (.progress, backendPollFreq) (by simp)
  have hprio := hmem (.threadPrioQueue, 16) (by simp)
  exact ⟨exists_slot hlength hprogress, exists_slot hlength hprio⟩

/-- A slot that occurs in the table comes in every sweep. -/
theorem exists_in_sweep {fn : Poll}
    (h : ∃ p < schedTableSize, c.pollHandlers.getD p .noWork = fn) (n : Nat) :
    ∃ j < schedTableSize, c.slot (n + j) = fn := by
  obtain ⟨p, hp, hfn⟩ := h
  have hlt := Nat.mod_lt n (show 0 < schedTableSize by decide)
  refine ⟨(p + schedTableSize - n % schedTableSize) % schedTableSize, Nat.mod_lt _ (by decide), ?_⟩
  have hindex : (n + (p + schedTableSize - n % schedTableSize) % schedTableSize) %
      schedTableSize = p := by
    rw [Nat.add_mod_mod, ← Nat.mod_add_mod,
      show n % schedTableSize + (p + schedTableSize - n % schedTableSize) = p + schedTableSize by
        omega,
      Nat.add_mod_right, Nat.mod_eq_of_lt hp]
  rw [Config.slot, hindex]
  exact hfn

/-- If nothing is delivered to `CsdSchedQueue` the call returns with empty queues. -/
theorem empties_of_not_delivers
    (hturn : ∀ n, ∃ j < schedTableSize, c.slot (n + j) = .threadPrioQueue)
    (hdelivers : ∀ priority, ¬ delivers (.sched priority)) : Empties μ c delivers := by
  intro contents inbox received streak es s hrun hpc
  have hinv : Inv c s := hrun.invariant (fun _ _ _ h hstep => h.step hturn hdelivers hstep) trivial
  rw [Inv, hpc] at hinv
  obtain ⟨hdone, hempty⟩ := hinv
  obtain ⟨hinbox, es₁, s₁, progress, es₂, rfl, hbefore, htop, hreceived⟩ :=
    last_look hrun (by rw [hpc]; nofun) hdone
  refine ⟨hempty, hinbox, es₁, s₁, progress, es₂, rfl, hbefore, htop, hreceived, ?_⟩
  -- What is left in the receive queues is cancelled on both sides.
  have hkept := run_kept hrun
  have harrived : (es₂.flatMap Event.arrived).Perm
      (es₂.flatMap Event.pushed ++ s.received.map Prod.snd) := by
    rw [hreceived, map_flatMap]
    exact (flatMap_append_perm ..).symm
  rw [State.kept, State.waiting, hempty, hinbox, flatMap_append, flatMap_cons] at hkept
  refine (perm_append_right_iff (s.received.map Prod.snd)).mp (hkept.trans ?_)
  rw [append_assoc, append_assoc]
  exact (harrived.append_left _).append_left _

/-- If something may be, it can be left there. -/
theorem not_empties_of_delivers [Nonempty μ] (hpolls : c.pollsProgress = true)
    (hslot : ∃ p < schedTableSize, c.pollHandlers.getD p .noWork = .progress)
    (hdelivers : delivers (.sched priority)) : ¬ Empties μ c delivers := by
  intro hempties
  obtain ⟨msg⟩ := ‹Nonempty μ›
  obtain ⟨p, hp, hprogress⟩ := hslot
  -- After `p + 1` iterations the slot is the last one of the sweep.
  have hlast : c.slot (p + 1 + 63) = .progress := by
    rw [Config.slot, add_assoc, show 1 + 63 = schedTableSize from rfl, Nat.add_mod_right,
      Nat.mod_eq_of_lt hp]
    exact hprogress
  obtain ⟨es, log, hdrain⟩ := drain_run delivers msg (p + 1) 0 0 []
  rw [zero_add] at hdrain
  obtain ⟨fs, hstart⟩ := calm_start delivers 0 (p + 1) log
  obtain ⟨gs, hsweep⟩ := calm_sweep delivers hpolls (p + 1) log
    (show 63 ≤ schedTableSize by decide)
  obtain ⟨ks, s, hleft, hpc, hsched⟩ := left_behind delivers hpolls rfl hlast log msg hdelivers
  have hempty := (hempties ⟨replicate (p + 1) msg, [], [], []⟩ [] [] 0 _ s
    (hdrain.append (hstart.append (hsweep.append hleft))) hpc).1
  rw [hempty] at hsched
  cases hsched

/-- `CsdSchedulePollRegistered` returns only when the queues are empty and every message was run
exactly once, if and only if `comm_backend::progress` puts no messages into `CsdSchedQueue`. -/
theorem schedule_poll_empties_iff (μ : Type) [Nonempty μ] (nodeQueueMax backendPollFreq : Nat)
    (hint : backendPollFreq < 2 ^ 31) (delivers : Target → Prop) :
    ∃ table, cmiQueueRegisterInitThread backendPollFreq = some table ∧
      (Empties μ ⟨nodeQueueMax, table, true⟩ delivers ↔
        ∀ priority, ¬ delivers (.sched priority)) := by
  obtain ⟨table, htable⟩ := exists_table backendPollFreq hint
  obtain ⟨hprogress, hprio⟩ := registered_slots htable
  refine ⟨table, htable, fun hempties priority hdelivers => ?_, fun hdelivers => ?_⟩
  · exact not_empties_of_delivers rfl hprogress hdelivers hempties
  · exact empties_of_not_delivers (exists_in_sweep hprio) hdelivers

/-- With the defaults nothing is left if `comm_backend::progress` puts messages only into the thread
queue and the node queue. -/
theorem network_messages_leave_nothing : ∃ table, cmiQueueRegisterInitThread 64 = some table ∧
    Empties Nat ⟨16, table, true⟩ fun target => target = .thread ∨ target = .node := by
  obtain ⟨table, htable, hiff⟩ := schedule_poll_empties_iff Nat 16 64 (by decide)
    fun target => target = .thread ∨ target = .node
  exact ⟨table, htable, hiff.mpr fun priority h => h.elim nofun nofun⟩

/-- With the defaults a message that a completion has sent to the PE itself may be left. -/
theorem completion_message_left : ∃ table, cmiQueueRegisterInitThread 64 = some table ∧
    ¬ Empties Nat ⟨16, table, true⟩ fun target => target = .sched 0 := by
  obtain ⟨table, htable⟩ := exists_table 64 (by decide)
  exact ⟨table, htable, not_empties_of_delivers rfl (registered_slots htable).1 rfl⟩

end Reconverse.Scheduler.SchedulePoll
