import Reconverse.Scheduler.AtomicQueue
import Reconverse.Scheduler.Old

/-!
# Streaks of node-level messages in the old scheduler

The loop of `Old` over the thread queue as it is, with producers that are halfway through a push
(`AtomicQueue`). Messages of the node queue and of the node priority queue share the streak
`nq_streak`. Only a message of the PE's own queues ends the streak while the PE has one: the branch
of the thread queue resets it, but then the thread queue is not empty for the consumer, and the pop
finds a message. So at most `node_queue_max` node-level messages are run in a row
(`node_streak_bounded`).
-/

namespace Reconverse.Scheduler.Old

open Lib

namespace Streaks

variable {c : Config} {s : State} {q q' : Queues}

/-- The loop and the thread queue of the PE. `nodeRun` and `ownRun` count the messages of the two
node-level queues and of the PE's own two queues that were run. -/
structure State where
  loop : Old.State
  queue : AtomicQueue
  nodeRun : Nat
  ownRun : Nat

/-- Pushes to and takes from the other queues, the two halves of a push to the thread queue, and the
next branch of the loop. `early` says whether a pop of the thread queue comes upon a message that is
not counted yet. -/
inductive Event where
  | traffic (t : Traffic)
  | enqueue
  | count
  | countEarly
  | poll (pop lock early : Bool)
  deriving DecidableEq, Repr

/-- `CsdSchedulerOld` is called. -/
def State.start (queues : Queues) : State where
  loop := .start queues
  queue := .ofCount queues.threadQueue
  nodeRun := 0
  ownRun := 0

namespace State

variable (s : State)

/-- The loop with the thread queue as the consumer sees it. -/
def view : Old.State :=
  { s.loop with queues := { s.loop.queues with threadQueue := s.queue.pushed - s.queue.taken } }

/-- The next branch of the loop. It runs at most one message, and one of the thread queue if and
only if that is shorter afterwards. -/
def poll (c : Config) (pop lock early : Bool) : State :=
  let loop := s.view.poll c pop lock
  let thread := s.view.queues.threadQueue - loop.queues.threadQueue
  { loop := loop
    queue := if 0 < thread then (s.queue.popResult early).getD s.queue else s.queue
    nodeRun := s.nodeRun + (loop.otherRun - s.loop.otherRun - thread)
    ownRun := s.ownRun + (loop.localRun - s.loop.localRun) + thread }

/-- One event. The messages of the thread queue are pushed in halves. -/
def step (c : Config) : Event → State
  | .traffic .thread => s
  | .traffic t => { s with loop := { s.loop with queues := s.loop.queues.after t } }
  | .enqueue => { s with queue := s.queue.enqueue }
  | .count => { s with queue := s.queue.count }
  | .countEarly => { s with queue := s.queue.countEarly }
  | .poll pop lock early => s.poll c pop lock early

/-- A completely pushed message is in one of the PE's own queues. -/
def HasOwn : Prop := 0 < s.queue.counted ∨ s.loop.queues.csdSchedQueue ≠ []

/-- A pop of the thread queue succeeds if a completely pushed message is in it. -/
def PopSucceeds : Prop := 0 < s.queue.counted → ¬ s.queue.empty

end State

/-- An event of a stretch: pops of the thread queue succeed, and at the start of an iteration the PE
has a message of its own. -/
def StretchStep (c : Config) (s : State) (e : Event) (s' : State) : Prop :=
  s' = s.step c e ∧ ∀ pop lock early, e = .poll pop lock early →
    s.PopSucceeds ∧ (s.loop.pc = .nodeQueue → s.HasOwn)

/-! ## A branch of a PE that has messages of its own -/

/-- The PE has a message of its own that the rest of the iteration comes to. -/
def Ready (s : Old.State) : Prop :=
  s.pc ≠ .prioQueues ∧ s.queues.threadQueue ≠ 0 ∨ s.queues.csdSchedQueue ≠ []

/-- What a branch can do: nothing is run, a node-level message is run and the streak grows, or a
message of one of the PE's own queues is run. -/
inductive Move (c : Config) (s : Old.State) : Old.State → Prop where
  | pass {pc : Pc} (hready : Ready { s with pc := pc }) : Move c s { s with pc := pc }
  | node {s' : Old.State} (hpc : s'.pc = .nodeQueue) (hstreak : s.nqStreak < c.nodeQueueMax)
      (hnq : s'.nqStreak = s.nqStreak + 1) (hother : s'.otherRun = s.otherRun + 1)
      (hlocal : s'.localRun = s.localRun)
      (hthread : s'.queues.threadQueue = s.queues.threadQueue) : Move c s s'
  | thread {s' : Old.State} (hpc : s'.pc = .nodeQueue) (hother : s'.otherRun = s.otherRun + 1)
      (hlocal : s'.localRun = s.localRun)
      (hthread : s.queues.threadQueue = s'.queues.threadQueue + 1) : Move c s s'
  | sched {s' : Old.State} (hpc : s'.pc = .nodeQueue) (hother : s'.otherRun = s.otherRun)
      (hlocal : s'.localRun = s.localRun + 1)
      (hthread : s'.queues.threadQueue = s.queues.threadQueue) : Move c s s'

theorem take_node_thread (h : q.cmiTakeNodeQueue = some q') : q'.threadQueue = q.threadQueue := by
  rw [Queues.cmiTakeNodeQueue] at h
  split at h
  · cases h
  · cases h
    rfl

theorem take_node_prio_thread {lock : Bool}
    (h : q.cmiTakeNodePrioQueue lock = some q') : q'.threadQueue = q.threadQueue := by
  unfold Queues.cmiTakeNodePrioQueue at h
  split at h
  · cases h
    rfl
  · cases h

/-- A message of `CsdSchedQueue` is run. -/
theorem run_local_move {s t : Old.State} (h : t.queues.csdSchedQueue ≠ [])
    (hpc : t.pc = .nodeQueue) (hother : t.otherRun = s.otherRun) (hlocal : t.localRun = s.localRun)
    (hthread : t.queues.threadQueue = s.queues.threadQueue) : Move c s t.runLocal := by
  rw [Old.State.runLocal, Queues.cmiTakeThreadPrioQueue]
  cases hsched : t.queues.csdSchedQueue with
  | nil => exact absurd hsched h
  | cons => exact .sched hpc hother (congrArg (· + 1) hlocal) hthread

/-- The branches of a PE that has a message of its own. -/
theorem poll_move {s : Old.State} (h : Ready s) (pop lock : Bool) :
    Move c s (s.poll c pop lock) := by
  rw [Old.State.poll]
  cases hpc : s.pc with
  | nodeQueue =>
    have hown : ¬ (s.queues.threadQueue = 0 ∧ s.queues.csdSchedQueue = []) := by
      intro hnone
      exact h.elim (fun h => h.2 hnone.1) (fun h => h hnone.2)
    simp only
    split
    · rename_i hturn
      have hstreak := hturn.2.resolve_right hown
      split
      · rename_i queues htake
        have htake : s.queues.cmiTakeNodeQueue = some queues := by
          split at htake
          · exact htake
          · cases htake
        exact .node hpc hstreak rfl rfl rfl (take_node_thread htake)
      · have hsame : Move c s { s with pc := s.pc } := .pass h
        exact hsame
    · refine .pass (h.imp_left fun h => ⟨by simp, h.2⟩)
  | threadQueue =>
    simp only
    split
    · rename_i hempty
      exact .pass (.inr (h.resolve_left fun h => h.2 hempty))
    · rename_i hthread
      split
      · -- The queue is not empty for the consumer, so that the pop finds a message.
        cases htake : s.queues.cmiTakeThreadQueue with
        | none =>
          rw [Queues.cmiTakeThreadQueue] at htake
          split at htake
          · exact absurd (by assumption) hthread
          · cases htake
        | some queues =>
          refine .thread rfl rfl rfl ?_
          rw [Queues.cmiTakeThreadQueue] at htake
          split at htake
          · cases htake
          · rename_i n hn
            cases htake
            exact hn
      · rename_i hturn
        exact run_local_move (fun hnil => hturn (.inr hnil)) rfl rfl rfl rfl
  | prioQueues =>
    have hsched : s.queues.csdSchedQueue ≠ [] := h.resolve_left fun h => h.1 hpc
    simp only
    split
    · rename_i hturn
      have hstreak := hturn.resolve_right hsched
      split
      · rename_i queues htake
        exact .node rfl hstreak rfl rfl rfl (take_node_prio_thread htake)
      · exact run_local_move hsched rfl rfl rfl rfl
    · exact run_local_move hsched rfl rfl rfl rfl

/-! ## Stretches -/

/-- What a stretch keeps from `s` on as long as no message of the PE's own queues is run: the
node-level messages that were run and those for which the streak has room are as many as at `s`. -/
def NodeRoom (c : Config) (s s' : State) : Prop :=
  s'.nodeRun + (c.nodeQueueMax - s'.loop.nqStreak) ≤ s.nodeRun + (c.nodeQueueMax - s.loop.nqStreak)

/-- The iteration under way comes to a message of the PE's own. -/
def Underway (s : State) : Prop := s.loop.pc ≠ .nodeQueue → Ready s.view

/-- At the top of the loop a local message is ready. -/
theorem ready_of_top (hpop : s.PopSucceeds) (hown : s.HasOwn)
    (hpc : s.loop.pc = .nodeQueue) : Ready s.view := by
  refine hown.imp_left fun hcounted => ⟨?_, ?_⟩
  · show s.loop.pc ≠ .prioQueues
    rw [hpc]
    nofun
  · have hlt := s.queue.credit_le
    have hne := (s.queue.empty_iff).not.mp (hpop hcounted)
    show s.queue.pushed - s.queue.taken ≠ 0
    omega

/-- Pushes to the PE's own queues keep what is there. -/
theorem Underway.mono {s s' : State} (h : Underway s) (hpc : s'.loop.pc = s.loop.pc)
    (hthread : s.view.queues.threadQueue ≤ s'.view.queues.threadQueue)
    (hsched : s.loop.queues.csdSchedQueue ≠ [] → s'.loop.queues.csdSchedQueue ≠ []) :
    Underway s' := by
  intro hne
  rw [hpc] at hne
  refine (h hne).imp (fun h => ⟨?_, ?_⟩) hsched
  · have hpc' : s'.view.pc = s.view.pc := hpc
    rw [hpc']
    exact h.1
  · omega

theorem after_sched {q : Queues} (t : Traffic) (h : q.csdSchedQueue ≠ []) :
    (q.after t).csdSchedQueue ≠ [] := by
  cases t with
  | sched priority =>
    intro hnil
    have hlen := List.orderedInsert_length (· ≤ ·) q.csdSchedQueue priority
    rw [show q.csdSchedQueue.orderedInsert (· ≤ ·) priority = [] from hnil] at hlen
    cases hlen
  | thread | node | nodePrio | otherTakesNode | otherTakesNodePrio => exact h

/-- A push to or a take from a queue. -/
theorem traffic_step {e : Event}
    (he : ∀ pop lock early, e ≠ .poll pop lock early) (h : Underway s) :
    Underway (s.step c e) ∧ (s.step c e).loop.nqStreak = s.loop.nqStreak ∧
      (s.step c e).nodeRun = s.nodeRun ∧ (s.step c e).ownRun = s.ownRun := by
  cases e with
  | poll pop lock early => exact absurd rfl (he pop lock early)
  | enqueue => exact ⟨h, rfl, rfl, rfl⟩
  | count =>
    refine ⟨h.mono rfl ?_ fun h => h, rfl, rfl, rfl⟩
    show s.queue.pushed - s.queue.taken ≤ s.queue.count.pushed - s.queue.count.taken
    rw [AtomicQueue.count]
    split
    · exact Nat.sub_le_sub_right (Nat.le_succ _) _
    · exact le_refl _
  | countEarly =>
    refine ⟨h.mono rfl ?_ fun h => h, rfl, rfl, rfl⟩
    show s.queue.pushed - s.queue.taken ≤ s.queue.countEarly.pushed - s.queue.countEarly.taken
    rw [AtomicQueue.countEarly]
    split
    · exact Nat.sub_le_sub_right (Nat.le_succ _) _
    · exact le_refl _
  | traffic t =>
    cases t with
    | thread => exact ⟨h, rfl, rfl, rfl⟩
    | sched priority =>
      exact ⟨h.mono rfl (le_refl _) (after_sched (.sched priority)), rfl, rfl, rfl⟩
    | node | nodePrio | otherTakesNode | otherTakesNodePrio =>
      exact ⟨h.mono rfl (le_refl _) fun h => h, rfl, rfl, rfl⟩

/-- A poll runs a local message or brings it nearer. -/
theorem poll_step (h : Ready s.view) (pop lock early : Bool) :
    Underway (s.poll c pop lock early) ∧ s.ownRun ≤ (s.poll c pop lock early).ownRun ∧
      ((s.poll c pop lock early).ownRun = s.ownRun → NodeRoom c s (s.poll c pop lock early)) := by
  have hmove := poll_move (c := c) h pop lock
  have hnode : (s.poll c pop lock early).nodeRun = s.nodeRun +
      ((s.view.poll c pop lock).otherRun - s.view.otherRun -
        (s.view.queues.threadQueue - (s.view.poll c pop lock).queues.threadQueue)) := rfl
  have hown : (s.poll c pop lock early).ownRun = s.ownRun +
      ((s.view.poll c pop lock).localRun - s.view.localRun) +
        (s.view.queues.threadQueue - (s.view.poll c pop lock).queues.threadQueue) := rfl
  have hnq : (s.poll c pop lock early).loop.nqStreak = (s.view.poll c pop lock).nqStreak := rfl
  have hpc : (s.poll c pop lock early).loop.pc = (s.view.poll c pop lock).pc := rfl
  have hnq₀ : s.view.nqStreak = s.loop.nqStreak := rfl
  rw [NodeRoom, hnode, hnq]
  generalize hloop : s.view.poll c pop lock = loop at hmove hnode hown hnq hpc ⊢
  cases hmove with
  | pass hready =>
    refine ⟨fun _ => ?_, by omega, fun _ => ?_⟩
    · have hqueue : (s.poll c pop lock early).queue = s.queue := by
        show (if 0 < s.view.queues.threadQueue - (s.view.poll c pop lock).queues.threadQueue then
          (s.queue.popResult early).getD s.queue else s.queue) = s.queue
        rw [hloop]
        exact if_neg (Nat.not_lt.mpr (Nat.le_of_eq (Nat.sub_self _)))
      have hview : (s.poll c pop lock early).view = s.view.poll c pop lock := by
        show ({ s.view.poll c pop lock with queues := { (s.view.poll c pop lock).queues with
          threadQueue := (s.poll c pop lock early).queue.pushed -
            (s.poll c pop lock early).queue.taken } } : Old.State) = s.view.poll c pop lock
        rw [hqueue, hloop]
        rfl
      rw [hview, hloop]
      exact hready
    · rw [Nat.sub_self, Nat.zero_sub]
      exact le_refl _
  | node hpc' hstreak hnq' hother hlocal hthread =>
    refine ⟨fun hne => absurd (hpc.trans hpc') hne, by omega, fun _ => by omega⟩
  | thread hpc' hother hlocal hthread | sched hpc' hother hlocal hthread =>
    refine ⟨fun hne => absurd (hpc.trans hpc') hne, by omega, fun heq => by omega⟩

end Streaks

open Streaks in
/-- In a stretch that begins at the start of an iteration, and in which at every iteration a
completely pushed message is in the thread queue or in `CsdSchedQueue`, at most `node_queue_max`
node-level messages are run as long as none of the PE's own queues is. -/
theorem node_streak_bounded (c : Config) {s s' : Streaks.State} {es : List Streaks.Event}
    (htop : s.loop.pc = .nodeQueue) (hstretch : Steps (StretchStep c) s es s')
    (hown : s'.ownRun = s.ownRun) : s'.nodeRun ≤ s.nodeRun + c.nodeQueueMax := by
  have hinv := hstretch.invariant (I := fun s' => Underway s' ∧ s.ownRun ≤ s'.ownRun ∧
    (s'.ownRun = s.ownRun → NodeRoom c s s')) ?_
    ⟨fun hne => absurd htop hne, le_refl _, fun _ => le_refl _⟩
  · have hroom := hinv.2.2 hown
    rw [NodeRoom] at hroom
    omega
  intro s₁ e s₂ hinv hstep
  obtain ⟨hunder, hle, hroom⟩ := hinv
  obtain ⟨rfl, hpoll⟩ := hstep
  by_cases he : ∃ pop lock early, e = .poll pop lock early
  · obtain ⟨pop, lock, early, rfl⟩ := he
    obtain ⟨hpop, htop⟩ := hpoll pop lock early rfl
    have hready : Ready s₁.view := by
      by_cases hpc : s₁.loop.pc = .nodeQueue
      · exact ready_of_top hpop (htop hpc) hpc
      · exact hunder hpc
    obtain ⟨hunder', hle', hroom'⟩ := poll_step (c := c) hready pop lock early
    refine ⟨hunder', le_trans hle hle', fun heq => ?_⟩
    have heq : (s₁.poll c pop lock early).ownRun = s.ownRun := heq
    have hsame : s₁.ownRun = s.ownRun := le_antisymm (le_trans hle' (le_of_eq heq)) hle
    exact le_trans (hroom' (heq.trans hsame.symm)) (hroom hsame)
  · obtain ⟨hunder', hnq, hnode, hown'⟩ := traffic_step (c := c)
      (fun pop lock early heq => he ⟨pop, lock, early, heq⟩) hunder
    refine ⟨hunder', le_trans hle (le_of_eq hown'.symm), fun heq => ?_⟩
    rw [NodeRoom, hnq, hnode]
    exact hroom (hown'.symm.trans heq)

/-- Two messages of the node queue with a message of `CsdSchedQueue` waiting. -/
theorem two_node_messages_bounded : ∃ es s', Steps (Streaks.StretchStep ⟨16, 16⟩)
    (.start ⟨0, 2, [], [0]⟩) es s' ∧ s'.nodeRun = 2 ∧ s'.nodeRun ≤ 0 + 16 := by
  have hpoll (s : Streaks.State) (hcounted : s.queue.counted = 0)
      (hsched : s.loop.queues.csdSchedQueue ≠ []) :
      Streaks.StretchStep ⟨16, 16⟩ s (.poll true true false)
        (s.step ⟨16, 16⟩ (.poll true true false)) := by
    refine ⟨rfl, fun _ _ _ _ => ⟨fun hpos => ?_, fun _ => .inr hsched⟩⟩
    rw [hcounted] at hpos
    cases hpos
  have hrun := Steps.cons (hpoll (.start ⟨0, 2, [], [0]⟩) rfl nofun)
    (.single (hpoll _ rfl nofun))
  exact ⟨_, _, hrun, rfl, node_streak_bounded ⟨16, 16⟩ rfl hrun rfl⟩

end Reconverse.Scheduler.Old
