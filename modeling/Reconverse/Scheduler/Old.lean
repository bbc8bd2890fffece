import Reconverse.Lib.Runs
import Reconverse.Scheduler.Queues

/-!
# The old scheduler

`CsdSchedulerOld` is a chain of branches over the node queue, the thread queue, the node priority
queue and the PE's own priority queue. `thread_queue_max` and `node_queue_max` bound the streaks of
thread-queue and of node-level messages. Each branch is a step, and others may push to the queues
and take from them between any two steps.

A thread-queue message ends the streak of node-level messages, and a message of the node priority
queue, which is looked at when the thread queue is empty, ends that of the thread-queue messages. So
the two kinds may alternate without end while a message of the PE's own waits, whatever the two
maxima are (`others_never_bounded`).
-/

namespace Reconverse.Scheduler.Old

open Lib

/-- `thread_queue_max` and `node_queue_max`. -/
structure Config where
  threadQueueMax : Nat
  nodeQueueMax : Nat

/-- Where the loop is: at the branch of the node queue, at that of the thread queue, or at that of
the two priority queues. -/
inductive Pc where
  | nodeQueue
  | threadQueue
  | prioQueues
  deriving DecidableEq, Repr

/-- The queues and the variables `tq_streak` and `nq_streak` of the loop. `localRun` and `otherRun`
count the messages of `CsdSchedQueue` and the other messages that were run. -/
structure State where
  queues : Queues
  tqStreak : Nat
  nqStreak : Nat
  pc : Pc
  localRun : Nat
  otherRun : Nat
  deriving DecidableEq, Repr

/-- `CsdSchedulerOld` is called. -/
def State.start (queues : Queues) : State where
  queues := queues
  tqStreak := 0
  nqStreak := 0
  pc := .nodeQueue
  localRun := 0
  otherRun := 0

namespace State

variable (c : Config) (s : State)

/-- A message of the node queue or of the node priority queue is run. -/
def runNode (queues : Queues) : State :=
  { s with queues := queues, nqStreak := s.nqStreak + 1, otherRun := s.otherRun + 1 }

/-- A message of the thread queue is run. -/
def runThread (queues : Queues) : State :=
  { s with queues := queues, tqStreak := s.tqStreak + 1, otherRun := s.otherRun + 1 }

/-- The next message of `CsdSchedQueue` is run, if there is one. -/
def runLocal : State :=
  match s.queues.cmiTakeThreadPrioQueue with
  | some queues => { s with queues := queues, localRun := s.localRun + 1 }
  | none => s

/-- The next branch of the loop. `pop` says whether `nodeQueue->pop` still finds the message that
`nodeQueue->empty` saw, and `lock` whether the PE gets the lock of the node priority queue. -/
def poll (pop lock : Bool) : State :=
  match s.pc with
  | .nodeQueue =>
    if s.queues.nodeQueue ≠ 0 ∧ (s.nqStreak < c.nodeQueueMax ∨
        s.queues.threadQueue = 0 ∧ s.queues.csdSchedQueue = []) then
      match (if pop then s.queues.cmiTakeNodeQueue else none) with
      | some queues => s.runNode queues
      | none => s
    else { s with pc := .threadQueue }
  | .threadQueue =>
    if s.queues.threadQueue = 0 then { s with pc := .prioQueues }
    else
      let s := { s with nqStreak := 0, pc := .nodeQueue }
      if s.tqStreak < c.threadQueueMax ∨ s.queues.csdSchedQueue = [] then
        match s.queues.cmiTakeThreadQueue with
        | some queues => s.runThread queues
        | none => s
      else { s with tqStreak := 0 }.runLocal
  | .prioQueues =>
    let s := { s with tqStreak := 0, pc := .nodeQueue }
    if s.nqStreak < c.nodeQueueMax ∨ s.queues.csdSchedQueue = [] then
      match s.queues.cmiTakeNodePrioQueue lock with
      | some queues => s.runNode queues
      | none => { s with nqStreak := 0 }.runLocal
    else { s with nqStreak := 0 }.runLocal

end State

/-- A push or a take by others, or the next branch of the loop. -/
inductive Event where
  | traffic (t : Traffic)
  | poll (pop lock : Bool)
  deriving DecidableEq, Repr

/-- One event. -/
def State.step (c : Config) (s : State) : Event → State
  | .traffic t => { s with queues := s.queues.after t }
  | .poll pop lock => s.poll c pop lock

/-- `s` goes to `s'` by the event. -/
def Step (c : Config) (s : State) (e : Event) (s' : State) : Prop := s' = s.step c e

/-- An event of a PE with messages of its own. -/
def WaitStep (c : Config) (s : State) (e : Event) (s' : State) : Prop :=
  Step c s e s' ∧ s.queues.csdSchedQueue ≠ [] ∧ s'.queues.csdSchedQueue ≠ []

/-- In a run of the loop the events `es` lead from `s` to `s'`, and all along `CsdSchedQueue` has
messages and none of them is run. -/
def Wait (c : Config) (s : State) (es : List Event) (s' : State) : Prop :=
  (∃ queues fs, Steps (Step c) (.start queues) fs s) ∧ Steps (WaitStep c) s es s' ∧
    s'.localRun = s.localRun

/-- In every wait at most `bound` other messages are run. -/
def Config.Bounded (c : Config) (bound : Nat) : Prop :=
  ∀ s es s', Wait c s es s' → s'.otherRun ≤ s.otherRun + bound

variable {c : Config}

/-! ## Alternations without end -/

/-- At the start of an iteration with one message of the PE's own and no others. -/
structure State.AtTop (s : State) : Prop where
  pc : s.pc = .nodeQueue
  queues : s.queues = ⟨0, 0, [], [0]⟩
  tqStreak : s.tqStreak = 0

/-- A message arrives on the thread queue and is run, and then one on the node priority queue. -/
theorem State.AtTop.alternate {s : State} (h : s.AtTop) (ht : 1 ≤ c.threadQueueMax)
    (hn : 1 ≤ c.nodeQueueMax) : ∃ es s', Steps (WaitStep c) s es s' ∧ s'.AtTop ∧
      s'.otherRun = s.otherRun + 2 ∧ s'.localRun = s.localRun := by
  obtain ⟨hpc, hqueues, hstreak⟩ := h
  -- The queues with a message on the thread queue, and with one on the node priority queue.
  set own : Queues := ⟨0, 0, [], [0]⟩ with hown
  set thread : Queues := ⟨1, 0, [], [0]⟩ with hthread
  set nodePrio : Queues := ⟨0, 0, [0], [0]⟩ with hnodePrio
  have hw : s.queues.csdSchedQueue ≠ [] := by rw [hqueues]; nofun
  have harrive : WaitStep c s (.traffic .thread) { s with queues := thread } := by
    refine ⟨?_, hw, nofun⟩
    rw [Step, step, hqueues]
    rfl
  have hskip : WaitStep c { s with queues := thread } (.poll true true)
      { s with queues := thread, pc := .threadQueue } := by
    refine ⟨?_, nofun, nofun⟩
    rw [Step, step, hpc]
    rfl
  have hrun : WaitStep c { s with queues := thread, pc := .threadQueue } (.poll true true)
      ({ s with queues := thread, nqStreak := 0, pc := .nodeQueue }.runThread own) := by
    refine ⟨?_, nofun, nofun⟩
    have hturn : s.tqStreak < c.threadQueueMax ∨ thread.csdSchedQueue = [] := by
      rw [hstreak]
      exact .inl ht
    simp only [Step, step, poll, if_pos hturn]
    rfl
  generalize hs₁ : ({ s with queues := thread, nqStreak := 0, pc := .nodeQueue }.runThread own) = s₁
    at hrun
  obtain ⟨hpc₁, hqueues₁, hnq₁, hother₁, hlocal₁⟩ : s₁.pc = .nodeQueue ∧ s₁.queues = own ∧
      s₁.nqStreak = 0 ∧ s₁.otherRun = s.otherRun + 1 ∧ s₁.localRun = s.localRun := by
    rw [← hs₁]
    exact ⟨rfl, rfl, rfl, rfl, rfl⟩
  have harrive₁ : WaitStep c s₁ (.traffic (.nodePrio 0)) { s₁ with queues := nodePrio } := by
    refine ⟨?_, by rw [hqueues₁]; nofun, nofun⟩
    rw [Step, step, hqueues₁]
    rfl
  have hskip₁ : WaitStep c { s₁ with queues := nodePrio } (.poll true true)
      { s₁ with queues := nodePrio, pc := .threadQueue } := by
    refine ⟨?_, nofun, nofun⟩
    rw [Step, step, hpc₁]
    rfl
  have hskip₂ : WaitStep c { s₁ with queues := nodePrio, pc := .threadQueue } (.poll true true)
      { s₁ with queues := nodePrio, pc := .prioQueues } := ⟨rfl, nofun, nofun⟩
  have hrun₁ : WaitStep c { s₁ with queues := nodePrio, pc := .prioQueues } (.poll true true)
      ({ s₁ with queues := nodePrio, tqStreak := 0, pc := .nodeQueue }.runNode own) := by
    refine ⟨?_, nofun, nofun⟩
    have hturn : s₁.nqStreak < c.nodeQueueMax ∨ nodePrio.csdSchedQueue = [] := by
      rw [hnq₁]
      exact .inl hn
    simp only [Step, step, poll, if_pos hturn]
    rfl
  refine ⟨_, _, .cons harrive (.cons hskip (.cons hrun (.cons harrive₁ (.cons hskip₁
    (.cons hskip₂ (.single hrun₁)))))), ⟨rfl, rfl, rfl⟩, ?_, hlocal₁⟩
  show s₁.otherRun + 1 = s.otherRun + 2
  rw [hother₁]

/-- Any number of messages can be run while a message of the PE's own waits. -/
theorem State.AtTop.starve {s : State} (h : s.AtTop) (ht : 1 ≤ c.threadQueueMax)
    (hn : 1 ≤ c.nodeQueueMax) (n : Nat) : ∃ es s', Steps (WaitStep c) s es s' ∧
      s.otherRun + n ≤ s'.otherRun ∧ s'.localRun = s.localRun := by
  induction n generalizing s with
  | zero => exact ⟨[], s, .nil s, le_refl _, rfl⟩
  | succ n ih =>
    obtain ⟨es, s₁, hrun, htop, hother, hlocal⟩ := h.alternate ht hn
    obtain ⟨fs, s₂, hrest, hother', hlocal'⟩ := ih htop
    exact ⟨es ++ fs, s₂, hrun.append hrest, by omega, hlocal'.trans hlocal⟩

/-- No bound holds for any limits of the streaks. -/
theorem Config.not_bounded (ht : 1 ≤ c.threadQueueMax) (hn : 1 ≤ c.nodeQueueMax)
    (bound : Nat) : ¬ c.Bounded bound := by
  intro hbound
  obtain ⟨es, s', hrun, hother, hlocal⟩ := State.AtTop.starve
    (s := .start ⟨0, 0, [], [0]⟩) ⟨rfl, rfl, rfl⟩ ht hn (bound + 1)
  have := hbound _ es s' ⟨⟨_, [], .nil _⟩, hrun, hlocal⟩
  omega

/-- No number bounds the other messages that are run while a message of `CsdSchedQueue` waits, for
any `thread_queue_max` and `node_queue_max`. -/
theorem others_never_bounded (c : Config) (ht : 1 ≤ c.threadQueueMax) (hn : 1 ≤ c.nodeQueueMax) :
    ¬ ∃ bound, c.Bounded bound := by
  intro h
  obtain ⟨bound, hbound⟩ := h
  exact Config.not_bounded ht hn bound hbound

/-- With the least maxima, where every streak is over after one message, there is no bound. -/
theorem single_messages_starve : ¬ ∃ bound, Config.Bounded ⟨1, 1⟩ bound :=
  others_never_bounded ⟨1, 1⟩ (le_refl 1) (le_refl 1)

/-- With the defaults, `thread_queue_max` and `node_queue_max` 16, there is no bound. -/
theorem alternating_messages_starve : ¬ ∃ bound, Config.Bounded ⟨16, 16⟩ bound := by
  intro h
  obtain ⟨bound, hbound⟩ := h
  exact Config.not_bounded (Nat.le_add_left 1 15) (Nat.le_add_left 1 15) bound hbound

end Reconverse.Scheduler.Old
