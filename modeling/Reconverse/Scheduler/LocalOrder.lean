import Reconverse.Scheduler.Registered

/-!
# The PE's own messages are chosen from a complete set

In a process of one PE messages arrive only while a handler or a callback runs, between iterations,
and in `comm_backend::progress`. The thread queue is drained at both places before the sweep comes
to `CsdSchedQueue`, so that the next message of `CsdSchedQueue` is taken only if nothing is left in
the thread queue that might go ahead of it (`local_from_complete_set`).
-/

namespace Reconverse.Scheduler.Registered

open Lib List

/-- What happens in a process of one PE: a message arrives, a handler or a callback has run the
scheduler itself, or the next poll. -/
inductive OnePeEvent where
  | push (t : Traffic)
  | reenter (queues : Queues) (streak : Nat)
  | poll (lock progress : Bool)
  deriving DecidableEq, Repr

/-- The priorities of `CsdSchedQueue` are in the order in which the messages come out. -/
def Queues.Sorted (q : Queues) : Prop := q.csdSchedQueue.Pairwise (· ≤ ·)

/-- One event in a process of one PE. Messages arrive between iterations, where handlers and
callbacks run, and after `comm_backend::progress` has returned true. -/
def OnePeStep (c : Config) (s : State) (e : OnePeEvent) (s' : State) : Prop :=
  match e with
  | .push t => s' = s.step c (.traffic t) ∧ t ≠ .otherTakesNode ∧ t ≠ .otherTakesNodePrio ∧
      (s.pc = .top ∨ ∃ t, s.pc = .progressThread t)
  | .reenter queues streak => s' = { s with queues := queues, streak := streak } ∧ s.pc = .top ∧
      Queues.Sorted queues
  | .poll lock progress => s' = s.step c (.poll lock progress)

/-- The loop is between its poll of the thread queue and the end of the iteration. -/
def State.Drained (s : State) : Prop :=
  match s.pc with
  | .top | .progressThread _ => False
  | .nodeQueues | .sweep _ | .progressNode _ => True

/-- The loop is at `pollNodeQueuesFirst`, ahead of the rest of the sweep. -/
def State.AheadOfSweep (s : State) : Prop :=
  match s.pc with
  | .nodeQueues | .progressNode _ => True
  | .top | .progressThread _ | .sweep _ => False

/-! ## What a poll takes -/

/-- A poll takes nothing, or the next message of one of the queues. -/
inductive Took (s : State) : State → Prop where
  | nothing {s' : State} (hqueues : s'.queues = s.queues)
      (hdrained : s'.Drained → s.Drained ∨ s.queues.threadQueue = 0) : Took s s'
  | other {s' : State} (hpc : s'.pc = .top)
      (hsched : s'.queues.csdSchedQueue = s.queues.csdSchedQueue)
      (hnode : s'.queues.csdNodeQueue = s.queues.csdNodeQueue) : Took s s'
  | nodePrio {s' : State} {priority : Int} (hpc : s'.pc = .top)
      (hsched : s'.queues.csdSchedQueue = s.queues.csdSchedQueue)
      (hnode : s.queues.csdNodeQueue = priority :: s'.queues.csdNodeQueue)
      (hahead : s.AheadOfSweep → priority ≤ queueTopPriority s.queues.csdSchedQueue) : Took s s'
  | own {s' : State} {priority : Int} (hpc : s'.pc = .top) (hdrained : s.Drained)
      (hsched : s.queues.csdSchedQueue = priority :: s'.queues.csdSchedQueue)
      (hnode : s'.queues.csdNodeQueue = s.queues.csdNodeQueue) : Took s s'

variable {c : Config} {s s' : State}

section Takes

variable {q q' : Queues} {lock : Bool}

theorem take_thread_eq_some (h : q.cmiTakeThreadQueue = some q') :
    q'.csdSchedQueue = q.csdSchedQueue ∧ q'.csdNodeQueue = q.csdNodeQueue := by
  unfold Queues.cmiTakeThreadQueue at h
  split at h
  · cases h
  · cases h
    exact ⟨rfl, rfl⟩

theorem take_thread_eq_none (h : q.cmiTakeThreadQueue = none) : q.threadQueue = 0 := by
  unfold Queues.cmiTakeThreadQueue at h
  split at h
  · assumption
  · cases h

theorem take_node_eq_some (h : q.cmiTakeNodeQueue = some q') :
    q'.csdSchedQueue = q.csdSchedQueue ∧ q'.csdNodeQueue = q.csdNodeQueue := by
  unfold Queues.cmiTakeNodeQueue at h
  split at h
  · cases h
  · cases h
    exact ⟨rfl, rfl⟩

theorem take_node_prio_eq_some (h : q.cmiTakeNodePrioQueue lock = some q') :
    q'.csdSchedQueue = q.csdSchedQueue ∧
      ∃ priority, q.csdNodeQueue = priority :: q'.csdNodeQueue := by
  unfold Queues.cmiTakeNodePrioQueue at h
  split at h
  · cases h
    exact ⟨rfl, _, by assumption⟩
  · cases h

/-- A node message is taken if it is not behind the local ones. -/
theorem take_if_ahead_eq_some (h : q.cmiTakeNodePrioQueueIfAhead lock = some q') :
    q'.csdSchedQueue = q.csdSchedQueue ∧
      ∃ priority, q.csdNodeQueue = priority :: q'.csdNodeQueue ∧
        priority ≤ queueTopPriority q.csdSchedQueue := by
  unfold Queues.cmiTakeNodePrioQueueIfAhead at h
  split at h
  · split at h
    · cases h
      exact ⟨rfl, _, by assumption, by assumption⟩
    · cases h
  · cases h

theorem take_thread_prio_eq_some (h : q.cmiTakeThreadPrioQueue = some q') :
    (∃ priority, q.csdSchedQueue = priority :: q'.csdSchedQueue) ∧
      q'.csdNodeQueue = q.csdNodeQueue := by
  unfold Queues.cmiTakeThreadPrioQueue at h
  split at h
  · cases h
  · cases h
    exact ⟨⟨_, by assumption⟩, rfl⟩

end Takes

/-- A poll of the thread queue. -/
theorem took_of_thread {queues : Queues} (h : s.queues.cmiTakeThreadQueue = some queues) :
    Took s { s with queues := queues }.endIteration :=
  .other rfl (take_thread_eq_some h).1 (take_thread_eq_some h).2

/-- `pollNodeQueuesFirst` runs a message. -/
theorem took_of_node {lock : Bool} (h : s.pollNodeQueuesFirst c lock = (s', true)) :
    Took s s'.endIteration := by
  rw [State.pollNodeQueuesFirst] at h
  split at h
  · cases h
  split at h
  · rename_i htake
    obtain rfl := (Prod.mk.inj h).1
    exact .other rfl (take_node_eq_some htake).1 (take_node_eq_some htake).2
  · split at h
    · rename_i htake
      obtain rfl := (Prod.mk.inj h).1
      obtain ⟨hsched, priority, hnode, hahead⟩ := take_if_ahead_eq_some htake
      exact .nodePrio rfl hsched hnode fun _ => hahead
    · cases h

/-- A slot takes at most one message, and the first of its queue. -/
theorem poll_slot_took {t : Nat} (hpc : s.pc = .sweep t) (lock progress : Bool) :
    Took s (s.pollSlot c t lock progress) := by
  have hdrained : s.Drained := by
    rw [State.Drained, hpc]
    trivial
  have hnext (found : Bool) :
      Took s { s with foundNothing := found, pc := .sweep (t + 1) } :=
    .nothing rfl fun _ => .inl hdrained
  rw [State.pollSlot]
  cases hslot : c.slot (s.counter + t) with
  | noWork => exact hnext s.foundNothing
  | converseThreadQueue =>
    cases htake : s.queues.cmiTakeThreadQueue with
    | none => exact hnext s.foundNothing
    | some queues => exact took_of_thread htake
  | nodePrioQueue =>
    cases htake : s.queues.cmiTakeNodePrioQueue lock with
    | none => exact hnext s.foundNothing
    | some queues =>
      obtain ⟨hsched, priority, hnode⟩ := take_node_prio_eq_some htake
      refine .nodePrio rfl hsched hnode fun hahead => ?_
      rw [State.AheadOfSweep, hpc] at hahead
      exact hahead.elim
  | threadPrioQueue =>
    cases htake : s.queues.cmiTakeThreadPrioQueue with
    | none => exact hnext s.foundNothing
    | some queues =>
      obtain ⟨⟨priority, hsched⟩, hnode⟩ := take_thread_prio_eq_some htake
      exact .own rfl hdrained hsched hnode
  | progress =>
    simp only
    split
    · exact hnext s.foundNothing
    split
    · exact .nothing rfl False.elim
    · exact hnext true

/-- So does every poll. -/
theorem poll_took (lock progress : Bool) : Took s (s.poll c lock progress) := by
  have hnodes {s₁ : State} (pc : Pc) (hdrained : s.Drained)
      (h : s.pollNodeQueuesFirst c lock = (s₁, false)) : Took s { s₁ with pc := pc } := by
    obtain rfl := State.poll_node_queues_eq_false h
    exact .nothing rfl fun _ => .inl hdrained
  rw [State.poll]
  cases hpc : s.pc with
  | top =>
    cases htake : s.queues.cmiTakeThreadQueue with
    | none =>
      simp only [htake]
      exact .nothing rfl fun _ => .inr (take_thread_eq_none htake)
    | some queues =>
      simp only [htake]
      exact .other rfl (take_thread_eq_some htake).1 (take_thread_eq_some htake).2
  | nodeQueues | progressNode =>
    have hdrained : s.Drained := by
      rw [State.Drained, hpc]
      trivial
    simp only
    split
    · exact took_of_node (by assumption)
    · exact hnodes _ hdrained (by assumption)
  | sweep t =>
    simp only
    split
    · exact poll_slot_took hpc lock progress
    · exact .nothing rfl False.elim
  | progressThread t =>
    cases htake : s.queues.cmiTakeThreadQueue with
    | none => exact .nothing rfl fun _ => .inr (take_thread_eq_none htake)
    | some queues => exact took_of_thread htake

/-! ## Runs -/

/-- What holds at all times. -/
structure Complete (s : State) : Prop where
  sorted : Queues.Sorted s.queues
  drained : s.Drained → s.queues.threadQueue = 0

/-- A poll keeps the queues sorted, and the thread queue empty once it was drained. -/
theorem Complete.took (h : Complete s) (htook : Took s s') : Complete s' := by
  have htop (hpc : s'.pc = .top) : ¬ s'.Drained := by
    rw [State.Drained, hpc]
    exact id
  cases htook with
  | nothing hqueues hdrained =>
    refine ⟨hqueues ▸ h.sorted, fun hd => ?_⟩
    rw [hqueues]
    exact (hdrained hd).elim h.drained id
  | other hpc hsched hnode =>
    refine ⟨?_, fun hd => absurd hd (htop hpc)⟩
    rw [Queues.Sorted, hsched]
    exact h.sorted
  | nodePrio hpc hsched hnode hahead =>
    refine ⟨?_, fun hd => absurd hd (htop hpc)⟩
    rw [Queues.Sorted, hsched]
    exact h.sorted
  | own hpc hdrained hsched hnode =>
    refine ⟨?_, fun hd => absurd hd (htop hpc)⟩
    have hsorted := h.sorted
    rw [Queues.Sorted, hsched] at hsorted
    exact hsorted.of_cons

/-- So does every step. -/
theorem Complete.step {e : OnePeEvent} (h : Complete s) (hstep : OnePeStep c s e s') :
    Complete s' := by
  cases e with
  | push t =>
    obtain ⟨rfl, -, -, hpc⟩ := hstep
    have hnot : ¬ s.Drained := by
      rcases hpc with hpc | ⟨t, hpc⟩
      all_goals
        rw [State.Drained, hpc]
        exact id
    refine ⟨?_, fun hd => absurd hd hnot⟩
    cases t with
    | sched priority => exact h.sorted.orderedInsert priority _
    | thread | node | nodePrio _ | otherTakesNode | otherTakesNodePrio => exact h.sorted
  | reenter queues streak =>
    obtain ⟨rfl, hpc, hsorted⟩ := hstep
    refine ⟨hsorted, fun hd => ?_⟩
    have hnot : ¬ s.Drained := by
      rw [State.Drained, hpc]
      exact id
    exact absurd hd hnot
  | poll lock progress =>
    obtain rfl := hstep
    exact h.took (poll_took lock progress)

/-- The message that the poll from `s` to `s'` takes from `CsdSchedQueue` is the first of it in the
order of the priorities, and nothing is in the thread queue. -/
def TakesFirst (s s' : State) : Prop :=
  s.queues.threadQueue = 0 ∧ ∃ priority,
  s.queues.csdSchedQueue = priority :: s'.queues.csdSchedQueue ∧
    ∀ other ∈ s'.queues.csdSchedQueue, priority ≤ other

/-- The message that the poll from `s` to `s'` takes from the node priority queue does not come
after the first of `CsdSchedQueue`. -/
def TakesAhead (s s' : State) : Prop :=
  ∃ priority, s.queues.csdNodeQueue = priority :: s'.queues.csdNodeQueue ∧
    ∀ first ∈ s.queues.csdSchedQueue.head?, priority ≤ first

/-- In every run of a process of one PE, whatever arrives and in whatever order, a message of
`CsdSchedQueue` is taken only if it is the first one and the thread queue is empty, and a message of
the node priority queue that is taken ahead of the sweep does not come after the first one of
`CsdSchedQueue`. -/
theorem local_from_complete_set {queues : Queues} (hsorted : Queues.Sorted queues) (streak : Nat)
    {es : List OnePeEvent} (hrun : Steps (OnePeStep c) (.start queues streak) es s)
    (lock progress : Bool) :
    ((s.poll c lock progress).queues.csdSchedQueue ≠ s.queues.csdSchedQueue →
      TakesFirst s (s.poll c lock progress)) ∧
    (s.AheadOfSweep → (s.poll c lock progress).queues.csdNodeQueue ≠ s.queues.csdNodeQueue →
      TakesAhead s (s.poll c lock progress)) := by
  have hcomplete : Complete s := hrun.invariant (fun _ _ _ h hstep => h.step hstep)
    ⟨hsorted, False.elim⟩
  cases poll_took lock progress with
  | nothing hqueues hdrained =>
    exact ⟨fun hne => absurd (congrArg _ hqueues) hne, fun _ hne => absurd (congrArg _ hqueues) hne⟩
  | other hpc hsched hnode =>
    exact ⟨fun hne => absurd hsched hne, fun _ hne => absurd hnode hne⟩
  | @nodePrio priority hpc hsched hnode hahead =>
    refine ⟨fun hne => absurd hsched hne, fun hsweep _ => ⟨priority, hnode, ?_⟩⟩
    intro first hfirst
    have hle := hahead hsweep
    rwa [queueTopPriority, headD_eq_head?_getD, hfirst] at hle
  | @own priority hpc hdrained hsched hnode =>
    refine ⟨fun _ => ⟨hcomplete.drained hdrained, priority, hsched, ?_⟩,
      fun _ hne => absurd hnode hne⟩
    have hpairwise := hcomplete.sorted
    rw [Queues.Sorted, hsched] at hpairwise
    exact (pairwise_cons.mp hpairwise).1

/-- The third poll of a run with two messages in `CsdSchedQueue` takes the first of them. -/
theorem third_poll_takes_first :
    TakesFirst
      ⟨⟨0, 0, [], [3, 5]⟩, 0, 0, false, .sweep 0, 0, 0⟩
      (State.poll ⟨16, [.threadPrioQueue], true⟩
        ⟨⟨0, 0, [], [3, 5]⟩, 0, 0, false, .sweep 0, 0, 0⟩ true false) := by
  have hsorted : Queues.Sorted ⟨0, 0, [], [3, 5]⟩ := by
    unfold Queues.Sorted
    decide
  have hrun : Steps (OnePeStep ⟨16, [.threadPrioQueue], true⟩) (.start ⟨0, 0, [], [3, 5]⟩ 0)
      [.poll true false, .poll true false] ⟨⟨0, 0, [], [3, 5]⟩, 0, 0, false, .sweep 0, 0, 0⟩ :=
    .cons rfl (.single rfl)
  exact (local_from_complete_set hsorted 0 hrun true false).1 (by decide)

end Reconverse.Scheduler.Registered
