import Reconverse.Scheduler.Registered

/-!
# Starvation under the default scheduler

Without a turn in the slot table (`Config.HasTurn`) a stream of node-level messages starves the PE's
own messages. Where the sweep would meet `pollThreadPrioQueue` next, a message waits in the node
queue, and the streak is below its bound. Elsewhere nothing waits there, which resets the streak,
and the sweep meets `pollProgress` when a message arrives, or `pollNodePrioQueue` with a message of
low priority.
-/

namespace Reconverse.Scheduler.Registered

open Lib Config

/-! ## The streak without a turn -/

/-- As long as the sweeps meet `pollThreadPrioQueue` next, the streak does not reach
`node_queue_max`. -/
def Config.Safe (c : Config) (counter streak : Nat) : Prop :=
  ∀ k, (∀ j ≤ k, c.LocalNext (counter + j)) → streak + k < c.nodeQueueMax

namespace Config

variable {c : Config} {i streak : Nat}

/-- A message was run at a slot from which the sweep meets `pollThreadPrioQueue` next. -/
theorem Safe.next (h : c.Safe i streak) (hi : c.LocalNext i) : c.Safe (i + 1) (streak + 1) := by
  intro k hk
  have := h (k + 1) fun j hj => ?_
  · omega
  · cases j with
    | zero => exact hi
    | succ j =>
      have := hk j (Nat.le_of_succ_le_succ hj)
      rwa [Nat.add_right_comm] at this

/-- From such a counter on the local queue gets its turn. -/
theorem HasTurn.of_counter (hfirst : c.LocalFirst i)
    (hnext : ∀ k < c.nodeQueueMax, c.LocalNext (i + 1 + k)) : c.HasTurn := by
  have hmod : i % schedTableSize = i % schedTableSize % schedTableSize := (Nat.mod_mod ..).symm
  refine ⟨i % schedTableSize, Nat.mod_lt _ (by decide), hfirst.congr hmod, fun k hk => ?_⟩
  refine (hnext k hk).congr ?_
  rw [Nat.add_assoc, Nat.add_assoc, Nat.mod_add_mod]

theorem safe_zero (h : ¬ c.HasTurn) (i : Nat) : c.Safe i 0 := by
  intro k hk
  by_contra hge
  refine h (HasTurn.of_counter (hk 0 (Nat.zero_le _)).localFirst fun j hj => ?_)
  have := hk (j + 1) (by omega)
  rwa [Nat.add_comm j, ← Nat.add_assoc] at this

/-- What a sweep meets if not `pollThreadPrioQueue`. -/
theorem first_progress (hi : c.LocalFirst i) (hnext : ¬ c.LocalNext i) :
    ∃ t < schedTableSize, c.slot (i + t) = .progress ∧
      ∀ j < t, c.slot (i + j) ≠ .threadPrioQueue ∧ c.slot (i + j) ≠ .progress := by
  obtain ⟨t, ht, hslot, hbefore⟩ := hi
  have hprogress : ∃ j, j < t ∧ c.slot (i + j) = .progress := by
    by_contra hnone
    exact hnext ⟨t, ht, hslot, fun j hj => ⟨hbefore j hj, fun heq => hnone ⟨j, hj, heq⟩⟩⟩
  obtain ⟨hlt, hfound⟩ := Nat.find_spec hprogress
  refine ⟨Nat.find hprogress, lt_trans hlt ht, hfound, fun j hj => ?_⟩
  have hnot (k : Nat) (hk : k ≤ j) : c.slot (i + k) ≠ .progress := fun heq =>
    Nat.find_min hprogress (lt_of_le_of_lt hk hj) ⟨by omega, heq⟩
  refine ⟨fun heq => hnext ⟨j, by omega, heq, fun k hk => ⟨hbefore k (by omega), ?_⟩⟩, ?_⟩
  · exact hnot k (le_of_lt hk)
  · exact hnot j (le_refl j)

/-- If the local queue does not come first, the node priority queue comes before it. -/
theorem first_nodePrio (hi : ¬ c.LocalFirst i)
    (hlocal : ∃ t < schedTableSize, c.slot (i + t) = .threadPrioQueue) :
    ∃ t < schedTableSize, c.slot (i + t) = .nodePrioQueue ∧
      ∀ j < t, c.slot (i + j) ≠ .threadPrioQueue := by
  obtain ⟨ht, hslot⟩ := Nat.find_spec hlocal
  have hmeets : ∃ j < Nat.find hlocal, c.slot (i + j) = .nodePrioQueue := by
    by_contra hnone
    exact hi ⟨_, ht, hslot, fun j hj heq => hnone ⟨j, hj, heq⟩⟩
  obtain ⟨j, hj, heq⟩ := hmeets
  refine ⟨j, lt_trans hj ht, heq, fun k hk hown => ?_⟩
  exact Nat.find_min hlocal (lt_trans hk hj) ⟨by omega, hown⟩

/-- A table without `pollThreadPrioQueue` in the slots of one sweep is without it. -/
theorem no_local (h : ¬ ∃ t < schedTableSize, c.slot (i + t) = .threadPrioQueue) (j : Nat) :
    c.slot j ≠ .threadPrioQueue := by
  intro hslot
  have hsize : 0 < schedTableSize := by decide
  have hlt := Nat.mod_lt i hsize
  -- The step of the sweep at which it is at the slot of `j`.
  refine h ⟨(j + (schedTableSize - i % schedTableSize)) % schedTableSize, Nat.mod_lt _ hsize, ?_⟩
  rw [slot] at hslot ⊢
  rw [← hslot, Nat.add_mod_mod]
  have hsum : i + (j + (schedTableSize - i % schedTableSize)) =
      j + schedTableSize * (i / schedTableSize + 1) := by
    have := Nat.div_add_mod i schedTableSize
    rw [Nat.mul_succ]
    omega
  rw [hsum, Nat.add_mul_mod_self_left]

end Config

/-- An event of a PE that waits. -/
def WaitStep (c : Config) (s : State) (e : Event) (s' : State) : Prop :=
  Step c s e s' ∧ s.Waiting ∧ s'.Waiting

/-- One message of the PE's own waits, and others as given. -/
def ownQueues (node : Nat) (prio : List Int) : Queues := ⟨0, node, prio, [0]⟩

namespace State

variable {c : Config} {s : State} {t : Nat}

theorem waiting_of_queues {node : Nat} {prio : List Int} (h : s.queues = ownQueues node prio) :
    s.Waiting := by
  rw [Waiting, h]
  exact ⟨List.cons_ne_nil _ _, rfl⟩

/-- A slot without work is passed. -/
theorem pass_step (h : s.queues = ownQueues 0 []) (hpc : s.pc = .sweep t)
    (ht : t < schedTableSize) (hslot : c.slot (s.counter + t) ≠ .threadPrioQueue) :
    ∃ found, s.poll c true false = { s with pc := .sweep (t + 1), foundNothing := found } ∧
      (c.slot (s.counter + t) ≠ .progress → found = s.foundNothing) := by
  simp only [poll, hpc, if_pos ht, pollSlot, h]
  cases hs : c.slot (s.counter + t) with
  | noWork | converseThreadQueue | nodePrioQueue => exact ⟨s.foundNothing, rfl, fun _ => rfl⟩
  | threadPrioQueue => exact absurd hs hslot
  | progress =>
    simp only
    split
    · exact ⟨s.foundNothing, rfl, fun _ => rfl⟩
    · exact ⟨true, rfl, fun hne => absurd rfl hne⟩

/-- The slots before the local one are passed. -/
theorem pass_run (h : s.queues = ownQueues 0 []) (hpc : s.pc = .sweep 0) (d : Nat)
    (hd : d ≤ schedTableSize) (hslots : ∀ j < d, c.slot (s.counter + j) ≠ .threadPrioQueue) :
    ∃ es found, Steps (WaitStep c) s es { s with pc := .sweep d, foundNothing := found } ∧
      ((∀ j < d, c.slot (s.counter + j) ≠ .progress) → found = s.foundNothing) := by
  induction d with
  | zero =>
    refine ⟨[], s.foundNothing, ?_, fun _ => rfl⟩
    rw [← hpc]
    exact .nil s
  | succ d ih =>
    obtain ⟨es, found, hrun, hfound⟩ := ih (by omega) fun j hj => hslots j (by omega)
    obtain ⟨found', hstep, hfound'⟩ := pass_step
      (s := { s with pc := .sweep d, foundNothing := found }) h rfl (by omega)
      (hslots d (Nat.lt_succ_self d))
    have hw := waiting_of_queues h
    have hwait : WaitStep c { s with pc := .sweep d, foundNothing := found } (.poll true false)
      { s with pc := .sweep (d + 1), foundNothing := found' } := ⟨hstep.symm, hw, hw⟩
    refine ⟨es ++ [.poll true false], found', hrun.append (.single hwait), fun hnone => ?_⟩
    rw [hfound' (hnone d (Nat.lt_succ_self d))]
    exact hfound fun j hj => hnone j (by omega)

/-- Between two iterations, with one message of the PE's own and nothing else. -/
structure AtTop (s : State) : Prop where
  pc : s.pc = .top
  queues : s.queues = ownQueues 0 []

/-- The iteration finds no node-level message at first and starts its sweep. -/
theorem AtTop.sweep (h : s.AtTop) : Steps (WaitStep c) s [.poll true false, .poll true false]
    { s with streak := 0, foundNothing := false, pc := .sweep 0 } := by
  have hfirst : s.poll c true false = { s with foundNothing := false, pc := .nodeQueues } := by
    simp only [poll, h.pc, h.queues]
    rfl
  have hsecond : State.poll c { s with foundNothing := false, pc := .nodeQueues } true false =
      { s with streak := 0, foundNothing := false, pc := .sweep 0 } := by
    simp only [poll, pollNodeQueuesFirst, h.queues]
    split
    · rename_i hpoll
      split at hpoll <;> cases hpoll
    · rename_i hpoll
      split at hpoll
      · rw [← (Prod.mk.inj hpoll).1]
      · rw [← (Prod.mk.inj hpoll).1]
  have hw := waiting_of_queues h.queues
  exact .cons ⟨hfirst.symm, hw, hw⟩ (.single ⟨hsecond.symm, hw, hw⟩)

/-- The sweep gets to its step `t` if the slots before find nothing. -/
theorem AtTop.sweep_to (h : s.AtTop) (ht : t ≤ schedTableSize)
    (hslots : ∀ j < t, c.slot (s.counter + j) ≠ .threadPrioQueue) :
    ∃ es found, Steps (WaitStep c) s es
        { s with streak := 0, foundNothing := found, pc := .sweep t } ∧
      ((∀ j < t, c.slot (s.counter + j) ≠ .progress) → found = false) := by
  obtain ⟨es, found, hpass, hfound⟩ := pass_run
    (s := { s with streak := 0, foundNothing := false, pc := .sweep 0 }) h.queues rfl t ht hslots
  exact ⟨_, found, h.sweep.append hpass, hfound⟩

/-- A message in the node queue is run. -/
theorem poll_node_queue (h : s.queues = ownQueues 1 []) (hstreak : s.streak < c.nodeQueueMax)
    (lock : Bool) : s.pollNodeQueuesFirst c lock = ({ s with
      queues := ownQueues 0 [], streak := s.streak + 1, nodeRun := s.nodeRun + 1 }, true) := by
  rw [pollNodeQueuesFirst, if_neg fun hturn => not_le.mpr hstreak hturn.1, h]
  rfl

section

variable (h : s.AtTop)

include h

/-- The iteration runs a message from the node queue. -/
theorem AtTop.node (hstreak : s.streak < c.nodeQueueMax) :
    ∃ es s', Steps (WaitStep c) s es s' ∧ s'.AtTop ∧ s'.streak = s.streak + 1 ∧
      s'.counter = s.counter + 1 ∧ s'.nodeRun = s.nodeRun + 1 ∧ s'.localRun = s.localRun := by
  have hw := waiting_of_queues h.queues
  have hw' : State.Waiting { s with queues := ownQueues 1 [] } := waiting_of_queues rfl
  have harrive : WaitStep c s (.traffic .node) { s with queues := ownQueues 1 [] } := by
    refine ⟨?_, hw, hw'⟩
    rw [Step, step, h.queues]
    rfl
  have htop : WaitStep c { s with queues := ownQueues 1 [] } (.poll true false)
      { s with queues := ownQueues 1 [], foundNothing := false, pc := .nodeQueues } := by
    refine ⟨?_, hw', hw'⟩
    simp only [Step, step, poll, h.pc]
    rfl
  have hnode : WaitStep c
      { s with queues := ownQueues 1 [], foundNothing := false, pc := .nodeQueues }
      (.poll true false)
      { s with queues := ownQueues 0 [], foundNothing := false, streak := s.streak + 1,
               counter := s.counter + 1, nodeRun := s.nodeRun + 1, pc := .top } := by
    refine ⟨?_, hw', waiting_of_queues rfl⟩
    have hpoll := poll_node_queue (s := { s with
      queues := ownQueues 1 [], foundNothing := false, pc := .nodeQueues }) rfl hstreak true
    simp only [Step, step, poll, hpoll]
    rfl
  exact ⟨_, _, .cons harrive (.cons htop (.single hnode)), ⟨rfl, rfl⟩, rfl, rfl, rfl, rfl⟩

/-- The iteration runs a message that the network delivers during its sweep. -/
theorem AtTop.progress (hpolls : c.pollsProgress = true) (hmax : 1 ≤ c.nodeQueueMax)
    (ht : t < schedTableSize) (hslot : c.slot (s.counter + t) = .progress)
    (hbefore : ∀ j < t, c.slot (s.counter + j) ≠ .threadPrioQueue ∧
      c.slot (s.counter + j) ≠ .progress) :
    ∃ es s', Steps (WaitStep c) s es s' ∧ s'.AtTop ∧ s'.streak = 1 ∧
      s'.counter = s.counter + 1 ∧ s'.nodeRun = s.nodeRun + 1 ∧ s'.localRun = s.localRun := by
  obtain ⟨es, found, hsweep, hfound⟩ := h.sweep_to (le_of_lt ht) fun j hj => (hbefore j hj).1
  obtain rfl : found = false := hfound fun j hj => (hbefore j hj).2
  have hw := waiting_of_queues h.queues
  have hw' : State.Waiting { s with queues := ownQueues 1 [] } := waiting_of_queues rfl
  have hprogress : WaitStep c { s with streak := 0, foundNothing := false, pc := .sweep t }
      (.poll true true) { s with streak := 0, foundNothing := false, pc := .progressThread t } := by
    refine ⟨?_, hw, hw⟩
    simp only [Step, step, poll, if_pos ht, pollSlot, hslot, hpolls]
    rfl
  have harrive : WaitStep c { s with streak := 0, foundNothing := false, pc := .progressThread t }
      (.traffic .node) { s with
        queues := ownQueues 1 [], streak := 0, foundNothing := false
        pc := .progressThread t } := by
    refine ⟨?_, hw, hw'⟩
    rw [Step, h.queues]
    rfl
  have hthread : WaitStep c
      { s with
        queues := ownQueues 1 [], streak := 0, foundNothing := false, pc := .progressThread t }
      (.poll true true)
      { s with
        queues := ownQueues 1 [], streak := 0, foundNothing := false, pc := .progressNode t } :=
    ⟨rfl, hw', hw'⟩
  have hnode : WaitStep c
      { s with queues := ownQueues 1 [], streak := 0, foundNothing := false, pc := .progressNode t }
      (.poll true true)
      { s with queues := ownQueues 0 [], streak := 1, foundNothing := false,
               counter := s.counter + 1, nodeRun := s.nodeRun + 1, pc := .top } := by
    refine ⟨?_, hw', waiting_of_queues rfl⟩
    have hpoll := poll_node_queue (s := { s with
      queues := ownQueues 1 [], streak := 0, foundNothing := false, pc := .progressNode t }) rfl
      hmax true
    simp only [Step, step, poll, hpoll]
    rfl
  have hlast := Steps.cons hprogress (.cons harrive (.cons hthread (.single hnode)))
  exact ⟨_, _, hsweep.append hlast, ⟨rfl, rfl⟩, rfl, rfl, rfl, rfl⟩

/-- The iteration runs a message of low priority from the node priority queue. -/
theorem AtTop.nodePrio (ht : t < schedTableSize) (hslot : c.slot (s.counter + t) = .nodePrioQueue)
    (hbefore : ∀ j < t, c.slot (s.counter + j) ≠ .threadPrioQueue) :
    ∃ es s', Steps (WaitStep c) s es s' ∧ s'.AtTop ∧ s'.streak = 0 ∧
      s'.counter = s.counter + 1 ∧ s'.nodeRun = s.nodeRun + 1 ∧ s'.localRun = s.localRun := by
  obtain ⟨es, found, hsweep, -⟩ := h.sweep_to (le_of_lt ht) hbefore
  have hw := waiting_of_queues h.queues
  have hw' : State.Waiting { s with queues := ownQueues 0 [1] } := waiting_of_queues rfl
  have harrive : WaitStep c { s with streak := 0, foundNothing := found, pc := .sweep t }
      (.traffic (.nodePrio 1)) { s with
        queues := ownQueues 0 [1], streak := 0, foundNothing := found, pc := .sweep t } := by
    refine ⟨?_, hw, hw'⟩
    rw [Step, h.queues]
    rfl
  have htake : WaitStep c
      { s with queues := ownQueues 0 [1], streak := 0, foundNothing := found, pc := .sweep t }
      (.poll true false)
      { s with queues := ownQueues 0 [], streak := 0, foundNothing := found,
               counter := s.counter + 1, nodeRun := s.nodeRun + 1, pc := .top } := by
    refine ⟨?_, hw', waiting_of_queues rfl⟩
    simp only [Step, step, poll, if_pos ht, pollSlot, hslot]
    rfl
  exact ⟨_, _, hsweep.append (.cons harrive (.single htake)), ⟨rfl, rfl⟩, rfl, rfl, rfl, rfl⟩

/-- The iteration finds nothing, since no slot is of `pollThreadPrioQueue`. -/
theorem AtTop.nothing (hslots : ∀ j, c.slot j ≠ .threadPrioQueue) :
    ∃ es s', Steps (WaitStep c) s es s' ∧ s'.AtTop ∧ s'.streak = 0 ∧
      s'.nodeRun = s.nodeRun ∧ s'.localRun = s.localRun := by
  obtain ⟨es, found, hsweep, -⟩ := h.sweep_to (le_refl schedTableSize) fun j _ => hslots _
  have hw := waiting_of_queues h.queues
  have hend : WaitStep c
      { s with streak := 0, foundNothing := found, pc := .sweep schedTableSize } (.poll true false)
      { s with streak := 0, foundNothing := found, counter := s.counter + 1, pc := .top } := by
    refine ⟨?_, hw, hw⟩
    rfl
  exact ⟨_, _, hsweep.append (.single hend), ⟨rfl, h.queues⟩, rfl, rfl, rfl⟩

/-- Without a turn one more node-level message can be run. -/
theorem AtTop.more (hturn : ¬ c.HasTurn) (hpolls : c.pollsProgress = true)
    (hmax : 1 ≤ c.nodeQueueMax) (hsafe : c.Safe s.counter s.streak) :
    ∃ es s', Steps (WaitStep c) s es s' ∧ s'.AtTop ∧ c.Safe s'.counter s'.streak ∧
      s'.nodeRun = s.nodeRun + 1 ∧ s'.localRun = s.localRun := by
  by_cases hnext : c.LocalNext s.counter
  · have hlt := hsafe 0 fun j hj => by rwa [Nat.le_zero.mp hj]
    obtain ⟨es, s', hrun, htop, hstreak, hcounter, hnode, hlocal⟩ := h.node hlt
    refine ⟨es, s', hrun, htop, ?_, hnode, hlocal⟩
    rw [hstreak, hcounter]
    exact hsafe.next hnext
  by_cases hfirst : c.LocalFirst s.counter
  · obtain ⟨t, ht, hslot, hbefore⟩ := first_progress hfirst hnext
    obtain ⟨es, s', hrun, htop, hstreak, hcounter, hnode, hlocal⟩ :=
      h.progress hpolls hmax ht hslot hbefore
    refine ⟨es, s', hrun, htop, ?_, hnode, hlocal⟩
    rw [hstreak, hcounter]
    intro k hk
    by_contra hge
    exact hturn (HasTurn.of_counter hfirst fun j hj => hk j (by omega))
  by_cases hlocal : ∃ t < schedTableSize, c.slot (s.counter + t) = .threadPrioQueue
  · obtain ⟨t, ht, hslot, hbefore⟩ := first_nodePrio hfirst hlocal
    obtain ⟨es, s', hrun, htop, hstreak, -, hnode, hlocal⟩ := h.nodePrio ht hslot hbefore
    refine ⟨es, s', hrun, htop, ?_, hnode, hlocal⟩
    rw [hstreak]
    exact safe_zero hturn _
  · -- The table has no slot of `pollThreadPrioQueue`.
    have hslots : ∀ j, c.slot j ≠ .threadPrioQueue := no_local hlocal
    have hall (i streak : Nat) : c.Safe i streak := fun k hk => by
      obtain ⟨t, -, hslot, -⟩ := hk 0 (Nat.zero_le _)
      exact absurd hslot (hslots _)
    obtain ⟨es, s₁, hrun, htop, hstreak, hnode, hown⟩ := h.nothing hslots
    obtain ⟨fs, s₂, hrun', htop', -, -, hnode', hown'⟩ := htop.node (c := c) (by omega)
    exact ⟨es ++ fs, s₂, hrun.append hrun', htop', hall _ _, by omega, by omega⟩

/-- Without a turn any number of node-level messages can be run. -/
theorem AtTop.starve (hturn : ¬ c.HasTurn) (hpolls : c.pollsProgress = true)
    (hmax : 1 ≤ c.nodeQueueMax) (hsafe : c.Safe s.counter s.streak) (n : Nat) :
    ∃ es s', Steps (WaitStep c) s es s' ∧ s'.nodeRun = s.nodeRun + n ∧
      s'.localRun = s.localRun := by
  induction n generalizing s with
  | zero => exact ⟨[], s, .nil s, rfl, rfl⟩
  | succ n ih =>
    obtain ⟨es, s₁, hrun, htop, hsafe', hnode, hlocal⟩ := h.more hturn hpolls hmax hsafe
    obtain ⟨fs, s₂, hrest, hnode', hlocal'⟩ := ih htop hsafe'
    exact ⟨es ++ fs, s₂, hrun.append hrest, by omega, by omega⟩

end

end State

/-- Without a turn there is no bound for a PE that polls the network. -/
theorem Config.not_bounded {c : Config} (hturn : ¬ c.HasTurn) (hpolls : c.pollsProgress = true)
    (hmax : 1 ≤ c.nodeQueueMax) (bound : Nat) : ¬ c.Bounded bound := by
  intro hbound
  obtain ⟨es, s', hrun, hnode, hlocal⟩ := State.AtTop.starve
    (s := State.start (ownQueues 0 []) 0) ⟨rfl, rfl⟩ hturn hpolls hmax (safe_zero hturn _)
    (bound + 1)
  have hle := hbound _ 0 [] _ es s' (.nil _) hrun hlocal
  omega

/-- A table is built for every `+backend_poll_freq`. -/
theorem exists_table (backendPollFreq : Nat) (h : backendPollFreq < 2 ^ 31) :
    ∃ table, cmiQueueRegisterInitThread backendPollFreq = some table := by
  have htotal : unsigned32 (16 + (1 + (16 + (backendPollFreq + 0)))) ≠ 0 := by
    rw [unsigned32]
    omega
  exact ⟨_, if_neg htotal⟩

/-- Node-level messages cannot starve the PE's own if and only if the slot table has a turn for
them: then no more than `64 + node_queue_max` of them are run first, and otherwise any number of
them may be. -/
theorem node_messages_bounded_iff (nodeQueueMax backendPollFreq : Nat) (hmax : 1 ≤ nodeQueueMax)
    (hint : backendPollFreq < 2 ^ 31) :
    ∃ table, cmiQueueRegisterInitThread backendPollFreq = some table ∧
      ((∃ bound, ∀ pollsProgress, Config.Bounded ⟨nodeQueueMax, table, pollsProgress⟩ bound) ↔
        Config.HasTurn ⟨nodeQueueMax, table, true⟩) := by
  obtain ⟨table, htable⟩ := exists_table backendPollFreq hint
  refine ⟨table, htable, ?_, ?_⟩
  · intro hbound
    obtain ⟨bound, hbound⟩ := hbound
    by_contra hturn
    exact not_bounded hturn rfl hmax bound (hbound true)
  · intro hturn
    refine ⟨schedTableSize + nodeQueueMax, fun pollsProgress => ?_⟩
    -- Whether the PE polls the network does not matter for the turn.
    have hturn' : Config.HasTurn ⟨nodeQueueMax, table, pollsProgress⟩ := hturn
    exact hturn'.bounded hmax

/-- With `+node_queue_max 1` the messages of the PE get their turn. -/
theorem bounded_of_node_queue_max_one : ∃ table, cmiQueueRegisterInitThread 64 = some table ∧
    ∃ bound, ∀ pollsProgress, Config.Bounded ⟨1, table, pollsProgress⟩ bound := by
  obtain ⟨table, htable, hiff⟩ := node_messages_bounded_iff 1 64 (by decide) (by decide)
  refine ⟨table, htable, hiff.mpr ?_⟩
  have hturn : ((cmiQueueRegisterInitThread 64).all fun table =>
      decide (Config.HasTurn ⟨1, table, true⟩)) = true := by decide +kernel
  rw [htable, Option.all_some] at hturn
  exact of_decide_eq_true hturn

/-- With the defaults, `node_queue_max` 16 and `backend_poll_freq` 64, there is no bound. -/
theorem default_options_starve : ∃ table, cmiQueueRegisterInitThread 64 = some table ∧
    ¬ ∃ bound, ∀ pollsProgress, Config.Bounded ⟨16, table, pollsProgress⟩ bound := by
  obtain ⟨table, htable⟩ := exists_table 64 (by decide)
  refine ⟨table, htable, fun hbound => ?_⟩
  obtain ⟨bound, hbound⟩ := hbound
  have hturn : ((cmiQueueRegisterInitThread 64).all fun table =>
      decide (¬ Config.HasTurn ⟨16, table, true⟩)) = true := by decide +kernel
  rw [htable, Option.all_some] at hturn
  exact not_bounded (of_decide_eq_true hturn) rfl (Nat.le_add_left 1 15) bound (hbound true)

end Reconverse.Scheduler.Registered
