import Mathlib

/-!
# Communication devices and the threads that poll them

`initThread` of the LCI backend gives the devices to blocks of `nthreads_per_device` PE threads, and
`progress` polls the device of the calling thread. A scheduler calls it if the rank is a multiple of
`+backend_poll_thread` or the thread is the first of its device. The rounded-up division can leave
the last devices without threads; `devices_in_use_polled` says that the others are polled under each
of the three schedulers, and that one-sided operations use them only.

A poll of a device that another thread is polling (`m_progress_locks`) counts as one.
-/

namespace Reconverse.Devices

/-- `ThreadContext`; an empty device handle is `none`. -/
structure ThreadContext where
  deviceIdx : Int := 0
  tlsDevice : Option Nat := none
  devicePoller : Bool := false

/-- The numbers of PE threads and of devices, the same in all processes. -/
structure Layout where
  numThreads : Nat
  numDevices : Nat
  numThreads_pos : 0 < numThreads
  numDevices_pos : 0 < numDevices

def Layout.nthreadsPerDevice (l : Layout) : Nat :=
  (l.numThreads + l.numDevices - 1) / l.numDevices

/-- `initThread`; `none` if its assertion fails. -/
def Layout.initThread (l : Layout) (threadId : Nat) : Option ThreadContext :=
  let deviceId := threadId / l.nthreadsPerDevice
  if deviceId < l.numDevices then
    some ⟨deviceId, some deviceId, threadId % l.nthreadsPerDevice = 0⟩
  else none

def exitThread (c : ThreadContext) : ThreadContext := { c with tlsDevice := none, deviceIdx := -1 }

def threadMustPoll (c : ThreadContext) : Bool := c.devicePoller

/-- `progress`: the devices that `progressDevice` is called for. -/
def Layout.progress (l : Layout) (c : ThreadContext) : List Int :=
  if c.tlsDevice.isSome then [c.deviceIdx] else (List.range l.numDevices).map (↑)

/-- `getRMR`: the `device_idx` of the `WireRMR`, if it writes one. -/
def getRMR (sizeofWireRMR : Nat) (c : ThreadContext) (addr size : Nat) : Option Nat :=
  if addr ≠ 0 ∧ size ≥ sizeofWireRMR then
    some (if c.deviceIdx < 0 then 0 else c.deviceIdx.toNat)
  else none

/-! ## The three schedulers -/

/-- A thread in its scheduler, with the options of its process. -/
structure Thread where
  layout : Layout
  backendPollThread : Nat
  backendPollFreq : Nat
  rank : Nat
  context : ThreadContext

/-- The flags of the registered scheduler; `none` is the -1 of `t_pollsProgress`. -/
structure Flags where
  progressFoundNothing : Bool := false
  pollsProgress : Option Bool := none

/-- The registered scheduler starts a sweep or meets a slot of `pollProgress`. -/
inductive Event where
  | sweep
  | pollProgress (found : Bool)

namespace Thread

variable (p : Thread)

def polls : Bool := p.rank % p.backendPollThread = 0 || threadMustPoll p.context

def progress : List Int := p.layout.progress p.context

/-- `pollProgress`: what it polls, and the flags. `found` is what `progress` returns. -/
def pollProgress (found : Bool) (f : Flags) : List Int × Flags :=
  if f.progressFoundNothing then ([], f)
  else
    let pollsProgress := f.pollsProgress.getD p.polls
    if pollsProgress then (p.progress, ⟨!found, some pollsProgress⟩)
    else ([], ⟨false, some pollsProgress⟩)

def step (f : Flags) : Event → Flags
  | .sweep => { f with progressFoundNothing := false }
  | .pollProgress found => (p.pollProgress found f).2

/-- The `poll_period` of `CsdSchedulerOld`; 64 is `BACKEND_POLL_FREQ_DEFAULT`. -/
def pollPeriod : Nat :=
  let period := 64 / p.backendPollFreq
  if period < 1 then 1 else period

/-- The end of an iteration of `CsdSchedulerOld`: what it polls, and the `loop_counter`. -/
def pollOld (loopCounter : Nat) : List Int × Nat :=
  if p.polls then
    if loopCounter = p.pollPeriod - 1 then (p.progress, 0) else ([], loopCounter + 1)
  else ([], loopCounter)

/-- What `fillPool` polls, in each iteration of `CsdSchedulerRandomized`. -/
def fillPool : List Int := if p.polls then p.progress else []

/-- The thread polls `d`: at the first slot of `pollProgress` in a sweep, once in any `poll_period`
iterations of the old scheduler and in any iteration of the randomized one. -/
def Polls (d : Nat) : Prop :=
  (∀ es found, (p.pollProgress found (p.step (List.foldl p.step {} es) .sweep)).1 = [(d : Int)]) ∧
  (∀ i, ∃ j < p.pollPeriod, (p.pollOld ((fun n => (p.pollOld n).2)^[i + j] 0)).1 = [(d : Int)]) ∧
  p.fillPool = [(d : Int)]

variable {p}

/-- The filter that `pollProgress` caches stays true. -/
theorem flags_run (es : List Event) {f : Flags} (hf : f.pollsProgress.getD p.polls = true) :
    (List.foldl p.step f es).pollsProgress.getD p.polls = true := by
  induction es generalizing f with
  | nil => exact hf
  | cons e es ih =>
    refine ih ?_
    cases e with
    | sweep => exact hf
    | pollProgress found =>
      simp only [step, pollProgress, hf]
      split
      · exact hf
      · rfl

theorem poll_period_pos (p : Thread) : 0 < p.pollPeriod := by
  simp only [pollPeriod]
  split <;> omega

/-- The counter of the old scheduler runs through the period. -/
theorem old_counter (hp : p.polls = true) (i : Nat) :
    (fun n => (p.pollOld n).2)^[i] 0 = i % p.pollPeriod := by
  induction i with
  | zero => exact (Nat.zero_mod _).symm
  | succ i ih =>
    have hlt := Nat.mod_lt i p.poll_period_pos
    rw [Function.iterate_succ_apply', ih, ← Nat.mod_add_mod]
    simp only [pollOld, hp, if_true]
    split
    · next h => rw [h, Nat.sub_add_cancel p.poll_period_pos, Nat.mod_self]
    · exact (Nat.mod_eq_of_lt (by omega)).symm

/-- A poll of the one device that progress is called with. -/
theorem polls_of_progress {d : Nat} (hp : p.polls = true) (hd : p.progress = [(d : Int)]) :
    p.Polls d := by
  refine ⟨fun es found => ?_, fun i => ?_, ?_⟩
  · have hf := flags_run es (f := {}) hp
    simp only [step, pollProgress, hf]
    exact hd
  · have hlt := Nat.mod_lt i p.poll_period_pos
    have hsplit := Nat.div_add_mod i p.pollPeriod
    refine ⟨p.pollPeriod - 1 - i % p.pollPeriod, by omega, ?_⟩
    have hlast : i + (p.pollPeriod - 1 - i % p.pollPeriod) =
        p.pollPeriod * (i / p.pollPeriod) + (p.pollPeriod - 1) := by omega
    rw [old_counter hp, hlast, Nat.mul_add_mod, Nat.mod_eq_of_lt (by omega)]
    simp only [pollOld, hp, if_true]
    exact hd
  · rw [fillPool, if_pos hp, hd]

end Thread

/-! ## The threads of a device -/

namespace Layout

variable (l : Layout)

/-- `initThread` gives thread `t` the device `d`, with context `c`. -/
def Gives (t d : Nat) (c : ThreadContext) : Prop :=
  t < l.numThreads ∧ l.initThread t = some c ∧ c.deviceIdx = d

/-- A device with a thread. -/
def Used (d : Nat) : Prop := ∃ t c, l.Gives t d c

/-- Whatever the options of the process, a thread of the device polls it. -/
def Polled (d : Nat) : Prop := ∀ k freq, ∃ t c, l.Gives t d c ∧ Thread.Polls ⟨l, k, freq, t, c⟩ d

/-- The contexts of a PE thread: before `initThread`, after it and after `exitThread`. -/
def Context (c : ThreadContext) : Prop :=
  c = {} ∨ ∃ t d c', l.Gives t d c' ∧ (c = c' ∨ c = exitThread c')

variable {l} {t d : Nat} {c : ThreadContext}

theorem nthreads_per_device_pos : 0 < l.nthreadsPerDevice :=
  Nat.div_pos (by have := l.numThreads_pos; omega) l.numDevices_pos

/-- The index of a thread's device is below the number of devices. -/
theorem device_lt (ht : t < l.numThreads) : t / l.nthreadsPerDevice < l.numDevices := by
  have hlt := Nat.lt_mul_div_succ (l.numThreads + l.numDevices - 1) l.numDevices_pos
  rw [← nthreadsPerDevice, mul_add] at hlt
  rw [Nat.div_lt_iff_lt_mul nthreads_per_device_pos]
  omega

/-- The threads of a device are a block. -/
theorem gives_iff : l.Gives t d c ↔ t < l.numThreads ∧ t / l.nthreadsPerDevice = d ∧
    c = ⟨d, some d, t % l.nthreadsPerDevice = 0⟩ := by
  refine and_congr_right fun ht => ?_
  rw [initThread, if_pos (device_lt ht), Option.some.injEq]
  constructor
  · rintro ⟨rfl, hd⟩
    obtain rfl : _ = d := Int.ofNat.inj hd
    exact ⟨rfl, rfl⟩
  · rintro ⟨rfl, rfl⟩
    exact ⟨rfl, rfl⟩

/-- The first thread of the block must poll. -/
theorem Used.first (h : l.Used d) : ∃ t c, l.Gives t d c ∧ threadMustPoll c = true := by
  obtain ⟨t, c, h⟩ := h
  obtain ⟨ht, rfl, -⟩ := gives_iff.mp h
  have hlt := lt_of_le_of_lt (Nat.div_mul_le_self t l.nthreadsPerDevice) ht
  refine ⟨_, _, gives_iff.mpr ⟨hlt, Nat.mul_div_cancel _ nthreads_per_device_pos, rfl⟩, ?_⟩
  simp [threadMustPoll]

/-- Every device that is used is polled. -/
theorem Used.polled (h : l.Used d) : l.Polled d := by
  intro k freq
  obtain ⟨t, c, h, hmust⟩ := h.first
  refine ⟨t, c, h, Thread.polls_of_progress (by simp [Thread.polls, hmust]) ?_⟩
  obtain ⟨-, -, rfl⟩ := gives_iff.mp h
  rfl

/-- A device that `getRMR` names has threads. -/
theorem Context.used {sizeofWireRMR addr size : Nat} (hc : l.Context c)
    (hd : getRMR sizeofWireRMR c addr size = some d) : l.Used d := by
  have hzero : l.Used 0 := ⟨0, _, gives_iff.mpr ⟨l.numThreads_pos, Nat.zero_div _, rfl⟩⟩
  simp only [getRMR, Option.ite_none_right_eq_some, Option.some.injEq] at hd
  obtain ⟨-, rfl⟩ := hd
  obtain rfl | ⟨t, d, c', h, rfl | rfl⟩ := hc
  · exact hzero
  · rw [h.2.2, if_neg (by omega)]
    exact ⟨t, c, h⟩
  · exact hzero

/-- Each thread has a device; a device with a thread has exactly one that must poll, and is polled;
and a device that `getRMR` names has a thread, and is polled, in every process. -/
theorem devices_in_use_polled (l : Layout) :
    (∀ t < l.numThreads, ∃ d < l.numDevices, ∃ c, l.Gives t d c) ∧
    (∀ d, l.Used d → (∃! t, ∃ c, l.Gives t d c ∧ threadMustPoll c = true) ∧ l.Polled d) ∧
    ∀ c sizeofWireRMR addr size d, l.Context c → getRMR sizeofWireRMR c addr size = some d →
      l.Used d ∧ l.Polled d := by
  refine ⟨fun t ht => ⟨_, device_lt ht, _, gives_iff.mpr ⟨ht, rfl, rfl⟩⟩,
    fun d hd => ⟨?_, hd.polled⟩, fun c n addr size d hc hd => ⟨hc.used hd, (hc.used hd).polled⟩⟩
  obtain ⟨first, c, h, hmust⟩ := hd.first
  refine ⟨first, ⟨c, h, hmust⟩, ?_⟩
  rintro other ⟨c', h', hmust'⟩
  obtain ⟨-, hfirst, rfl⟩ := gives_iff.mp h
  obtain ⟨-, hother, rfl⟩ := gives_iff.mp h'
  simp only [threadMustPoll, decide_eq_true_eq] at hmust hmust'
  rw [← Nat.div_add_mod other l.nthreadsPerDevice, hother, hmust', ← hfirst, ← hmust,
    Nat.div_add_mod]

end Layout

end Reconverse.Devices
