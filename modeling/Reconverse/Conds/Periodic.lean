import Mathlib

/-!
# Periodic conditions

The timers of `conv-conds.cpp`: thirteen periodic conditions, each with its own next time, which
`CcdCallBacks` raises when they are due and then re-arms relative to the current time. The loop
stops at the first condition that is not due. Times are exact rationals.

The list of callbacks that a raised condition runs is the subject of the model of the conditions;
the one-time timers, which `CcdCallBacks` serves first, are a heap of their own.
-/

namespace Reconverse.Conds

open List

/-- `CcdPERIODIC_FIRST`. -/
def ccdPeriodicFirst : Nat := 5

/-- `periodicCallInterval`, in seconds. -/
def periodicCallInterval : List ℚ :=
  [1 / 1000, 1 / 100, 1 / 10, 1, 5, 10, 60, 2 * 60, 5 * 60, 10 * 60, 3600, 12 * 3600, 24 * 3600]

/-- An entry of `nextCall` with the interval of its condition. -/
structure Timer where
  interval : ℚ
  nextCall : ℚ
  deriving DecidableEq, Repr

/-- `pcb`, and `_ccd_numchecks`. -/
structure Pcb where
  lastCheck : ℚ
  timers : List Timer
  nSkip : Nat
  resolution : ℚ
  numchecks : Nat
  deriving Repr

/-- `CcdModuleInit` at the given time. -/
def ccdModuleInit (curTime : ℚ) : Pcb where
  lastCheck := curTime
  timers := periodicCallInterval.map fun interval => ⟨interval, curTime + interval⟩
  nSkip := 1
  resolution := 5 / 1000
  numchecks := 1

/-- The new skip count: the old one times a factor between one half and two, kept between 1
and 20. -/
def adjustSkip (o : Pcb) (curWallTime : ℚ) : Nat :=
  let elapsed := curWallTime - o.lastCheck
  let nSkip := if elapsed > 0 then
    ⌊(o.nSkip : ℚ) * max (1 / 2) (min 2 (o.resolution / elapsed))⌋.toNat else o.nSkip
  if nSkip < 1 then 1 else if nSkip > 20 then 20 else nSkip

/-- The loop of `CcdCallBacks` from index `i` on: the conditions it raises, and the timers
after it. -/
def raiseDue (curWallTime : ℚ) : Nat → List Timer → List Nat × List Timer
  | _, [] => ([], [])
  | i, timer :: later =>
    if timer.nextCall ≤ curWallTime then
      let (raised, later) := raiseDue curWallTime (i + 1) later
      ((ccdPeriodicFirst + i) :: raised,
        { timer with nextCall := curWallTime + timer.interval } :: later)
    else ([], timer :: later)

/-- `CcdCallBacks` at the given time, with the conditions it raises. -/
def ccdCallBacks (o : Pcb) (curWallTime : ℚ) : List Nat × Pcb :=
  let nSkip := adjustSkip o curWallTime
  let (raised, timers) := raiseDue curWallTime 0 o.timers
  (raised, { o with lastCheck := curWallTime, timers, nSkip, numchecks := nSkip })

/-- `CcdCallBacksReset`, which runs when the PE becomes idle or busy. -/
def ccdCallBacksReset (o : Pcb) (curWallTime : ℚ) : Pcb :=
  { o with lastCheck := curWallTime, nSkip := 1, numchecks := 1 }

/-- What happens to the timers, with the clock value. -/
inductive Tick where
  | callBacks (t : ℚ)
  | reset (t : ℚ)

/-- One call. -/
def tick (o : Pcb) : Tick → Pcb
  | .callBacks t => (ccdCallBacks o t).2
  | .reset t => ccdCallBacksReset o t

/-- The timers after `CcdModuleInit` at `start` and the given calls. -/
def timersAfter (start : ℚ) (ticks : List Tick) : Pcb := ticks.foldl tick (ccdModuleInit start)

/-! ## What one call leaves -/

/-- Every timer that is due at `t` comes before every one that is not. -/
def DueFirst (t : ℚ) (timers : List Timer) : Prop :=
  timers.Pairwise fun a b => b.nextCall ≤ t → a.nextCall ≤ t

/-- All intervals are positive. -/
def Positive (timers : List Timer) : Prop := ∀ timer ∈ timers, 0 < timer.interval

/-- The loop keeps the intervals. -/
theorem raise_due_intervals (t : ℚ) (i : Nat) (timers : List Timer) :
    (raiseDue t i timers).2.map Timer.interval = timers.map Timer.interval := by
  induction timers generalizing i with
  | nil => rfl
  | cons timer later ih =>
    unfold raiseDue
    split
    · simp only [map_cons, ih]
    · rfl

variable {timers : List Timer} {t : ℚ} (i : Nat)

/-- If the due timers come first, the loop reaches and re-arms all of them. -/
theorem raise_due_complete (hpos : Positive timers)
    (hdue : DueFirst t timers) : ∀ timer ∈ (raiseDue t i timers).2, t < timer.nextCall := by
  induction timers generalizing i with
  | nil => exact fun _ h => absurd h not_mem_nil
  | cons timer later ih =>
    unfold DueFirst at hdue
    rw [pairwise_cons] at hdue
    obtain ⟨hfirst, hlater⟩ := hdue
    unfold raiseDue
    split
    next =>
      have hpos' : Positive later := fun x hx => hpos x (mem_cons_of_mem _ hx)
      intro x hx
      rcases mem_cons.mp hx with rfl | hx
      · have := hpos timer mem_cons_self
        linarith
      · exact ih (i + 1) hpos' hlater x hx
    next hnot =>
      intro x hx
      rcases mem_cons.mp hx with rfl | hx
      · exact not_le.mp hnot
      · exact not_le.mp fun hx' => hnot (hfirst x hx hx')

/-- If no timer is due after the loop, then the loop has not stopped before a due one. -/
theorem due_first_of_raise_due
    (h : ∀ timer ∈ (raiseDue t i timers).2, t < timer.nextCall) : DueFirst t timers := by
  induction timers generalizing i with
  | nil => exact List.Pairwise.nil
  | cons timer later ih =>
    unfold raiseDue at h
    split at h
    next hdue =>
      refine List.Pairwise.cons (fun _ _ _ => hdue) (ih (i + 1) fun x hx => ?_)
      exact h x (mem_cons_of_mem _ hx)
    next =>
      -- The loop stopped here, so nothing behind this timer has changed.
      have hlate : ∀ x ∈ later, ¬ x.nextCall ≤ t :=
        fun x hx => not_le.mpr (h x (mem_cons_of_mem _ hx))
      refine List.Pairwise.cons (fun x hx hx' => absurd hx' (hlate x hx)) ?_
      exact pairwise_of_forall_mem_list fun a _ b hb hb' => absurd hb' (hlate b hb)

/-- The conditions that are due and reached are raised. -/
theorem mem_raised (hdue : DueFirst t timers) {j : Nat}
    {timer : Timer} (hj : timers[j]? = some timer) (hnext : timer.nextCall ≤ t) :
    ccdPeriodicFirst + (i + j) ∈ (raiseDue t i timers).1 := by
  induction timers generalizing i j with
  | nil => cases hj
  | cons first later ih =>
    unfold DueFirst at hdue
    rw [pairwise_cons] at hdue
    have hfirst : first.nextCall ≤ t := by
      cases j with
      | zero =>
        cases hj
        exact hnext
      | succ j => exact hdue.1 timer (mem_of_getElem? hj) hnext
    unfold raiseDue
    rw [if_pos hfirst]
    cases j with
    | zero => exact mem_cons_self
    | succ j =>
      have hmem := ih (i + 1) hdue.2 hj
      rw [show i + (j + 1) = i + 1 + j by omega]
      exact mem_cons_of_mem _ hmem

/-! ## All calls -/

/-- The intervals of the conditions stay the same. -/
theorem timers_after_intervals (start : ℚ) (ticks : List Tick) :
    (timersAfter start ticks).timers.map Timer.interval = periodicCallInterval := by
  induction ticks using List.reverseRecOn with
  | nil => simp [timersAfter, ccdModuleInit, Function.comp_def]
  | append_singleton ticks e ih =>
    rw [timersAfter, foldl_concat, ← timersAfter, ← ih]
    cases e with
    | callBacks t => exact raise_due_intervals t 0 _
    | reset t => rfl

/-- They are all positive. -/
theorem timers_after_positive (start : ℚ) (ticks : List Tick) :
    Positive (timersAfter start ticks).timers := by
  intro timer hmem
  have hinterval : timer.interval ∈ periodicCallInterval := by
    rw [← timers_after_intervals start ticks]
    exact mem_map_of_mem hmem
  have hall : ∀ interval ∈ periodicCallInterval, 0 < interval := by
    simp only [periodicCallInterval, forall_mem_cons]
    norm_num
  exact hall _ hinterval

/-- After any calls, a call of `CcdCallBacks` at `t` leaves every next time after `t`, and raises
every condition whose next time was at or before `t`, exactly if every condition that is due has
a smaller index than every one that is not. -/
theorem periodic_conditions_raised_iff (start : ℚ) (ticks : List Tick) (t : ℚ) :
    ((∀ timer ∈ (ccdCallBacks (timersAfter start ticks) t).2.timers, t < timer.nextCall) ∧
      ∀ i timer, (timersAfter start ticks).timers[i]? = some timer → timer.nextCall ≤ t →
        ccdPeriodicFirst + i ∈ (ccdCallBacks (timersAfter start ticks) t).1) ↔
    DueFirst t (timersAfter start ticks).timers := by
  constructor
  · intro h
    exact due_first_of_raise_due 0 h.1
  · intro hdue
    refine ⟨raise_due_complete 0 (timers_after_positive start ticks) hdue, ?_⟩
    intro i timer hi hnext
    have hmem := mem_raised 0 hdue hi hnext
    rwa [Nat.zero_add] at hmem

/-- The calls at 9.5 ms and 10.2 ms after the start: the first re-arms the 1 ms condition for
10.5 ms, so the second finds it not due and does not look at the 10 ms condition, which is. -/
theorem ten_millisecond_condition_missed :
    (ccdCallBacks (timersAfter 0 [.callBacks (95 / 10000)]) (102 / 10000)).1 = [] ∧
    (ccdCallBacks (timersAfter 0 [.callBacks (95 / 10000)]) (102 / 10000)).2.timers[1]? =
      some ⟨1 / 100, 1 / 100⟩ ∧ (1 / 100 : ℚ) ≤ 102 / 10000 := by
  decide +kernel

/-! ## How late a condition can be -/

/-- A timer is at most its own interval behind the next one. -/
def Paced (timers : List Timer) : Prop :=
  timers.IsChain fun a b => a.nextCall ≤ b.nextCall + a.interval

/-- The first timer is due at `t` at the earliest. -/
def Starts (t : ℚ) (timers : List Timer) : Prop := ∀ timer ∈ timers.head?, t ≤ timer.nextCall

/-- After a tick at `t` the first timer is due at `t` at the earliest. -/
theorem raise_due_starts (hpos : Positive timers) : Starts t (raiseDue t i timers).2 := by
  intro timer hmem
  cases timers with
  | nil => cases hmem
  | cons first later =>
    have := hpos first mem_cons_self
    unfold raiseDue at hmem
    split at hmem <;> cases hmem <;> grind

/-- A tick keeps the conditions in pace. -/
theorem raise_due_paced (hpos : Positive timers) (h : Paced timers) :
    Paced (raiseDue t i timers).2 := by
  induction timers generalizing i with
  | nil => exact .nil
  | cons first later ih =>
    have hpos' := (forall_mem_cons.mp hpos).2
    unfold raiseDue
    split
    · -- What is raised is re-armed from `t` on, and what is behind it is not due before.
      refine isChain_cons.mpr ⟨fun next hnext => ?_, ih (i + 1) hpos' h.tail⟩
      exact add_le_add_left (raise_due_starts (i + 1) hpos' next hnext) _
    · exact h

/-- The conditions are in pace after any ticks. -/
theorem timers_after_paced (start : ℚ) (ticks : List Tick) :
    Paced (timersAfter start ticks).timers := by
  induction ticks using List.reverseRecOn with
  | nil => norm_num [timersAfter, ccdModuleInit, Paced, periodicCallInterval, add_assoc]
  | append_singleton ticks e ih =>
    rw [timersAfter, foldl_concat, ← timersAfter]
    cases e with
    | callBacks t => exact raise_due_paced 0 (timers_after_positive start ticks) ih
    | reset t => exact ih

/-- The intervals add up along the timers. -/
theorem Paced.late (h : Paced timers) (hstarts : Starts t timers) {i : Nat} {timer : Timer}
    (hi : timers[i]? = some timer) :
    t ≤ timer.nextCall + ((timers.map Timer.interval).take i).sum := by
  induction timers generalizing t i with
  | nil => cases hi
  | cons first later ih =>
    have hfirst := hstarts first rfl
    cases i with
    | zero =>
      cases hi
      simpa using hfirst
    | succ i =>
      have hlater : Starts (t - first.interval) later := fun next hnext => by
        have := (isChain_cons.mp h).1 next hnext
        linarith
      have := ih h.tail hlater hi
      rw [map_cons, take_succ_cons, sum_cons]
      linarith

/-- After any calls, when a call of `CcdCallBacks` at `t` returns, no condition is overdue by more
than the sum of the shorter intervals, although the loop can stop before conditions that are due. -/
theorem periodic_conditions_late (start : ℚ) (ticks : List Tick) (t : ℚ) (i : Nat) (timer : Timer)
    (hi : (ccdCallBacks (timersAfter start ticks) t).2.timers[i]? = some timer) :
    t ≤ timer.nextCall + (periodicCallInterval.take i).sum := by
  have hpos := timers_after_positive start ticks
  rw [← timers_after_intervals start ticks, ← raise_due_intervals t 0]
  exact (raise_due_paced 0 hpos (timers_after_paced start ticks)).late (raise_due_starts 0 hpos) hi

theorem ten_millisecond_condition_late :
    (102 / 10000 : ℚ) ≤ 1 / 100 + (periodicCallInterval.take 1).sum :=
  periodic_conditions_late 0 [.callBacks (95 / 10000)] _ 1 ⟨1 / 100, 1 / 100⟩ (by decide +kernel)

end Reconverse.Conds
