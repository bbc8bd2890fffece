import Reconverse.Collectives.ReductionRuns

/-!
# `CmiReduce` and `CmiNodeReduce` combine every contribution exactly once

The ids of the calls on a process are a counter that wraps after `window` calls. As long as no
process is `window` calls ahead of an unfinished reduction, no two unfinished reductions have the
same id, and the tables behave as if every reduction had its own. Without that condition two
reductions mix, as `reductions_mix_after_wrap` shows.
-/

namespace Reconverse.Reduction

open Lib List

variable {m : Machine} {level : Level} {lists : Nat → ListRed m} {s s' : State} {e : Event}
  {g : Abs} {k k' : Nat} {a b : Nat}

/-- The number of calls after which the ids repeat. -/
def window (level : Level) : Nat := idRange / idStep level

/-- The destination handler of the `k`-th reduction has returned and its record was cleared. -/
def Finished (s : State) (k : Nat) : Prop := ∃ v ∈ s.returned, v.own.2 = .global k

/-- The process that takes an id in this event. -/
def Event.takesID : Event → Option Nat
  | .reduce me | .fetch me => some me
  | .listReduce .. | .nodeReduce .. | .deliver _ | .ret _ => none

/-- A step of a program that reduces with `CmiReduce` and `CmiNodeReduce` only. -/
def GlobalStep (level : Level) (lists : Nat → ListRed m) (s : State) (e : Event) (s' : State) :
    Prop :=
  step level lists s e = .ok s' ∧ ∀ me j, e ≠ .listReduce me j

/-- A step in which no process makes its call `k + window` before reduction `k` has finished. -/
def WindowedStep (level : Level) (lists : Nat → ListRed m) (s : State) (e : Event) (s' : State) :
    Prop :=
  GlobalStep level lists s e s' ∧
    ∀ me, e.takesID = some me → ∀ k, k + window level ≤ s.calls me → Finished s k

/-- All reductions of a level are followed. -/
def allView (level : Level) (lists : Nat → ListRed m) : View where
  level := level
  lists := lists
  tracked _ := true
  tracked_slot _ := rfl

theorem window_pos (level : Level) : 0 < window level := by cases level <;> decide

/-- Different calls with the same id are a window apart. -/
theorem add_window_le (h : globalID level k = globalID level k') (hlt : k < k') :
    k + window level ≤ k' := by
  have hmod : k % window level = k' % window level := by
    cases level <;> simp only [globalID, idStep, idRange, window] at h ⊢ <;> omega
  by_contra hnot
  have hk := Nat.div_add_mod k (window level)
  have hk' := Nat.div_add_mod k' (window level)
  have hdiv : k / window level = k' / window level := by
    apply le_antisymm (Nat.div_le_div_right (le_of_lt hlt))
    by_contra hdiv
    have := Nat.mul_le_mul_left (window level) (not_le.mp hdiv)
    rw [Nat.mul_succ] at this
    omega
  rw [hdiv] at hk
  omega

/-- What a run within the window keeps: calls more than a window back have finished, and no list
reduction was started. -/
structure InWindow (level : Level) (s : State) : Prop where
  finished : ∀ me n k, n < s.calls me → k + window level ≤ n → Finished s k
  called : ∀ c ∈ s.called, ∃ k, c.2 = .global k

/-- A reduction that has finished stays so. -/
theorem Finished.mono (hret : ∀ v ∈ s.returned, v ∈ s'.returned) {k : Nat} (h : Finished s k) :
    Finished s' k := by
  obtain ⟨v, hv, hk⟩ := h
  exact ⟨v, hret v hv, hk⟩

/-- What an event does to the counts, the contributions and the returns. -/
theorem step_ghosts {V : View} (hamounts : Amounts V s s' e)
    (h : step V.level V.lists s e = .ok s') :
    (∀ v ∈ s.returned, v ∈ s'.returned) ∧
    (∀ c ∈ s'.called, c ∈ s.called ∨ e.call s = some (c.2, c.1)) ∧
    ∀ me, s'.calls me = s.calls me + if e.takesID = some me then 1 else 0 := by
  have hcall : ∀ k me, IsCall V s s' k me → e.call s = some (k, me) →
      (∀ v ∈ s.returned, v ∈ s'.returned) ∧
        ∀ c ∈ s'.called, c ∈ s.called ∨ e.call s = some (c.2, c.1) := by
    intro k me hc he
    obtain ⟨base, red, red', hsame, -, -, -, -, rfl⟩ := hc.act
    have hf := send_frame { base with called := (me, k) :: base.called } me
      { red' with localbuffer := some (me, k) }
    refine ⟨fun v hv => ?_, fun c hc => ?_⟩
    · rw [internalReduce, hf.returned]
      exact hsame.returned ▸ hv
    · rw [internalReduce, hf.called, hsame.called] at hc
      obtain rfl | hc := mem_cons.mp hc
      · exact .inr he
      · exact .inl hc
  cases e with
  | reduce me =>
    obtain ⟨hret, hcalled⟩ := hcall _ _ hamounts rfl
    refine ⟨hret, hcalled, fun i => ?_⟩
    simp only [step] at h
    split at h
    · simp only [cmiReduce, cmiGetCreateReduction, bind, Except.bind, pure, Except.pure] at h
      split at h
      · cases h
      · cases h
        rw [(internal_reduce_frame ..).1, calls_fetch]
        by_cases hi : i = me
        · simp [Event.takesID, hi]
        · simp [Event.takesID, hi, Ne.symm hi]
    · cases h
  | listReduce me j =>
    obtain ⟨hret, hcalled⟩ := hcall _ _ hamounts rfl
    refine ⟨hret, hcalled, fun i => ?_⟩
    simp only [step] at h
    split at h
    · simp only [cmiListReduce, cmiGetCreateReduction, bind, Except.bind, pure, Except.pure] at h
      split at h
      · cases h
      · split at h
        · cases h
        · cases h
          simp [(internal_reduce_frame ..).1, Event.takesID]
    · cases h
  | nodeReduce me k =>
    obtain ⟨hret, hcalled⟩ := hcall _ _ hamounts rfl
    refine ⟨hret, hcalled, fun i => ?_⟩
    simp only [step] at h
    split at h
    · split at h
      · cases h
      · simp only [cmiNodeReduce, cmiGetCreateNodeReduction, bind, Except.bind, pure,
          Except.pure] at h
        split at h
        · cases h
        · cases h
          simp [(internal_reduce_frame ..).1, Event.takesID]
    · cases h
  | fetch me =>
    refine ⟨hamounts.1.returned ▸ fun v hv => hv, hamounts.1.called ▸ fun c hc => .inl hc,
      fun i => ?_⟩
    simp only [step] at h
    split at h
    · cases h
      simp only [calls_fetch, Event.takesID]
      by_cases hi : i = me
      · simp [hi]
      · simp [hi, Ne.symm hi]
    · cases h
  | deliver n =>
    obtain ⟨msg, red, -, -, rfl⟩ := hamounts
    have hf := send_frame { s with flight := s.flight.eraseIdx n } msg.dest
      { red with remotebuffer := red.remotebuffer ++ [msg.value] }
    exact ⟨fun v hv => by rwa [hf.returned], fun c hc => .inl (by rwa [hf.called] at hc),
      fun i => by simp [hf.calls, Event.takesID]⟩
  | ret n =>
    obtain ⟨r, -, rfl⟩ := hamounts
    exact ⟨fun v hv => mem_cons_of_mem _ hv, fun c hc => .inl hc,
      fun i => by simp [setInfo, Event.takesID]⟩

/-- Within the window, every call is the only unfinished one with its id. -/
theorem admissible_of_window (hsim : Sim (allView level lists) s g)
    (hwin : InWindow level s) (h : WindowedStep level lists s e s') :
    Admissible (allView level lists) s e := by
  obtain ⟨⟨hstep, hnolist⟩, hwindow⟩ := h
  have hcounted := hsim.counted
  -- Reduction `k` is not called by `me` yet, and calls `me` made or makes reach at least to `k`.
  have hcall : ∀ k me, (me, Key.global k) ∉ s.called →
      me ∈ ((allView level lists).tree (.global k)).members →
      (∀ k', k' + window level ≤ k → Finished s k') →
      (me, Key.global k) ∉ s.called ∧ ∀ k', k' ≠ .global k →
        (allView level lists).id k' = (allView level lists).id (.global k) →
        (∃ i, (i, k') ∈ s.called) → ∃ v ∈ s.returned, v.own.2 = k' := by
    intro k me hnew hmem hback
    refine ⟨hnew, ?_⟩
    rintro k' hne hid ⟨i, hi⟩
    obtain ⟨n, rfl⟩ := hwin.called _ hi
    have hn : n ≠ k := fun h => hne (congrArg _ h)
    obtain hlt | hlt := Nat.lt_or_gt_of_ne hn
    · exact hback n (add_window_le hid hlt)
    · -- A later call with the same id was made, so reduction `k` has finished: nobody is left
      -- to call it.
      exfalso
      have hcalls := ((hcounted.called_iff i n).mp hi).1
      have hfin := hwin.finished i n k hcalls (add_window_le hid.symm hlt)
      have hcl := (hsim.rel.returned (.global k) rfl).mpr hfin
      have hdone := View.done_of_cleared hsim.sound.flow hcl hmem
      exact hnew ((hsim.rel.called _ me rfl).mpr (hsim.sound.flow.done_called hdone))
  intro key me he _
  have hamounts := step_amounts hsim.labelled.counter
    (fun me k hk => (hcounted.fetched_lt me k hk).1) hstep
  cases e with
  | reduce me' =>
    cases he
    refine hcall _ _ ?_ hamounts.mem (hwindow _ rfl)
    rw [hcounted.called_iff]
    exact fun h => lt_irrefl _ h.1
  | listReduce me' j => exact absurd rfl (hnolist me' j)
  | nodeReduce me' k =>
    cases he
    have hfetched : (me, k) ∈ s.fetched := by
      simp only [step] at hstep
      split at hstep
      next hen => exact hen.2
      · cases hstep
    refine hcall _ _ ?_ hamounts.mem ?_
    · rw [hcounted.called_iff]
      exact fun h => h.2 hfetched
    · exact fun k' hk' => hwin.finished me k k' (hcounted.fetched_lt me k hfetched).2 hk'
  | fetch | deliver | ret => cases he

/-- A step with few reductions under way is a step of the gathering. -/
theorem window_step (hsim : Sim (allView level lists) s g)
    (hwin : InWindow level s) (h : WindowedStep level lists s e s') :
    InWindow level s' ∧ ∃ g', Sim (allView level lists) s' g' := by
  have hamounts := step_amounts hsim.labelled.counter
    (fun me k hk => (hsim.counted.fetched_lt me k hk).1) h.1.1
  obtain ⟨hret, hcalled, hcalls⟩ := step_ghosts hamounts h.1.1
  refine ⟨⟨fun me n k hn hk => ?_, fun c hc => ?_⟩, ?_⟩
  · rw [hcalls me] at hn
    by_cases hme : e.takesID = some me
    · rw [if_pos hme] at hn
      by_cases hlast : n = s.calls me
      · exact (h.2 me hme k (hlast ▸ hk)).mono hret
      · exact (hwin.finished me n k (by omega) hk).mono hret
    · rw [if_neg hme] at hn
      exact (hwin.finished me n k hn hk).mono hret
  · obtain hc | hc := hcalled _ hc
    · exact hwin.called _ hc
    · cases e with
      | reduce _ | nodeReduce _ _ =>
        simp only [Event.call, Option.some.injEq, Prod.mk.injEq] at hc
        exact ⟨_, hc.1.symm⟩
      | listReduce me j => exact absurd rfl (h.1.2 me j)
      | fetch _ | deliver _ | ret _ => cases hc
  · obtain ⟨-, g', -, hsim'⟩ := hsim.step (admissible_of_window hsim hwin h) h.1.1
    exact ⟨g', hsim'⟩

/-- Every run within the window is matched by the abstract gathering. -/
theorem window_steps {es : List Event}
    (h : Steps (WindowedStep level lists) cmiReductionsInit es s) :
    InWindow level s ∧ ∃ g, Sim (allView level lists) s g := by
  refine h.invariant (I := fun s => InWindow level s ∧ ∃ g, Sim (allView level lists) s g) ?_
    ⟨⟨by simp [cmiReductionsInit], by simp [cmiReductionsInit]⟩, _, sim_init⟩
  rintro s e s' ⟨hwin, g, hsim⟩ hstep
  exact window_step hsim hwin hstep

/-! ## The main result -/

/-- The value is a merge of the `k`-th contribution of every process, each once. -/
def MergesAll (m : Machine) (level : Level) (k : Nat) (v : Merged Contribution) : Prop :=
  v.leaves.Perm ((List.range (numProcs m level)).map fun me => (me, Key.global k))

/-- All contributions in the value belong to reduction `k`. -/
def OnlyOf (k : Nat) (v : Merged Contribution) : Prop := ∀ c ∈ v.leaves, c.2 = Key.global k

/-- Every process has made `n` calls, and nothing is under way any more. -/
structure Quiescent (m : Machine) (level : Level) (s : State) (n : Nat) : Prop where
  calls : ∀ me < numProcs m level, s.calls me = n
  fetched : s.fetched = []
  flight : s.flight = []
  running : s.running = []

theorem root_eq_zero (lists : Nat → ListRed m) (k : Nat) :
    ((allView level lists).tree (.global k)).root = 0 := by
  cases level <;> rfl

theorem members_eq (k : Nat) :
    ((allView level lists).tree (.global k)).members = List.range (numProcs m level) := by
  cases level <;> rfl

/-- The reductions in the log are those that were put out. -/
theorem log_keys (hsim : Sim (allView level lists) s g) :
    s.log.map (·.value.own.2) = g.out.map (·.own.2) := by
  have hall : (s.log.filter fun r => (allView level lists).tracked r.redID) = s.log :=
    filter_eq_self.mpr fun _ _ => rfl
  rw [← hsim.rel.out, map_map, hall]
  rfl

section Consequences

variable {g : Abs} (hsim : Sim (allView level lists) s g) (hwin : InWindow level s) {key : Key}
  {me : Nat}

include hsim hwin

/-- Only `CmiReduce` and `CmiNodeReduce` reductions are known. -/
theorem called_global (h : (key, me) ∈ g.called) : ∃ k, key = .global k :=
  hwin.called (me, key) ((hsim.rel.called key me rfl).mpr h)

/-- A full value has the contributions of one reduction. -/
theorem full_only_of {v : Merged Contribution}
    (h : Gather.Full (allView level lists).tree key v) (hcalled : (key, me) ∈ g.called) :
    ∃ k, key = .global k ∧ OnlyOf k v := by
  obtain ⟨k, rfl⟩ := called_global hsim hwin hcalled
  refine ⟨k, rfl, fun c hc => ?_⟩
  obtain ⟨j, -, rfl⟩ := mem_map.mp (h.leaves.mem_iff.mp hc)
  rfl

/-- The root runs a handler on the contributions of all members. -/
theorem log_correct {r : Run} (hr : r ∈ s.log) :
    r.proc = 0 ∧ ∃ k, r.value.own.2 = .global k ∧ MergesAll m level k r.value := by
  have hout : r.value ∈ g.out := by
    rw [← hsim.rel.out]
    exact mem_map_of_mem (mem_filter.mpr ⟨hr, rfl⟩)
  obtain ⟨hfull, hroot⟩ := hsim.sound.flow.out_full hout
  have hdone := hsim.sound.flow.out_iff.mp (mem_map_of_mem hout)
  obtain ⟨k, hk⟩ := called_global hsim hwin (hsim.sound.flow.done_called hdone)
  have hproc := hsim.rel.log_proc r hr rfl
  rw [hk, root_eq_zero] at hproc
  refine ⟨hproc, k, hk, ?_⟩
  rw [hk] at hfull hroot
  have := hfull.leaves_root hroot
  rwa [members_eq] at this

/-- A message carries contributions of one reduction. -/
theorem flight_correct {msg : RedMsg} (h : msg ∈ s.flight) : ∃ k, OnlyOf k msg.value := by
  have hmem : msg ∈ s.flight.filter fun x => (allView level lists).tracked x.redID :=
    mem_filter.mpr ⟨h, rfl⟩
  obtain ⟨x, hx, rfl⟩ := mem_map.mp (hsim.rel.flight.mem_iff.mp hmem)
  have hflow := hsim.sound.flow
  obtain ⟨k, -, honly⟩ := full_only_of hsim hwin (hflow.flight_full hx).1
    (hflow.done_called (hflow.flight_done hx))
  exact ⟨k, honly⟩

/-- A record has room for its children, and holds contributions of one reduction. -/
theorem record_correct {me slot : Nat} {red : CmiReduction} (h : s.info me slot = some red) :
    red.remotebuffer.length ≤ red.slots ∧ ∃ k, (∀ v ∈ red.remotebuffer, OnlyOf k v) ∧
      ∀ c, red.localbuffer = some c → c.2 = .global k := by
  have hflow := hsim.sound.flow
  have hat := hsim.rel.table me slot trivial
  obtain ⟨key, hopen, hid⟩ := hat.opened red h rfl
  have hslot : (allView level lists).slot key = slot := by
    rw [View.slot, hid, hsim.labelled.slot me slot red h]
  obtain rfl := Option.mem_unique h (hat.stored key hopen hslot)
  obtain ⟨⟨i, hi⟩, -⟩ := View.active_of_open hflow hopen
  obtain ⟨k, rfl⟩ := called_global hsim hwin hi
  refine ⟨?_, k, fun v hv => ?_, fun c hc => ?_⟩
  · exact le_trans (hflow.recvd_length_le _ me)
      (children_le_slots lists (View.mem_of_open hflow hopen) (.inr ⟨k, rfl⟩))
  · obtain ⟨k', hk', honly⟩ := full_only_of hsim hwin (hflow.recvd_full hv) hi
    cases hk'
    exact honly
  · simp only [View.record] at hc
    split at hc
    · cases hc
      rfl
    · cases hc

/-- When all is done every reduction was run once and no record is left. -/
theorem quiescent_correct {n : Nat} (hq : Quiescent m level s n) :
    (s.log.map (·.value.own.2)).Perm ((List.range n).map .global) ∧
      ∀ me slot, s.info me slot = none := by
  have hflow := hsim.sound.flow
  have hcalled : ∀ me k, (Key.global k, me) ∈ g.called ↔ me < numProcs m level ∧ k < n := by
    intro me k
    rw [← hsim.rel.called (.global k) me rfl, hsim.counted.called_iff, hq.fetched]
    by_cases hme : me < numProcs m level
    · simp [hq.calls me hme, hme]
    · simp [hsim.counted.calls_zero me (not_lt.mp hme), hme]
  have hquiet : g.flight = [] := by
    have hperm := hsim.rel.flight
    rw [hq.flight] at hperm
    exact map_eq_nil_iff.mp hperm.nil_eq.symm
  have hdone : ∀ k < n, ∀ me < numProcs m level, (Key.global k, me) ∈ g.done := by
    intro k hk me hme
    refine hsim.sound.all_done (fun i hi => ?_) (fun i => by simp [Gather.State.inFlight, hquiet])
      me ?_
    · rw [members_eq, mem_range] at hi
      exact (hcalled i k).mpr ⟨hi, hk⟩
    · rw [members_eq, mem_range]
      exact hme
  have hpos : 0 < numProcs m level := by
    cases level
    · exact Machine.num_pes_pos
    · exact m.numNodes_pos
  refine ⟨?_, fun me slot => ?_⟩
  · rw [log_keys hsim, perm_ext_iff_of_nodup hflow.out_nodup
      (nodup_range.map fun _ _ h => Key.global.inj h)]
    intro key
    rw [hflow.out_iff]
    constructor
    · intro hd
      obtain ⟨k, rfl⟩ := called_global hsim hwin (hflow.done_called hd)
      have := ((hcalled _ k).mp (hflow.done_called hd)).2
      exact mem_map.mpr ⟨k, mem_range.mpr this, rfl⟩
    · intro hmem
      obtain ⟨k, hk, rfl⟩ := mem_map.mp hmem
      rw [root_eq_zero]
      exact hdone k (mem_range.mp hk) 0 hpos
  · cases hinfo : s.info me slot with
    | none => rfl
    | some red =>
      obtain ⟨key, hopen, -⟩ := (hsim.rel.table me slot trivial).opened red hinfo rfl
      obtain ⟨⟨i, hi⟩, hcl⟩ := View.active_of_open hflow hopen
      obtain ⟨k, rfl⟩ := called_global hsim hwin hi
      have hroot := hdone k ((hcalled i k).mp hi).2 0 hpos
      rw [← root_eq_zero lists k] at hroot
      obtain ⟨r, hr, -⟩ := hsim.rel.running_of_done _ rfl hroot hcl
      rw [hq.running] at hr
      cases hr

end Consequences

/-- The only events that can store past a buffer or overrun the children are deliveries. -/
theorem stop_deliver {stop : Stop} (hstop : stop = .bufferOverflow ∨ stop = .overrun)
    (h : step level lists s e = .error stop) :
    ∃ n msg, e = .deliver n ∧ s.flight[n]? = some msg := by
  have hcall : ∀ {base : State} {me id : Nat} {level' : Level} {f : CmiReduction → State},
      (getCreateReduction m level' base me id).map f ≠ .error stop := by
    intro base me id level' f hget
    cases hred : getCreateReduction m level' base me id with
    | ok red => simp [hred, Except.map] at hget
    | error stop' =>
      simp only [hred, Except.map, Except.error.injEq] at hget
      rw [← hget, (get_create_error hred).1] at hstop
      simp at hstop
  cases e with
  | reduce me =>
    simp only [step] at h
    split at h
    · exact absurd h hcall
    · cases h
      simp at hstop
  | listReduce me j =>
    simp only [step, cmiListReduce, bind, Except.bind] at h
    split at h
    · split at h
      next hget =>
        cases h
        rw [(get_create_error hget).1] at hstop
        simp at hstop
      · split at h <;> cases h
        simp at hstop
    · cases h
      simp at hstop
  | nodeReduce me k =>
    simp only [step] at h
    split at h
    · split at h
      · cases h
        simp at hstop
      · exact absurd h hcall
    · cases h
      simp at hstop
  | fetch me =>
    simp only [step] at h
    split at h <;> cases h
    simp at hstop
  | deliver n =>
    cases hn : s.flight[n]? with
    | none =>
      simp only [step, hn] at h
      cases h
      simp at hstop
    | some msg => exact ⟨n, msg, rfl, hn⟩
  | ret n =>
    simp only [step, handlerReturn] at h
    split at h
    · cases h
      simp at hstop
    · split at h <;> cases h
      simp at hstop

/-- In every run of `CmiReduce` calls (or of `CmiNodeReduce` calls) on any machine, with calls,
message handling and handler returns interleaved in any way, in which no process makes its call
`k + window` before reduction `k` has finished: every handler run is on process 0 and gets a merge
of exactly one contribution per process, all of the same reduction, and no reduction's handler
runs twice; nothing in flight or in a record mixes reductions; no record holds more messages than
its buffer has room for, no delivery finds the buffer full or overruns the child count, and
a message can be handled unless the slot check aborts or a running handler holds the slot lock;
and once every process has made `n` calls and nothing is under way, the handlers of the first
`n` reductions have run, once each, and every record is cleared. -/
theorem reductions_combine_once {es : List Event}
    (hrun : Steps (WindowedStep level lists) cmiReductionsInit es s) :
    (∀ r ∈ s.log, r.proc = 0 ∧ ∃ k, r.value.own.2 = .global k ∧ MergesAll m level k r.value) ∧
    (s.log.map (·.value.own.2)).Nodup ∧
    (∀ msg ∈ s.flight, ∃ k, OnlyOf k msg.value) ∧
    (∀ me slot red, s.info me slot = some red → red.remotebuffer.length ≤ red.slots ∧
      ∃ k, (∀ v ∈ red.remotebuffer, OnlyOf k v) ∧
        ∀ c, red.localbuffer = some c → c.2 = .global k) ∧
    (∀ e, step level lists s e ≠ .error .bufferOverflow ∧
      step level lists s e ≠ .error .overrun) ∧
    (∀ n < s.flight.length, (∃ s', step level lists s (.deliver n) = .ok s') ∨
      step level lists s (.deliver n) = .error .tooManyReductions ∨
      (s.running ≠ [] ∧ ∃ s', step level lists s (.ret 0) = .ok s')) ∧
    (∀ n, Quiescent m level s n →
      (s.log.map (·.value.own.2)).Perm ((List.range n).map .global) ∧
        ∀ me slot, s.info me slot = none) := by
  obtain ⟨hwin, g, hsim⟩ := window_steps hrun
  have hsafe : ∀ e, step level lists s e ≠ .error .bufferOverflow ∧
      step level lists s e ≠ .error .overrun := by
    intro e
    have hdeliver : ∀ stop, (stop = Stop.bufferOverflow ∨ stop = Stop.overrun) →
        step level lists s e ≠ .error stop := by
      intro stop hstop h
      obtain ⟨n, msg, rfl, hn⟩ := stop_deliver hstop h
      have hno := hsim.no_overflow hn rfl
      obtain rfl | rfl := hstop
      · exact hno.1 h
      · exact hno.2 h
    exact ⟨hdeliver _ (.inl rfl), hdeliver _ (.inr rfl)⟩
  refine ⟨fun r hr => log_correct hsim hwin hr, ?_, fun msg h => flight_correct hsim hwin h,
    fun me slot red h => record_correct hsim hwin h, hsafe, fun n hn => ?_,
    fun n hq => quiescent_correct hsim hwin hq⟩
  · rw [log_keys hsim]
    exact hsim.sound.flow.out_nodup
  · obtain h | ⟨-, -, h⟩ | h | h | h := deliver_result level lists (getElem?_eq_getElem hn)
    · exact .inl h
    · obtain ⟨r, rest, hr⟩ := exists_cons_of_ne_nil h
      simp [step, handlerReturn, hr]
    · exact .inr (.inl h.1)
    · exact absurd h (hsafe _).2
    · exact absurd h (hsafe _).1

/-- One node of two PEs. PE 1 is a leaf under PE 0. -/
def twoPes : Machine := ⟨1, 2, Nat.one_pos, Nat.two_pos, .lci⟩

/-- A list reduction that the runs below do not use. -/
def unusedList (_ : Nat) : ListRed twoPes := ⟨[0], 0, by decide, by decide, by decide⟩

/-- One reduction on two PEs, with the child's message handled first. -/
theorem reduction_of_two_pes : ∃ s,
    Steps (WindowedStep .pe unusedList) cmiReductionsInit
      [.reduce 1, .deliver 0, .reduce 0, .ret 0] s ∧
    (s.log.map (·.value.own.2)).Perm [.global 0] ∧ ∀ me slot, s.info me slot = none := by
  have hrun : ∃ s, Steps (WindowedStep .pe unusedList) cmiReductionsInit
      [.reduce 1, .deliver 0, .reduce 0, .ret 0] s ∧ Quiescent twoPes .pe s 1 := by
    have hfirst : ∀ {s : State} {me k : Nat}, s.calls me = 0 → k + window .pe ≤ s.calls me →
        Finished s k := by
      have : window .pe = 2147483648 := rfl
      omega
    refine ⟨_, .cons ⟨⟨rfl, by simp⟩, ?_⟩ (.cons ⟨⟨rfl, by simp⟩, ?_⟩ (.cons ⟨⟨rfl, by simp⟩, ?_⟩
      (.cons ⟨⟨rfl, by simp⟩, ?_⟩ (.nil _)))), ?_, rfl, rfl, rfl⟩
    · rintro me ⟨⟩ k hk
      exact hfirst rfl hk
    · rintro me ⟨⟩
    · rintro me ⟨⟩ k hk
      exact hfirst rfl hk
    · rintro me ⟨⟩
    · intro me hme
      obtain rfl | rfl : me = 0 ∨ me = 1 := by
        have : numProcs twoPes .pe = 2 := rfl
        omega
      · rfl
      · rfl
  obtain ⟨s, hsteps, hq⟩ := hrun
  obtain ⟨hlog, hclear⟩ := (reductions_combine_once hsteps).2.2.2.2.2.2 1 hq
  exact ⟨s, hsteps, hlog, hclear⟩

/-! ## Beyond the window -/

/-- The message of PE 1's `k`-th call. -/
def leafMsg (k : Nat) : RedMsg := ⟨globalID .pe k, 0, .node (1, .global k) []⟩

/-- No record and no running handler, `a` calls made by PE 0 and `b` by PE 1. -/
structure Idle (s : State) (a b : Nat) : Prop where
  info : ∀ me slot, s.info me slot = none
  running : s.running = []
  fetched : s.fetched = []
  counter : ∀ me, s.counter me = globalID .pe (s.calls me)
  calls_zero : s.calls 0 = a
  calls_one : s.calls 1 = b

/-- A call on a leaf sends its contribution at once. -/
theorem leaf_call (h : Idle s a b) :
    ∃ s', GlobalStep .pe unusedList s (.reduce 1) s' ∧ Idle s' a (b + 1) ∧
      s'.flight = s.flight ++ [leafMsg b] ∧ s'.log = s.log := by
  have hnew : newReduction twoPes .pe 1 (globalID .pe b) =
      ⟨globalID .pe b, 0, some 0, none, [], 4⟩ := rfl
  have hget : getCreateReduction twoPes .pe (fetchID .pe s 1) 1 (globalID .pe b) =
      .ok ⟨globalID .pe b, 0, some 0, none, [], 4⟩ := by
    rw [getCreateReduction, show (fetchID .pe s 1).info = s.info from rfl, h.info, ← hnew]
  refine ⟨internalReduce (fetchID .pe s 1) 1 (1, .global b)
    ⟨globalID .pe b, 0, some 0, none, [], 4⟩, ⟨?_, by simp⟩, ?_, rfl, rfl⟩
  · have hlt : (1 : Nat) < twoPes.cmiNumPes := by decide
    simp only [step, hlt, and_self, if_true, cmiReduce, cmiGetCreateReduction, getNextID,
      h.counter, h.calls_one, hget, bind, Except.bind, pure, Except.pure]
  · have hcounter := counter_fetch .pe h.counter 1
    refine ⟨fun me slot => ?_, h.running, h.fetched, hcounter, ?_, ?_⟩
    · rw [show (internalReduce (fetchID .pe s 1) 1 (1, .global b)
        ⟨globalID .pe b, 0, some 0, none, [], 4⟩).info me slot =
          (setInfo s 1 (globalID .pe b) none).info me slot from rfl, info_set_info, h.info]
      split <;> rfl
    · exact h.calls_zero
    · simp [internalReduce, sendReduce, setInfo, fetchID, h.calls_one]

/-- PE 0 handles a message of PE 1, makes its call, and its handler runs and returns. It merges
whatever message has the id of its call. -/
theorem root_round {a b k n : Nat} (h : Idle s a b) (hn : s.flight[n]? = some (leafMsg k))
    (hid : globalID .pe k = globalID .pe a) :
    ∃ s', Steps (GlobalStep .pe unusedList) s [.deliver n, .reduce 0, .ret 0] s' ∧
      Idle s' (a + 1) b ∧ s'.flight = s.flight.eraseIdx n ∧
      s'.log = s.log ++ [⟨0, globalID .pe a, .node (0, .global a) [.node (1, .global k) []]⟩] := by
  have hnew : newReduction twoPes .pe 0 (globalID .pe a) =
      ⟨globalID .pe a, 1, none, none, [], 4⟩ := rfl
  let value : Merged Contribution := .node (1, .global k) []
  let red : CmiReduction := ⟨globalID .pe a, 1, none, none, [value], 4⟩
  let s₁ := setInfo { s with flight := s.flight.eraseIdx n } 0 (globalID .pe a) (some red)
  let s₂ := internalReduce (fetchID .pe s₁ 0) 0 (0, .global a) red
  have hcalls : s₁.calls 0 = a := h.calls_zero
  have hcounter : ∀ me, s₁.counter me = globalID .pe (s₁.calls me) := h.counter
  have hdeliver : step .pe unusedList s (.deliver n) = .ok s₁ := by
    rw [step_deliver_eq .pe unusedList hn]
    simp only [reduceHandler, getCreateReduction, leafMsg, h.info, hid, hnew, bind, Except.bind,
      pure, Except.pure]
    rfl
  have hget : getCreateReduction twoPes .pe (fetchID .pe s₁ 0) 0 (globalID .pe a) = .ok red := by
    have hinfo : s₁.info 0 (cmiGetReductionIndex (globalID .pe a)) = some red := by
      simp only [s₁, info_set_info, and_self, if_true]
    rw [getCreateReduction, show (fetchID .pe s₁ 0).info = s₁.info from rfl, hinfo]
    simp [red]
  have hreduce : step .pe unusedList s₁ (.reduce 0) = .ok s₂ := by
    have hlt : (0 : Nat) < twoPes.cmiNumPes := by decide
    simp only [step, hlt, and_self, if_true, cmiReduce, cmiGetCreateReduction, getNextID,
      hcounter, hcalls, hget, bind, Except.bind, pure, Except.pure]
    rfl
  let s₃ : State := { setInfo s₂ 0 (globalID .pe a) none with
    running := s.running
    returned := .node (0, .global a) [value] :: s.returned }
  have hret : step .pe unusedList s₂ (.ret 0) = .ok s₃ := rfl
  refine ⟨s₃, .cons ⟨hdeliver, by simp⟩ (.cons ⟨hreduce, by simp⟩ (.cons ⟨hret, by simp⟩
    (.nil _))), ?_, rfl, rfl⟩
  refine ⟨fun me slot => ?_, h.running, h.fetched, ?_, ?_, h.calls_one⟩
  · have hinfo : s₃.info me slot = (setInfo (setInfo (setInfo s 0 (globalID .pe a) (some red)) 0
        (globalID .pe a) (some { red with localbuffer := some (0, .global a) })) 0
        (globalID .pe a) none).info me slot := rfl
    rw [hinfo]
    simp only [info_set_info, h.info]
    split <;> rfl
  · exact counter_fetch .pe h.counter 0
  · simp [s₃, s₂, s₁, internalReduce, sendReduce, setInfo, fetchID, red, h.calls_zero]

/-- PE 1 makes `b` calls while PE 0 makes none. -/
theorem leaf_calls (b : Nat) : ∃ es s, Steps (GlobalStep .pe unusedList) cmiReductionsInit es s ∧
    Idle s 0 b ∧ s.flight = (List.range b).map leafMsg := by
  induction b with
  | zero => exact ⟨[], _, .nil _, ⟨fun _ _ => rfl, rfl, rfl, fun _ => rfl, rfl, rfl⟩, rfl⟩
  | succ b ih =>
    obtain ⟨es, s, hsteps, hidle, hflight⟩ := ih
    obtain ⟨s', hstep, hidle', hflight', -⟩ := leaf_call hidle
    refine ⟨_, s', hsteps.append (.single hstep), hidle', ?_⟩
    rw [hflight', hflight, range_succ, map_append]
    rfl

/-- PE 0 catches up with PE 1, leaving PE 1's first message in flight. -/
theorem root_rounds {w : Nat} (d : Nat) (had : a + d = w) (h : Idle s a b)
    (hflight : s.flight = leafMsg 0 :: (List.range' a d).map leafMsg) :
    ∃ es s', Steps (GlobalStep .pe unusedList) s es s' ∧ Idle s' w b ∧
      s'.flight = [leafMsg 0] ∧ ∀ r ∈ s.log, r ∈ s'.log := by
  induction d generalizing a s with
  | zero => exact ⟨[], s, .nil s, had ▸ h, by simpa using hflight, fun r hr => hr⟩
  | succ d ih =>
    have hn : s.flight[1]? = some (leafMsg a) := by simp [hflight, range'_succ]
    obtain ⟨s₁, hsteps, hidle, hflight₁, hlog⟩ := root_round h hn rfl
    obtain ⟨es, s', hsteps', hidle', hflight', hlog'⟩ := ih (by omega) hidle (by
      rw [hflight₁, hflight]
      rfl)
    refine ⟨_, s', hsteps.append hsteps', hidle', hflight', fun r hr => hlog' r ?_⟩
    rw [hlog]
    exact mem_append_left _ hr

/-- Two PEs that each make `window + 1` calls. PE 1 runs ahead, and the message of its last call,
which has the id of its first, reaches PE 0 before PE 0's first call. Nothing aborts, everything
finishes, and the first reduction has merged a contribution to another one. -/
theorem reductions_mix_after_wrap :
    ∃ es s, Steps (GlobalStep .pe unusedList) cmiReductionsInit es s ∧
      Quiescent twoPes .pe s (window .pe + 1) ∧
      ∃ r ∈ s.log, r.value.own = (0, .global 0) ∧ (1, .global (window .pe)) ∈ r.value.leaves ∧
        ¬ MergesAll twoPes .pe 0 r.value := by
  have hwrap : globalID .pe (window .pe) = globalID .pe 0 := by decide
  have hpos : 0 < window .pe := window_pos .pe
  generalize hw : window .pe = w at *
  obtain ⟨es₁, s₁, hsteps₁, hidle₁, hflight₁⟩ := leaf_calls (w + 1)
  rw [range_succ, map_append] at hflight₁
  obtain ⟨s₂, hsteps₂, hidle₂, hflight₂, hlog₂⟩ := root_round (n := w) hidle₁
    (by rw [hflight₁]; simp) hwrap
  obtain ⟨es₃, s₃, hsteps₃, hidle₃, hflight₃, hlog₃⟩ := root_rounds (w := w) (w - 1)
    (by omega) hidle₂ (by
      obtain ⟨v, rfl⟩ : ∃ v, w = v + 1 := ⟨w - 1, by omega⟩
      rw [hflight₂, hflight₁, eraseIdx_append_of_length_le (by simp)]
      simp [range_eq_range', range'_succ])
  obtain ⟨s₄, hsteps₄, hidle₄, hflight₄, hlog₄⟩ := root_round (n := 0) hidle₃
    (by rw [hflight₃]; rfl) hwrap.symm
  refine ⟨_, s₄, ((hsteps₁.append hsteps₂).append hsteps₃).append hsteps₄, ?_, ?_⟩
  · refine ⟨fun me hme => ?_, hidle₄.fetched, ?_, hidle₄.running⟩
    · obtain rfl | rfl : me = 0 ∨ me = 1 := by
        have : numProcs twoPes .pe = 2 := rfl
        omega
      · exact hidle₄.calls_zero
      · exact hidle₄.calls_one
    · rw [hflight₄, hflight₃]
      rfl
  · refine ⟨⟨0, globalID .pe 0, .node (0, .global 0) [.node (1, .global w) []]⟩, ?_, rfl,
      by simp, ?_⟩
    · rw [hlog₄]
      refine mem_append_left _ (hlog₃ _ ?_)
      rw [hlog₂]
      exact mem_append_right _ mem_cons_self
    · intro hmerge
      have hmem := hmerge.mem_iff.mp (show (1, Key.global w) ∈ _ by simp)
      obtain ⟨me, -, heq⟩ := mem_map.mp hmem
      simp only [Prod.mk.injEq, Key.global.injEq] at heq
      omega

end Reconverse.Reduction
