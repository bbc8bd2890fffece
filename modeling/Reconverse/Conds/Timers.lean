import Reconverse.Lib.Runs

/-!
# One-time timers

`CcdCallFnAfter` puts a callback into a heap by its time. `ccd_heap_update`, which `CcdCallBacks`
calls first, runs those whose time has come; a callback can set timers and call `CcdCallBacks`
itself. Every timer fires once and not before its time, and a call fires those that were due when it
began, whatever timers its callbacks set. Times are exact rationals.
-/

namespace Reconverse.Conds.Timers

open Lib List

/-- `ccd_heap_elem`. -/
structure CcdHeapElem (β : Type) where
  time : ℚ
  cb : β
  deriving DecidableEq, Repr

/-- The heap, the clocks of the calls of `ccd_heap_update` that have not returned, the last one
first, the timers that were set, and those that fired with the clock of the call. -/
structure State (β : Type) where
  heap : List (CcdHeapElem β)
  calls : List ℚ
  set : List (CcdHeapElem β)
  fired : List (ℚ × CcdHeapElem β)
  deriving DecidableEq, Repr

/-- A timer is set, `ccd_heap_update` is called, or the loop of its last call turns. -/
inductive Event (β : Type) where
  | callFnAfter (ctime deltaT : ℚ) (cb : β)
  | update (curWallTime : ℚ)
  | turn

variable {β : Type} [DecidableEq β]

namespace State

variable (s : State β)

/-- `CcdCallFnAfter` and `CcdCallFnAfterOnPE`, with the delay in milliseconds. -/
def ccdCallFnAfter (ctime deltaT : ℚ) (cb : β) : State β :=
  let e : CcdHeapElem β := ⟨ctime + deltaT * (1 / 1000), cb⟩
  { s with heap := s.heap ++ [e], set := s.set ++ [e] }

/-- A turn of the loop of `ccd_heap_update`. The top of the heap is a timer of least time. -/
def turn : Option (State β) :=
  match s.calls, s.heap.argmin CcdHeapElem.time with
  | [], _ => none
  | _ :: outer, none => some { s with calls := outer }
  | curWallTime :: outer, some e => some <|
    if e.time ≥ curWallTime then { s with calls := outer }
    else { s with heap := s.heap.erase e, fired := s.fired ++ [(curWallTime, e)] }

def step : Event β → Option (State β)
  | .callFnAfter ctime deltaT cb => some (s.ccdCallFnAfter ctime deltaT cb)
  | .update curWallTime => some { s with calls := curWallTime :: s.calls }
  | .turn => s.turn

/-- The timers that are due at `cur`. -/
def due (cur : ℚ) : List (CcdHeapElem β) := s.heap.filter (·.time < cur)

end State

variable {s s' : State β} {es : List (Event β)} {cur : ℚ}

/-- A turn returns if nothing is due, or fires a timer that is. -/
theorem turn_cases (h : s.turn = some s') : ∃ cur outer, s.calls = cur :: outer ∧
    (s.due cur = [] ∧ s' = { s with calls := outer } ∨ ∃ e ∈ s.heap, e.time < cur ∧
      s' = { s with heap := s.heap.erase e, fired := s.fired ++ [(cur, e)] }) := by
  unfold State.turn at h
  split at h
  · cases h
  next cur outer hcalls htop =>
    refine ⟨cur, outer, hcalls, .inl ⟨?_, (Option.some.inj h).symm⟩⟩
    rw [State.due, argmin_eq_none.mp htop, filter_nil]
  next cur outer e hcalls htop =>
    refine ⟨cur, outer, hcalls, ?_⟩
    split at h
    next hge =>
      refine .inl ⟨filter_eq_nil_iff.mpr fun x hx => ?_, (Option.some.inj h).symm⟩
      simpa using hge.trans (le_of_mem_argmin hx htop)
    next hlt => exact .inr ⟨e, argmin_mem htop, not_le.mp hlt, (Option.some.inj h).symm⟩

/-- `s'` is reached from `s` by the given events. -/
abbrev Run : State β → List (Event β) → State β → Prop := Steps fun s e s' => s.step e = some s'

/-- A call at `cur` whose callbacks only set timers, with delays that are not negative, fires at
most what was due when it began, so that its loop ends, and has fired all of it when it returns. -/
theorem update_fires_due (hcalls : s.calls = [cur]) (hrun : Run s es s')
    (hes : ∀ e ∈ es, e = .turn ∨ ∃ ctime ≥ cur, ∃ deltaT ≥ 0, ∃ cb,
    e = .callFnAfter ctime deltaT cb) :
    (s'.fired.map Prod.snd ++ s'.due cur).Perm (s.fired.map Prod.snd ++ s.due cur) ∧
      (s'.calls = [cur] ∨ s'.calls = [] ∧ s'.due cur = []) := by
  refine hrun.invariant_of_mem (I := fun t => (t.fired.map Prod.snd ++ t.due cur).Perm
    (s.fired.map Prod.snd ++ s.due cur) ∧ (t.calls = [cur] ∨ t.calls = [] ∧ t.due cur = []))
    (fun t e t' hmem h hstep => ?_) ⟨.refl _, .inl hcalls⟩
  obtain ⟨hperm, hcalls⟩ := h
  obtain rfl | ⟨ctime, hctime, deltaT, hdeltaT, cb, rfl⟩ := hes e hmem
  · obtain ⟨cur', outer, hcalls', hcases⟩ := turn_cases hstep
    obtain ⟨rfl, rfl⟩ : cur' = cur ∧ outer = [] := by simpa [hcalls'] using hcalls
    obtain ⟨hnone, rfl⟩ | ⟨e, he, hlt, rfl⟩ := hcases
    · exact ⟨hperm, .inr ⟨rfl, hnone⟩⟩
    · refine ⟨.trans ?_ hperm, .inl hcalls'⟩
      have herase := (perm_cons_erase he).filter fun x => x.time < cur'
      rw [filter_cons_of_pos (by simpa using hlt)] at herase
      rw [map_append, append_assoc]
      exact herase.symm.append_left _
  · cases hstep
    have hdue : (t.ccdCallFnAfter ctime deltaT cb).due cur = t.due cur := by
      have hlate : cur ≤ ctime + deltaT * (1 / 1000) := by linarith
      simpa [State.due, State.ccdCallFnAfter] using hlate
    rw [hdue]
    exact ⟨hperm, hcalls⟩

/-- A call leaves the timer that its callback sets for the time of the call. -/
theorem update_leaves_new_timer : ∃ s' : State Nat, s'.calls = [] ∧
    (s'.fired.map Prod.snd ++ s'.due 2).Perm [⟨1, 0⟩] := by
  obtain ⟨s', hrun, hcalls⟩ : ∃ s',
      Run ⟨[⟨1, 0⟩], [2], [], []⟩ [.turn, .callFnAfter 2 0 1, .turn] s' ∧
      s'.calls = [] := Steps.exists_of_any (by decide +kernel)
  exact ⟨s', hcalls, (update_fires_due rfl hrun (by simp)).1⟩

/-- After every run, nested calls included, each timer that was set waits or was fired once, and not
before its time. -/
theorem timers_fire_once (hrun : Run (⟨[], [], [], []⟩ : State β) es s) :
    (s.fired.map Prod.snd ++ s.heap).Perm s.set ∧ ∀ x ∈ s.fired, x.2.time < x.1 := by
  refine hrun.invariant (I := fun s => (s.fired.map Prod.snd ++ s.heap).Perm s.set ∧
    ∀ x ∈ s.fired, x.2.time < x.1) (fun s e s' h hstep => ?_) ⟨.refl _, forall_mem_nil _⟩
  obtain ⟨hperm, htime⟩ := h
  cases e with
  | callFnAfter =>
    cases hstep
    refine ⟨?_, htime⟩
    simpa [State.ccdCallFnAfter] using hperm.append_right _
  | update =>
    cases hstep
    exact ⟨hperm, htime⟩
  | turn =>
    obtain ⟨cur, outer, -, ⟨-, rfl⟩ | ⟨e, he, hlt, rfl⟩⟩ := turn_cases hstep
    · exact ⟨hperm, htime⟩
    · refine ⟨?_, forall_mem_append.mpr ⟨htime, forall_mem_singleton.mpr hlt⟩⟩
      rw [map_append, append_assoc]
      exact ((perm_cons_erase he).symm.append_left _).trans hperm

/-- A timer fires in a nested call. -/
theorem timer_fires_in_nested_update : ∃ s : State Nat, s.fired ≠ [] ∧
    (s.fired.map Prod.snd ++ s.heap).Perm s.set := by
  obtain ⟨s, hrun, hfired⟩ : ∃ s, Run ⟨[], [], [], []⟩ [.callFnAfter 0 1 0, .callFnAfter 0 2 1,
    .update 1, .turn, .update 2, .turn] s ∧ s.fired ≠ [] := Steps.exists_of_any (by decide +kernel)
  exact ⟨s, hfired, (timers_fire_once hrun).1⟩

end Reconverse.Conds.Timers
