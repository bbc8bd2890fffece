import Reconverse.Lib.Runs

/-!
# The barrier of a node

`barrier.h`: a thread that arrives reads the step counter, its ticket, and adds itself to the
count of waiting threads. The thread that completes the count clears it and advances the step
counter. The others wait until the counter differs from their ticket. Each atomic operation is a
step of its own, and the steps of the threads interleave in any order.

The two counters are separate, so a thread may already arrive for the next round while others
have not tested their tickets of this one. The invariant `Inv` says that they are never further
apart than that.
-/

namespace Reconverse.Barrier

open Lib
open Function (update update_self update_of_ne)

/-- Where a thread is in `CmiNodeBarrier`. In `arrive` it has loaded `step`, has counted itself as
the last of the round, or has stored 0 to `waiting`; with its ticket it is in the loop of
`test_ticket`. -/
inductive Pc where
  | outside
  | loaded (mstep : BitVec 64)
  | last (mstep : BitVec 64)
  | cleared (mstep : BitVec 64)
  | waits (ticket : BitVec 64)
  deriving DecidableEq

/-- A `Barrier` of `n` threads. `arrivals` and `passed` count the calls of `arrive` that have
returned and the waits that have ended. -/
structure State (n : Nat) where
  waiting : Nat
  step : BitVec 64
  pc : Fin n → Pc
  arrivals : Fin n → Nat
  passed : Fin n → Nat

variable {n : Nat}

/-- The constructor of `Barrier`, with all threads outside. -/
def init (n : Nat) : State n where
  waiting := 0
  step := 0
  pc _ := .outside
  arrivals _ := 0
  passed _ := 0

/-- `test_ticket`. -/
def testTicket (s : State n) (ticket : BitVec 64) : Bool := ticket != s.step

/-- The atomic operations, with the thread that does them. -/
inductive Event (n : Nat) where
  | load (t : Fin n)
  | count (t : Fin n)
  | clear (t : Fin n)
  | advance (t : Fin n)
  | test (t : Fin n)

/-- `arrive` returns the ticket. -/
def arrived (s : State n) (t : Fin n) (ticket : BitVec 64) : State n :=
  { s with
    pc := update s.pc t (.waits ticket)
    arrivals := update s.arrivals t (s.arrivals t + 1) }

/-- One step of a thread. A thread that waits tests its ticket again and again, and arrives again
only after a test has succeeded. -/
def next (s : State n) : Event n → Option (State n)
  | .load t =>
    match s.pc t with
    | .outside => some { s with pc := update s.pc t (.loaded s.step) }
    | _ => none
  | .count t =>
    match s.pc t with
    | .loaded mstep =>
      let s := { s with waiting := s.waiting + 1 }
      if s.waiting = n then some { s with pc := update s.pc t (.last mstep) }
      else some (arrived s t mstep)
    | _ => none
  | .clear t =>
    match s.pc t with
    | .last mstep => some { s with waiting := 0, pc := update s.pc t (.cleared mstep) }
    | _ => none
  | .advance t =>
    match s.pc t with
    | .cleared mstep => some (arrived { s with step := s.step + 1 } t mstep)
    | _ => none
  | .test t =>
    match s.pc t with
    | .waits ticket =>
      if testTicket s ticket then
        some { s with
          pc := update s.pc t .outside
          passed := update s.passed t (s.passed t + 1) }
      else some s
    | _ => none

/-! ## The invariant -/

/-- Where a thread can be when the step counter has been advanced `r` times, with the number of its
arrivals and of its waits that have ended. -/
def Place (r : Nat) : Pc → Nat → Nat → Prop
  | .outside, arrivals, passed => arrivals = r ∧ passed = r
  | .loaded mstep, arrivals, passed | .last mstep, arrivals, passed
  | .cleared mstep, arrivals, passed =>
    mstep = BitVec.ofNat 64 r ∧ arrivals = r ∧ passed = r
  | .waits ticket, arrivals, passed =>
    arrivals = passed + 1 ∧ ticket = BitVec.ofNat 64 passed ∧ (passed = r ∨ passed + 1 = r)

/-- The thread is in the count of round `r`. -/
def Counted (r : Nat) (s : State n) (t : Fin n) : Prop :=
  match s.pc t with
  | .last _ => True
  | .waits _ => s.passed t = r
  | _ => False

instance (r : Nat) (s : State n) : DecidablePred (Counted r s) := fun t => by
  unfold Counted
  split <;> infer_instance

/-- The threads in the count of round `r`. -/
def counted (r : Nat) (s : State n) : Finset (Fin n) := Finset.univ.filter (Counted r s)

/-- The thread completes a round. -/
def Completes (s : State n) (t : Fin n) : Prop :=
  ∃ mstep, s.pc t = .last mstep ∨ s.pc t = .cleared mstep

/-- What holds when the step counter has been advanced `r` times: `waiting` counts the threads of
the round unless it has been cleared, while a thread completes the round all others wait for it,
and some thread has not yet arrived for the round. -/
structure Inv (r : Nat) (s : State n) : Prop where
  step_eq : s.step = BitVec.ofNat 64 r
  place : ∀ t, Place r (s.pc t) (s.arrivals t) (s.passed t)
  waiting_eq : (∀ t mstep, s.pc t ≠ .cleared mstep) → s.waiting = (counted r s).card
  waiting_zero : ∀ t mstep, s.pc t = .cleared mstep → s.waiting = 0
  others : ∀ t, Completes s t → ∀ u, u ≠ t → ∃ ticket, s.pc u = .waits ticket ∧ s.passed u = r
  late : Fin n → ∃ t, s.arrivals t = r

variable {r : Nat} {s s' : State n} {t : Fin n}

/-- In the beginning all threads are outside of the barrier. -/
theorem inv_init : Inv 0 (init n) where
  step_eq := rfl
  place _ := ⟨rfl, rfl⟩
  waiting_eq _ := by
    have hnone : counted 0 (init n) = ∅ := Finset.filter_false_of_mem fun t _ h => h
    rw [hnone, Finset.card_empty]
    rfl
  waiting_zero _ _ h := by cases h
  others t h := by
    obtain ⟨mstep, h | h⟩ := h <;> cases h
  late t := ⟨t, rfl⟩

/-- Whoever is still on the way into a round keeps it from being completed. -/
theorem Inv.not_completes (hi : Inv r s) (hpc : ∀ ticket, s.pc t ≠ .waits ticket)
    (ht : ¬ Completes s t) (u : Fin n) : ¬ Completes s u := by
  intro hu
  by_cases heq : t = u
  · exact ht (heq ▸ hu)
  · obtain ⟨ticket, hwaits, -⟩ := hi.others u hu t heq
    exact hpc ticket hwaits

/-- What a step of `t` does to the other threads. -/
structure SameBut (t : Fin n) (s s' : State n) : Prop where
  pc : ∀ u, u ≠ t → s'.pc u = s.pc u
  arrivals : ∀ u, u ≠ t → s'.arrivals u = s.arrivals u
  passed : ∀ u, u ≠ t → s'.passed u = s.passed u

section

variable (h : SameBut t s s')

include h

/-- Only the thread that moved has a new place. -/
theorem SameBut.place (hi : Inv r s)
    (ht : Place r (s'.pc t) (s'.arrivals t) (s'.passed t)) (u : Fin n) :
    Place r (s'.pc u) (s'.arrivals u) (s'.passed u) := by
  by_cases heq : u = t
  · subst heq
    exact ht
  · rw [h.pc u heq, h.arrivals u heq, h.passed u heq]
    exact hi.place u

theorem SameBut.counted_iff {u : Fin n} (hu : u ≠ t) : Counted r s' u ↔ Counted r s u := by
  unfold Counted
  rw [h.pc u hu, h.passed u hu]

/-- The count of the round if `t` does not join or leave it. -/
theorem SameBut.counted_eq (ht : Counted r s' t ↔ Counted r s t) : counted r s' = counted r s := by
  refine Finset.filter_congr fun u _ => ?_
  by_cases heq : u = t
  · subst heq
    exact ht
  · exact h.counted_iff heq

/-- The count of the round if `t` joins it. -/
theorem SameBut.counted_insert (ht : ¬ Counted r s t)
    (ht' : Counted r s' t) : (counted r s').card = (counted r s).card + 1 := by
  have hinsert : counted r s' = insert t (counted r s) := by
    ext u
    simp only [counted, Finset.mem_filter, Finset.mem_univ, true_and, Finset.mem_insert]
    by_cases heq : u = t
    · subst heq
      simp only [ht', true_or]
    · rw [h.counted_iff heq, or_iff_right heq]
  rw [hinsert, Finset.card_insert_of_notMem]
  simpa only [counted, Finset.mem_filter, Finset.mem_univ, true_and] using ht

/-- No other thread completes the barrier now. -/
theorem SameBut.not_completes (hnone : ∀ u, ¬ Completes s u)
    (ht : ¬ Completes s' t) (u : Fin n) : ¬ Completes s' u := by
  intro hu
  by_cases heq : u = t
  · subst heq
    exact ht hu
  · unfold Completes at hu
    rw [h.pc u heq] at hu
    exact hnone u hu

end

/-- The invariant while no thread completes the round. -/
theorem Inv.of_open (hstep : s.step = BitVec.ofNat 64 r)
    (hplace : ∀ t, Place r (s.pc t) (s.arrivals t) (s.passed t))
    (hcount : s.waiting = (counted r s).card) (hnone : ∀ t, ¬ Completes s t)
    (hlate : Fin n → ∃ t, s.arrivals t = r) : Inv r s where
  step_eq := hstep
  place := hplace
  waiting_eq _ := hcount
  waiting_zero t mstep h := absurd ⟨mstep, .inr h⟩ (hnone t)
  others t h := absurd h (hnone t)
  late := hlate

section

variable (hi : Inv r s)

include hi

theorem Inv.count_of_open (hnone : ∀ t, ¬ Completes s t) : s.waiting = (counted r s).card :=
  hi.waiting_eq fun t mstep h => hnone t ⟨mstep, .inr h⟩

/-! ## One lemma for each operation -/

/-- A thread reads the step. -/
theorem Inv.load (hpc : s.pc t = .outside) :
    Inv r { s with pc := update s.pc t (.loaded s.step) } := by
  have hsame : SameBut t s { s with pc := update s.pc t (.loaded s.step) } :=
    ⟨fun u hu => update_of_ne hu _ _, fun _ _ => rfl, fun _ _ => rfl⟩
  have hplace := hi.place t
  rw [hpc] at hplace
  have hnone := hi.not_completes (t := t) (by simp [hpc]) (by simp [Completes, hpc])
  refine .of_open hi.step_eq (hsame.place hi ?_) ?_ (hsame.not_completes hnone ?_) hi.late
  · show Place r (update s.pc t (.loaded s.step) t) (s.arrivals t) (s.passed t)
    rw [update_self]
    exact ⟨hi.step_eq, hplace⟩
  · rw [hsame.counted_eq]
    · exact hi.count_of_open hnone
    · simp only [Counted, hpc, update_self]
  · simp [Completes]

/-- If the count lacks two threads, one of them is not `t`. -/
theorem Inv.exists_late_ne (hcount : s.waiting = (counted r s).card)
    (ht : ¬ Counted r s t) (hne : s.waiting + 1 ≠ n) : ∃ u, u ≠ t ∧ s.arrivals u = r := by
  by_contra hall
  have hrest : counted r s = Finset.univ.erase t := by
    ext u
    simp only [counted, Finset.mem_filter, Finset.mem_univ, true_and, Finset.mem_erase, and_true]
    constructor
    · rintro hu rfl
      exact ht hu
    · intro hu
      by_contra hnot
      refine hall ⟨u, hu, ?_⟩
      have hplace := hi.place u
      unfold Counted at hnot
      cases hpc : s.pc u <;> rw [hpc] at hplace hnot <;> simp only [Place] at hplace hnot <;> omega
  apply hne
  have hpos := t.pos
  rw [hcount, hrest, Finset.card_erase_of_mem (Finset.mem_univ t), Finset.card_univ,
    Fintype.card_fin]
  omega

variable {mstep : BitVec 64} {ticket : BitVec 64}

/-- The thread joins the count and is not the last. -/
theorem Inv.count (hpc : s.pc t = .loaded mstep)
    (hne : s.waiting + 1 ≠ n) : Inv r (arrived { s with waiting := s.waiting + 1 } t mstep) := by
  have hsame : SameBut t s (arrived { s with waiting := s.waiting + 1 } t mstep) :=
    ⟨fun u hu => update_of_ne hu _ _, fun u hu => update_of_ne hu _ _, fun _ _ => rfl⟩
  obtain ⟨hticket, harrivals, hpassed⟩ : Place r (.loaded mstep) _ _ := hpc ▸ hi.place t
  have hnone := hi.not_completes (t := t) (by simp [hpc]) (by simp [Completes, hpc])
  have hout : ¬ Counted r s t := by simp only [Counted, hpc, not_false_eq_true]
  refine .of_open hi.step_eq (hsame.place hi ?_) ?_ (hsame.not_completes hnone ?_) fun _ => ?_
  · show Place r (update s.pc t (.waits mstep) t)
      (update s.arrivals t (s.arrivals t + 1) t) (s.passed t)
    rw [update_self, update_self]
    exact ⟨by omega, by rw [hpassed, hticket], .inl hpassed⟩
  · rw [hsame.counted_insert hout, ← hi.count_of_open hnone]
    · rfl
    · simp only [Counted, arrived, update_self, hpassed]
  · simp [Completes, arrived]
  · obtain ⟨u, hu, hlate⟩ := hi.exists_late_ne (hi.count_of_open hnone) hout hne
    exact ⟨u, (hsame.arrivals u hu).trans hlate⟩

/-- The thread joins the count and completes it, so all others wait for it. -/
theorem Inv.count_last (hpc : s.pc t = .loaded mstep) (hlast : s.waiting + 1 = n) :
    Inv r { s with waiting := s.waiting + 1, pc := update s.pc t (.last mstep) } := by
  generalize hs' : { s with waiting := s.waiting + 1, pc := update s.pc t (.last mstep) } = s'
  have hself : s'.pc t = .last mstep := by rw [← hs']; exact update_self ..
  have hsame : SameBut t s s' := by
    subst hs'
    exact ⟨fun u hu => update_of_ne hu _ _, fun _ _ => rfl, fun _ _ => rfl⟩
  have hplace : Place r (.loaded mstep) (s.arrivals t) (s.passed t) := hpc ▸ hi.place t
  have hnone := hi.not_completes (t := t) (by simp [hpc]) (by simp [Completes, hpc])
  have hcount : s'.waiting = (counted r s').card := by
    rw [hsame.counted_insert (by simp only [Counted, hpc, not_false_eq_true])
      (by simp only [Counted, hself]), ← hi.count_of_open hnone, ← hs']
  -- The count is full, so every thread is in it.
  have hall : ∀ u, Counted r s' u := by
    have hfull : counted r s' = Finset.univ := by
      rw [← Finset.card_eq_iff_eq_univ, ← hcount, Fintype.card_fin, ← hs']
      exact hlast
    intro u
    have hmem : u ∈ counted r s' := hfull ▸ Finset.mem_univ u
    exact (Finset.mem_filter.mp hmem).2
  have hothers : ∀ u, u ≠ t → ∃ ticket, s'.pc u = .waits ticket ∧ s'.passed u = r := by
    intro u hu
    have hcounted := hall u
    unfold Counted at hcounted
    split at hcounted
    next mstep' hlast' => exact absurd ⟨mstep', .inl (hsame.pc u hu ▸ hlast')⟩ (hnone u)
    next ticket hwaits => exact ⟨ticket, hwaits, hcounted⟩
    next => exact hcounted.elim
  have hclear : ∀ u mstep', s'.pc u ≠ .cleared mstep' := by
    intro u mstep' hu
    by_cases heq : u = t
    · subst heq
      rw [hself] at hu
      cases hu
    · obtain ⟨ticket, hwaits, -⟩ := hothers u heq
      rw [hwaits] at hu
      cases hu
  refine ⟨by rw [← hs']; exact hi.step_eq, hsame.place hi ?_, fun _ => hcount,
    fun u mstep' hu => absurd hu (hclear u mstep'), fun u hu v hv => ?_,
    fun _ => ⟨t, by rw [← hs']; exact hplace.2.1⟩⟩
  · rw [hself, ← hs']
    exact hplace
  · by_cases hut : u = t
    · subst hut
      exact hothers v hv
    · obtain ⟨ticket, hwaits, -⟩ := hothers u hut
      obtain ⟨mstep', hu | hu⟩ := hu <;> rw [hwaits] at hu <;> cases hu

/-- The last thread resets the counter. -/
theorem Inv.clear (hpc : s.pc t = .last mstep) :
    Inv r { s with waiting := 0, pc := update s.pc t (.cleared mstep) } := by
  generalize hs' : { s with waiting := 0, pc := update s.pc t (.cleared mstep) } = s'
  have hself : s'.pc t = .cleared mstep := by rw [← hs']; exact update_self ..
  have hsame : SameBut t s s' := by
    subst hs'
    exact ⟨fun u hu => update_of_ne hu _ _, fun _ _ => rfl, fun _ _ => rfl⟩
  have hplace : Place r (.last mstep) (s.arrivals t) (s.passed t) := hpc ▸ hi.place t
  have hothers : ∀ u, u ≠ t → ∃ ticket, s'.pc u = .waits ticket ∧ s'.passed u = r := by
    intro u hu
    rw [hsame.pc u hu, hsame.passed u hu]
    exact hi.others t ⟨mstep, .inl hpc⟩ u hu
  refine ⟨by rw [← hs']; exact hi.step_eq, hsame.place hi ?_, fun h => absurd hself (h t mstep),
    fun _ _ _ => by rw [← hs'], fun u hu v hv => ?_, fun _ => ⟨t, by rw [← hs']; exact hplace.2.1⟩⟩
  · rw [hself, ← hs']
    exact hplace
  · by_cases hut : u = t
    · subst hut
      exact hothers v hv
    · obtain ⟨ticket, hwaits, -⟩ := hothers u hut
      obtain ⟨mstep', hu | hu⟩ := hu <;> rw [hwaits] at hu <;> cases hu

/-- The round ends: every thread has arrived, and its ticket is the old step. -/
theorem Inv.advance (hpc : s.pc t = .cleared mstep) :
    Inv (r + 1) (arrived { s with step := s.step + 1 } t mstep) := by
  generalize hs' : arrived { s with step := s.step + 1 } t mstep = s'
  have hself : s'.pc t = .waits mstep := by rw [← hs']; exact update_self ..
  have hsame : SameBut t s s' := by
    subst hs'
    exact ⟨fun u hu => update_of_ne hu _ _, fun u hu => update_of_ne hu _ _, fun _ _ => rfl⟩
  have hpassed_eq : s'.passed = s.passed := by rw [← hs']; rfl
  obtain ⟨hticket, harrivals, hpassed⟩ : Place r (.cleared mstep) (s.arrivals t) (s.passed t) :=
    hpc ▸ hi.place t
  have hwaits : ∀ u, ∃ ticket, s'.pc u = .waits ticket ∧ s'.passed u = r := by
    intro u
    rw [hpassed_eq]
    by_cases heq : u = t
    · subst heq
      exact ⟨mstep, hself, hpassed⟩
    · rw [hsame.pc u heq]
      exact hi.others t ⟨mstep, .inr hpc⟩ u heq
  have harrivals' : s'.arrivals t = r + 1 := by
    rw [← hs', ← harrivals]
    exact update_self ..
  refine .of_open ?_ (fun u => ?_) ?_ (fun u hu => ?_) fun _ => ⟨t, harrivals'⟩
  · rw [← hs']
    rw [hi.step_eq]
    exact (BitVec.ofNat_add r 1).symm
  · obtain ⟨ticket, hu, hr⟩ := hwaits u
    rw [hu]
    by_cases heq : u = t
    · subst heq
      obtain rfl : mstep = ticket := Pc.waits.inj (hself.symm.trans hu)
      exact ⟨by rw [harrivals', hr], by rw [hr, hticket], .inr (by omega)⟩
    · have hplace := hi.place u
      rw [← hsame.pc u heq, hu] at hplace
      obtain ⟨harr, htick, -⟩ := hplace
      rw [hsame.arrivals u heq, hsame.passed u heq]
      exact ⟨harr, htick, .inr (by rw [← hsame.passed u heq, hr])⟩
  · have hempty : counted (r + 1) s' = ∅ := by
      refine Finset.filter_false_of_mem fun u _ hu => ?_
      obtain ⟨ticket, hpc', hr⟩ := hwaits u
      simp only [Counted, hpc', hr] at hu
      omega
    rw [hempty, ← hs']
    exact hi.waiting_zero t mstep hpc
  · obtain ⟨ticket, hpc', -⟩ := hwaits u
    obtain ⟨mstep', hu | hu⟩ := hu <;> rw [hpc'] at hu <;> cases hu

/-- A ticket tests true exactly when its round has ended. -/
theorem Inv.test_ticket (hpc : s.pc t = .waits ticket) :
    testTicket s ticket = true ↔ s.passed t + 1 = r := by
  obtain ⟨-, hticket, hround⟩ : Place r (.waits ticket) (s.arrivals t) (s.passed t) :=
    hpc ▸ hi.place t
  unfold testTicket
  rw [bne_iff_ne, hi.step_eq, hticket]
  constructor
  · intro hne
    rcases hround with heq | hnext
    · exact absurd (by rw [heq]) hne
    · exact hnext
  · intro hnext
    rw [← hnext]
    intro h
    have := congrArg BitVec.toNat h
    simp only [BitVec.toNat_ofNat] at this
    omega

/-- A thread sees the new step and passes. -/
theorem Inv.pass (hpc : s.pc t = .waits ticket) (htest : testTicket s ticket = true) :
    Inv r { s with
      pc := update s.pc t .outside
      passed := update s.passed t (s.passed t + 1) } := by
  generalize hs' : { s with
      pc := update s.pc t .outside
      passed := update s.passed t (s.passed t + 1) } = s'
  have hself : s'.pc t = .outside := by rw [← hs']; exact update_self ..
  have hsame : SameBut t s s' := by
    subst hs'
    exact ⟨fun u hu => update_of_ne hu _ _, fun _ _ => rfl, fun u hu => update_of_ne hu _ _⟩
  obtain ⟨harr, -, -⟩ : Place r (.waits ticket) (s.arrivals t) (s.passed t) := hpc ▸ hi.place t
  have hround := (hi.test_ticket hpc).mp htest
  -- The thread still has the ticket of the round before, so no round is being completed.
  have hnone : ∀ u, ¬ Completes s u := by
    intro u hu
    by_cases heq : t = u
    · subst heq
      obtain ⟨mstep', hu | hu⟩ := hu <;> rw [hpc] at hu <;> cases hu
    · obtain ⟨ticket', -, hr⟩ := hi.others u hu t heq
      omega
  refine .of_open (by rw [← hs']; exact hi.step_eq) (hsame.place hi ?_) ?_
    (hsame.not_completes hnone (by simp [Completes, hself])) (by rw [← hs']; exact hi.late)
  · rw [hself, ← hs']
    show s.arrivals t = r ∧ update s.passed t (s.passed t + 1) t = r
    rw [update_self]
    exact ⟨by omega, hround⟩
  · rw [hsame.counted_eq, ← hi.count_of_open hnone, ← hs']
    simp only [Counted, hself, hpc, false_iff]
    omega

/-- Every operation keeps the invariant, and rounds only go up. -/
theorem Inv.next {e : Event n} (h : next s e = some s') : ∃ r', Inv r' s' := by
  cases e with
  | load t =>
    simp only [Barrier.next] at h
    split at h
    next hpc =>
      cases h
      exact ⟨r, hi.load hpc⟩
    next => cases h
  | count t =>
    simp only [Barrier.next] at h
    split at h
    next mstep hpc =>
      split at h
      next hlast =>
        cases h
        exact ⟨r, hi.count_last hpc hlast⟩
      next hne =>
        cases h
        exact ⟨r, hi.count hpc hne⟩
    next => cases h
  | clear t =>
    simp only [Barrier.next] at h
    split at h
    next mstep hpc =>
      cases h
      exact ⟨r, hi.clear hpc⟩
    next => cases h
  | advance t =>
    simp only [Barrier.next] at h
    split at h
    next mstep hpc =>
      cases h
      exact ⟨r + 1, hi.advance hpc⟩
    next => cases h
  | test t =>
    simp only [Barrier.next] at h
    split at h
    next ticket hpc =>
      split at h
      next htest =>
        cases h
        exact ⟨r, hi.pass hpc htest⟩
      next =>
        cases h
        exact ⟨r, hi⟩
    next => cases h

/-! ## The main result -/

theorem Inv.passed_le (t : Fin n) : s.passed t ≤ r := by
  have hplace := hi.place t
  cases hpc : s.pc t <;> rw [hpc] at hplace <;> unfold Place at hplace <;> omega

theorem Inv.le_arrivals (t : Fin n) : r ≤ s.arrivals t := by
  have hplace := hi.place t
  cases hpc : s.pc t <;> rw [hpc] at hplace <;> unfold Place at hplace <;> omega

end

/-- A run of the threads. -/
abbrev Run (n : Nat) (es : List (Event n)) (s : State n) : Prop :=
  Steps (fun s e s' => Barrier.next s e = some s') (init n) es s

/-- The invariant holds in every state. -/
theorem run_inv {es : List (Event n)} (h : Run n es s) : ∃ r, Inv r s := by
  refine h.invariant (I := fun s => ∃ r, Inv r s) ?_ ⟨0, inv_init⟩
  rintro s e s' ⟨r, hi⟩ hstep
  exact hi.next hstep

/-- For every number of threads and every interleaving, at every point of a run: no thread's wait
for its `k`-th arrival has ended before every thread has made its `k`-th arrival; and once all have,
the next test of every thread that still waits for its `k`-th arrival succeeds. An arrival is made
when `arrive` returns. -/
theorem node_barrier_rounds {es : List (Event n)} (hrun : Run n es s) (k : Nat) :
    (∀ t, k ≤ s.passed t → ∀ u, k ≤ s.arrivals u) ∧
    ((∀ u, k ≤ s.arrivals u) → ∀ t ticket, s.pc t = .waits ticket → s.arrivals t = k →
      testTicket s ticket = true) := by
  obtain ⟨r, hi⟩ := run_inv hrun
  constructor
  · intro t hk u
    calc k ≤ s.passed t := hk
      _ ≤ r := hi.passed_le t
      _ ≤ s.arrivals u := hi.le_arrivals u
  · intro hall t ticket hpc hk
    rw [hi.test_ticket hpc]
    obtain ⟨harr, -, hround⟩ : Place r (.waits ticket) (s.arrivals t) (s.passed t) :=
      hpc ▸ hi.place t
    rcases hround with heq | hnext
    · -- A round is open only while some thread has not arrived for it.
      obtain ⟨u, hu⟩ := hi.late t
      have := hall u
      omega
    · exact hnext

/-- Two threads: the first waits in vain until the second has advanced the step, and is then let
through. -/
theorem barrier_of_two_threads : ∃ s,
    Run 2 [.load 0, .load 1, .count 0, .test 0, .count 1, .clear 1, .advance 1] s ∧
    s.pc 0 = .waits 0 ∧ testTicket s 0 = true := by
  obtain ⟨s, hsteps, hpc, harr0, harr1⟩ : ∃ s,
      Run 2 [.load 0, .load 1, .count 0, .test 0, .count 1, .clear 1, .advance 1] s ∧
      s.pc 0 = .waits 0 ∧ s.arrivals 0 = 1 ∧ s.arrivals 1 = 1 := Steps.exists_of_any (by decide)
  refine ⟨s, hsteps, hpc, (node_barrier_rounds hsteps 1).2 (fun u => ?_) 0 0 hpc harr0⟩
  match u with
  | 0 => exact harr0.ge
  | 1 => exact harr1.ge

end Reconverse.Barrier
