import Reconverse.Lib.Runs

/-!
# Stateless message dispatch

Messages in flight are handled one at a time, in any order. Handling a message may send further
messages and may run handlers that are recorded in a log. When the handlers keep no state, what
a run will have logged once nothing is in flight is fixed by the messages it started with. An
`Account` says which observations each message in flight still owes, and `Account.steps` that
every run keeps the total of what is owed and what is logged.
-/

namespace Reconverse.Lib.Dispatch

open List

variable {α β γ : Type}

/-- The messages in flight and the handler runs recorded so far. -/
structure State (α β : Type) where
  flight : List α
  log : List β

/-- Hand the `i`-th message in flight to its handler, which yields the messages it sends and
the runs it records, or stops the program. -/
def deliver (handle : α → Option (List α × List β)) (s : State α β) (i : Nat) :
    Option (State α β) := do
  let msg ← s.flight[i]?
  let (sent, ran) ← handle msg
  pure ⟨s.flight.eraseIdx i ++ sent, s.log ++ ran⟩

/-- The step relation of `deliver`. -/
def Delivers (handle : α → Option (List α × List β)) (s : State α β) (i : Nat)
    (s' : State α β) : Prop :=
  deliver handle s i = some s'

variable {handle : α → Option (List α × List β)} {s s' : State α β} {i : Nat} {es : List Nat}

/-- What a delivery does: it picks a message in flight and replaces it by what it sends. -/
theorem delivers_iff : Delivers handle s i s' ↔ ∃ msg sent ran,
    s.flight[i]? = some msg ∧ handle msg = some (sent, ran) ∧
      s' = ⟨s.flight.eraseIdx i ++ sent, s.log ++ ran⟩ := by
  simp only [Delivers, deliver, bind, Option.bind_eq_some_iff, Prod.exists, pure, Option.some.injEq]
  constructor
  · rintro ⟨msg, hmsg, sent, ran, hhandle, rfl⟩
    exact ⟨msg, sent, ran, hmsg, hhandle, rfl⟩
  · rintro ⟨msg, sent, ran, hmsg, hhandle, rfl⟩
    exact ⟨msg, hmsg, sent, ran, hhandle, rfl⟩

/-- If every message makes exactly one handler run, the log grows by one per delivery. -/
theorem steps_log_length (hone : ∀ {msg sent ran}, handle msg = some (sent, ran) → ran.length = 1)
    (h : Steps (Delivers handle) s es s') : s'.log.length = s.log.length + es.length := by
  induction h with
  | nil => rfl
  | cons hstep _ ih =>
    obtain ⟨msg, sent, ran, -, hhandle, rfl⟩ := delivers_iff.mp hstep
    simp only [length_append, hone hhandle] at ih
    simp only [length_cons]
    omega

/-- An account of a handler: on the messages satisfying `ok`, which it is closed under, the
handler does not stop the program, and what a message owes is what the messages it sends owe
together with the observations of the handler runs it records. -/
structure Account (handle : α → Option (List α × List β)) (obs : β → γ) where
  ok : α → Prop
  owes : α → List γ
  pays : ∀ msg, ok msg → ∃ sent ran, handle msg = some (sent, ran) ∧ (∀ x ∈ sent, ok x) ∧
    (owes msg).Perm (sent.flatMap owes ++ ran.map obs)

namespace Account

variable {obs : β → γ} (acc : Account handle obs)

/-- Every message in flight is one the account covers. -/
def Covers (s : State α β) : Prop := ∀ x ∈ s.flight, acc.ok x

/-- What is still owed in flight together with what is already logged. -/
def total (s : State α β) : List γ := s.flight.flatMap acc.owes ++ s.log.map obs

variable {acc} (weight : α → Nat)

/-- A covered message can always be handled. -/
theorem Covers.enabled (hs : acc.Covers s) (hi : i < s.flight.length) :
    ∃ s', Delivers handle s i s' := by
  obtain ⟨sent, ran, hhandle, -⟩ := acc.pays _ (hs _ (getElem_mem hi))
  exact ⟨_, delivers_iff.mpr ⟨_, sent, ran, getElem?_eq_getElem hi, hhandle, rfl⟩⟩

/-- A delivery keeps the messages covered and the total unchanged. -/
theorem delivers (hs : acc.Covers s) (h : Delivers handle s i s') :
    acc.Covers s' ∧ (acc.total s').Perm (acc.total s) := by
  obtain ⟨msg, sent, ran, hmsg, hhandle, rfl⟩ := delivers_iff.mp h
  obtain ⟨sent', ran', hhandle', hok, howes⟩ := acc.pays msg (hs msg (mem_of_getElem? hmsg))
  obtain ⟨rfl, rfl⟩ : sent = sent' ∧ ran = ran' := by simpa [hhandle] using hhandle'
  refine ⟨fun x hx => ?_, ?_⟩
  · obtain hx | hx := mem_append.mp hx
    · exact hs x (mem_of_mem_eraseIdx hx)
    · exact hok x hx
  · obtain ⟨hi, rfl⟩ := List.getElem?_eq_some_iff.mp hmsg
    have hflight := ((getElem_cons_eraseIdx_perm hi).flatMap_right acc.owes).symm
    rw [flatMap_cons] at hflight
    -- Both sides are the rest of the flight, what `msg` owed, and the old log.
    calc acc.total ⟨s.flight.eraseIdx i ++ sent, s.log ++ ran⟩
      _ = (s.flight.eraseIdx i).flatMap acc.owes ++ (sent.flatMap acc.owes) ++
            (s.log.map obs ++ ran.map obs) := by simp [total]
      _ |>.Perm <| (sent.flatMap acc.owes ++ ran.map obs) ++
            (s.flight.eraseIdx i).flatMap acc.owes ++ s.log.map obs := ?_
      _ |>.Perm <| acc.total s := ?_
    · classical
      rw [perm_iff_count]
      simp only [count_append]
      omega
    · exact ((howes.symm.append_right _).trans hflight.symm).append_right _

/-- Runs keep the messages covered and the total unchanged. -/
theorem steps (hs : acc.Covers s) (h : Steps (Delivers handle) s es s') :
    acc.Covers s' ∧ (acc.total s').Perm (acc.total s) := by
  refine h.invariant (I := fun u => acc.Covers u ∧ (acc.total u).Perm (acc.total s)) ?_
    ⟨hs, .refl _⟩
  intro u j u' hu hstep
  obtain ⟨hcov, htot⟩ := delivers hu.1 hstep
  exact ⟨hcov, htot.trans hu.2⟩

/-- If handling a message always yields less weight than the message has, the weight of what is
in flight bounds the number of deliveries. -/
theorem steps_length_le
    (hdec : ∀ msg, acc.ok msg → ∀ sent ran, handle msg = some (sent, ran) →
      (sent.map weight).sum < weight msg)
    (hs : acc.Covers s) (h : Steps (Delivers handle) s es s') :
    es.length + (s'.flight.map weight).sum ≤ (s.flight.map weight).sum := by
  induction h with
  | nil => simp
  | cons hstep _ ih =>
    have hnext := ih (delivers hs hstep).1
    obtain ⟨msg, sent, ran, hmsg, hhandle, rfl⟩ := delivers_iff.mp hstep
    have hless := hdec msg (hs msg (mem_of_getElem? hmsg)) sent ran hhandle
    obtain ⟨hi, rfl⟩ := List.getElem?_eq_some_iff.mp hmsg
    have hflight := ((getElem_cons_eraseIdx_perm hi).map weight).sum_nat
    simp only [map_cons, sum_cons] at hflight
    simp only [map_append, sum_append, length_cons] at hnext ⊢
    omega

/-- If handling a message always yields less weight than the message has, every run can be
completed: the messages are handled until none is in flight. -/
theorem exists_complete
    (hdec : ∀ msg, acc.ok msg → ∀ sent ran, handle msg = some (sent, ran) →
      (sent.map weight).sum < weight msg) {n : Nat} (hn : (s.flight.map weight).sum ≤ n)
    (hs : acc.Covers s) : ∃ es s', Steps (Delivers handle) s es s' ∧ s'.flight = [] := by
  induction n using Nat.strongRecOn generalizing s with
  | _ n ih =>
    by_cases hflight : s.flight = []
    · exact ⟨[], s, .nil s, hflight⟩
    · obtain ⟨s', hstep⟩ := hs.enabled (length_pos_iff.mpr hflight)
      have := steps_length_le weight hdec hs (.single hstep)
      simp only [length_singleton] at this
      obtain ⟨es, s'', hrest, hdone⟩ := ih _ (by omega) (Nat.le_refl _) (delivers hs hstep).1
      exact ⟨0 :: es, s'', .cons hstep hrest, hdone⟩

end Account

end Reconverse.Lib.Dispatch
