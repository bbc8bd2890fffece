import Mathlib

/-!
# Runs of labelled transition relations

A system is a relation `R s e s'`: in state `s` the event `e` leads to `s'`. `Steps R` is a
finite run together with its events. The two rules used everywhere are `Steps.invariant`
(what one step preserves, every run preserves) and `Steps.simulate` (a relation that every
concrete step carries along some abstract run is carried along every concrete run).
-/

namespace Reconverse.Lib

open List

variable {σ τ ε δ : Type*} {M : σ → τ → Prop}

/-- `Steps R s es s'` says the events `es`, taken in order from `s`, lead to `s'`. -/
inductive Steps (R : σ → ε → σ → Prop) : σ → List ε → σ → Prop where
  | nil (s : σ) : Steps R s [] s
  | cons {s s' s'' : σ} {e : ε} {es : List ε} :
      R s e s' → Steps R s' es s'' → Steps R s (e :: es) s''

namespace Steps

variable {R Q : σ → ε → σ → Prop} {s s' s'' : σ} {e : ε} {es fs : List ε} {f : σ → ε → Option σ}
  {P : σ → Prop} {I : σ → Prop}

theorem single (h : R s e s') : Steps R s [e] s' :=
  .cons h (.nil s')

/-- Two runs in a row are a run. -/
theorem append (h : Steps R s es s') (h' : Steps R s' fs s'') : Steps R s (es ++ fs) s'' := by
  induction h with
  | nil => exact h'
  | cons hstep _ ih => exact .cons hstep (ih h')

/-- A run of a smaller relation is a run of a larger one. -/
theorem mono (hRQ : ∀ s e s', R s e s' → Q s e s') (h : Steps R s es s') : Steps Q s es s' := by
  induction h with
  | nil => exact .nil _
  | cons hstep _ ih => exact .cons (hRQ _ _ _ hstep) ih

/-- A run of an executable step function. -/
theorem of_foldlM (h : es.foldlM f s = some s') :
    Steps (fun s e s' => f s e = some s') s es s' := by
  induction es generalizing s with
  | nil =>
    obtain rfl := Option.some.inj h
    exact .nil s
  | cons e es ih =>
    obtain ⟨s₁, hstep, hrest⟩ := Option.bind_eq_some_iff.mp h
    exact .cons hstep (ih hrest)

/-- A run whose end is checked by evaluation. -/
theorem exists_of_any [DecidablePred P] (h : (es.foldlM f s).any (fun s' => P s') = true) :
    ∃ s', Steps (fun s e s' => f s e = some s') s es s' ∧ P s' := by
  obtain ⟨s', hs', hend⟩ := (Option.any_eq_true ..).mp h
  exact ⟨s', of_foldlM hs', of_decide_eq_true hend⟩

/-- A run whose end, and a condition on each of its steps, are checked by evaluation. -/
theorem exists_of_checked {C : σ → ε → Prop} [∀ s e, Decidable (C s e)] [DecidablePred P]
    (h : (es.foldlM (fun s e => if C s e then f s e else none) s).any (fun s' => P s') = true) :
    ∃ s', Steps (fun s e s' => C s e ∧ f s e = some s') s es s' ∧ P s' := by
  obtain ⟨s', hrun, hend⟩ := exists_of_any h
  refine ⟨s', hrun.mono fun s e s' hstep => ?_, hend⟩
  split at hstep
  · exact ⟨by assumption, hstep⟩
  · cases hstep

/-- A run is split where `P` holds for the last time, if it does somewhere. -/
theorem split_last (h : Steps R s es s') :
    (∃ es₁ s₁ es₂, es = es₁ ++ es₂ ∧ Steps R s es₁ s₁ ∧ P s₁ ∧
      Steps (fun s e s' => R s e s' ∧ ¬ P s') s₁ es₂ s') ∨
    Steps (fun s e s' => R s e s' ∧ ¬ P s') s es s' := by
  induction h with
  | nil => exact .inr (.nil _)
  | @cons s s₁ s' e es hstep _ ih =>
    obtain ⟨es₁, s₂, es₂, rfl, hbefore, hlast, hafter⟩ | haway := ih
    · exact .inl ⟨e :: es₁, s₂, es₂, rfl, .cons hstep hbefore, hlast, hafter⟩
    · by_cases hs₁ : P s₁
      · exact .inl ⟨[e], s₁, es, rfl, .single hstep, hs₁, haway⟩
      · exact .inr (.cons ⟨hstep, hs₁⟩ haway)

/-- A property that every step preserves holds at the end of every run. -/
theorem invariant (hstep : ∀ s e s', I s → R s e s' → I s')
    (h : Steps R s es s') (hs : I s) : I s' := by
  induction h with
  | nil => exact hs
  | cons h _ ih => exact ih (hstep _ _ _ hs h)

/-- A property that every step with an event of the run preserves holds at its end. -/
theorem invariant_of_mem (h : Steps R s es s')
    (hstep : ∀ s e s', e ∈ es → I s → R s e s' → I s') (hs : I s) : I s' := by
  induction h with
  | nil => exact hs
  | cons h _ ih =>
    refine ih (fun s e s' hmem => hstep s e s' (mem_cons_of_mem _ hmem)) ?_
    exact hstep _ _ _ mem_cons_self hs h

/-- If every concrete step is matched by an abstract run that restores the relation `M`, every
concrete run is matched by an abstract run. -/
theorem simulate {A : τ → δ → τ → Prop}
    (hstep : ∀ s e s' t, M s t → R s e s' → ∃ fs t', Steps A t fs t' ∧ M s' t')
    (h : Steps R s es s') {t : τ} (hst : M s t) : ∃ fs t', Steps A t fs t' ∧ M s' t' := by
  induction h generalizing t with
  | nil => exact ⟨[], t, .nil t, hst⟩
  | cons h _ ih =>
    obtain ⟨fs, t', hfs, hrel⟩ := hstep _ _ _ _ hst h
    obtain ⟨gs, t'', hgs, hrel'⟩ := ih hrel
    exact ⟨fs ++ gs, t'', hfs.append hgs, hrel'⟩

end Steps

/-! ## Executable systems with outputs -/

section Trace

variable {ω : Type*}

/-- The outputs of a system whose steps are computed, and its last state. -/
def trace (f : σ → ε → ω × σ) (s : σ) : List ε → List ω × σ
  | [] => ([], s)
  | e :: es => ((f s e).1 :: (trace f (f s e).2 es).1, (trace f (f s e).2 es).2)

/-- If every step gives the output of the abstract step and restores the relation `M`, as long as
the abstract state satisfies `P`, the whole traces agree. -/
theorem trace_simulates {f : σ → ε → ω × σ} {g : τ → ε → ω × τ} {P : τ → Prop}
    (hstep : ∀ s t e, M s t → P t → (f s e).1 = (g t e).1 ∧ M (f s e).2 (g t e).2)
    {es : List ε} {s : σ} {t : τ} (hM : M s t) (hP : ∀ pre, pre <+: es → P (trace g t pre).2) :
    (trace f s es).1 = (trace g t es).1 ∧ M (trace f s es).2 (trace g t es).2 := by
  induction es generalizing s t with
  | nil => exact ⟨rfl, hM⟩
  | cons e es ih =>
    obtain ⟨hout, hnext⟩ := hstep s t e hM (hP [] List.nil_prefix)
    obtain ⟨houts, hlast⟩ := ih hnext fun pre hpre =>
      hP (e :: pre) (cons_prefix_cons.mpr ⟨rfl, hpre⟩)
    refine ⟨?_, hlast⟩
    show (f s e).1 :: _ = (g t e).1 :: _
    rw [hout, houts]

end Trace

end Reconverse.Lib
