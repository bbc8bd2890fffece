import Reconverse.Collectives.ReductionRefinement

/-!
# Runs of reductions

Every step of the reduction tables is a call, the handling of a message, the return of a
handler, or the fetch of an id. `Sim.step` takes each of them to the abstract gathering, and
`Sim.steps` every run. A call has to be `Admissible`: it is the first call of this process for
the reduction, and every other reduction that has the same id and was started has finished.
-/

namespace Reconverse.Reduction

open Lib List

/-- The two states differ in counters and fetched ids only. -/
structure SameTables (s t : State) : Prop where
  info : s.info = t.info
  flight : s.flight = t.flight
  running : s.running = t.running
  log : s.log = t.log
  called : s.called = t.called
  returned : s.returned = t.returned

variable {V : View} {s s' : State} {g : Abs} {k : Key} {me : Nat} {m : Machine} {id : Nat}
  {red : CmiReduction} {level : Level} {t : State}

/-- What is looked up or created has the id, and the label of its own contribution does. -/
theorem get_create_id
    (h : getCreateReduction m level s me id = .ok red) : red.reductionID = id := by
  unfold getCreateReduction at h
  split at h
  · split at h
    · cases h
    next hid =>
      cases h
      exact not_not.mp hid
  · cases h
    rfl

/-- The lookup can only stop in `CmiCheckReductionSlot`: the slot holds another id. -/
theorem get_create_error {stop : Stop}
    (h : getCreateReduction m level s me id = .error stop) : stop = .tooManyReductions ∧
      ∃ red, s.info me (cmiGetReductionIndex id) = some red ∧ red.reductionID ≠ id := by
  unfold getCreateReduction at h
  split at h
  next red hred =>
    split at h
    next hid => exact ⟨(Except.error.inj h).symm, red, hred, hid⟩
    · cases h
  · cases h

/-- What `CmiSendReduce` leaves alone, and what it adds under the record's id. -/
structure SendFrame (s : State) (me : Nat) (red : CmiReduction) (s' : State) : Prop where
  info : ∀ i slot, ¬ (i = me ∧ slot = cmiGetReductionIndex red.reductionID) →
    s'.info i slot = s.info i slot
  stored : ∀ red', s'.info me (cmiGetReductionIndex red.reductionID) = some red' → red' = red
  flight : ∃ sent, s'.flight = s.flight ++ sent ∧
    ∀ x ∈ sent, x.redID = red.reductionID ∧ red.localbuffer = some x.value.own
  started : ∃ started, s'.running = started ++ s.running ∧ s'.log = s.log ++ started ∧
    ∀ r ∈ started, r.redID = red.reductionID ∧ red.localbuffer = some r.value.own
  counter : s'.counter = s.counter
  calls : s'.calls = s.calls
  fetched : s'.fetched = s.fetched
  called : s'.called = s.called
  returned : s'.returned = s.returned

/-- What `sendReduce` does not change. -/
theorem send_frame (s : State) (me : Nat) (red : CmiReduction) :
    SendFrame s me red (sendReduce s me red) := by
  have hinfo : ∀ (r : Option CmiReduction) (i slot : Nat),
      ¬ (i = me ∧ slot = cmiGetReductionIndex red.reductionID) →
      (setInfo s me red.reductionID r).info i slot = s.info i slot := by
    intro r i slot hpos
    rw [info_set_info, if_neg hpos]
  have hat : ∀ r : Option CmiReduction, (setInfo s me red.reductionID r).info me
      (cmiGetReductionIndex red.reductionID) = r := by
    intro r
    rw [info_set_info, if_pos ⟨rfl, rfl⟩]
  have hwait : SendFrame s me red (setInfo s me red.reductionID (some red)) :=
    ⟨hinfo _, fun red' h => Option.mem_unique h (hat _), ⟨[], by simp [setInfo]⟩,
      ⟨[], by simp [setInfo]⟩, rfl, rfl, rfl, rfl, rfl⟩
  unfold sendReduce
  split
  · exact hwait
  next own hl =>
    split
    · exact hwait
    · split
      · exact ⟨hinfo none, fun red' h => absurd (h.symm.trans (hat none)) (by simp),
          ⟨_, rfl, by simp [hl]⟩, ⟨[], by simp [setInfo]⟩, rfl, rfl, rfl, rfl, rfl⟩
      · exact ⟨hinfo (some red), fun red' h => Option.mem_unique h (hat _),
          ⟨[], by simp [setInfo]⟩, ⟨[_], rfl, rfl, by simp [hl]⟩, rfl, rfl, rfl, rfl, rfl⟩

namespace View

/-! ## Labels -/

/-- Labels are kept where the tables are. -/
theorem Labelled.of_same (h : V.Labelled t) (hsame : SameTables s t)
    (hcounter : ∀ i, s.counter i = globalID V.level (s.calls i)) : V.Labelled s where
  counter := hcounter
  slot := hsame.info ▸ h.slot
  info := hsame.info ▸ h.info
  flight := hsame.flight ▸ h.flight
  running := hsame.running ▸ h.running
  log := hsame.log ▸ h.log

variable {red : CmiReduction} {n : Nat} {msg : RedMsg}

/-- The record found or created carries the label of its id. -/
theorem Labelled.get_create (h : V.Labelled s)
    (hred : getCreateReduction V.m V.level s me id = .ok red) {own : Contribution}
    (hown : red.localbuffer = some own) : V.id own.2 = red.reductionID := by
  unfold getCreateReduction at hred
  split at hred
  next red' hinfo =>
    split at hred
    · cases hred
    · cases hred
      exact h.info me _ red own hinfo hown
  · cases hred
    cases hown

/-- A record with a label is sent under its label. -/
theorem Labelled.send (h : V.Labelled s)
    (hred : ∀ own, red.localbuffer = some own → V.id own.2 = red.reductionID) :
    V.Labelled (sendReduce s me red) := by
  have hf := send_frame s me red
  obtain ⟨sent, hflight, hsent⟩ := hf.flight
  obtain ⟨started, hrunning, hlog, hstarted⟩ := hf.started
  have hnew : ∀ r ∈ started, V.id r.value.own.2 = r.redID := by
    intro r hr
    obtain ⟨hid, hown⟩ := hstarted r hr
    rw [hid]
    exact hred _ hown
  refine ⟨fun i => ?_, fun i slot red' hi => ?_, fun i slot red' own hi hown => ?_,
    fun x hx => ?_, fun r hr => ?_, fun r hr => ?_⟩
  · rw [hf.counter, hf.calls]
    exact h.counter i
  · by_cases hpos : i = me ∧ slot = cmiGetReductionIndex red.reductionID
    · obtain ⟨rfl, rfl⟩ := hpos
      rw [hf.stored red' hi]
    · exact h.slot i slot red' (hf.info i slot hpos ▸ hi)
  · by_cases hpos : i = me ∧ slot = cmiGetReductionIndex red.reductionID
    · obtain ⟨rfl, rfl⟩ := hpos
      obtain rfl := hf.stored red' hi
      exact hred own hown
    · exact h.info i slot red' own (hf.info i slot hpos ▸ hi) hown
  · rw [hflight] at hx
    refine (mem_append.mp hx).elim (h.flight x) fun hx => ?_
    rw [(hsent x hx).1]
    exact hred _ (hsent x hx).2
  · rw [hrunning] at hr
    exact (mem_append.mp hr).elim (hnew r) (h.running r)
  · rw [hlog] at hr
    exact (mem_append.mp hr).elim (h.log r) (hnew r)

/-- An untracked send is not seen. The states before it may differ in counters and in what is
not tracked. -/
theorem Rel.untracked_send (hrel : V.Rel All s g) (hlab : V.Labelled s) {base : State}
    (hid : V.tracked red.reductionID = false)
    (hlab' : V.Labelled (sendReduce base me red)) (hinfo : base.info = s.info)
    (hflight : (base.flight.filter fun x => V.tracked x.redID).Perm
      (s.flight.filter fun x => V.tracked x.redID))
    (hlog : base.log = s.log) (hrunning : base.running = s.running)
    (hcalled : ∀ c, V.tracked (V.id c.2) = true → (c ∈ base.called ↔ c ∈ s.called))
    (hreturned : base.returned = s.returned) : V.Rel All (sendReduce base me red) g := by
  have hf := send_frame base me red
  obtain ⟨sent, hsent, hsentid⟩ := hf.flight
  obtain ⟨started, hrun, hlg, hstarted⟩ := hf.started
  have hnone : (sent.filter fun x => V.tracked x.redID) = [] := by
    refine filter_eq_nil_iff.mpr fun x hx => ?_
    rw [(hsentid x hx).1, hid]
    exact Bool.false_ne_true
  have hnone' : (started.filter fun r => V.tracked r.redID) = [] := by
    refine filter_eq_nil_iff.mpr fun r hr => ?_
    rw [(hstarted r hr).1, hid]
    exact Bool.false_ne_true
  refine hrel.untracked me hlab hlab' hid ?_ ?_ ?_ ?_ ?_ ?_
  · intro i slot hpos
    rw [hf.info i slot hpos, hinfo]
  · rw [hsent, filter_append, hnone, append_nil]
    exact hflight
  · rw [hlg, filter_append, hnone', append_nil, hlog]
  · rw [hrun, filter_append, hnone', nil_append, hrunning]
  · rw [hf.called]
    exact hcalled
  · intro v _
    rw [hf.returned, hreturned]

end View

/-! ## The steps -/

/-- The shape a new record has. -/
def SpanShaped (m : Machine) (level : Level) (me : Nat) (red : CmiReduction) : Prop :=
  red.numChildren = spanNumChildren m level me ∧ red.parent = spanParent m level me

variable (V) in
/-- A call of process `me` for reduction `k`: the record is found or created, given the shape of
the reduction's tree, and the local contribution goes in. -/
structure IsCall (s s' : State) (k : Key) (me : Nat) : Prop where
  mem : me ∈ (V.tree k).members
  level : V.level = .pe ∨ ∃ n, k = .global n
  act : ∃ base red red', SameTables base s ∧
    (∀ i, base.counter i = globalID V.level (base.calls i)) ∧
    getCreateReduction V.m V.level base me (V.id k) = .ok red ∧
    red'.reductionID = red.reductionID ∧
    (SpanShaped V.m V.level me red → red' =
      { red with
        numChildren := ((V.tree k).children me).length
        parent := (V.tree k).parent me }) ∧
    s' = internalReduce base me (me, k) red'

variable (V) in
/-- The handling of a message. -/
def IsDelivery (s s' : State) (n : Nat) : Prop :=
  ∃ msg red, s.flight[n]? = some msg ∧
    getCreateReduction V.m V.level { s with flight := s.flight.eraseIdx n } msg.dest msg.redID =
      .ok red ∧
    s' = sendReduce { s with flight := s.flight.eraseIdx n } msg.dest
      { red with remotebuffer := red.remotebuffer ++ [msg.value] }

/-- The return of a handler. -/
def IsReturn (s s' : State) (n : Nat) : Prop :=
  ∃ r, s.running[n]? = some r ∧
    s' = { setInfo s r.proc r.redID none with
      running := s.running.eraseIdx n
      returned := r.value :: s.returned }

/-- The call an event makes. -/
def Event.call (s : State) : Event → Option (Key × Nat)
  | .reduce me => some (.global (s.calls me), me)
  | .listReduce me j => some (.list j, me)
  | .nodeReduce me k => some (.global k, me)
  | .fetch _ | .deliver _ | .ret _ => none

variable (V) in
/-- What an event amounts to. -/
def Amounts (s s' : State) : Event → Prop
  | .reduce me => IsCall V s s' (.global (s.calls me)) me
  | .listReduce me j => IsCall V s s' (.list j) me
  | .nodeReduce me k => IsCall V s s' (.global k) me
  | .fetch _ => SameTables s' s ∧ ∀ i, s'.counter i = globalID V.level (s'.calls i)
  | .deliver n => IsDelivery V s s' n
  | .ret n => IsReturn s s' n

/-- The counter is that of the number of calls, also after a new number is fetched. -/
theorem counter_fetch (level : Level) (h : ∀ i, s.counter i = globalID level (s.calls i))
    (me i : Nat) : (fetchID level s me).counter i =
    globalID level ((fetchID level s me).calls i) := by
  by_cases hi : i = me
  · subst hi
    simp [fetchID, h, getNextID, globalID, add_mul, Nat.mod_add_mod]
  · simp [fetchID, hi, h]

/-- The record of a call of `CmiReduce` or `CmiNodeReduce` keeps its shape. -/
theorem span_shaped_global (k : Nat) (hme : me < numProcs V.m V.level)
    (h : SpanShaped V.m V.level me red) : red =
      { red with
        numChildren := ((V.tree (.global k)).children me).length
        parent := (V.tree (.global k)).parent me } := by
  rw [show V.tree (.global k) = spanningTree V.m V.level from rfl, ← span_num_children_eq hme,
    ← span_parent_eq, ← h.1, ← h.2]

/-- What a step adds to the calls and to the fetched numbers. -/
theorem step_amounts {e : Event} (hcounter : ∀ i, s.counter i = globalID V.level (s.calls i))
    (hfetched : ∀ me k, (me, k) ∈ s.fetched → me < V.m.numNodes)
    (h : step V.level V.lists s e = .ok s') : Amounts V s s' e := by
  cases e with
  | reduce me =>
    simp only [step] at h
    split at h
    next hen =>
      obtain ⟨hlevel, hme⟩ := hen
      have hprocs : me < numProcs V.m V.level := hlevel ▸ hme
      simp only [cmiReduce, cmiGetCreateReduction, getNextID, bind, Except.bind, pure,
        Except.pure] at h
      split at h
      · cases h
      next red hred =>
        cases h
        refine ⟨mem_spanning_tree.mpr hprocs, .inr ⟨_, rfl⟩, fetchID .pe s me, red, red,
          ⟨rfl, rfl, rfl, rfl, rfl, rfl⟩, ?_, ?_, rfl, span_shaped_global _ hprocs, rfl⟩
        · exact hlevel ▸ counter_fetch _ hcounter me
        · rw [hlevel, View.id, keyID, ← hcounter me]
          exact hred
    · cases h
  | listReduce me j =>
    simp only [step] at h
    split at h
    next hen =>
      simp only [cmiListReduce, cmiGetCreateReduction, bind, Except.bind, pure, Except.pure] at h
      split at h
      · cases h
      next red hred =>
        split at h
        · cases h
        next hpos =>
          cases h
          have hmem : me ∈ (V.lists j).pes := by
            by_contra hmem
            exact hpos (idxOf_eq_length hmem)
          refine ⟨hmem, .inl hen.1, s, red, { red with
              numChildren := listNumChildren (V.lists j).pes.length (listPos (V.lists j).pes me)
              parent := listParent (V.lists j).pes (listPos (V.lists j).pes me) },
            ⟨rfl, rfl, rfl, rfl, rfl, rfl⟩, hcounter, ?_, rfl, fun _ => ?_, rfl⟩
          · rw [hen.1]
            exact hred
          · rw [ListRed.list_num_children_eq_length hmem]
            rfl
    · cases h
  | fetch me =>
    simp only [step] at h
    split at h
    next hen =>
      cases h
      exact ⟨⟨rfl, rfl, rfl, rfl, rfl, rfl⟩, counter_fetch _ hcounter me⟩
    · cases h
  | nodeReduce me k =>
    simp only [step] at h
    split at h
    next hen =>
      split at h
      · cases h
      · have hprocs : me < numProcs V.m V.level := hen.1 ▸ hfetched me k hen.2
        simp only [cmiNodeReduce, cmiGetCreateNodeReduction, bind, Except.bind, pure,
          Except.pure] at h
        split at h
        · cases h
        next red hred =>
          cases h
          refine ⟨mem_spanning_tree.mpr hprocs, .inr ⟨_, rfl⟩,
            { s with fetched := s.fetched.erase (me, k) }, red, red, ⟨rfl, rfl, rfl, rfl, rfl, rfl⟩,
            hcounter, ?_, rfl, span_shaped_global _ hprocs, rfl⟩
          rw [View.id, hen.1]
          exact hred
    · cases h
  | deliver n =>
    simp only [step] at h
    split at h
    · cases h
    next msg hmsg =>
      split at h
      · cases h
      · have hhandle : reduceHandler V.m V.level { s with flight := s.flight.eraseIdx n }
            msg.dest msg = .ok s' := by
          split at h <;> simpa [cmiReduceHandler, cmiNodeReduceHandler, *] using h
        simp only [reduceHandler, bind, Except.bind, pure, Except.pure] at hhandle
        split at hhandle
        · cases hhandle
        next red hred =>
          split at hhandle
          · cases hhandle
          · split at hhandle
            · cases hhandle
            · cases hhandle
              exact ⟨msg, red, hmsg, hred, rfl⟩
  | ret n =>
    simp only [step, handlerReturn] at h
    split at h
    · cases h
    next r hr =>
      split at h
      · cases h
      · cases h
        exact ⟨r, hr, rfl⟩

/-- Handling a message runs the handler of the level unless the slot lock is held. -/
theorem step_deliver_eq (level : Level) (lists : Nat → ListRed m) (hn : s.flight[n]? = some msg) :
    step level lists s (.deliver n) =
      if Locked level s msg.dest msg.redID then .error .locked
      else reduceHandler m level { s with flight := s.flight.eraseIdx n } msg.dest msg := by
  simp only [step, hn]
  cases level <;> rfl

/-- How handling a message can end. -/
theorem deliver_result (level : Level) (lists : Nat → ListRed m) (hn : s.flight[n]? = some msg) :
    (∃ s', step level lists s (.deliver n) = .ok s') ∨
    (step level lists s (.deliver n) = .error .locked ∧ level = .node ∧ s.running ≠ []) ∨
    (step level lists s (.deliver n) = .error .tooManyReductions ∧
      ∃ red, s.info msg.dest (cmiGetReductionIndex msg.redID) = some red ∧
        red.reductionID ≠ msg.redID) ∨
    step level lists s (.deliver n) = .error .overrun ∨
    step level lists s (.deliver n) = .error .bufferOverflow := by
  rw [step_deliver_eq level lists hn]
  split
  next hlocked =>
    obtain ⟨hnode, r, hr, -⟩ := hlocked
    exact .inr (.inl ⟨rfl, hnode, ne_nil_of_mem hr⟩)
  · simp only [reduceHandler, bind, Except.bind, pure, Except.pure]
    split
    next hget =>
      obtain ⟨rfl, hred⟩ := get_create_error hget
      exact .inr (.inr (.inl ⟨rfl, hred⟩))
    · split
      · exact .inr (.inr (.inr (.inl rfl)))
      · split
        · exact .inr (.inr (.inr (.inr rfl)))
        · exact .inl ⟨_, rfl⟩

/-! ## Calls and contributions -/

variable (V) in
/-- The contributions made are those of the calls made, except for the node reduction calls that
have only fetched their id. -/
structure Counted (s : State) : Prop where
  fetched_lt : ∀ me k, (me, k) ∈ s.fetched → me < V.m.numNodes ∧ k < s.calls me
  fetched_nodup : s.fetched.Nodup
  called_iff : ∀ me k, (me, .global k) ∈ s.called ↔ k < s.calls me ∧ (me, k) ∉ s.fetched
  calls_zero : ∀ me, numProcs V.m V.level ≤ me → s.calls me = 0

theorem counted_init : Counted V cmiReductionsInit := by
  constructor <;> simp [cmiReductionsInit]

/-- Taking an id counts a call. -/
theorem calls_fetch (level : Level) (s : State) (me i : Nat) :
    (fetchID level s me).calls i = if i = me then s.calls i + 1 else s.calls i := by
  by_cases hi : i = me
  · subst hi
    simp [fetchID]
  · simp [fetchID, hi]

/-- What `internalReduce` does not change beside the record. -/
theorem internal_reduce_frame (base : State) (me : Nat) (own : Contribution) (red : CmiReduction) :
    (internalReduce base me own red).calls = base.calls ∧
      (internalReduce base me own red).fetched = base.fetched ∧
      (internalReduce base me own red).called = own :: base.called := by
  have hf := send_frame { base with called := own :: base.called } me
    { red with localbuffer := some own }
  exact ⟨hf.calls, hf.fetched, hf.called⟩

namespace Counted

/-- A step that makes no call leaves the counts alone. -/
theorem of_same (h : Counted V s) (hcalls : s'.calls = s.calls)
    (hfetched : s'.fetched = s.fetched) (hcalled : s'.called = s.called) : Counted V s' :=
  ⟨hcalls ▸ hfetched ▸ h.fetched_lt, hfetched ▸ h.fetched_nodup,
    hcalls ▸ hfetched ▸ hcalled ▸ h.called_iff, hcalls ▸ h.calls_zero⟩

/-- Only processes that exist take ids. -/
theorem calls_zero_fetch (h : Counted V s) (hme : me < numProcs V.m V.level) (i : Nat)
    (hi : numProcs V.m V.level ≤ i) : (fetchID level s me).calls i = 0 := by
  have hne : i ≠ me := by
    rintro rfl
    exact absurd hme (not_lt.mpr hi)
  rw [calls_fetch, if_neg hne]
  exact h.calls_zero i hi

/-- `CmiReduce` takes an id and contributes. -/
theorem reduce (h : Counted V s) (hme : me < numProcs V.m V.level)
    (hcalls : s'.calls = (fetchID level s me).calls) (hfetched : s'.fetched = s.fetched)
    (hcalled : s'.called = (me, .global (s.calls me)) :: s.called) : Counted V s' := by
  refine ⟨fun i k hk => ?_, hfetched ▸ h.fetched_nodup, fun i k => ?_,
    hcalls ▸ h.calls_zero_fetch hme⟩
  · rw [hfetched] at hk
    have := h.fetched_lt i k hk
    rw [hcalls, calls_fetch]
    split <;> omega
  · rw [hcalled, hcalls, hfetched, calls_fetch, mem_cons, h.called_iff]
    have hlt : (i, k) ∈ s.fetched → k < s.calls i := fun hk => (h.fetched_lt i k hk).2
    simp only [Prod.mk.injEq, Key.global.injEq]
    split
    next hi =>
      subst hi
      constructor
      · rintro (⟨-, rfl⟩ | ⟨hk, hnot⟩)
        · exact ⟨by omega, fun hk => by have := hlt hk; omega⟩
        · exact ⟨by omega, hnot⟩
      · rintro ⟨hk, hnot⟩
        by_cases heq : k = s.calls i
        · exact .inl ⟨rfl, heq⟩
        · exact .inr ⟨by omega, hnot⟩
    next hi => simp [hi]

/-- A process of the node level takes an id for a later contribution. -/
theorem fetch (h : Counted V s) (hme : me < numProcs V.m V.level) (hnode : me < V.m.numNodes)
    (hcalls : s'.calls = (fetchID V.level s me).calls)
    (hfetched : s'.fetched = (me, s.calls me) :: s.fetched) (hcalled : s'.called = s.called) :
    Counted V s' := by
  have hfresh : (me, s.calls me) ∉ s.fetched := fun hk => lt_irrefl _ (h.fetched_lt _ _ hk).2
  refine ⟨fun i k hk => ?_, ?_, fun i k => ?_, hcalls ▸ h.calls_zero_fetch hme⟩
  · rw [hcalls, calls_fetch]
    rw [hfetched] at hk
    obtain heq | hk := mem_cons.mp hk
    · cases heq
      exact ⟨hnode, by simp⟩
    · have := h.fetched_lt i k hk
      split <;> omega
  · rw [hfetched]
    exact nodup_cons.mpr ⟨hfresh, h.fetched_nodup⟩
  · rw [hcalled, hcalls, hfetched, calls_fetch, h.called_iff]
    simp only [mem_cons, Prod.mk.injEq, not_or]
    split
    next hi =>
      subst hi
      constructor
      · rintro ⟨hk, hnot⟩
        exact ⟨by omega, by omega, hnot⟩
      · rintro ⟨hk, hne, hnot⟩
        exact ⟨by omega, hnot⟩
    next hi => simp [hi]

/-- `CmiNodeReduce` contributes to a reduction whose id was taken. -/
theorem node_reduce {k : Nat} (h : Counted V s) (hk : (me, k) ∈ s.fetched)
    (hcalls : s'.calls = s.calls) (hfetched : s'.fetched = s.fetched.erase (me, k))
    (hcalled : s'.called = (me, .global k) :: s.called) : Counted V s' := by
  have hmem (i k' : Nat) : (i, k') ∈ s.fetched.erase (me, k) ↔
      (i, k') ≠ (me, k) ∧ (i, k') ∈ s.fetched := h.fetched_nodup.mem_erase_iff
  refine ⟨fun i k' hk' => ?_, ?_, fun i k' => ?_, hcalls ▸ h.calls_zero⟩
  · rw [hfetched] at hk'
    rw [hcalls]
    exact h.fetched_lt i k' ((hmem i k').mp hk').2
  · rw [hfetched]
    exact h.fetched_nodup.erase _
  · rw [hcalled, hcalls, hfetched, mem_cons, hmem, h.called_iff]
    have hlt := (h.fetched_lt me k hk).2
    by_cases heq : (i, k') = (me, k)
    · cases heq
      simp [hlt]
    · have hne : ¬ ((i, Key.global k') = (me, Key.global k)) := by
        simpa using heq
      simp only [hne, false_or, heq, ne_eq, not_false_eq_true, true_and]

/-- `CmiListReduce` takes no id. -/
theorem list_reduce {j : Nat} (h : Counted V s) (hcalls : s'.calls = s.calls)
    (hfetched : s'.fetched = s.fetched) (hcalled : s'.called = (me, .list j) :: s.called) :
    Counted V s' := by
  refine ⟨hcalls ▸ hfetched ▸ h.fetched_lt, hfetched ▸ h.fetched_nodup, fun i k => ?_,
    hcalls ▸ h.calls_zero⟩
  rw [hcalled, hcalls, hfetched, ← h.called_iff]
  simp

/-- Every event keeps the counts. -/
theorem step {e : Event} (hc : Counted V s)
    (hcounter : ∀ i, s.counter i = globalID V.level (s.calls i))
    (h : step V.level V.lists s e = .ok s') : Counted V s' := by
  have hamounts := step_amounts hcounter (fun me k hk => (hc.fetched_lt me k hk).1) h
  cases e with
  | reduce me =>
    simp only [Reduction.step] at h
    split at h
    next hen =>
      simp only [cmiReduce, cmiGetCreateReduction, bind, Except.bind, pure, Except.pure] at h
      split at h
      · cases h
      next red _ =>
        cases h
        obtain ⟨hcalls, hfetched, hcalled⟩ := internal_reduce_frame (fetchID .pe s me) me
          (me, .global (s.calls me)) red
        exact hc.reduce (hen.1 ▸ hen.2) hcalls hfetched hcalled
    · cases h
  | listReduce me j =>
    simp only [Reduction.step] at h
    split at h
    next hen =>
      simp only [cmiListReduce, cmiGetCreateReduction, bind, Except.bind, pure, Except.pure] at h
      split at h
      · cases h
      · split at h
        · cases h
        · cases h
          obtain ⟨hcalls, hfetched, hcalled⟩ := internal_reduce_frame s me (me, .list j) _
          exact hc.list_reduce hcalls hfetched hcalled
    · cases h
  | fetch me =>
    simp only [Reduction.step] at h
    split at h
    next hen =>
      cases h
      exact hc.fetch (hen.1 ▸ hen.2) hen.2 rfl rfl rfl
    · cases h
  | nodeReduce me k =>
    simp only [Reduction.step] at h
    split at h
    next hen =>
      split at h
      · cases h
      · simp only [cmiNodeReduce, cmiGetCreateNodeReduction, bind, Except.bind, pure,
          Except.pure] at h
        split at h
        · cases h
        next red _ =>
          cases h
          obtain ⟨hcalls, hfetched, hcalled⟩ := internal_reduce_frame
            { s with fetched := s.fetched.erase (me, k) } me (me, .global k) red
          exact hc.node_reduce hen.2 hcalls hfetched hcalled
    · cases h
  | deliver n =>
    obtain ⟨msg, red, -, -, rfl⟩ := hamounts
    have hf := send_frame { s with flight := s.flight.eraseIdx n } msg.dest
      { red with remotebuffer := red.remotebuffer ++ [msg.value] }
    exact hc.of_same hf.calls hf.fetched hf.called
  | ret n =>
    obtain ⟨r, -, rfl⟩ := hamounts
    exact hc.of_same rfl rfl rfl

end Counted

/-! ## The simulation -/

variable (V) in
/-- The concrete and the abstract state belong together. -/
structure Sim (s : State) (g : Abs) : Prop where
  rel : V.Rel View.All s g
  labelled : V.Labelled s
  counted : Counted V s
  sound : Gather.Sound V.tree g
  exclusive : V.Exclusive g

variable (V) in
/-- The event may be taken: a call for a tracked reduction is the first of this process, and
every other reduction that was started under the same id has finished. -/
def Admissible (s : State) (e : Event) : Prop :=
  ∀ k me, e.call s = some (k, me) → V.tracked (V.id k) = true → (me, k) ∉ s.called ∧
    ∀ k', k' ≠ k → V.id k' = V.id k → (∃ i, (i, k') ∈ s.called) → ∃ v ∈ s.returned, v.own.2 = k'

/-- In the beginning nothing was gathered. -/
theorem sim_init : Sim V cmiReductionsInit Gather.State.init where
  rel := by
    constructor <;> simp [cmiReductionsInit, Gather.State.init]
    intro me slot _
    constructor <;> simp [View.Open]
  labelled := by
    constructor <;> simp [cmiReductionsInit, globalID]
  counted := counted_init
  sound := Gather.sound_init
  exclusive := by
    intro k k' hk
    obtain ⟨⟨me, hme⟩, -⟩ := hk
    simp [Gather.State.init] at hme

/-- `Rel` does not look at counters. -/
theorem View.Rel.of_same (h : V.Rel View.All t g) (hsame : SameTables s t) :
    V.Rel View.All s g where
  table me slot _ := by
    have hat := h.table me slot trivial
    exact ⟨hsame.info ▸ hat.stored, hsame.info ▸ hat.opened⟩
  flight := hsame.flight ▸ h.flight
  called := hsame.called ▸ h.called
  called_tracked := h.called_tracked
  out := hsame.log ▸ h.out
  log_proc := hsame.log ▸ h.log_proc
  running := hsame.running ▸ h.running
  running_nodup := hsame.running ▸ h.running_nodup
  running_of_done := hsame.running ▸ h.running_of_done
  returned := hsame.returned ▸ h.returned

namespace Sim

/-- Settling changes neither who has contributed nor what has finished. -/
theorem active_settle {T : Key → RootedTree Nat} {k' : Key} :
    Active (Gather.settle T g k me) k' ↔ Active g k' := by
  unfold Gather.settle Active
  split <;> simp

theorem labelled_call (hlab : V.Labelled s) (h : IsCall V s s' k me) : V.Labelled s' := by
  obtain ⟨base, red, red', hsame, hcounter, hget, hid, -, rfl⟩ := h.act
  have hbase := hlab.of_same hsame hcounter
  have hcalled : V.Labelled { base with called := (me, k) :: base.called } := { hbase with }
  refine hcalled.send ?_
  intro own hown
  cases hown
  exact (get_create_id hget).symm.trans hid.symm

/-- A call of a reduction that is tracked is a call of the gathering. -/
theorem tracked_call (hsim : Sim V s g) (hcounted : Counted V s') (h : IsCall V s s' k me)
    (htr : V.tracked (V.id k) = true) (hnew : (me, k) ∉ s.called)
    (hothers : ∀ k', k' ≠ k → V.id k' = V.id k → (∃ i, (i, k') ∈ s.called) →
      ∃ v ∈ s.returned, v.own.2 = k') :
    ∃ fs g', Steps (Gather.Step V.tree) g fs g' ∧ Sim V s' g' := by
  have hflow := hsim.sound.flow
  have hnew' : (k, me) ∉ g.called := fun hc => hnew ((hsim.rel.called k me htr).mpr hc)
  have hfree : ∀ k', Active g k' → V.id k' = V.id k → k' = k := by
    rintro k' ⟨⟨i, hi⟩, hcl⟩ hid
    by_contra hne
    have htr' := (hsim.rel.called_tracked k' i hi).1
    refine hcl ((hsim.rel.returned k' htr').mpr (hothers k' hne hid ⟨i, ?_⟩))
    exact (hsim.rel.called k' i htr').mpr hi
  have hlab' := labelled_call hsim.labelled h
  obtain ⟨base, red, red', hsame, hcounter, hget, hid, hshape, rfl⟩ := h.act
  have hrel := hsim.rel.of_same hsame
  have hlab := hsim.labelled.of_same hsame hcounter
  have huniq : ∀ k', V.Open g k' me → V.id k' = V.id k → k' = k :=
    fun k' ho => hfree k' (View.active_of_open hflow ho)
  have hnot : (k, me) ∉ g.done := fun hd => hnew' (hflow.done_called hd)
  have hrecord := (hrel.lookup hnot htr huniq hget).1
  have hspan : SpanShaped V.m V.level me red := by
    subst hrecord
    simp [SpanShaped, View.record, hnew']
  have hstep := Gather.Step.contribute h.mem hnew'
  refine ⟨_, _, .single hstep, ?_, hlab', hcounted, hsim.sound.step hstep, ?_⟩
  · rw [hshape hspan]
    exact hrel.call hlab hflow htr h.level hnew' h.mem huniq hget
  · have hactive : ∀ k', Active (Gather.settle V.tree (g.call k me) k me) k' →
        k' = k ∨ Active g k' := by
      intro k' hk'
      rw [active_settle] at hk'
      obtain ⟨⟨i, hi⟩, hcl⟩ := hk'
      obtain heq | hi := mem_cons.mp hi
      · cases heq
        exact .inl rfl
      · exact .inr ⟨⟨i, hi⟩, hcl⟩
    intro k₁ k₂ h₁ h₂ hid
    obtain heq₁ | hact₁ := hactive k₁ h₁ <;> obtain heq₂ | hact₂ := hactive k₂ h₂
    · exact heq₁.trans heq₂.symm
    · exact heq₁.trans (hfree k₂ hact₂ (heq₁ ▸ hid.symm)).symm
    · exact (hfree k₁ hact₁ (heq₂ ▸ hid)).trans heq₂.symm
    · exact hsim.exclusive k₁ k₂ hact₁ hact₂ hid

/-- A call of any other reduction is not seen. -/
theorem untracked_call (hsim : Sim V s g) (hcounted : Counted V s') (h : IsCall V s s' k me)
    (htr : V.tracked (V.id k) = false) : Sim V s' g := by
  have hlab' := labelled_call hsim.labelled h
  obtain ⟨base, red, red', hsame, hcounter, hget, hid, -, rfl⟩ := h.act
  refine ⟨?_, hlab', hcounted, hsim.sound, hsim.exclusive⟩
  refine hsim.rel.untracked_send hsim.labelled ?_ hlab' hsame.info ?_ hsame.log hsame.running ?_
    hsame.returned
  · rwa [show ({ red' with localbuffer := some (me, k) } : CmiReduction).reductionID =
      V.id k from hid.trans (get_create_id hget)]
  · rw [hsame.flight]
  · intro c hc
    have hne : c ≠ (me, k) := by
      rintro rfl
      rw [htr] at hc
      cases hc
    simp [hsame.called, hne]

/-- The tracked message that is handled, in the abstract flight. -/
theorem exists_flight (hsim : Sim V s g) (hn : s.flight[n]? = some msg)
    (htr : V.tracked msg.redID = true) :
    ∃ x rest, V.msg x = msg ∧ g.flight.Perm (x :: rest) ∧
      ((s.flight.eraseIdx n).filter fun y => V.tracked y.redID).Perm (rest.map V.msg) := by
  have hperm : (msg :: s.flight.eraseIdx n).Perm s.flight := by
    obtain ⟨hlt, rfl⟩ := List.getElem?_eq_some_iff.mp hn
    exact List.getElem_cons_eraseIdx_perm hlt
  have hfilter := (hperm.filter fun y => V.tracked y.redID).trans hsim.rel.flight
  rw [filter_cons, if_pos htr] at hfilter
  obtain ⟨x, hx, rfl⟩ := mem_map.mp (hfilter.mem_iff.mp mem_cons_self)
  obtain ⟨l, r, hsplit⟩ := append_of_mem hx
  have hxrest : g.flight.Perm (x :: (l ++ r)) := hsplit ▸ perm_middle
  exact ⟨x, l ++ r, rfl, hxrest, (perm_cons _).mp (hfilter.trans (hxrest.map V.msg))⟩

/-- Taking out an element that a filter drops does not change what it keeps. -/
theorem filter_erase_idx {α : Type} {l : List α} {x : α} {p : α → Bool}
    (hn : l[n]? = some x) (hx : p x = false) : (l.eraseIdx n).filter p = l.filter p := by
  induction l generalizing n with
  | nil => simp at hn
  | cons y l ih =>
    cases n with
    | zero =>
      obtain rfl : y = x := by simpa using hn
      simp [hx]
    | succ n => simp [filter_cons, ih (by simpa using hn)]

section

variable (hsim : Sim V s g)

include hsim

/-- A delivery is one of the gathering, with what follows from it. -/
theorem delivery (hcounted : Counted V s')
    (h : IsDelivery V s s' n) : ∃ fs g', Steps (Gather.Step V.tree) g fs g' ∧ Sim V s' g' := by
  have hflow := hsim.sound.flow
  obtain ⟨msg, red, hn, hget, rfl⟩ := h
  have hlab : V.Labelled { s with flight := s.flight.eraseIdx n } :=
    { hsim.labelled with
      flight := fun x hx => hsim.labelled.flight x (mem_of_mem_eraseIdx hx) }
  have hlab' : V.Labelled (sendReduce { s with flight := s.flight.eraseIdx n } msg.dest
      { red with remotebuffer := red.remotebuffer ++ [msg.value] }) :=
    hlab.send fun own hown => hlab.get_create hget hown
  cases htr : V.tracked msg.redID with
  | true =>
    obtain ⟨x, rest, rfl, hx, hrest⟩ := hsim.exists_flight hn htr
    have hxmem : x ∈ g.flight := hx.mem_iff.mpr mem_cons_self
    have hstep := Gather.Step.receive (T := V.tree) hx
    refine ⟨_, _, .single hstep, ?_, hlab', hcounted, hsim.sound.step hstep, ?_⟩
    · refine hsim.rel.receive hsim.labelled hflow htr hx
        (fun y hy => mem_of_mem_eraseIdx hy) hrest (fun k' ho hid => ?_) hget
      exact hsim.exclusive k' x.key (View.active_of_open hflow ho)
        (View.active_of_flight hflow hxmem) hid
    · intro k₁ k₂ h₁ h₂
      rw [active_settle] at h₁ h₂
      exact hsim.exclusive k₁ k₂ h₁ h₂
  | false =>
    refine ⟨[], g, .nil g, ?_, hlab', hcounted, hsim.sound, hsim.exclusive⟩
    refine hsim.rel.untracked_send hsim.labelled ?_ hlab' rfl ?_ rfl rfl (fun _ _ => Iff.rfl) rfl
    · have hid := get_create_id hget
      rwa [← hid] at htr
    · exact .of_eq (filter_erase_idx hn htr)

/-- A reduction that returns is cleared. -/
theorem ret (hcounted : Counted V s') (h : IsReturn s s' n) :
    ∃ fs g', Steps (Gather.Step V.tree) g fs g' ∧ Sim V s' g' := by
  obtain ⟨r, hn, rfl⟩ := h
  have hmem := mem_of_getElem? hn
  have hlab' : V.Labelled { setInfo s r.proc r.redID none with
      running := s.running.eraseIdx n
      returned := r.value :: s.returned } := by
    refine ⟨hsim.labelled.counter, fun i slot red hi => ?_, fun i slot red own hi => ?_,
      hsim.labelled.flight, fun r' hr' => hsim.labelled.running r' (mem_of_mem_eraseIdx hr'),
      hsim.labelled.log⟩
    all_goals
      rw [info_set_info] at hi
      split at hi
      · cases hi
    · exact hsim.labelled.slot i slot red hi
    · exact hsim.labelled.info i slot red own hi
  cases htr : V.tracked r.redID with
  | true =>
    have hdone := (hsim.rel.running r hmem htr).2.1
    rw [(hsim.rel.running r hmem htr).1] at hdone
    have hstep := Gather.Step.clear hdone
    refine ⟨_, _, .single hstep,
      hsim.rel.ret hsim.labelled hsim.sound.flow hsim.exclusive hn htr, hlab', hcounted,
      hsim.sound.step hstep, ?_⟩
    rintro k₁ k₂ ⟨h₁, hcl₁⟩ ⟨h₂, hcl₂⟩
    exact hsim.exclusive k₁ k₂ ⟨h₁, fun hc => hcl₁ (mem_cons_of_mem _ hc)⟩
      ⟨h₂, fun hc => hcl₂ (mem_cons_of_mem _ hc)⟩
  | false =>
    refine ⟨[], g, .nil g, ?_, hlab', hcounted, hsim.sound, hsim.exclusive⟩
    refine hsim.rel.untracked r.proc hsim.labelled hlab' htr ?_ (.refl _) rfl ?_
      (fun _ _ => Iff.rfl) ?_
    · intro i slot hpos
      exact (info_set_info ..).trans (if_neg hpos)
    · exact filter_erase_idx hn htr
    · intro v hv
      have hne : v ≠ r.value := by
        rintro rfl
        rw [hsim.labelled.running r hmem, htr] at hv
        cases hv
      simp [hne]

/-- Every step is a run of the gathering. -/
theorem step {e : Event} (hadm : Admissible V s e)
    (h : Reduction.step V.level V.lists s e = .ok s') :
    ∃ fs g', Steps (Gather.Step V.tree) g fs g' ∧ Sim V s' g' := by
  have hcounted := hsim.counted.step hsim.labelled.counter h
  have hamounts := step_amounts hsim.labelled.counter
    (fun me k hk => (hsim.counted.fetched_lt me k hk).1) h
  have hcall : ∀ k me, e.call s = some (k, me) → IsCall V s s' k me →
      ∃ fs g', Steps (Gather.Step V.tree) g fs g' ∧ Sim V s' g' := by
    intro k me he hc
    cases htr : V.tracked (V.id k) with
    | true =>
      obtain ⟨hnew, hothers⟩ := hadm k me he htr
      exact hsim.tracked_call hcounted hc htr hnew hothers
    | false => exact ⟨[], g, .nil g, hsim.untracked_call hcounted hc htr⟩
  cases e with
  | reduce | listReduce | nodeReduce => exact hcall _ _ rfl hamounts
  | fetch me =>
    exact ⟨[], g, .nil g, hsim.rel.of_same hamounts.1,
      hsim.labelled.of_same hamounts.1 hamounts.2, hcounted, hsim.sound, hsim.exclusive⟩
  | deliver n => exact hsim.delivery hcounted hamounts
  | ret n => exact hsim.ret hcounted hamounts

/-- Every run of admissible steps is matched. -/
theorem steps {es : List Event}
    (h : Steps (fun s e s' => Admissible V s e ∧ Reduction.step V.level V.lists s e = .ok s')
      s es s') : ∃ g', Sim V s' g' := by
  obtain ⟨-, g', -, hsim'⟩ := h.simulate
    (fun _ _ _ _ hsim hstep => hsim.step hstep.1 hstep.2) hsim
  exact ⟨g', hsim'⟩

/-! ## What the simulation says about the code -/

/-- Handling a tracked message never finds the remote buffer full, and never overruns the number
of children. -/
theorem no_overflow (hn : s.flight[n]? = some msg) (htr : V.tracked msg.redID = true) :
    Reduction.step V.level V.lists s (.deliver n) ≠ .error .bufferOverflow ∧
      Reduction.step V.level V.lists s (.deliver n) ≠ .error .overrun := by
  have hflow := hsim.sound.flow
  obtain ⟨x, rest, rfl, hx, -⟩ := hsim.exists_flight hn htr
  have hxmem : x ∈ g.flight := hx.mem_iff.mpr mem_cons_self
  have hroom := hflow.recvd_lt_of_flight hxmem
  have hmem := View.dest_mem hflow hxmem
  have hlevel := (hsim.rel.called_tracked _ _ (hflow.done_called (hflow.flight_done hxmem))).2
  have hslots : ((V.tree x.key).children x.dest).length ≤ bufferSlots V.m V.level x.dest :=
    children_le_slots V.lists hmem hlevel
  rw [step_deliver_eq V.level V.lists hn]
  split
  · simp
  · simp only [reduceHandler, bind, Except.bind, pure, Except.pure]
    split
    next stop hget =>
      simp [(get_create_error hget).1]
    next red hget =>
      obtain ⟨rfl, -⟩ := hsim.rel.lookup (hflow.not_done_of_flight hxmem) htr
        (fun k' ho hid => hsim.exclusive k' x.key (View.active_of_open hflow ho)
          (View.active_of_flight hflow hxmem) hid) hget
      have hchildren : V.level = .node →
          (V.record g x.key x.dest).numChildren = ((V.tree x.key).children x.dest).length := by
        intro hnode
        obtain hpe | ⟨k, hk⟩ := hlevel
        · rw [hnode] at hpe
          cases hpe
        · have hspan : spanNumChildren V.m V.level x.dest =
              ((V.tree x.key).children x.dest).length := by
            rw [hk] at hmem ⊢
            exact span_num_children_eq (mem_spanning_tree.mp hmem)
          simp only [View.record, hspan, ite_self]
      rw [if_neg, if_neg]
      · simp
      · exact not_le.mpr (lt_of_lt_of_le hroom hslots)
      · rintro ⟨hnode, hover⟩
        rw [hchildren hnode] at hover
        exact absurd hroom (not_lt.mpr hover)

end

end Sim

end Reconverse.Reduction
