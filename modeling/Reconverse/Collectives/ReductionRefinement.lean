import Reconverse.Collectives.Reduction

/-!
# Reductions refine gathering

The tables of reduction records refine the abstract gathering of `Lib.Gather`, in which every
reduction has its own key and nothing is shared. The ring slots and the wrapping ids are sound
as long as no two unfinished reductions have the same id, which is the condition each call has
to meet in `Rel.call`. A `View` follows only the reductions whose id it tracks, so a condition
on list reductions says nothing about the others that share the table.
-/

namespace Reconverse.Reduction

open Lib List Gather

/-- A system and the ids of the reductions that are followed in it. Ids that share a slot are
tracked together. -/
structure View where
  {m : Machine}
  level : Level
  lists : Nat → ListRed m
  tracked : Nat → Bool
  tracked_slot : ∀ {a b}, cmiGetReductionIndex a = cmiGetReductionIndex b → tracked a = tracked b

/-- The abstract state: who contributed to which reduction, and so on. -/
abbrev Abs := Gather.State Key Nat

/-- A reduction that was started and has not finished. -/
def Active (g : Abs) (k : Key) : Prop := (∃ me, (k, me) ∈ g.called) ∧ k ∉ g.cleared

/-- Storing changes one slot of one process. -/
@[simp] theorem info_set_info (s : State) (me id i slot : Nat) (red : Option CmiReduction) :
    (setInfo s me id red).info i slot =
      if i = me ∧ slot = cmiGetReductionIndex id then red else s.info i slot := by
  by_cases hi : i = me
  · subst hi
    by_cases hs : slot = cmiGetReductionIndex id
    · simp [setInfo, hs]
    · simp only [setInfo, Function.update_self, Function.update_of_ne hs, hs, and_false, if_false]
  · simp [setInfo, hi]

namespace View

variable (V : View)

/-- The id of a reduction. -/
def id (k : Key) : Nat := keyID V.level V.lists k

/-- The slot of a reduction. -/
def slot (k : Key) : Nat := cmiGetReductionIndex (V.id k)

/-- The tree of a reduction. -/
def tree (k : Key) : RootedTree Nat := Reduction.tree V.level V.lists k

/-- The record of a reduction on a process: in the shape of the spanning tree until the process
makes its call. -/
def record (g : Abs) (k : Key) (me : Nat) : CmiReduction where
  reductionID := V.id k
  numChildren := if (k, me) ∈ g.called then ((V.tree k).children me).length
    else spanNumChildren V.m V.level me
  parent := if (k, me) ∈ g.called then (V.tree k).parent me else spanParent V.m V.level me
  localbuffer := if (k, me) ∈ g.called then some (me, k) else none
  remotebuffer := g.recvd k me
  slots := bufferSlots V.m V.level me

/-- A process has a record of a tracked reduction: from its call or the first child's message
on, and at the root until the handler has returned. -/
def Open (g : Abs) (k : Key) (me : Nat) : Prop :=
  V.tracked (V.id k) = true ∧
    (((k, me) ∉ g.done ∧ ((k, me) ∈ g.called ∨ g.recvd k me ≠ [])) ∨
      (me = (V.tree k).root ∧ (k, me) ∈ g.done ∧ k ∉ g.cleared))

/-- One slot of one process agrees with the abstract state: it holds the record of the tracked
reduction that is open there. -/
structure At (s : State) (g : Abs) (me slot : Nat) : Prop where
  stored : ∀ k, V.Open g k me → V.slot k = slot → s.info me slot = some (V.record g k me)
  opened : ∀ red, s.info me slot = some red → V.tracked red.reductionID = true →
    ∃ k, V.Open g k me ∧ V.id k = red.reductionID

/-- The concrete message of an abstract one. -/
def msg (x : Gather.Sent Key Nat) : RedMsg := ⟨V.id x.key, x.dest, x.value⟩

/-- The tables agree at the positions in `P`, and everything else agrees for the tracked
reductions. -/
structure Rel (P : Nat → Nat → Prop) (s : State) (g : Abs) : Prop where
  table : ∀ me slot, P me slot → V.At s g me slot
  flight : (s.flight.filter fun x => V.tracked x.redID).Perm (g.flight.map V.msg)
  called : ∀ k me, V.tracked (V.id k) = true → ((me, k) ∈ s.called ↔ (k, me) ∈ g.called)
  called_tracked : ∀ k me, (k, me) ∈ g.called →
    V.tracked (V.id k) = true ∧ (V.level = .pe ∨ ∃ n, k = .global n)
  out : (s.log.filter fun r => V.tracked r.redID).map Run.value = g.out
  log_proc : ∀ r ∈ s.log, V.tracked r.redID = true → r.proc = (V.tree r.value.own.2).root
  running : ∀ r ∈ s.running, V.tracked r.redID = true → r.proc = (V.tree r.value.own.2).root ∧
    (r.value.own.2, r.proc) ∈ g.done ∧ r.value.own.2 ∉ g.cleared
  running_nodup : ((s.running.filter fun r => V.tracked r.redID).map (·.value.own.2)).Nodup
  running_of_done : ∀ k, V.tracked (V.id k) = true → (k, (V.tree k).root) ∈ g.done →
    k ∉ g.cleared → ∃ r ∈ s.running, V.tracked r.redID = true ∧ r.value.own.2 = k
  returned : ∀ k, V.tracked (V.id k) = true → (k ∈ g.cleared ↔ ∃ v ∈ s.returned, v.own.2 = k)

/-- Every record is in the slot of its id, and what a record, a message or a handler run is
labelled with has that id. -/
structure Labelled (s : State) : Prop where
  counter : ∀ me, s.counter me = globalID V.level (s.calls me)
  slot : ∀ me slot red, s.info me slot = some red →
    cmiGetReductionIndex red.reductionID = slot
  info : ∀ me slot red own, s.info me slot = some red → red.localbuffer = some own →
    V.id own.2 = red.reductionID
  flight : ∀ x ∈ s.flight, V.id x.value.own.2 = x.redID
  running : ∀ r ∈ s.running, V.id r.value.own.2 = r.redID
  log : ∀ r ∈ s.log, V.id r.value.own.2 = r.redID

/-- No two unfinished reductions have the same id. -/
def Exclusive (g : Abs) : Prop :=
  ∀ k k', Active g k → Active g k' → V.id k = V.id k' → k = k'

variable {V} {s : State} {g g' : Abs} {k k' : Key} {me slot : Nat} {s' : State}

/-! ## Slots that do not change -/

/-- A slot that nothing was done to still matches. -/
theorem At.frame (h : V.At s g me slot) (hlab : V.Labelled s)
    (hinfo : s'.info me slot = s.info me slot)
    (hopen : ∀ k, V.slot k = slot → (V.Open g' k me ↔ V.Open g k me))
    (hrecord : ∀ k, V.slot k = slot → V.record g' k me = V.record g k me) :
    V.At s' g' me slot where
  stored k hk hslot := by
    rw [hinfo, hrecord k hslot]
    exact h.stored k ((hopen k hslot).mp hk) hslot
  opened red hred htr := by
    rw [hinfo] at hred
    obtain ⟨k, hk, hid⟩ := h.opened red hred htr
    have hslot : V.slot k = slot := by rw [View.slot, hid, hlab.slot me slot red hred]
    exact ⟨k, (hopen k hslot).mpr hk, hid⟩

theorem open_fire (hne : (k', slot) ≠ (k, me)) :
    V.Open (Gather.fire V.tree g k me) k' slot ↔ V.Open g k' slot := by
  simp only [Open, done_fire, called_fire, recvd_fire, cleared_fire, mem_cons, hne, false_or]

theorem record_fire : V.record (Gather.fire V.tree g k me) k' slot = V.record g k' slot := by
  simp [record]

/-! ## Sending on -/

variable (V) in
/-- Every position but the slot of `k` on process `me`. -/
def Off (k : Key) (me : Nat) (i slot : Nat) : Prop := ¬ (i = me ∧ slot = V.slot k)

variable (V) in
/-- Every position. -/
def All (_ _ : Nat) : Prop := True

/-- What is not at the slot of `k` is another member or another reduction. -/
theorem Off.ne {i : Nat} (h : V.Off k me i slot) (hslot : V.slot k' = slot) :
    (k', i) ≠ (k, me) := by
  rintro heq
  cases heq
  exact h ⟨rfl, hslot.symm⟩

section

variable (hrel : V.Rel (V.Off k me) s g) (hlab : V.Labelled s)
  (hslot : ∀ k', V.Open g k' me → V.slot k' = V.slot k → k' = k)

include hrel hlab hslot

/-- The slot of `k` is written: with its record if one is open then, else with nothing. -/
theorem Rel.table_set {r : Option CmiReduction} (hr : ∀ red ∈ r, red = V.record g' k me)
    (hk : V.Open g' k me ↔ r.isSome) (hinfo : s'.info = (setInfo s me (V.id k) r).info)
    (hopen : ∀ k' i, (k', i) ≠ (k, me) → (V.Open g' k' i ↔ V.Open g k' i))
    (hrecord : ∀ k' i, (k', i) ≠ (k, me) → V.record g' k' i = V.record g k' i) (i slot : Nat) :
    V.At s' g' i slot := by
  by_cases hpos : i = me ∧ slot = V.slot k
  · obtain ⟨rfl, rfl⟩ := hpos
    have hsame : s'.info i (V.slot k) = r := by
      rw [hinfo]
      simp [View.slot]
    constructor
    · intro k' hk' hs
      by_cases hkk : k' = k
      · subst hkk
        obtain ⟨red, rfl⟩ := Option.isSome_iff_exists.mp (hk.mp hk')
        rw [hsame, hr red rfl]
      · exact absurd (hslot k' ((hopen k' i (by simp [hkk])).mp hk') hs) hkk
    · intro red hred _
      obtain rfl := hsame.symm.trans hred
      exact ⟨k, hk.mpr rfl, by rw [hr red rfl]; rfl⟩
  · refine (hrel.table i slot hpos).frame hlab ?_ (fun k' hk' => hopen k' i (Off.ne hpos hk'))
      (fun k' hk' => hrecord k' i (Off.ne hpos hk'))
    rw [hinfo]
    exact (info_set_info ..).trans (if_neg hpos)

/-- A record that waits for more is put back. -/
theorem Rel.wait (hopen : V.Open g k me) :
    V.Rel All (setInfo s me (V.id k) (some (V.record g k me))) g :=
  { hrel with
    table := fun i slot _ => hrel.table_set hlab hslot (by simp) (by simpa using hopen) rfl
      (fun _ _ _ => Iff.rfl) (fun _ _ _ => rfl) i slot }

/-- The merged message goes to the parent and the slot is cleared. -/
theorem Rel.sendUp (htr : V.tracked (V.id k) = true) {parent : Nat}
    (hp : (V.tree k).parent me = some parent) :
    V.Rel All
      { setInfo s me (V.id k) none with
        flight := s.flight ++ [⟨V.id k, parent, .node (me, k) (g.recvd k me)⟩] }
      (fire V.tree g k me) := by
  have hroot : me ≠ (V.tree k).root := by
    rintro rfl
    rw [((V.tree k).parent_eq_none (V.tree k).root_mem).mpr rfl] at hp
    cases hp
  have hroot_done : ∀ k', (k', (V.tree k').root) ∈ (k, me) :: g.done ↔
      (k', (V.tree k').root) ∈ g.done := by
    intro k'
    rw [mem_cons, or_iff_right]
    intro heq
    cases heq
    exact hroot rfl
  have hflight : (fire V.tree g k me).flight =
      g.flight ++ [⟨k, parent, .node (me, k) (g.recvd k me)⟩] := by
    simp [fire, hp]
  have hout : (fire V.tree g k me).out = g.out := by simp [fire, hp]
  constructor
  case table =>
    refine fun i slot _ => hrel.table_set hlab hslot (r := none) (by simp) ?_ ?_
      (fun _ _ => open_fire) (fun _ _ _ => record_fire) i slot
    · simp [Open, hroot]
    · rfl
  case flight =>
    rw [hflight, filter_append, map_append]
    refine hrel.flight.append (.of_eq ?_)
    simp [htr, msg]
  case called => simpa [setInfo] using hrel.called
  case called_tracked => simpa using hrel.called_tracked
  case out => rw [hout]; exact hrel.out
  case log_proc => exact hrel.log_proc
  case running =>
    intro r hr htr'
    obtain ⟨hproc, hdone, hcl⟩ := hrel.running r hr htr'
    exact ⟨hproc, by simp [hdone], by simpa using hcl⟩
  case running_nodup => exact hrel.running_nodup
  case running_of_done =>
    intro k' htr' hdone hcl
    rw [done_fire, hroot_done] at hdone
    exact hrel.running_of_done k' htr' hdone (by simpa using hcl)
  case returned => simpa [setInfo] using hrel.returned

/-- The destination handler starts at the root; the record stays. -/
theorem Rel.start (htr : V.tracked (V.id k) = true) (hnot : (k, me) ∉ g.done)
    (hroot : me = (V.tree k).root) (hcl : k ∉ g.cleared) (hp : (V.tree k).parent me = none) :
    V.Rel All
      { setInfo s me (V.id k) (some (V.record g k me)) with
        running := ⟨me, V.id k, .node (me, k) (g.recvd k me)⟩ :: s.running
        log := s.log ++ [⟨me, V.id k, .node (me, k) (g.recvd k me)⟩] }
      (fire V.tree g k me) := by
  have hflight : (fire V.tree g k me).flight = g.flight := by simp [fire, hp]
  have hout : (fire V.tree g k me).out = g.out ++ [.node (me, k) (g.recvd k me)] := by
    simp [fire, hp]
  constructor
  case table =>
    refine fun i slot _ => hrel.table_set hlab hslot (r := some (V.record g k me))
      (by simp [record_fire]) ?_ ?_ (fun _ _ => open_fire) (fun _ _ _ => record_fire) i slot
    · simp [Open, htr, ← hroot, hcl]
    · rfl
  case flight => rw [hflight]; exact hrel.flight
  case called => simpa [setInfo] using hrel.called
  case called_tracked => simpa using hrel.called_tracked
  case out =>
    rw [hout, filter_append, map_append, hrel.out]
    simp [htr]
  case log_proc =>
    intro r hr htr'
    obtain hr | hr := mem_append.mp hr
    · exact hrel.log_proc r hr htr'
    · rw [mem_singleton.mp hr]
      exact hroot
  case running =>
    intro r hr htr'
    obtain rfl | hr := mem_cons.mp hr
    · exact ⟨hroot, by simp, by simpa using hcl⟩
    · obtain ⟨hproc, hdone, hcl'⟩ := hrel.running r hr htr'
      exact ⟨hproc, by simp [hdone], by simpa using hcl'⟩
  case running_nodup =>
    simp only [filter_cons, htr, if_true, map_cons, Merged.own_node, nodup_cons]
    refine ⟨?_, hrel.running_nodup⟩
    intro hmem
    obtain ⟨r, hr, hk⟩ := mem_map.mp hmem
    obtain ⟨hr, htr'⟩ := mem_filter.mp hr
    obtain ⟨hproc, hdone, -⟩ := hrel.running r hr htr'
    rw [hproc, hk, ← hroot] at hdone
    exact hnot hdone
  case running_of_done =>
    intro k' htr' hdone hcl'
    by_cases hkk : k' = k
    · exact ⟨_, mem_cons_self, htr, hkk.symm⟩
    · rw [done_fire, mem_cons] at hdone
      have hdone := hdone.resolve_left (by simp [hkk])
      obtain ⟨r, hr, hrest⟩ := hrel.running_of_done k' htr' hdone (by simpa using hcl')
      exact ⟨r, mem_cons_of_mem _ hr, hrest⟩
  case returned => simpa [setInfo] using hrel.returned

/-- `CmiSendReduce` on the record of `k` is settling `k` in the abstract state. -/
theorem Rel.send
    (hflow : Gather.Flow V.tree g) (htr : V.tracked (V.id k) = true) (hnot : (k, me) ∉ g.done)
    (halive : (k, me) ∈ g.called ∨ g.recvd k me ≠ []) :
    V.Rel All (sendReduce s me (V.record g k me)) (Gather.settle V.tree g k me) := by
  unfold settle
  split
  next hc =>
    cases hp : (V.tree k).parent me with
    | some parent =>
      have hsend : sendReduce s me (V.record g k me) = { setInfo s me (V.id k) none with
          flight := s.flight ++ [⟨V.id k, parent, .node (me, k) (g.recvd k me)⟩] } := by
        simp [sendReduce, record, hc.1, hc.2, hp]
      rw [hsend]
      exact hrel.sendUp hlab hslot htr hp
    | none =>
      have hsend : sendReduce s me (V.record g k me) =
          { setInfo s me (V.id k) (some (V.record g k me)) with
            running := ⟨me, V.id k, .node (me, k) (g.recvd k me)⟩ :: s.running
            log := s.log ++ [⟨me, V.id k, .node (me, k) (g.recvd k me)⟩] } := by
        simp [sendReduce, record, hc.1, hc.2, hp]
      rw [hsend]
      have hroot := ((V.tree k).parent_eq_none (hflow.called_mem hc.1)).mp hp
      refine hrel.start hlab hslot htr hnot hroot (fun hcl => hnot ?_) hp
      exact hroot ▸ hflow.cleared_done hcl
  next hc =>
    have hsend : sendReduce s me (V.record g k me) =
        setInfo s me (V.id k) (some (V.record g k me)) := by
      by_cases hcall : (k, me) ∈ g.called
      · have hne : ((V.tree k).children me).length ≠ (g.recvd k me).length :=
          fun h => hc ⟨hcall, h.symm⟩
        simp [sendReduce, record, hcall, hne]
      · simp [sendReduce, record, hcall]
    rw [hsend]
    exact hrel.wait hlab hslot ⟨htr, .inl ⟨hnot, halive⟩⟩

end

/-! ## Which reductions are active -/

section

variable (hflow : Gather.Flow V.tree g) {x : Gather.Sent Key Nat}

include hflow

/-- A reduction that has finished has no member left that is not done. -/
theorem done_of_cleared (hcl : k ∈ g.cleared) (hme : me ∈ (V.tree k).members) : (k, me) ∈ g.done :=
  hflow.all_done_of_root (hflow.cleared_done hcl) hme

/-- A record is open on members of the tree only. -/
theorem mem_of_open (h : V.Open g k me) : me ∈ (V.tree k).members := by
  obtain ⟨-, ⟨hnot, hcall | hrecvd⟩ | ⟨-, hdone, -⟩⟩ := h
  · exact hflow.called_mem hcall
  · obtain ⟨v, hv⟩ := exists_mem_of_ne_nil _ hrecvd
    obtain ⟨hdone, hp⟩ := hflow.recvd_done hnot hv
    exact (V.tree k).parent_mem (hflow.called_mem (hflow.done_called hdone)) hp
  · exact hflow.called_mem (hflow.done_called hdone)

/-- A reduction with an open record is active. -/
theorem active_of_open (h : V.Open g k me) : Active g k := by
  have hmem := mem_of_open hflow h
  obtain ⟨-, ⟨hnot, hcall | hrecvd⟩ | ⟨-, hdone, hcl⟩⟩ := h
  · exact ⟨⟨me, hcall⟩, fun hcl => hnot (done_of_cleared hflow hcl hmem)⟩
  · obtain ⟨v, hv⟩ := exists_mem_of_ne_nil _ hrecvd
    exact ⟨⟨_, hflow.done_called (hflow.recvd_done hnot hv).1⟩,
      fun hcl => hnot (done_of_cleared hflow hcl hmem)⟩
  · exact ⟨⟨me, hflow.done_called hdone⟩, hcl⟩

theorem dest_mem (hx : x ∈ g.flight) : x.dest ∈ (V.tree x.key).members :=
  (V.tree x.key).parent_mem (hflow.called_mem (hflow.done_called (hflow.flight_done hx)))
    (hflow.flight_full hx).2

theorem active_of_flight (hx : x ∈ g.flight) : Active g x.key :=
  ⟨⟨_, hflow.done_called (hflow.flight_done hx)⟩, fun hcl =>
    hflow.not_done_of_flight hx (done_of_cleared hflow hcl (dest_mem hflow hx))⟩

end

/-! ## Calls, messages and returns -/

variable {red : CmiReduction}

/-- The record that is found or created is the one of this reduction, and no other tracked
reduction is open in the slot. -/
theorem Rel.lookup (hrel : V.Rel All s g) (hnot : (k, me) ∉ g.done)
    (htr : V.tracked (V.id k) = true) (huniq : ∀ k', V.Open g k' me → V.id k' = V.id k → k' = k)
    (h : getCreateReduction V.m V.level s me (V.id k) = .ok red) :
    red = V.record g k me ∧ ∀ k', V.Open g k' me → V.slot k' = V.slot k → k' = k := by
  have hat := hrel.table me (V.slot k) trivial
  unfold getCreateReduction at h
  split at h
  next red' hinfo =>
    split at h
    · cases h
    next hid =>
      rw [not_not] at hid
      cases h
      obtain ⟨k', hopen, hid'⟩ := hat.opened red hinfo (hid ▸ htr)
      obtain rfl := huniq k' hopen (hid'.trans hid)
      refine ⟨Option.mem_unique hinfo (hat.stored k' hopen rfl), ?_⟩
      intro k₂ hopen₂ hslot₂
      have hsame := (hat.stored k₂ hopen₂ hslot₂).symm.trans hinfo
      exact huniq k₂ hopen₂ ((congrArg CmiReduction.reductionID (Option.some.inj hsame)).trans hid)
  next hinfo =>
    have hclosed : ∀ k', V.Open g k' me → V.slot k' ≠ V.slot k := by
      intro k' hopen hslot
      have hsome := hat.stored k' hopen hslot
      rw [View.slot, hinfo] at hsome
      cases hsome
    have hk : ¬ ((k, me) ∈ g.called ∨ g.recvd k me ≠ []) :=
      fun hk => hclosed k ⟨htr, .inl ⟨hnot, hk⟩⟩ rfl
    rw [not_or, not_not] at hk
    cases h
    exact ⟨by simp [newReduction, record, hk.1, hk.2], fun k' ho hs => absurd hs (hclosed k' ho)⟩

theorem open_call (hne : (k', slot) ≠ (k, me)) :
    V.Open (g.call k me) k' slot ↔ V.Open g k' slot := by
  simp only [Open, Gather.State.call, mem_cons, hne, false_or]

theorem record_call (hne : (k', slot) ≠ (k, me)) :
    V.record (g.call k me) k' slot = V.record g k' slot := by
  simp only [record, Gather.State.call, mem_cons, hne, false_or]

/-- A contribution of the PE itself is put into the record. -/
theorem Rel.call (hrel : V.Rel All s g) (hlab : V.Labelled s) (hflow : Gather.Flow V.tree g)
    (htr : V.tracked (V.id k) = true) (hlevel : V.level = .pe ∨ ∃ n, k = .global n)
    (hnew : (k, me) ∉ g.called) (hmem : me ∈ (V.tree k).members)
    (huniq : ∀ k', V.Open g k' me → V.id k' = V.id k → k' = k)
    (h : getCreateReduction V.m V.level s me (V.id k) = .ok red) :
    V.Rel All (internalReduce s me (me, k)
      { red with
        numChildren := ((V.tree k).children me).length
        parent := (V.tree k).parent me })
      (settle V.tree (g.call k me) k me) := by
  have hnot : (k, me) ∉ g.done := fun hd => hnew (hflow.done_called hd)
  obtain ⟨rfl, hslot⟩ := hrel.lookup hnot htr huniq h
  have hred : { V.record g k me with
      numChildren := ((V.tree k).children me).length
      parent := (V.tree k).parent me
      localbuffer := some (me, k) } = V.record (g.call k me) k me := by
    simp [record, Gather.State.call]
  rw [internalReduce]
  rw [hred]
  have hoff : V.Rel (V.Off k me) { s with called := (me, k) :: s.called } (g.call k me) :=
    { hrel with
      table := fun i slot hpos => (hrel.table i slot trivial).frame hlab rfl
        (fun k' hk' => open_call (Off.ne hpos hk')) (fun k' hk' => record_call (Off.ne hpos hk'))
      called := by
        intro k' i htr'
        simp only [Gather.State.call, mem_cons, hrel.called k' i htr', Prod.mk.injEq]
        tauto
      called_tracked := by
        intro k' i hcall
        obtain heq | hcall := mem_cons.mp hcall
        · cases heq
          exact ⟨htr, hlevel⟩
        · exact hrel.called_tracked k' i hcall }
  refine hoff.send ?_ ?_ (hflow.call hmem) htr hnot (.inl mem_cons_self)
  · exact { hlab with }
  · intro k' hk' hs
    by_contra hne
    exact hne (hslot k' ((open_call (by simp [hne])).mp hk') hs)

variable {rest : List (Gather.Sent Key Nat)} {x : Gather.Sent Key Nat} {id : Nat}

/-- What a child sent opens no other record. -/
theorem open_hold
    (hne : (k', slot) ≠ (x.key, x.dest)) : V.Open (g.hold x rest) k' slot ↔ V.Open g k' slot := by
  have hx : ¬ (x.key = k' ∧ x.dest = slot) := by
    rintro ⟨rfl, rfl⟩
    exact hne rfl
  rw [Open, Gather.Flow.recvd_hold, if_neg hx, append_nil]
  exact Iff.rfl

/-- What a child sent changes no other record. -/
theorem record_hold (hne : (k', slot) ≠ (x.key, x.dest)) :
    V.record (g.hold x rest) k' slot = V.record g k' slot := by
  have hx : ¬ (x.key = k' ∧ x.dest = slot) := by
    rintro ⟨rfl, rfl⟩
    exact hne rfl
  rw [record, Gather.Flow.recvd_hold, if_neg hx, append_nil]
  rfl

/-- Handling a tracked message is receiving it. -/
theorem Rel.receive {flight : List RedMsg} (hrel : V.Rel All s g) (hlab : V.Labelled s)
    (hflow : Gather.Flow V.tree g) (htr : V.tracked (V.id x.key) = true)
    (hx : g.flight.Perm (x :: rest)) (hsub : ∀ y ∈ flight, y ∈ s.flight)
    (hrest : (flight.filter fun y => V.tracked y.redID).Perm (rest.map V.msg))
    (huniq : ∀ k', V.Open g k' x.dest → V.id k' = V.id x.key → k' = x.key)
    (h : getCreateReduction V.m V.level { s with flight := flight } x.dest (V.id x.key) = .ok red) :
    V.Rel All (sendReduce { s with flight := flight } x.dest
      { red with remotebuffer := red.remotebuffer ++ [x.value] })
      (settle V.tree (g.hold x rest) x.key x.dest) := by
  have hmem : x ∈ g.flight := hx.mem_iff.mpr mem_cons_self
  have hnot := hflow.not_done_of_flight hmem
  obtain ⟨rfl, hslot⟩ := hrel.lookup hnot htr huniq h
  have hred : { V.record g x.key x.dest with
      remotebuffer := (V.record g x.key x.dest).remotebuffer ++ [x.value] } =
      V.record (g.hold x rest) x.key x.dest := by
    simp only [record, Gather.Flow.recvd_hold, and_self, if_true]
    rfl
  rw [hred]
  have hoff : V.Rel (V.Off x.key x.dest) { s with flight := flight } (g.hold x rest) :=
    { hrel with
      table := fun i slot hpos => (hrel.table i slot trivial).frame hlab rfl
        (fun k' hk' => open_hold (Off.ne hpos hk')) (fun k' hk' => record_hold (Off.ne hpos hk'))
      flight := hrest }
  refine hoff.send { hlab with flight := fun y hy => hlab.flight y (hsub y hy) } ?_ (hflow.hold hx)
    htr hnot (.inr ?_)
  · intro k' hk' hs
    by_contra hne
    exact hne (hslot k' ((open_hold (by simp [hne])).mp hk') hs)
  · simp [Gather.Flow.recvd_hold]

/-- A reduction that is cleared closes no other record. -/
theorem open_clear (hne : (k', slot) ≠ (k, (V.tree k).root)) :
    V.Open { g with cleared := k :: g.cleared } k' slot ↔ V.Open g k' slot := by
  simp only [Open, mem_cons, not_or]
  by_cases hk : k' = k
  · subst hk
    have hslot : slot ≠ (V.tree k').root := fun h => hne (by rw [h])
    simp [hslot]
  · simp [hk]

/-- The return of a tracked handler closes the reduction. -/
theorem Rel.ret {n : Nat} {r : Run} (hrel : V.Rel All s g) (hlab : V.Labelled s)
    (hflow : Gather.Flow V.tree g) (hexcl : V.Exclusive g) (hn : s.running[n]? = some r)
    (htr : V.tracked r.redID = true) :
    V.Rel All
      { setInfo s r.proc r.redID none with
        running := s.running.eraseIdx n
        returned := r.value :: s.returned }
      { g with cleared := r.value.own.2 :: g.cleared } := by
  have hmem := mem_of_getElem? hn
  obtain ⟨hproc, hdone, hcl⟩ := hrel.running r hmem htr
  have hid := hlab.running r hmem
  have hperm : (r :: s.running.eraseIdx n).Perm s.running := by
    obtain ⟨hlt, rfl⟩ := List.getElem?_eq_some_iff.mp hn
    exact List.getElem_cons_eraseIdx_perm hlt
  have hnodup := ((hperm.filter fun r => V.tracked r.redID).map (·.value.own.2)).nodup_iff.mpr
    hrel.running_nodup
  rw [filter_cons, if_pos htr, map_cons, nodup_cons] at hnodup
  generalize hk : r.value.own.2 = k at *
  have htrk : V.tracked (V.id k) = true := hid ▸ htr
  have hopen : V.Open g k r.proc := ⟨htrk, .inr ⟨hproc, hdone, hcl⟩⟩
  have hslot : ∀ k', V.Open g k' r.proc → V.slot k' = V.slot k → k' = k := by
    intro k' hopen' hs
    have hat := hrel.table r.proc (V.slot k) trivial
    have hsame := (hat.stored k' hopen' hs).symm.trans (hat.stored k hopen rfl)
    exact hexcl k' k (active_of_open hflow hopen') (active_of_open hflow hopen)
      (congrArg CmiReduction.reductionID (Option.some.inj hsame))
  constructor
  case table =>
    have hoff : V.Rel (V.Off k r.proc) s g :=
      { hrel with table := fun i slot _ => hrel.table i slot trivial }
    refine fun i slot _ => hoff.table_set hlab hslot (r := none) (by simp) ?_ (by rw [hid])
      (fun _ _ hne => open_clear (hproc ▸ hne)) (fun _ _ _ => rfl) i slot
    simp [Open, hdone]
  case flight => exact hrel.flight
  case called => exact hrel.called
  case called_tracked => exact hrel.called_tracked
  case out => exact hrel.out
  case log_proc => exact hrel.log_proc
  case running =>
    intro r' hr' htr'
    obtain ⟨hproc', hdone', hcl'⟩ := hrel.running r' (mem_of_mem_eraseIdx hr') htr'
    refine ⟨hproc', hdone', fun hmem' => ?_⟩
    obtain heq | hmem' := mem_cons.mp hmem'
    · exact hnodup.1 (mem_map.mpr ⟨r', mem_filter.mpr ⟨hr', htr'⟩, heq⟩)
    · exact hcl' hmem'
  case running_nodup => exact hnodup.2
  case running_of_done =>
    intro k' htr' hdone' hncl
    rw [mem_cons, not_or] at hncl
    obtain ⟨r', hr', htr'', hk'⟩ := hrel.running_of_done k' htr' hdone' hncl.2
    obtain rfl | hr' := mem_cons.mp (hperm.mem_iff.mpr hr')
    · exact absurd (hk'.symm.trans hk) hncl.1
    · exact ⟨r', hr', htr'', hk'⟩
  case returned =>
    intro k' htr'
    rw [mem_cons, hrel.returned k' htr']
    constructor
    · rintro (rfl | ⟨v, hv, hvk⟩)
      · exact ⟨r.value, mem_cons_self, hk⟩
      · exact ⟨v, mem_cons_of_mem _ hv, hvk⟩
    · rintro ⟨v, hv, hvk⟩
      obtain rfl | hv := mem_cons.mp hv
      · exact .inl (hvk.symm.trans hk)
      · exact .inr ⟨v, hv, hvk⟩

/-! ## What is not tracked -/

/-- A step that touches one slot of an untracked id, and adds or removes nothing that is
tracked, is not seen. -/
theorem Rel.untracked (hrel : V.Rel All s g) (me : Nat) (hlab : V.Labelled s)
    (hlab' : V.Labelled s') (hid : V.tracked id = false)
    (hinfo : ∀ i slot, ¬ (i = me ∧ slot = cmiGetReductionIndex id) →
      s'.info i slot = s.info i slot) (hflight : (s'.flight.filter fun x => V.tracked x.redID).Perm
      (s.flight.filter fun x => V.tracked x.redID))
    (hlog : (s'.log.filter fun r => V.tracked r.redID) = s.log.filter fun r => V.tracked r.redID)
    (hrunning : (s'.running.filter fun r => V.tracked r.redID) =
      s.running.filter fun r => V.tracked r.redID)
    (hcalled : ∀ c, V.tracked (V.id c.2) = true → (c ∈ s'.called ↔ c ∈ s.called))
    (hreturned : ∀ v : Merged Contribution, V.tracked (V.id v.own.2) = true →
      (v ∈ s'.returned ↔ v ∈ s.returned)) : V.Rel All s' g := by
  have hrun : ∀ r, V.tracked r.redID = true → (r ∈ s'.running ↔ r ∈ s.running) := by
    intro r htr
    have := congrArg (r ∈ ·) hrunning
    simpa [htr] using this
  constructor
  case table =>
    intro i slot _
    by_cases hpos : i = me ∧ slot = cmiGetReductionIndex id
    · refine ⟨fun k hk hslot => ?_, fun red hred htr => ?_⟩
      · have htr := hk.1
        rw [V.tracked_slot (hslot.trans hpos.2), hid] at htr
        cases htr
      · rw [V.tracked_slot ((hlab'.slot i slot red hred).trans hpos.2), hid] at htr
        cases htr
    · exact (hrel.table i slot trivial).frame hlab (hinfo i slot hpos) (fun _ _ => Iff.rfl)
        (fun _ _ => rfl)
  case flight => exact hflight.trans hrel.flight
  case called =>
    intro k i htr
    rw [hcalled (i, k) htr]
    exact hrel.called k i htr
  case called_tracked => exact hrel.called_tracked
  case out => rw [hlog]; exact hrel.out
  case log_proc =>
    intro r hr htr
    have hr' : r ∈ s'.log.filter fun r => V.tracked r.redID := mem_filter.mpr ⟨hr, htr⟩
    rw [hlog] at hr'
    exact hrel.log_proc r (mem_of_mem_filter hr') htr
  case running => exact fun r hr htr => hrel.running r ((hrun r htr).mp hr) htr
  case running_nodup => rw [hrunning]; exact hrel.running_nodup
  case running_of_done =>
    intro k htr hdone hcl
    obtain ⟨r, hr, htr', hk⟩ := hrel.running_of_done k htr hdone hcl
    exact ⟨r, (hrun r htr').mpr hr, htr', hk⟩
  case returned =>
    intro k htr
    rw [hrel.returned k htr]
    constructor
    · rintro ⟨v, hv, rfl⟩
      exact ⟨v, (hreturned v htr).mpr hv, rfl⟩
    · rintro ⟨v, hv, rfl⟩
      exact ⟨v, (hreturned v htr).mp hv, rfl⟩

end View

end Reconverse.Reduction
