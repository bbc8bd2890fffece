import Reconverse.Collectives.GlobalReduction

/-!
# `CmiListReduce` is correct on every list

A list reduction shares the table of PE reductions. Its record may be created by a child's
message, in the shape of the spanning tree, before the PE's own call switches it to the tree over
the list. Only the list reductions are followed here (their ids are odd), so whatever the
program does with `CmiReduce` at the same time does not matter.
-/

namespace Reconverse.Reduction

open Lib List ListRed

variable {m : Machine} {lists : Nat → ListRed m} {s s' : State}

/-- The id of the program's `j`-th list reduction. -/
def listID (lists : Nat → ListRed m) (j : Nat) : Nat := cmiGetGlobalReduction (lists j).request

/-- A step in which a PE calls `CmiListReduce` at most once for each list reduction, and only
while no other unfinished list reduction has its id. -/
def ListStep (lists : Nat → ListRed m) (s : State) (e : Event) (s' : State) : Prop :=
  step .pe lists s e = .ok s' ∧ ∀ me j, e = .listReduce me j → (me, .list j) ∉ s.called ∧
    ∀ j', j' ≠ j → listID lists j' = listID lists j → (∃ i, (i, .list j') ∈ s.called) →
      ∃ v ∈ s.returned, v.own.2 = .list j'

/-- List reductions are followed: the odd ids. -/
def listView (lists : Nat → ListRed m) : View where
  level := .pe
  lists := lists
  tracked id := id % 2 == 1
  tracked_slot {a b} h := by
    rw [reduction_index_eq, reduction_index_eq] at h
    rw [show a % 2 = b % 2 by omega]

theorem list_id_odd (j : Nat) : listID lists j % 2 = 1 := by
  rw [listID, global_reduction_eq, idRange]
  omega

theorem tracked_list (j : Nat) :
    (listView lists).tracked ((listView lists).id (.list j)) = true := by
  rw [show (listView lists).id (.list j) = listID lists j from rfl]
  simp [listView, list_id_odd]

theorem tracked_global (k : Nat) :
    (listView lists).tracked ((listView lists).id (.global k)) = false := by
  have : globalID .pe k % 2 = 0 := by
    simp only [globalID, idStep, idRange]
    omega
  simp [listView, View.id, keyID, this]

/-- A step of a list reduction is one that the refinement covers. -/
theorem admissible_of_list {e : Event} (h : ListStep lists s e s') :
    Admissible (listView lists) s e := by
  intro key me he htr
  cases key with
  | global k => simp [tracked_global] at htr
  | list j =>
    obtain rfl : e = .listReduce me j := by
      cases e <;> simp_all [Event.call]
    obtain ⟨hnew, hothers⟩ := h.2 me j rfl
    refine ⟨hnew, fun key' hne hid hi => ?_⟩
    cases key' with
    | global k =>
      rw [← hid, tracked_global] at htr
      cases htr
    | list j' => exact hothers j' (fun h => hne (congrArg _ h)) hid hi

/-- Every run is matched by the abstract gathering. -/
theorem list_steps {es : List Event} (h : Steps (ListStep lists) cmiReductionsInit es s) :
    ∃ g, Sim (listView lists) s g :=
  sim_init.steps (h.mono fun _ _ _ hstep => ⟨admissible_of_list hstep, hstep.1⟩)

/-! ## The children in the list -/

/-- The PEs `pes[4i + 1 .. 4i + 4]`, as far as the list goes. -/
def listChildren (pes : List Nat) (pos : Nat) : List Nat :=
  (spanChildren pes.length pos).filterMap (pes[·]?)

/-- The children in the tree are those that the list gives. -/
theorem list_children_perm {l : ListRed m} {me : Nat} (h : me ∈ l.pes) :
    (l.tree.children me).Perm (listChildren l.pes (listPos l.pes me)) := by
  have hnodup : (listChildren l.pes (listPos l.pes me)).Nodup := by
    refine (span_children_nodup _ _).filterMap fun a b c ha hb => ?_
    rw [← list_pos_of_get ha, ← list_pos_of_get hb]
  rw [perm_ext_iff_of_nodup (RootedTree.children_nodup _ _) hnodup]
  intro c
  simp only [RootedTree.mem_children, listChildren, mem_filterMap, mem_span_children]
  constructor
  · rintro ⟨hc, hp⟩
    obtain ⟨n, hn, hget⟩ := list_parent_eq_some.mp hp
    refine ⟨listPos l.pes c, ⟨list_pos_lt hc, ?_⟩, get_list_pos hc⟩
    rw [list_pos_of_get hget]
    exact node_span_tree_parent_eq_some.mp hn
  · rintro ⟨pos, ⟨-, hpar⟩, hget⟩
    refine ⟨mem_of_getElem? hget, list_parent_eq_some.mpr ⟨_, ?_, get_list_pos h⟩⟩
    rw [list_pos_of_get hget]
    exact node_span_tree_parent_eq_some.mpr hpar

/-! ## The main result -/

/-- The handler runs of one list reduction. -/
def listRuns (s : State) (j : Nat) : List Run :=
  s.log.filter fun r => r.value.own.2 = .list j

section Consequences

variable {g : Abs} (hsim : Sim (listView lists) s g) {j : Nat} {x : RedMsg} {r : Run}

include hsim

theorem log_tracked (hr : r ∈ s.log) (hj : r.value.own.2 = .list j) :
    (listView lists).tracked r.redID = true := by
  rw [← hsim.labelled.log r hr, hj]
  exact tracked_list j

/-- The first PE of the list runs the handler on the contributions of the list. -/
theorem list_log_correct (hr : r ∈ s.log) (hj : r.value.own.2 = .list j) :
    some r.proc = (lists j).pes[0]? ∧ r.value.leaves.Perm ((lists j).pes.map (·, .list j)) := by
  have htr := log_tracked hsim hr hj
  have hout : r.value ∈ g.out := by
    rw [← hsim.rel.out]
    exact mem_map_of_mem (mem_filter.mpr ⟨hr, htr⟩)
  obtain ⟨hfull, hroot⟩ := hsim.sound.flow.out_full hout
  have hproc := hsim.rel.log_proc r hr htr
  rw [hj] at hproc hfull hroot
  refine ⟨?_, hfull.leaves_root hroot⟩
  rw [hproc, ← head?_eq_getElem?]
  exact (head?_eq_some_head _).symm

/-- The runs of a list reduction, in the abstract state. -/
theorem list_runs_values :
    (listRuns s j).map Run.value = g.out.filter fun v => v.own.2 = .list j := by
  rw [← hsim.rel.out, filter_map, filter_filter]
  congr 1
  refine filter_congr fun r hr => ?_
  by_cases hj : r.value.own.2 = .list j
  · simp [hj, log_tracked hsim hr hj]
  · simp [hj]

/-- A list reduction is run at most once. -/
theorem list_runs_length_le : (listRuns s j).length ≤ 1 := by
  have hnodup := hsim.sound.flow.out_nodup
  have hcount : (listRuns s j).length = (g.out.map (·.own.2)).count (.list j) := by
    rw [← length_map, list_runs_values hsim, count_eq_length_filter, filter_map, length_map]
    congr 1
  rw [hcount]
  exact nodup_iff_count_le_one.mp hnodup _

theorem flight_tracked (hx : x ∈ s.flight) (hj : x.value.own.2 = .list j) :
    (listView lists).tracked x.redID = true := by
  rw [← hsim.labelled.flight x hx, hj]
  exact tracked_list j

/-- A message of a list reduction, in the abstract state. -/
theorem exists_list_flight (hx : x ∈ s.flight) (hj : x.value.own.2 = .list j) :
    ∃ y ∈ g.flight, (listView lists).msg y = x ∧ y.key = .list j := by
  have hmem : x ∈ s.flight.filter fun x => (listView lists).tracked x.redID :=
    mem_filter.mpr ⟨hx, flight_tracked hsim hx hj⟩
  obtain ⟨y, hy, rfl⟩ := mem_map.mp (hsim.rel.flight.mem_iff.mp hmem)
  exact ⟨y, hy, rfl, (hsim.sound.flow.flight_full hy).1.key.symm.trans hj⟩

/-- A message of a list reduction goes from a member to its parent. -/
theorem list_flight_correct (hx : x ∈ s.flight) (hj : x.value.own.2 = .list j) :
    x.value.own.1 ∈ (lists j).pes ∧
    listParent (lists j).pes (listPos (lists j).pes x.value.own.1) = some x.dest ∧
    (x.value.parts.map (·.own.1)).Perm
      (listChildren (lists j).pes (listPos (lists j).pes x.value.own.1)) := by
  obtain ⟨y, hy, rfl, hkey⟩ := exists_list_flight hsim hx hj
  obtain ⟨hfull, hparent⟩ := hsim.sound.flow.flight_full hy
  rw [hkey] at hfull hparent
  exact ⟨hfull.mem, hparent, hfull.parts.trans (list_children_perm hfull.mem)⟩

/-- A record of a list reduction has room for its children. -/
theorem list_record_correct {me slot : Nat} {red : CmiReduction} (h : s.info me slot = some red)
    (hj : red.reductionID = listID lists j) : red.remotebuffer.length ≤ red.slots := by
  have hflow := hsim.sound.flow
  have hat := hsim.rel.table me slot trivial
  obtain ⟨key, hopen, hid⟩ := hat.opened red h (hj ▸ tracked_list j)
  have hslot : (listView lists).slot key = slot := by
    rw [View.slot, hid, hsim.labelled.slot me slot red h]
  obtain rfl := Option.mem_unique h (hat.stored key hopen hslot)
  exact Nat.le_trans (hflow.recvd_length_le key me)
    (children_le_slots lists (View.mem_of_open hflow hopen) (.inl rfl))

/-- A delivery succeeds, or the slot is taken by another reduction. -/
theorem list_deliver_result {n : Nat} {msg : RedMsg} (hn : s.flight[n]? = some msg)
    (hj : msg.value.own.2 = .list j) :
    (∃ s', step .pe lists s (.deliver n) = .ok s') ∨
    (step .pe lists s (.deliver n) = .error .tooManyReductions ∧
      ∃ red, s.info msg.dest (cmiGetReductionIndex msg.redID) = some red ∧
        red.reductionID ≠ msg.redID) := by
  obtain ⟨hover, hrun⟩ := hsim.no_overflow hn
    (flight_tracked hsim (mem_of_getElem? hn) hj)
  obtain h | ⟨-, hnode, -⟩ | h | h | h := deliver_result .pe lists hn
  · exact .inl h
  · cases hnode
  · exact .inr h
  · exact absurd h hrun
  · exact absurd h hover

/-- It is run once when all members have called and nothing of it is in flight. -/
theorem list_runs_length (hcalled : ∀ pe ∈ (lists j).pes, (pe, .list j) ∈ s.called)
    (hquiet : ∀ x ∈ s.flight, x.value.own.2 ≠ .list j) : (listRuns s j).length = 1 := by
  have hflow := hsim.sound.flow
  have hall : ∀ pe ∈ ((listView lists).tree (.list j)).members, (Key.list j, pe) ∈ g.called :=
    fun pe hpe => (hsim.rel.called _ pe (tracked_list j)).mp (hcalled pe hpe)
  have hnone : ∀ pe, g.inFlight (.list j) pe = [] := by
    intro pe
    rw [Gather.State.inFlight, map_eq_nil_iff, filter_eq_nil_iff]
    intro y hy hkey
    simp only [decide_eq_true_eq] at hkey
    have hmem := hsim.rel.flight.mem_iff.mpr (mem_map_of_mem hy)
    refine hquiet _ (mem_of_mem_filter hmem) ?_
    exact (hflow.flight_full hy).1.key.trans hkey.1
  have hdone := hsim.sound.all_done hall hnone
  have hroot := hflow.out_iff.mpr (hdone _ ((listView lists).tree (.list j)).root_mem)
  obtain ⟨v, hv, hkey⟩ := mem_map.mp hroot
  have hmem : v ∈ (listRuns s j).map Run.value := by
    rw [list_runs_values hsim]
    exact mem_filter.mpr ⟨hv, by simpa using hkey⟩
  have hpos := length_pos_of_mem hmem
  rw [length_map] at hpos
  have hle := list_runs_length_le hsim (j := j)
  omega

end Consequences

/-- A listed PE's call returns unless the slot check aborts. -/
theorem list_call_result {me j : Nat} (hme : me ∈ (lists j).pes) :
    (∃ s', step .pe lists s (.listReduce me j) = .ok s') ∨
    (step .pe lists s (.listReduce me j) = .error .tooManyReductions ∧
      ∃ red, s.info me (cmiGetReductionIndex (listID lists j)) = some red ∧
        red.reductionID ≠ listID lists j) := by
  have hpos : listPos (lists j).pes me ≠ (lists j).pes.length :=
    Nat.ne_of_lt (list_pos_lt hme)
  simp only [step, (lists j).pes_lt me hme, and_self, if_true, cmiListReduce,
    cmiGetCreateReduction, bind, Except.bind, pure, Except.pure]
  split
  next stop hget =>
    obtain ⟨rfl, hred⟩ := get_create_error hget
    exact .inr ⟨rfl, hred⟩
  · rw [if_neg hpos]
    exact .inl ⟨_, rfl⟩

/-- For every list of distinct PEs on every machine, whatever the order of the calls and of the
deliveries and whatever else is reduced at the same time: the handler runs at most once, on the
first PE of the list, with a merge of exactly one contribution of every listed PE, and exactly
once when all have called and no message of the reduction is left; messages go to the parent in
the list only, and only after all list children were merged; the remote buffer never holds more
entries than it was allocated for, and nothing is ever stored past it. Calls and deliveries
return unless the slot check finds another reduction in the slot. -/
theorem list_reduce_correct {es : List Event}
    (hrun : Steps (ListStep lists) cmiReductionsInit es s) (j : Nat) :
    (listRuns s j).length ≤ 1 ∧
    (∀ r ∈ s.log, r.value.own.2 = .list j → some r.proc = (lists j).pes[0]? ∧
      r.value.leaves.Perm ((lists j).pes.map (·, .list j))) ∧
    ((∀ pe ∈ (lists j).pes, (pe, .list j) ∈ s.called) →
      (∀ x ∈ s.flight, x.value.own.2 ≠ .list j) → (listRuns s j).length = 1) ∧
    (∀ x ∈ s.flight, x.value.own.2 = .list j → x.value.own.1 ∈ (lists j).pes ∧
      listParent (lists j).pes (listPos (lists j).pes x.value.own.1) = some x.dest ∧
      (x.value.parts.map (·.own.1)).Perm
        (listChildren (lists j).pes (listPos (lists j).pes x.value.own.1))) ∧
    (∀ me slot red, s.info me slot = some red → red.reductionID = listID lists j →
      red.remotebuffer.length ≤ red.slots) ∧
    (∀ n msg, s.flight[n]? = some msg → msg.value.own.2 = .list j →
      (∃ s', step .pe lists s (.deliver n) = .ok s') ∨
      (step .pe lists s (.deliver n) = .error .tooManyReductions ∧
        ∃ red, s.info msg.dest (cmiGetReductionIndex msg.redID) = some red ∧
          red.reductionID ≠ msg.redID)) ∧
    (∀ me ∈ (lists j).pes, (∃ s', step .pe lists s (.listReduce me j) = .ok s') ∨
      (step .pe lists s (.listReduce me j) = .error .tooManyReductions ∧
        ∃ red, s.info me (cmiGetReductionIndex (listID lists j)) = some red ∧
          red.reductionID ≠ listID lists j)) := by
  obtain ⟨g, hsim⟩ := list_steps hrun
  exact ⟨list_runs_length_le hsim, fun r hr hj => list_log_correct hsim hr hj,
    list_runs_length hsim, fun x hx hj => list_flight_correct hsim hx hj,
    fun me slot red h hj => list_record_correct hsim h hj,
    fun n msg hn hj => list_deliver_result hsim hn hj, fun me hme => list_call_result hme⟩

/-- The list `[1, 0]` on one node of two PEs. -/
def reversedList (_ : Nat) : ListRed twoPes := ⟨[1, 0], 0, by decide, by decide, by decide⟩

/-- PE 0 calls first; its message finds PE 1 without a record, which is created in the shape of
the spanning tree, where PE 1 is a leaf. -/
theorem list_reduction_of_two_pes : ∃ s,
    Steps (ListStep reversedList) cmiReductionsInit
      [.listReduce 0 0, .deliver 0, .listReduce 1 0] s ∧
    (listRuns s 0).length = 1 ∧
    ∀ r ∈ s.log, r.value.own.2 = .list 0 → some r.proc = some 1 ∧
      r.value.leaves.Perm [(1, .list 0), (0, .list 0)] := by
  have hrun : ∃ s, Steps (ListStep reversedList) cmiReductionsInit
      [.listReduce 0 0, .deliver 0, .listReduce 1 0] s ∧ s.flight = [] ∧
      s.called = [(1, .list 0), (0, .list 0)] := by
    refine ⟨_, .cons ⟨rfl, ?_⟩ (.cons ⟨rfl, ?_⟩ (.cons ⟨rfl, ?_⟩ (.nil _))), rfl, rfl⟩
    · rintro me j ⟨⟩
      refine ⟨by decide, ?_⟩
      rintro j' hne - ⟨i, hi⟩
      cases hi
    · rintro me j ⟨⟩
    · rintro me j ⟨⟩
      refine ⟨by decide, ?_⟩
      rintro j' hne - ⟨i, hi⟩
      obtain heq : (i, Key.list j') = (0, .list 0) := mem_singleton.mp hi
      cases heq
      exact absurd rfl hne
  obtain ⟨s, hsteps, hflight, hcalled⟩ := hrun
  obtain ⟨-, hlog, honce, -⟩ := list_reduce_correct hsteps 0
  refine ⟨s, hsteps, honce ?_ (by simp [hflight]), hlog⟩
  rw [hcalled]
  decide

end Reconverse.Reduction
