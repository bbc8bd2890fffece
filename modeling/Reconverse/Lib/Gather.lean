import Reconverse.Lib.RootedTree
import Reconverse.Lib.Runs

/-!
# Gathering contributions along trees

Any number of gatherings run at once, one for each key, each along its own tree. A member that
has contributed and has a message from every child sends the merged value to its parent; the
root puts it out. `Flow` is the invariant that carries the exactly-once argument: what is on its
way to a member together with what it holds comes, once each, from the children that are done.
The results are `Full.leaves_root` (what is put out is a merge of every contribution, once) and
`Sound.all_done` (when everybody has contributed and nothing is in flight, everybody is done).
-/

namespace Reconverse.Lib

open List Lib.RootedTree

/-- A merged value: the contribution of the member that merged, and the values it merged it
with. Without parts it is the contribution itself. -/
inductive Merged (α : Type) where
  | node (own : α) (parts : List (Merged α))

namespace Merged

variable {α : Type}

/-- The contribution of the member that made the value. -/
def own : Merged α → α
  | .node own _ => own

/-- The values that were merged with it. -/
def parts : Merged α → List (Merged α)
  | .node _ parts => parts

mutual

/-- All contributions in a value, with multiplicity. -/
def leaves : Merged α → List α
  | .node own parts => own :: leavesAll parts

/-- All contributions in a list of values. -/
def leavesAll : List (Merged α) → List α
  | [] => []
  | v :: vs => v.leaves ++ leavesAll vs

end

@[simp] theorem own_node (a : α) (vs : List (Merged α)) : (node a vs).own = a := rfl

theorem leaves_all_eq (vs : List (Merged α)) : leavesAll vs = vs.flatMap leaves := by
  induction vs with
  | nil => simp [leavesAll]
  | cons v vs ih => simp [leavesAll, ih]

@[simp] theorem leaves_node (a : α) (vs : List (Merged α)) :
    (node a vs).leaves = a :: vs.flatMap leaves := by
  rw [leaves, leaves_all_eq]

end Merged

namespace Gather

variable {κ ι : Type}

/-- A value on its way to a member. -/
structure Sent (κ ι : Type) where
  key : κ
  dest : ι
  value : Merged (ι × κ)

/-- Who has contributed, who has sent on, what each member holds, what is in flight, what was
put out, and which gatherings were closed at their root. -/
structure State (κ ι : Type) where
  called : List (κ × ι)
  done : List (κ × ι)
  recvd : κ → ι → List (Merged (ι × κ))
  flight : List (Sent κ ι)
  out : List (Merged (ι × κ))
  cleared : List κ

/-- Nothing has happened. -/
def State.init : State κ ι := ⟨[], [], fun _ _ => [], [], [], []⟩

/-- What can happen. -/
inductive Event (κ ι : Type) where
  | contribute (key : κ) (member : ι)
  | receive (sent : Sent κ ι)
  | clear (key : κ)

variable (T : κ → RootedTree ι)

/-- Send the merge on, or put it out at the root. -/
def fire (s : State κ ι) (k : κ) (i : ι) : State κ ι :=
  let v := .node (i, k) (s.recvd k i)
  match (T k).parent i with
  | some p => { s with done := (k, i) :: s.done, flight := s.flight ++ [⟨k, p, v⟩] }
  | none => { s with done := (k, i) :: s.done, out := s.out ++ [v] }

section

variable (s : State κ ι) (k : κ) (i : ι)

include s k

@[simp] theorem done_fire : (fire T s k i).done = (k, i) :: s.done := by
  unfold fire; split <;> rfl

@[simp] theorem called_fire : (fire T s k i).called = s.called := by
  unfold fire; split <;> rfl

@[simp] theorem recvd_fire : (fire T s k i).recvd = s.recvd := by
  unfold fire; split <;> rfl

@[simp] theorem cleared_fire : (fire T s k i).cleared = s.cleared := by
  unfold fire; split <;> rfl

end

variable [DecidableEq κ] [DecidableEq ι]

/-- The values in flight to a member for one key. -/
def State.inFlight (s : State κ ι) (k : κ) (i : ι) : List (Merged (ι × κ)) :=
  (s.flight.filter fun x => x.key = k ∧ x.dest = i).map Sent.value

/-- A member has contributed and holds as many values as it has children. -/
def Complete (s : State κ ι) (k : κ) (i : ι) : Prop :=
  (k, i) ∈ s.called ∧ (s.recvd k i).length = ((T k).children i).length

instance (s : State κ ι) (k : κ) (i : ι) : Decidable (Complete T s k i) :=
  inferInstanceAs (Decidable (_ ∧ _))

/-- Send on if complete. -/
def settle (s : State κ ι) (k : κ) (i : ι) : State κ ι :=
  if Complete T s k i then fire T s k i else s

/-- Record a contribution. -/
def State.call (s : State κ ι) (k : κ) (i : ι) : State κ ι :=
  { s with called := (k, i) :: s.called }

/-- Hold a value taken out of the flight. -/
def State.hold (s : State κ ι) (x : Sent κ ι) (rest : List (Sent κ ι)) : State κ ι :=
  { s with
    flight := rest
    recvd := Function.update s.recvd x.key
      (Function.update (s.recvd x.key) x.dest (s.recvd x.key x.dest ++ [x.value])) }

/-- The steps: each member contributes once per key, values arrive in any order, and a key is
closed after its root is done. -/
inductive Step : State κ ι → Event κ ι → State κ ι → Prop where
  | contribute {s : State κ ι} {k : κ} {i : ι} (hmem : i ∈ (T k).members)
      (hnew : (k, i) ∉ s.called) : Step s (.contribute k i) (settle T (s.call k i) k i)
  | receive {s : State κ ι} {x : Sent κ ι} {rest : List (Sent κ ι)}
      (hflight : s.flight.Perm (x :: rest)) :
      Step s (.receive x) (settle T (s.hold x rest) x.key x.dest)
  | clear {s : State κ ι} {k : κ} (hdone : (k, (T k).root) ∈ s.done) :
      Step s (.clear k) { s with cleared := k :: s.cleared }

/-! ## The invariant -/

open Classical in
/-- The value is a merge of all contributions below the member that made it: of its own, and of
one part from each of its children. -/
structure Full (k : κ) (v : Merged (ι × κ)) : Prop where
  key : v.own.2 = k
  mem : v.own.1 ∈ (T k).members
  parts : (v.parts.map (·.own.1)).Perm ((T k).children v.own.1)
  leaves : v.leaves.Perm (((T k).members.filter ((T k).Below v.own.1 ·)).map (·, k))

/-- What is on its way to a member and what it holds comes, once each, from the children that
are done; a member that is done has had a value from each child and gets nothing more. -/
structure Flow (s : State κ ι) : Prop where
  called_mem : ∀ {k i}, (k, i) ∈ s.called → i ∈ (T k).members
  done_called : ∀ {k i}, (k, i) ∈ s.done → (k, i) ∈ s.called
  arrivals : ∀ {k i}, (k, i) ∉ s.done →
    ((s.inFlight k i ++ s.recvd k i).map (·.own.1)).Perm
      (((T k).children i).filter fun c => (k, c) ∈ s.done)
  done_children : ∀ {k i c}, (k, i) ∈ s.done → c ∈ (T k).children i → (k, c) ∈ s.done
  done_quiet : ∀ {k i}, (k, i) ∈ s.done → s.inFlight k i = []
  done_recvd : ∀ {k i}, (k, i) ∈ s.done → (s.recvd k i).length = ((T k).children i).length
  flight_full : ∀ {x}, x ∈ s.flight →
    Full T x.key x.value ∧ (T x.key).parent x.value.own.1 = some x.dest
  recvd_full : ∀ {k i v}, v ∈ s.recvd k i → Full T k v
  out_full : ∀ {v}, v ∈ s.out → Full T v.own.2 v ∧ v.own.1 = (T v.own.2).root
  out_nodup : (s.out.map (·.own.2)).Nodup
  out_iff : ∀ {k}, k ∈ s.out.map (·.own.2) ↔ (k, (T k).root) ∈ s.done
  cleared_done : ∀ {k}, k ∈ s.cleared → (k, (T k).root) ∈ s.done

/-- Nobody who is complete is still waiting. -/
def Settled (s : State κ ι) : Prop :=
  ∀ {k i}, (k, i) ∉ s.done → ¬ Complete T s k i

variable {T} {s : State κ ι} {k : κ} {i : ι} {x : Sent κ ι} {v : Merged (ι × κ)}

theorem flow_init : Flow T (State.init : State κ ι) := by
  constructor <;> simp [State.init, State.inFlight]

namespace Flow

section

variable (h : Flow T s)

include h

/-- A member that is not done holds, or has in flight to it, at most one value per child. -/
theorem arrivals_length_le (hnot : (k, i) ∉ s.done) :
    (s.inFlight k i).length + (s.recvd k i).length ≤ ((T k).children i).length := by
  have hlen := (h.arrivals hnot).length_eq
  simp only [length_map, length_append] at hlen
  exact hlen ▸ length_filter_le _ _

/-- A member holds at most one value per child. -/
theorem recvd_length_le (k : κ) (i : ι) : (s.recvd k i).length ≤ ((T k).children i).length := by
  by_cases hd : (k, i) ∈ s.done
  · exact Nat.le_of_eq (h.done_recvd hd)
  · exact Nat.le_trans (Nat.le_add_left _ _) (h.arrivals_length_le hd)

/-- Something in flight to a member means it is not done. -/
theorem not_done_of_flight (hx : x ∈ s.flight) : (x.key, x.dest) ∉ s.done := by
  intro hdone
  have hquiet := h.done_quiet hdone
  simp only [State.inFlight, map_eq_nil_iff, filter_eq_nil_iff] at hquiet
  exact hquiet x hx (by simp)

/-- There is room for every value in flight. -/
theorem recvd_lt_of_flight (hx : x ∈ s.flight) :
    (s.recvd x.key x.dest).length < ((T x.key).children x.dest).length := by
  have hle := h.arrivals_length_le (h.not_done_of_flight hx)
  have hpos : 0 < (s.inFlight x.key x.dest).length := by
    rw [State.inFlight, length_map, length_pos_iff_exists_mem]
    exact ⟨x, by simp [hx]⟩
  omega

/-- What is in flight was sent by a member that is done. -/
theorem flight_done (hx : x ∈ s.flight) : (x.key, x.value.own.1) ∈ s.done := by
  have hmem : x.value.own.1 ∈
      ((s.inFlight x.key x.dest ++ s.recvd x.key x.dest).map (·.own.1)) := by
    refine mem_map.mpr ⟨x.value, mem_append_left _ ?_, rfl⟩
    exact mem_map.mpr ⟨x, by simp [hx], rfl⟩
  rw [(h.arrivals (h.not_done_of_flight hx)).mem_iff] at hmem
  simpa using (mem_filter.mp hmem).2

/-- What a member holds was sent by a child that is done. -/
theorem recvd_done (hnot : (k, i) ∉ s.done)
    (hv : v ∈ s.recvd k i) : (k, v.own.1) ∈ s.done ∧ (T k).parent v.own.1 = some i := by
  have hmem : v.own.1 ∈ ((s.inFlight k i ++ s.recvd k i).map (·.own.1)) :=
    mem_map.mpr ⟨v, mem_append_right _ hv, rfl⟩
  rw [(h.arrivals hnot).mem_iff] at hmem
  obtain ⟨hchild, hdone⟩ := mem_filter.mp hmem
  exact ⟨by simpa using hdone, (mem_children.mp hchild).2⟩

/-- If the root has passed its value on, so have all members. -/
theorem all_done_of_root (hroot : (k, (T k).root) ∈ s.done)
    (hi : i ∈ (T k).members) : (k, i) ∈ s.done := by
  have hbelow : (T k).Below (T k).root i := below_root hi
  induction hbelow with
  | refl => exact hroot
  | up hp _ ih =>
    exact h.done_children (ih ((T k).parent_mem hi hp)) (mem_children.mpr ⟨hi, hp⟩)

/-- A complete member has a value from every child, and nothing is on its way to it. -/
theorem complete_children (hnot : (k, i) ∉ s.done) (hc : Complete T s k i) :
    s.inFlight k i = [] ∧ ((s.recvd k i).map (·.own.1)).Perm ((T k).children i) ∧
      ∀ c ∈ (T k).children i, (k, c) ∈ s.done := by
  have harr := h.arrivals hnot
  have hle := h.arrivals_length_le hnot
  have hnil : s.inFlight k i = [] := length_eq_zero_iff.mp (by have := hc.2; omega)
  have hall : (((T k).children i).filter fun c => (k, c) ∈ s.done) = (T k).children i := by
    apply filter_eq_self.mpr
    apply length_filter_eq_length_iff.mp
    rw [← harr.length_eq, hnil]
    simpa using hc.2
  rw [hall, hnil] at harr
  exact ⟨hnil, harr, fun c hcmem => by simpa using filter_eq_self.mp hall c hcmem⟩

/-- The merge a complete member makes is full. -/
theorem complete_full (hnot : (k, i) ∉ s.done) (hc : Complete T s k i) :
    Full T k (.node (i, k) (s.recvd k i)) where
  key := rfl
  mem := h.called_mem hc.1
  parts := (h.complete_children hnot hc).2.1
  leaves := by
    classical
    have hparts := (h.complete_children hnot hc).2.1
    -- Each part holds the contributions below the child it comes from.
    have hsub : ((s.recvd k i).flatMap Merged.leaves).Perm
        (((T k).children i).flatMap fun c =>
          ((T k).members.filter ((T k).Below c ·)).map (·, k)) := by
      refine Perm.trans (Perm.flatMap_left _ fun v hv => (h.recvd_full hv).leaves) ?_
      have := hparts.flatMap_right fun c => ((T k).members.filter ((T k).Below c ·)).map (·, k)
      rwa [flatMap_map] at this
    have hself : (T k).members.filter (fun j => id j = i) = [i] := by
      rw [show (fun j => decide (id j = i)) = (· == i) from rfl, filter_beq,
        count_eq_one_of_mem (T k).nodup (h.called_mem hc.1)]
      rfl
    have hbelow := ((T k).filter_below_perm (T k).members id i fun _ hj => hj).map (·, k)
    rw [Merged.leaves_node, Merged.own_node]
    refine (hsub.cons _).trans (Perm.trans ?_ hbelow.symm)
    rw [map_append, map_flatMap, hself]
    show Perm ([(i, k)] ++ _) (_ ++ [(i, k)])
    exact perm_append_comm

/-! ## Every step keeps the invariant -/

/-- A member gives its own value. -/
theorem call (hmem : i ∈ (T k).members) : Flow T (s.call k i) :=
  { h with
    called_mem := by
      intro k' i' hcall
      obtain heq | hcall := mem_cons.mp hcall
      · cases heq
        exact hmem
      · exact h.called_mem hcall
    done_called := fun hdone => mem_cons_of_mem _ (h.done_called hdone) }

end

variable {rest : List (Sent κ ι)}

/-- Taking a value out of the flight takes it out of what is in flight to its destination. -/
theorem in_flight_perm (hflight : s.flight.Perm (x :: rest)) (k : κ) (i : ι) : (s.inFlight k i).Perm
      ((if x.key = k ∧ x.dest = i then [x.value] else []) ++ (s.hold x rest).inFlight k i) := by
  have := (hflight.filter fun x => decide (x.key = k ∧ x.dest = i)).map Sent.value
  by_cases hx : x.key = k ∧ x.dest = i <;> simpa [State.inFlight, State.hold, hx] using this

/-- What a member holds after a value was taken out of the flight. -/
theorem recvd_hold (k : κ) (i : ι) :
    (s.hold x rest).recvd k i =
      s.recvd k i ++ if x.key = k ∧ x.dest = i then [x.value] else [] := by
  by_cases hk : x.key = k
  · subst hk
    by_cases hi : x.dest = i
    · subst hi
      simp [State.hold]
    · simp [State.hold, hi, Function.update_of_ne (Ne.symm hi)]
  · simp [State.hold, hk, Function.update_of_ne (Ne.symm hk)]

/-- A member receives the value of a child. -/
theorem hold (h : Flow T s) (hflight : s.flight.Perm (x :: rest)) : Flow T (s.hold x rest) :=
  { h with
    arrivals := by
      intro k i hnot
      refine Perm.trans ?_ (h.arrivals hnot)
      refine Perm.map _ (Perm.trans ?_ ((in_flight_perm hflight k i).symm.append_right _))
      rw [recvd_hold, ← append_assoc]
      refine perm_append_comm.trans ?_
      rw [← append_assoc]
    done_quiet := by
      intro k i hdone
      have hperm := in_flight_perm hflight k i
      rw [h.done_quiet hdone] at hperm
      exact (append_eq_nil_iff.mp hperm.nil_eq.symm).2
    done_recvd := by
      intro k i hdone
      have hx : ¬ (x.key = k ∧ x.dest = i) := by
        rintro ⟨rfl, rfl⟩
        exact h.not_done_of_flight (hflight.mem_iff.mpr mem_cons_self) hdone
      rw [recvd_hold, if_neg hx, append_nil]
      exact h.done_recvd hdone
    flight_full := fun hx => h.flight_full (hflight.mem_iff.mpr (mem_cons_of_mem _ hx))
    recvd_full := by
      intro k i v hv
      rw [recvd_hold, mem_append] at hv
      obtain hv | hv := hv
      · exact h.recvd_full hv
      · obtain ⟨⟨rfl, rfl⟩, hvx⟩ := mem_ite_nil_right.mp hv
        rw [mem_singleton.mp hvx]
        exact (h.flight_full (hflight.mem_iff.mpr mem_cons_self)).1 }

/-- The children that are done, after one more member is. -/
theorem filter_done_cons (done : List (κ × ι)) (hnot : (k, i) ∉ done) (hmem : i ∈ (T k).members)
    (k' : κ) (p : ι) : (((T k').children p).filter fun c => (k', c) ∈ (k, i) :: done).Perm
      ((if k = k' ∧ (T k).parent i = some p then [i] else []) ++
        ((T k').children p).filter fun c => (k', c) ∈ done) := by
  have hrest : ∀ c ∈ (T k').children p, ((k', c) ∈ (k, i) :: done ↔
      (k = k' ∧ i = c) ∨ (k', c) ∈ done) := by
    simp [eq_comm]
  by_cases hp : k = k' ∧ (T k).parent i = some p
  · obtain ⟨rfl, hp⟩ := hp
    rw [if_pos ⟨rfl, hp⟩, perm_ext_iff_of_nodup (((T k).children_nodup p).filter _)
      (nodup_append.mpr ⟨nodup_singleton i, ((T k).children_nodup p).filter _, by
        rintro j hj c hc rfl
        rw [mem_singleton.mp hj] at hc
        simp [hnot] at hc⟩)]
    intro c
    by_cases hc : c = i
    · simp [hc, hp, hmem]
    · simp [hc]
  · rw [if_neg hp]
    refine .of_eq (filter_congr fun c hc => ?_)
    have : ¬ (k = k' ∧ i = c) := by
      rintro ⟨rfl, rfl⟩
      exact hp ⟨rfl, (mem_children.mp hc).2⟩
    simp [hrest c hc, this]

/-- What holds of the members `done` that have passed their value on. -/
structure Passed (T : κ → RootedTree ι) (s : State κ ι) (done : List (κ × ι)) : Prop where
  called : ∀ {k i}, (k, i) ∈ done → (k, i) ∈ s.called
  children : ∀ {k i c}, (k, i) ∈ done → c ∈ (T k).children i → (k, c) ∈ done
  recvd : ∀ {k i}, (k, i) ∈ done → (s.recvd k i).length = ((T k).children i).length
  quiet : ∀ {k i}, (k, i) ∈ done → s.inFlight k i = []

/-- A member that has everything joins them. -/
theorem passed_cons (h : Flow T s) (hnot : (k, i) ∉ s.done) (hc : Complete T s k i) :
    Passed T s ((k, i) :: s.done) := by
  obtain ⟨hquiet, -, hchildren⟩ := h.complete_children hnot hc
  constructor
  case called =>
    intro k' i' hd
    obtain heq | hd := mem_cons.mp hd
    · exact heq ▸ hc.1
    · exact h.done_called hd
  case children =>
    intro k' i' c hd hcmem
    obtain heq | hd := mem_cons.mp hd
    · cases heq
      exact mem_cons_of_mem _ (hchildren c hcmem)
    · exact mem_cons_of_mem _ (h.done_children hd hcmem)
  case recvd =>
    intro k' i' hd
    obtain heq | hd := mem_cons.mp hd
    · cases heq
      exact hc.2
    · exact h.done_recvd hd
  case quiet =>
    intro k' i' hd
    obtain heq | hd := mem_cons.mp hd
    · cases heq
      exact hquiet
    · exact h.done_quiet hd

/-- A member that is not the root sends its value to its parent. -/
theorem fire_up {p : ι} (h : Flow T s) (hnot : (k, i) ∉ s.done) (hc : Complete T s k i)
    (hp : (T k).parent i = some p) : Flow T (fire T s k i) := by
  have hpassed := h.passed_cons hnot hc
  have hmem := h.called_mem hc.1
  have hpdone : (k, p) ∉ s.done := fun hd =>
    hnot (h.done_children hd (mem_children.mpr ⟨hmem, hp⟩))
  have hroot : i ≠ (T k).root := by
    rintro rfl
    rw [((T k).parent_eq_none hmem).mpr rfl] at hp
    cases hp
  have hroot_done : ∀ {k'}, (k', (T k').root) ∈ (k, i) :: s.done ↔
      (k', (T k').root) ∈ s.done := by
    intro k'
    constructor
    · intro hd
      obtain heq | hd := mem_cons.mp hd
      · cases heq
        exact absurd rfl hroot
      · exact hd
    · exact mem_cons_of_mem _
  simp only [Gather.fire, hp]
  exact
    { called_mem := h.called_mem
      done_called := hpassed.called
      arrivals := by
        intro k' i' hnot'
        have harr := h.arrivals (fun hd => hnot' (mem_cons_of_mem _ hd))
        refine Perm.trans ?_ (filter_done_cons s.done hnot hmem k' i').symm
        refine Perm.trans ?_ (harr.append_left _)
        by_cases hx : k = k' ∧ p = i'
        · obtain ⟨rfl, rfl⟩ := hx
          simp only [State.inFlight, filter_append, map_append, hp, and_self,
            decide_true, filter_cons, filter_nil, if_true, map_cons,
            map_nil, append_assoc]
          exact perm_middle
        · simp [State.inFlight, hp, hx]
      done_children := hpassed.children
      done_quiet := by
        intro k' i' hd
        have hne : ¬ (k = k' ∧ p = i') := by
          rintro ⟨rfl, rfl⟩
          obtain heq | hd := mem_cons.mp hd
          · simp only [Prod.mk.injEq, true_and] at heq
            exact absurd ((T k).parent_rank hmem hp) (by simp [heq])
          · exact hpdone hd
        simpa [State.inFlight, hne] using hpassed.quiet hd
      done_recvd := hpassed.recvd
      flight_full := by
        intro x hx
        obtain hx | hx := mem_append.mp hx
        · exact h.flight_full hx
        · rw [mem_singleton.mp hx]
          exact ⟨h.complete_full hnot hc, hp⟩
      recvd_full := h.recvd_full
      out_full := h.out_full
      out_nodup := h.out_nodup
      out_iff := h.out_iff.trans hroot_done.symm
      cleared_done := fun hk => hroot_done.mpr (h.cleared_done hk) }

/-- The root puts out its value. -/
theorem fire_root (h : Flow T s) (hnot : (k, (T k).root) ∉ s.done)
    (hc : Complete T s k (T k).root) (hp : (T k).parent (T k).root = none) :
    Flow T (fire T s k (T k).root) := by
  have hpassed := h.passed_cons hnot hc
  have hmem := h.called_mem hc.1
  have hout : k ∉ s.out.map (·.own.2) := fun hk => hnot (h.out_iff.mp hk)
  simp only [Gather.fire, hp]
  exact
    { called_mem := h.called_mem
      done_called := hpassed.called
      arrivals := by
        intro k' i' hnot'
        have harr := h.arrivals (fun hd => hnot' (mem_cons_of_mem _ hd))
        refine Perm.trans ?_ (filter_done_cons s.done hnot hmem k' i').symm
        simpa [hp, State.inFlight] using harr
      done_children := hpassed.children
      done_quiet := hpassed.quiet
      done_recvd := hpassed.recvd
      flight_full := h.flight_full
      recvd_full := h.recvd_full
      out_full := by
        intro v hv
        obtain hv | hv := mem_append.mp hv
        · exact h.out_full hv
        · rw [mem_singleton.mp hv]
          exact ⟨h.complete_full hnot hc, rfl⟩
      out_nodup := by
        rw [map_append, nodup_append]
        refine ⟨h.out_nodup, nodup_singleton _, ?_⟩
        intro k₁ hk₁ k₂ hk₂ heq
        simp only [map_cons, Merged.own_node, map_nil, mem_singleton] at hk₂
        exact hout (hk₂ ▸ heq ▸ hk₁)
      out_iff := by
        intro k'
        rw [map_append, mem_append, h.out_iff]
        by_cases hk : k' = k
        · subst hk
          simp
        · simp [hk]
      cleared_done := fun hk => mem_cons_of_mem _ (h.cleared_done hk) }

/-- A member that has everything passes its value on. -/
theorem fire (h : Flow T s) (hnot : (k, i) ∉ s.done) (hc : Complete T s k i) :
    Flow T (fire T s k i) := by
  cases hp : (T k).parent i with
  | some p => exact h.fire_up hnot hc hp
  | none =>
    obtain rfl : i = (T k).root := ((T k).parent_eq_none (h.called_mem hc.1)).mp hp
    exact h.fire_root hnot hc hp

end Flow

/-- Flow, and nobody complete left waiting: what holds between the steps. -/
structure Sound (T : κ → RootedTree ι) (s : State κ ι) : Prop where
  flow : Flow T s
  settled : Settled T s

theorem sound_init : Sound T (State.init : State κ ι) :=
  ⟨flow_init, fun _ hc => not_mem_nil hc.1⟩

/-- Settling one member, when no other is left waiting. -/
theorem Flow.settle (h : Flow T s) (hnot : (k, i) ∉ s.done)
    (hothers : ∀ {k' i'}, (k', i') ≠ (k, i) → (k', i') ∉ s.done → ¬ Complete T s k' i') :
    Sound T (settle T s k i) := by
  unfold Gather.settle
  split
  next hc =>
    refine ⟨h.fire hnot hc, ?_⟩
    intro k' i' hnot' hc'
    have hne : (k', i') ≠ (k, i) := by
      intro heq
      apply hnot'
      rw [done_fire, heq]
      exact mem_cons_self
    refine hothers hne (fun hd => hnot' ?_) ?_
    · rw [done_fire]
      exact mem_cons_of_mem _ hd
    · simpa [Complete] using hc'
  next hc =>
    refine ⟨h, ?_⟩
    intro k' i' hnot' hc'
    by_cases heq : (k', i') = (k, i)
    · cases heq
      exact hc hc'
    · exact hothers heq hnot' hc'

/-- One step keeps the invariant. -/
theorem Sound.step {e : Event κ ι} {s' : State κ ι} (h : Sound T s) (hstep : Step T s e s') :
    Sound T s' := by
  cases hstep with
  | @contribute k i hmem hnew =>
    refine (h.flow.call hmem).settle (fun hd => hnew (h.flow.done_called hd)) ?_
    intro k' i' hne hnot hc
    refine h.settled hnot ⟨?_, hc.2⟩
    exact (mem_cons.mp hc.1).resolve_left hne
  | @receive x rest hflight =>
    have hx : x ∈ s.flight := hflight.mem_iff.mpr mem_cons_self
    refine (h.flow.hold hflight).settle (h.flow.not_done_of_flight hx) ?_
    intro k' i' hne hnot hc
    refine h.settled hnot ⟨hc.1, ?_⟩
    have hother : ¬ (x.key = k' ∧ x.dest = i') := by
      rintro ⟨rfl, rfl⟩
      exact hne rfl
    have := hc.2
    rwa [Flow.recvd_hold, if_neg hother, append_nil] at this
  | clear hdone =>
    refine ⟨{ h.flow with cleared_done := ?_ }, h.settled⟩
    intro k' hk'
    obtain rfl | hk' := mem_cons.mp hk'
    · exact hdone
    · exact h.flow.cleared_done hk'

omit [DecidableEq κ] in
/-- What the root puts out is a merge of exactly the contributions of all members. -/
theorem Full.leaves_root (h : Full T k v) (hroot : v.own.1 = (T k).root) :
    v.leaves.Perm ((T k).members.map (·, k)) := by
  classical
  refine h.leaves.trans (.of_eq (congrArg _ (filter_eq_self.mpr fun j hj => ?_)))
  simpa [hroot] using below_root hj

/-- When every member has contributed and nothing is on its way to any of them, all members are
done: a member that is not would have a child that is not, of higher rank, without end. -/
theorem Sound.all_done (h : Sound T s) (hcalled : ∀ i ∈ (T k).members, (k, i) ∈ s.called)
    (hquiet : ∀ i, s.inFlight k i = []) : ∀ i ∈ (T k).members, (k, i) ∈ s.done := by
  obtain ⟨bound, hbound⟩ := (T k).exists_rank_bound
  intro i hi
  induction hr : bound - (T k).rank i using Nat.strongRecOn generalizing i with
  | _ r ih =>
    by_contra hnot
    have hall : ∀ c ∈ (T k).children i, (k, c) ∈ s.done := by
      intro c hc
      obtain ⟨hcm, hcp⟩ := mem_children.mp hc
      have hlt := (T k).parent_rank hcm hcp
      have hle := hbound c hcm
      exact ih _ (by omega) c hcm rfl
    have harr := (h.flow.arrivals hnot).length_eq
    rw [hquiet i, filter_eq_self.mpr (by simpa using hall)] at harr
    exact h.settled hnot ⟨hcalled i hi, by simpa using harr⟩

end Gather

end Reconverse.Lib
