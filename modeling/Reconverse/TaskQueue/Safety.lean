import Reconverse.TaskQueue.Model

/-!
# Every task is handed out once

A task that was pushed is in the queue, in the hand of a thread whose pop or steal has got it but
not returned yet, or returned, and in only one of these (`Inv.account`). The queue ends at `limit`:
while the owner has lowered `tail` and not decided yet, the task above `tail` still belongs to it,
since a thief that read `tail` before may take it.

A thief reads the slot of its task after it has advanced `head`. Nothing keeps the owner from
pushing to that slot in the meantime, so that the result needs all tasks that are not returned to be
less than `taskQueueSize` below the index that is pushed (`State.Room`). It is enough to see to that
when a push is called, whatever the thieves do until it stores its task (`State.HasRoom`).
-/

namespace Reconverse.TaskQueue

open Lib List State Ring
open Function (update update_eq_self update_of_ne update_self)

variable {τ : Type} {n : Nat} {i : Fin n} {e : Event τ n} {p : Thief}

/-! ## Indices -/

theorem slot_of_eq {j : Int} {k : Fin taskQueueSize} (h : slotOf j = some k) :
    k = slot taskQueueSize j := by
  rw [slotOf] at h
  split at h <;> cases h
  rfl

/-- An index that is not negative has a slot. -/
theorem slot_of_nonneg {j : Int} (h : 0 ≤ j) : slotOf j = some (slot taskQueueSize j) :=
  if_neg (Int.not_lt.mpr (Int.tmod_nonneg _ h))

/-- The indices of a queue in use are left as they are by the conversion to `int`. -/
theorem int_of_index {j : Int} (hlo : -1 ≤ j) (hhi : j ≤ CInt.intMax) : CInt.int j = j :=
  CInt.int_of_fits ⟨by omega, hhi⟩

/-- Indices that are `taskQueueSize` apart have one slot. -/
theorem slot_sub {j : Int} (h : 0 ≤ j - taskQueueSize) :
    slot taskQueueSize (j - taskQueueSize) = slot taskQueueSize j := by
  have hsum : j.toNat = (j - taskQueueSize).toNat + taskQueueSize := by omega
  refine Fin.ext ?_
  show (j - taskQueueSize).toNat % taskQueueSize = j.toNat % taskQueueSize
  rw [hsum, Nat.add_mod_right]

/-! ## Where a task is -/

/-- The owner has lowered `tail` and not decided whether it gets the task there. -/
def Owner.extra : Owner τ → Int
  | .popHead _ | .popReset _ | .popLast .. => 1
  | _ => 0

theorem Owner.extra_nonneg (p : Owner τ) : 0 ≤ p.extra := by
  cases p <;> simp [Owner.extra]

/-- The task that the owner is about to return. -/
def Owner.taken (data : Fin taskQueueSize → τ) : Owner τ → List τ
  | .popTake t => [data (Ring.slot taskQueueSize t)]
  | _ => []

/-- The task that a thief is about to return. -/
def Thief.taken (data : Fin taskQueueSize → τ) : Thief → Option τ
  | .take h => some (data (Ring.slot taskQueueSize h))
  | _ => none

/-- The task that the thief is about to return, if any, is less than `taskQueueSize` below
`tail`. -/
def Thief.near (tail : Int) : Thief → Bool
  | .take h => tail - h < taskQueueSize
  | _ => true

namespace State

variable (s : State τ n)

/-- The end of the queue. -/
def limit : Int := s.tail + s.owner.extra

/-- The tasks in the queue. -/
def tasks : List τ := Ring.span s.data s.head s.limit

/-- The tasks that thieves are about to return. -/
def stolen : List τ := (List.finRange n).filterMap fun i => (s.thieves i).taken s.data

/-- The tasks that threads are about to return. -/
def inHand : List τ := s.owner.taken s.data ++ s.stolen

/-- No thread is in a call. -/
def Quiet : Prop := s.owner = .idle ∧ ∀ i, s.thieves i = .idle

/-- All tasks that are not returned, those that thieves are about to return included, are less than
`taskQueueSize` below `tail`. -/
def Within (tail : Int) : Prop :=
  tail - s.head < taskQueueSize ∧ ∀ i, (s.thieves i).near tail

instance (tail : Int) : Decidable (s.Within tail) := inferInstanceAs (Decidable (_ ∧ _))

/-- A push writes to a slot only if all tasks that are not returned are less than `taskQueueSize`
below it, and `tail` stays an `int`. -/
def Room : Event τ n → Prop
  | .owner =>
    match s.owner with
    | .pushStore _ tail => s.Within tail
    | .pushPublish _ tail => tail < CInt.intMax
    | _ => True
  | _ => True

instance (e : Event τ n) : Decidable (s.Room e) := by
  unfold Room
  split
  · split <;> infer_instance
  · infer_instance

/-- What the owner knows. -/
def OwnerOk : Prop :=
  match s.owner with
  | .idle | .pushData _ | .popTail | .popTake _ => True
  | .pushStore _ tail => tail = s.tail
  | .pushTail data => s.data (Ring.slot taskQueueSize s.tail) = data
  | .pushPublish data tail => tail = s.tail ∧ s.data (Ring.slot taskQueueSize s.tail) = data
  | .popClaim t => t + 1 = s.tail
  | .popHead t => t = s.tail
  | .popReset h => h = s.head ∧ h = s.tail + 1
  | .popLast t h => t = s.tail ∧ h = t
  | .popCAS t h => h = t ∧ s.tail = h + 1

/-- What a thief knows. An index that it may still win is that of a task in the queue. -/
def ThiefOk : Thief → Prop
  | .idle | .readHead => True
  | .readTail h => 0 ≤ h ∧ h ≤ s.head
  | .cas h => 0 ≤ h ∧ h ≤ s.head ∧ (h = s.head → h < s.limit)
  | .take h => 0 ≤ h ∧ h < s.head

end State

/-- What holds in every state. -/
structure Inv (s : State τ n) : Prop where
  head_nonneg : 0 ≤ s.head
  head_le : s.head ≤ s.limit
  limit_le : s.limit ≤ CInt.intMax
  owner : s.OwnerOk
  thieves : ∀ i, s.ThiefOk (s.thieves i)
  account : s.pushed.Perm (s.returned ++ (s.tasks ++ s.inHand))

/-- A new queue is empty. -/
theorem create_inv (garbage : Fin taskQueueSize → τ) : Inv (taskQueueCreate n garbage) where
  head_nonneg := Int.le_refl 0
  head_le := Int.le_refl 0
  limit_le := show (0 : Int) ≤ CInt.intMax by decide
  owner := trivial
  thieves _ := trivial
  account := by
    have hstolen : (taskQueueCreate n garbage).stolen = [] :=
      filterMap_eq_nil_iff.mpr fun _ _ => rfl
    rw [inHand, hstolen]
    exact .refl []

/-- What a thief knows stays true when `head` advances and a task at `head` stays. -/
theorem State.ThiefOk.mono {s s' : State τ n} (h : s.ThiefOk p)
    (hhead : s.head ≤ s'.head) (hlimit : s'.head = s.head → s.head < s.limit → s.head < s'.limit) :
    s'.ThiefOk p := by
  cases p with
  | idle | readHead => trivial
  | readTail h' => exact ⟨h.1, h.2.trans hhead⟩
  | cas h' =>
    obtain ⟨hpos, hle, hlast⟩ := h
    refine ⟨hpos, hle.trans hhead, fun heq => ?_⟩
    omega
  | take h' => exact ⟨h.1, Int.lt_of_lt_of_le h.2 hhead⟩

namespace Inv

variable {s s' : State τ n}

section

variable (h : Inv s) {tail : Int} {t : Int} {data : τ}

include h

/-- A step of the owner that leaves the queue and the tasks in hand alone. -/
theorem ownerMove {p : Owner τ}
    (hlimit : tail + p.extra = s.limit) (htaken : p.taken s.data = s.owner.taken s.data)
    (howner : State.OwnerOk { s with tail := tail, owner := p }) :
    Inv { s with tail := tail, owner := p } where
  head_nonneg := h.head_nonneg
  head_le := le_of_le_of_eq h.head_le hlimit.symm
  limit_le := le_of_eq_of_le hlimit h.limit_le
  owner := howner
  thieves i := (h.thieves i).mono (Int.le_refl _) fun _ hlt => lt_of_lt_of_eq hlt hlimit.symm
  account := by
    have hperm := h.account
    rw [inHand, ← htaken, tasks, ← hlimit] at hperm
    exact hperm

/-- The owner writes the task to the slot at `tail`. -/
theorem pushStore (hs : s.owner = .pushStore data tail) (hroom : s.Room .owner) :
    Inv { s with data := update s.data (slot taskQueueSize tail) data,
                 owner := .pushTail data } := by
  have howner := h.owner
  rw [State.OwnerOk, hs] at howner
  obtain rfl : tail = s.tail := howner
  rw [State.Room, hs] at hroom
  obtain ⟨hqueue, hstolen⟩ := hroom
  have hlimit : s.limit = s.tail + 0 := by rw [limit, hs]; rfl
  have hle := h.head_le
  constructor
  case head_nonneg => exact h.head_nonneg
  case head_le => exact le_of_le_of_eq hle hlimit
  case limit_le => exact le_of_eq_of_le hlimit.symm h.limit_le
  case owner => exact update_self ..
  case thieves =>
    exact fun i => (h.thieves i).mono (Int.le_refl _) fun _ hlt => lt_of_lt_of_eq hlt hlimit
  case account =>
    have htasks : span (update s.data (slot taskQueueSize s.tail) data) s.head
        (s.tail + 0) = s.tasks := by
      rw [span_update _ h.head_nonneg (by omega) hqueue, tasks, hlimit]
    have htheft : (finRange n).filterMap (fun i => (s.thieves i).taken
        (update s.data (slot taskQueueSize s.tail) data)) = s.stolen := by
      refine filterMap_congr fun i _ => ?_
      cases hi : s.thieves i with
      | take h' =>
        have hok := h.thieves i
        rw [hi] at hok
        have hlt : h' < s.tail := by have := hok.2; omega
        have hnear := hstolen i
        rw [hi] at hnear
        exact congrArg some
          (update_of_ne (slot_ne hok.1 hlt (of_decide_eq_true hnear)) ..)
      | idle | readHead | readTail | cas => rfl
    have hperm := h.account
    rw [inHand, hs] at hperm
    show s.pushed.Perm (s.returned ++ (span _ s.head (s.tail + 0) ++ ([] ++
      (finRange n).filterMap fun i => (s.thieves i).taken _)))
    rw [htasks, htheft]
    exact hperm

/-- The pushed task is in the queue. -/
theorem pushPublish (hs : s.owner = .pushPublish data tail) (hroom : s.Room .owner) :
    Inv { s with tail := tail + 1, owner := .idle, pushed := s.pushed ++ [data] } := by
  have howner := h.owner
  rw [State.OwnerOk, hs] at howner
  obtain ⟨rfl, hdata⟩ : tail = s.tail ∧ _ := howner
  rw [State.Room, hs] at hroom
  have hlimit : s.limit = s.tail := by rw [limit, hs]; exact Int.add_zero _
  have hle := h.head_le
  constructor
  case head_nonneg => exact h.head_nonneg
  case head_le =>
    show s.head ≤ s.tail + 1 + 0
    omega
  case limit_le =>
    show s.tail + 1 + 0 ≤ CInt.intMax
    rw [Int.add_zero]
    exact Int.add_one_le_of_lt hroom
  case owner => trivial
  case thieves =>
    refine fun i => (h.thieves i).mono (Int.le_refl _) fun _ hlt => ?_
    show s.head < s.tail + 1 + 0
    omega
  case account =>
    have htasks : span s.data s.head (s.tail + 1 + 0) = s.tasks ++ [data] := by
      rw [Int.add_zero, span_back _ (by omega), hdata, tasks, hlimit]
    have hperm := h.account
    rw [inHand, hs] at hperm
    show (s.pushed ++ [data]).Perm (s.returned ++ (span _ s.head (s.tail + 1 + 0) ++ _))
    rw [htasks, append_assoc]
    refine (hperm.append_right [data]).trans ?_
    rw [append_assoc, append_assoc]
    exact Perm.append_left _ (Perm.append_left _ perm_append_comm)

/-- More than one task is left, and the owner gets the last. -/
theorem popBack (hs : s.owner = .popHead t) (ht : t > s.head) :
    Inv { s with owner := .popTake t } := by
  have howner := h.owner
  rw [State.OwnerOk, hs] at howner
  obtain rfl : t = s.tail := howner
  have hlimit : s.limit = s.tail + 1 := by rw [limit, hs]; rfl
  constructor
  case head_nonneg => exact h.head_nonneg
  case head_le =>
    show s.head ≤ s.tail + 0
    omega
  case limit_le =>
    have hle := h.limit_le
    show s.tail + 0 ≤ CInt.intMax
    omega
  case owner => trivial
  case thieves =>
    refine fun i => (h.thieves i).mono (Int.le_refl _) fun _ _ => ?_
    show s.head < s.tail + 0
    omega
  case account =>
    have htasks : s.tasks = span s.data s.head (s.tail + 0) ++
        [s.data (slot taskQueueSize s.tail)] := by
      rw [Int.add_zero, tasks, hlimit, span_back _ (by omega)]
    have hperm := h.account
    rw [inHand, hs, htasks, append_assoc] at hperm
    exact hperm

/-- The owner gets the only task. -/
theorem popWin (hs : s.owner = .popCAS t s.head) :
    Inv { s with head := s.head + 1, owner := .popTake t } := by
  have howner := h.owner
  rw [State.OwnerOk, hs] at howner
  obtain ⟨rfl, htail⟩ : s.head = t ∧ s.tail = s.head + 1 := howner
  have hlimit : s.limit = s.tail + 0 := by rw [limit, hs]; rfl
  have hpos := h.head_nonneg
  constructor
  case head_nonneg =>
    show 0 ≤ s.head + 1
    omega
  case head_le =>
    show s.head + 1 ≤ s.tail + 0
    omega
  case limit_le => exact le_of_eq_of_le hlimit.symm h.limit_le
  case owner => trivial
  case thieves =>
    refine fun i => (h.thieves i).mono ?_ fun heq => ?_
    · show s.head ≤ s.head + 1
      omega
    · have heq : s.head + 1 = s.head := heq
      omega
  case account =>
    have htasks : s.tasks = [s.data (slot taskQueueSize s.head)] := by
      rw [tasks, span_front _ (by omega), span_of_le _ (by omega)]
    have hempty : span s.data (s.head + 1) (s.tail + 0) = [] := span_of_le _ (by omega)
    have hperm := h.account
    rw [inHand, hs, htasks] at hperm
    show s.pushed.Perm (s.returned ++ (span s.data (s.head + 1) (s.tail + 0) ++ _))
    rw [hempty]
    exact hperm

/-- The owner returns its task. -/
theorem popReturn (hs : s.owner = .popTake t) :
    Inv { s with owner := .idle,
                 returned := s.returned ++ [s.data (slot taskQueueSize t)] } := by
  have hlimit : s.limit = s.tail + 0 := by rw [limit, hs]; rfl
  constructor
  case head_nonneg => exact h.head_nonneg
  case head_le => exact le_of_le_of_eq h.head_le hlimit
  case limit_le => exact le_of_eq_of_le hlimit.symm h.limit_le
  case owner => trivial
  case thieves =>
    exact fun i => (h.thieves i).mono (Int.le_refl _) fun _ hlt => lt_of_lt_of_eq hlt hlimit
  case account =>
    have hperm := h.account
    rw [inHand, hs, tasks, hlimit] at hperm
    refine hperm.trans ?_
    rw [append_assoc]
    refine Perm.append_left _ ?_
    exact perm_middle

/-- Every step of the owner keeps the invariant. -/
theorem ownerStep (hroom : s.Room .owner) (hstep : s.ownerStep = some s') : Inv s' := by
  have howner := h.owner
  have hpos := h.head_nonneg
  have hle := h.head_le
  have hmax := h.limit_le
  rw [State.OwnerOk] at howner
  rw [State.ownerStep] at hstep
  cases hs : s.owner with
  | idle => simp only [hs] at hstep; cases hstep
  | pushData data =>
    simp only [hs] at hstep
    cases hstep
    refine h.ownerMove ?_ ?_ rfl
    · rw [limit, hs]; rfl
    · rw [hs]; rfl
  | pushStore data tail =>
    simp only [hs] at hstep
    obtain ⟨k, hslot, rfl⟩ := Option.map_eq_some_iff.mp hstep
    obtain rfl := slot_of_eq hslot
    exact h.pushStore hs hroom
  | pushTail data =>
    simp only [hs] at hstep howner
    cases hstep
    refine h.ownerMove ?_ ?_ ⟨rfl, howner⟩
    · rw [limit, hs]; rfl
    · rw [hs]; rfl
  | pushPublish data tail =>
    simp only [hs] at hstep howner
    cases hstep
    have hlimit : s.limit = s.tail + 0 := by rw [limit, hs]; rfl
    have hmax : tail < CInt.intMax := by rwa [State.Room, hs] at hroom
    rw [int_of_index (by omega) (Int.add_one_le_of_lt hmax)]
    exact h.pushPublish hs hroom
  | popTail =>
    simp only [hs] at hstep
    cases hstep
    have hlimit : s.limit = s.tail + 0 := by rw [limit, hs]; rfl
    rw [int_of_index (by omega) (by omega)]
    refine h.ownerMove ?_ ?_ (Int.sub_add_cancel ..)
    · rw [limit, hs]; rfl
    · rw [hs]; rfl
  | popClaim t =>
    simp only [hs] at hstep howner
    cases hstep
    refine h.ownerMove ?_ ?_ rfl
    · rw [limit, hs]
      show t + 1 = s.tail + 0
      omega
    · rw [hs]; rfl
  | popHead t =>
    simp only [hs] at hstep howner
    have hlimit : s.limit = s.tail + 1 := by rw [limit, hs]; rfl
    split at hstep
    · cases hstep
      exact h.popBack hs (by assumption)
    split at hstep
    · cases hstep
      exact h.ownerMove hlimit.symm (by rw [hs]; rfl) ⟨rfl, show s.head = s.tail + 1 by omega⟩
    · cases hstep
      exact h.ownerMove hlimit.symm (by rw [hs]; rfl) ⟨howner, by omega⟩
  | popReset h' =>
    simp only [hs] at hstep howner
    cases hstep
    refine h.ownerMove ?_ ?_ trivial
    · rw [limit, hs]
      show h' + 0 = s.tail + 1
      omega
    · rw [hs]; rfl
  | popLast t h' =>
    simp only [hs] at hstep howner
    cases hstep
    have hlimit : s.limit = s.tail + 1 := by rw [limit, hs]; rfl
    rw [int_of_index (by omega) (by omega)]
    refine h.ownerMove ?_ ?_ ⟨howner.2, rfl⟩
    · rw [limit, hs]
      show h' + 1 + 0 = s.tail + 1
      omega
    · rw [hs]; rfl
  | popCAS t h' =>
    simp only [hs] at hstep howner
    split at hstep
    · rename_i heq
      cases hstep
      have hlimit : s.limit = s.tail + 0 := by rw [limit, hs]; rfl
      rw [← heq] at hs ⊢
      rw [int_of_index (by omega) (by omega)]
      exact h.popWin hs
    · cases hstep
      refine h.ownerMove ?_ ?_ trivial
      · rw [limit, hs]; rfl
      · rw [hs]; rfl
  | popTake t =>
    simp only [hs] at hstep
    obtain ⟨k, hslot, rfl⟩ := Option.map_eq_some_iff.mp hstep
    obtain rfl := slot_of_eq hslot
    exact h.popReturn hs

/-- A step of a thief that has no task. -/
theorem thiefMove (hs : (s.thieves i).taken s.data = none)
    (hp : p.taken s.data = none) (hok : s.ThiefOk p) : Inv (s.setThief i p) where
  head_nonneg := h.head_nonneg
  head_le := h.head_le
  limit_le := h.limit_le
  owner := h.owner
  thieves j := by
    rcases eq_or_ne j i with rfl | hne
    · show s.ThiefOk (update s.thieves j p j)
      rw [update_self]
      exact hok
    · show s.ThiefOk (update s.thieves i p j)
      rw [update_of_ne hne]
      exact h.thieves j
  account := by
    have hsame : (s.setThief i p).stolen = s.stolen := by
      refine filterMap_congr fun j _ => ?_
      show (update s.thieves i p j).taken s.data = _
      rcases eq_or_ne j i with rfl | hne
      · rw [update_self, hp, hs]
      · rw [update_of_ne hne]
    rw [inHand, hsame]
    exact h.account

/-- The thief gets the task at `head`. -/
theorem stealWin (hs : s.thieves i = .cas s.head) :
    Inv ({ s with head := s.head + 1 }.setThief i (.take s.head)) := by
  have hthief := h.thieves i
  rw [hs] at hthief
  have hlt : s.head < s.limit := hthief.2.2 rfl
  have hpos := h.head_nonneg
  constructor
  case head_nonneg =>
    show 0 ≤ s.head + 1
    omega
  case head_le =>
    show s.head + 1 ≤ s.limit
    omega
  case limit_le => exact h.limit_le
  case owner =>
    -- The owner that found the queue empty does not see `head` move.
    have howner := h.owner
    rw [State.OwnerOk] at howner
    cases hp : s.owner with
    | popReset h' =>
      simp only [hp] at howner
      rw [limit, hp] at hlt
      have hlt : s.head < s.tail + 1 := hlt
      omega
    | idle | pushData | popTail | popTake | pushStore | pushTail | pushPublish | popClaim |
      popHead | popLast | popCAS =>
        rw [hp] at howner
        exact howner
  case thieves =>
    intro j
    rcases eq_or_ne j i with rfl | hne
    · show State.ThiefOk _ (update s.thieves j (.take s.head) j)
      rw [update_self]
      exact ⟨hpos, show s.head < s.head + 1 by omega⟩
    · show State.ThiefOk _ (update s.thieves i (.take s.head) j)
      rw [update_of_ne hne]
      refine (h.thieves j).mono ?_ fun heq => ?_
      · show s.head ≤ s.head + 1
        omega
      · have heq : s.head + 1 = s.head := heq
        omega
  case account =>
    obtain ⟨rest, hrest⟩ := filterMap_finRange s.thieves i (Thief.taken s.data)
    have hbefore : s.stolen.Perm rest := by
      have hperm := hrest (s.thieves i)
      rw [update_eq_self, hs] at hperm
      exact hperm
    have htasks : s.tasks = s.data (slot taskQueueSize s.head) ::
        span s.data (s.head + 1) s.limit := span_front _ hlt
    refine h.account.trans (Perm.append_left _ ?_)
    rw [htasks, inHand]
    show Perm _ (span s.data (s.head + 1) s.limit ++ (s.owner.taken s.data ++ _))
    rw [← append_assoc, ← append_assoc]
    refine perm_middle.symm.trans (Perm.append_left _ ?_)
    exact (hbefore.cons _).trans (hrest (.take s.head)).symm

/-- The thief returns its task. -/
theorem stealReturn {h' : Int} (hs : s.thieves i = .take h') :
    Inv ({ s with
      returned := s.returned ++ [s.data (Ring.slot taskQueueSize h')] }.setThief i .idle) := by
  constructor
  case head_nonneg => exact h.head_nonneg
  case head_le => exact h.head_le
  case limit_le => exact h.limit_le
  case owner => exact h.owner
  case thieves =>
    intro j
    rcases eq_or_ne j i with rfl | hne
    · show State.ThiefOk _ (update s.thieves j .idle j)
      rw [update_self]
      trivial
    · show State.ThiefOk _ (update s.thieves i .idle j)
      rw [update_of_ne hne]
      exact h.thieves j
  case account =>
    obtain ⟨rest, hrest⟩ := filterMap_finRange s.thieves i (Thief.taken s.data)
    have hbefore : s.stolen.Perm (s.data (slot taskQueueSize h') :: rest) := by
      have hperm := hrest (s.thieves i)
      rw [update_eq_self, hs] at hperm
      exact hperm
    refine h.account.trans ?_
    show Perm _ (s.returned ++ [_] ++ (s.tasks ++ (s.owner.taken s.data ++ _)))
    rw [append_assoc, inHand, ← append_assoc s.tasks, ← append_assoc s.tasks]
    refine Perm.append_left _ ?_
    refine (hbefore.append_left _).trans (perm_middle.trans (Perm.cons _ ?_))
    exact Perm.append_left _ (hrest .idle).symm

/-- Every step of a thief keeps the invariant. -/
theorem thiefStep (hstep : s.thiefStep i = some s') : Inv s' := by
  have hthief := h.thieves i
  have hpos := h.head_nonneg
  have hmax := h.limit_le
  rw [State.thiefStep] at hstep
  cases hs : s.thieves i with
  | idle => simp only [hs] at hstep; cases hstep
  | readHead =>
    simp only [hs] at hstep
    cases hstep
    exact h.thiefMove (by rw [hs]; rfl) rfl ⟨h.head_nonneg, Int.le_refl _⟩
  | readTail h' =>
    simp only [hs] at hstep hthief
    cases hstep
    obtain ⟨hpos, hle⟩ := hthief
    split
    · exact h.thiefMove (by rw [hs]; rfl) rfl trivial
    · refine h.thiefMove (by rw [hs]; rfl) rfl ⟨hpos, hle, fun _ => ?_⟩
      have hextra := s.owner.extra_nonneg
      rw [limit]
      omega
  | cas h' =>
    simp only [hs] at hstep
    split at hstep
    · rename_i heq
      cases hstep
      rw [← heq] at hs ⊢
      rw [hs] at hthief
      have hlt : s.head < s.limit := hthief.2.2 rfl
      rw [int_of_index (by omega) (by omega)]
      exact h.stealWin hs
    · cases hstep
      exact h.thiefMove (by rw [hs]; rfl) rfl trivial
  | take h' =>
    simp only [hs] at hstep
    obtain ⟨k, hslot, rfl⟩ := Option.map_eq_some_iff.mp hstep
    obtain rfl := slot_of_eq hslot
    exact h.stealReturn hs

/-- What one event preserves if a push has room. -/
theorem step (hroom : s.Room e) (hstep : Step s e s') : Inv s' := by
  cases e with
  | push | pop =>
    simp only [Step, State.step] at hstep
    split at hstep
    · rename_i hidle
      cases hstep
      refine h.ownerMove ?_ ?_ trivial
      · rw [State.limit, hidle]; rfl
      · rw [hidle]; rfl
    · cases hstep
  | owner => exact h.ownerStep hroom hstep
  | steal i =>
    simp only [Step, State.step] at hstep
    split at hstep
    · rename_i hidle
      cases hstep
      exact h.thiefMove (by rw [hidle]; rfl) rfl trivial
    · cases hstep
  | thief i => exact h.thiefStep hstep

end

end Inv

/-! ## Runs -/

/-- In a run in which every push has room each task that was pushed is returned by at most one pop
or steal, nothing else is returned, and when all threads are quiet the tasks that are not returned
are those from `head` to `tail`. -/
theorem tasks_returned_once {garbage : Fin taskQueueSize → τ} {es : List (Event τ n)}
    {s : State τ n}
    (hrun : Steps (fun s e s' => s.Room e ∧ Step s e s') (taskQueueCreate n garbage) es s) :
    s.returned.Subperm s.pushed ∧
    (s.Quiet → s.pushed.Perm (s.returned ++ Ring.span s.data s.head s.tail)) := by
  have h : Inv s := hrun.invariant (fun _ _ _ h hstep => h.step hstep.1 hstep.2)
    (create_inv garbage)
  constructor
  · exact ((sublist_append_left ..).subperm).trans h.account.symm.subperm
  · intro hquiet
    have hstolen : s.stolen = [] := by
      refine filterMap_eq_nil_iff.mpr fun i _ => ?_
      rw [hquiet.2 i]
      rfl
    have hperm := h.account
    rw [inHand, hstolen, tasks, limit, hquiet.1] at hperm
    rw [← Int.add_zero s.tail, ← append_nil (span _ _ _)]
    exact hperm

/-- Two tasks are pushed. A thief is about to take the first when the owner pops the second. -/
theorem pop_beside_steal : ∃ es s, Steps (fun (s : State Nat 1) e s' => s.Room e ∧ Step s e s')
    (taskQueueCreate 1 fun _ => 0) es s ∧ s.pushed = [7, 8] ∧ s.Quiet ∧
    s.pushed.Perm (s.returned ++ Ring.span s.data s.head s.tail) := by
  obtain ⟨s, hsteps, hpushed, hquiet⟩ : ∃ s,
      Steps (fun (s : State Nat 1) e s' => s.Room e ∧ Step s e s')
      (taskQueueCreate 1 fun _ => 0)
      [.push 7, .owner, .owner, .owner, .owner, .push 8, .owner, .owner,
        .owner, .owner, .steal 0, .thief 0, .thief 0, .pop, .owner, .owner, .owner, .thief 0,
        .owner, .thief 0] s ∧ s.pushed = [7, 8] ∧ s.owner = .idle ∧ ∀ i, s.thieves i = .idle :=
    Steps.exists_of_checked (by decide)
  exact ⟨_, s, hsteps, hpushed, hquiet, (tasks_returned_once hsteps).2 hquiet⟩

/-! ## A thief that is overtaken -/

/-- An event after which at most `taskQueueSize` tasks are pushed and not returned. -/
def BoundedStep (s : State τ n) (e : Event τ n) (s' : State τ n) : Prop :=
  Step s e s' ∧ s'.pushed.length ≤ s'.returned.length + taskQueueSize

namespace State

/-- After a push. -/
def afterPush (s : State τ n) (x : τ) : State τ n :=
  { s with
    data := update s.data (Ring.slot taskQueueSize s.tail) x
    tail := s.tail + 1
    owner := .idle
    pushed := s.pushed ++ [x] }

/-- After thief `i` has got the task at `head`. -/
def afterWin (s : State τ n) (i : Fin n) : State τ n :=
  { s with head := s.head + 1 }.setThief i (.take s.head)

/-- After thief `i` has returned the task with index `h`. -/
def afterReturn (s : State τ n) (i : Fin n) (h : Int) : State τ n :=
  { s with returned := s.returned ++ [s.data (Ring.slot taskQueueSize h)] }.setThief i .idle

variable {s : State τ n} {i : Fin n}

theorem set_thief_self (s : State τ n) (i : Fin n) (p : Thief) :
    (s.setThief i p).thieves i = p := update_self ..

theorem set_thief_set_thief (s : State τ n) (i : Fin n) (p q : Thief) :
    (s.setThief i p).setThief i q = s.setThief i q := by
  rw [setThief, setThief, setThief, Function.update_idem]

theorem push_step (howner : s.owner = .idle) (x : τ) :
    Step s (.push x) { s with owner := .pushData x } := by
  rw [Step, step, howner]

theorem publish_step (s : State τ n) (x : τ) :
    Step { s with owner := .pushPublish x s.tail } .owner { s with
      tail := CInt.int (s.tail + 1), owner := .idle, pushed := s.pushed ++ [x] } := rfl

theorem store_step (htail : 0 ≤ s.tail) (x : τ) :
    Step { s with owner := .pushStore x s.tail } .owner { s with
      data := update s.data (slot taskQueueSize s.tail) x, owner := .pushTail x } :=
  congrArg (Option.map _) (slot_of_nonneg htail)

/-- A push that nothing interrupts. -/
theorem push_run (howner : s.owner = .idle) (htail : 0 ≤ s.tail) (hmax : s.tail < CInt.intMax)
    (x : τ) (hbound : s.pushed.length < s.returned.length + taskQueueSize) :
    Steps BoundedStep s [.push x, .owner, .owner, .owner, .owner] (s.afterPush x) := by
  have hle := le_of_lt hbound
  have hlast := publish_step { s with data := update s.data (slot taskQueueSize s.tail) x } x
  rw [int_of_index (by omega) (Int.add_one_le_of_lt hmax)] at hlast
  refine .cons ⟨push_step howner x, hle⟩ (.cons ⟨rfl, hle⟩ (.cons ⟨store_step htail x, hle⟩
    (.cons ⟨rfl, hle⟩ (.single ⟨hlast, ?_⟩))))
  show (s.pushed ++ [x]).length ≤ s.returned.length + taskQueueSize
  rw [length_append]
  exact hbound

/-- A thief gets the task at `head` and has not read its slot yet. -/
theorem win_run (hthief : s.thieves i = .idle) (hqueue : s.head < s.tail) (hhead : 0 ≤ s.head)
    (hmax : s.tail ≤ CInt.intMax)
    (hbound : s.pushed.length ≤ s.returned.length + taskQueueSize) :
    Steps BoundedStep s [.steal i, .thief i, .thief i, .thief i] (s.afterWin i) := by
  have hcall : Step s (.steal i) (s.setThief i .readHead) := by
    rw [Step, step, if_pos hthief]
  have hread : Step (s.setThief i .readHead) (.thief i) (s.setThief i (.readTail s.head)) := by
    rw [Step, step, thiefStep, set_thief_self]
    exact congrArg some (set_thief_set_thief ..)
  have htail : Step (s.setThief i (.readTail s.head)) (.thief i) (s.setThief i (.cas s.head)) := by
    rw [Step, step, thiefStep, set_thief_self]
    show some (setThief _ i (if s.head ≥ s.tail then .idle else .cas s.head)) = _
    rw [if_neg (Int.not_le.mpr hqueue), set_thief_set_thief]
  have hcas : Step (s.setThief i (.cas s.head)) (.thief i) (s.afterWin i) := by
    rw [Step, step, thiefStep, set_thief_self]
    show (if s.head = s.head then some (setThief { s with
      head := CInt.int (s.head + 1), thieves := update s.thieves i (.cas s.head) } i
        (.take s.head)) else _) = _
    rw [if_pos rfl, int_of_index (by omega) (by omega)]
    exact congrArg some (set_thief_set_thief { s with head := s.head + 1 } i _ _)
  exact .cons ⟨hcall, hbound⟩ (.cons ⟨hread, hbound⟩ (.cons ⟨htail, hbound⟩
    (.single ⟨hcas, hbound⟩)))

/-- A thief that has won a task reads its slot. -/
theorem return_run {h : Int} (hthief : s.thieves i = .take h) (hpos : 0 ≤ h)
    (hbound : s.pushed.length ≤ s.returned.length + taskQueueSize) :
    Steps BoundedStep s [.thief i] (s.afterReturn i h) := by
  refine .single ⟨?_, ?_⟩
  · rw [Step, step, thiefStep, hthief]
    exact congrArg (Option.map _) (slot_of_nonneg hpos)
  · show s.pushed.length ≤ (s.returned ++ [_]).length + taskQueueSize
    rw [length_append]
    omega

end State

/-- The queue is empty, thief 0 has won task 0 and not read its slot, and all other tasks are
returned. -/
structure Overtaken (s : State Nat 2) (tasks : List Nat) : Prop where
  owner : s.owner = .idle
  parked : s.thieves 0 = .take 0
  helper : s.thieves 1 = .idle
  head : s.head = tasks.length + 1
  tail : s.tail = s.head
  pushed : s.pushed = 0 :: tasks
  returned : s.returned = tasks

namespace Overtaken

variable {s : State Nat 2} {tasks : List Nat}

/-- The other thief is handed the next task, and wins it. -/
theorem push_win (h : Overtaken s tasks) (hfew : tasks.length ≤ 1023) (x : Nat) : ∃ es,
    Steps BoundedStep s es ((s.afterPush x).afterWin 1) := by
  have hsize : taskQueueSize = 1024 := rfl
  have hhead := h.head
  have htail := h.tail
  have hmax : s.tail < CInt.intMax := by unfold CInt.intMax; omega
  have hlen : s.pushed.length = s.returned.length + 1 := by
    rw [h.pushed, h.returned, length_cons]
  have hmore : (s.pushed ++ [x]).length = s.pushed.length + 1 := length_append
  have hpush := push_run h.owner (by omega) hmax x (by omega)
  have hqueue : (s.afterPush x).head < (s.afterPush x).tail := by
    show s.head < s.tail + 1
    omega
  have hbound : (s.pushed ++ [x]).length ≤ s.returned.length + taskQueueSize := by omega
  have hpos : 0 ≤ (s.afterPush x).head := by
    show 0 ≤ s.head
    omega
  exact ⟨_, hpush.append (win_run h.helper hqueue hpos (Int.add_one_le_of_lt hmax) hbound)⟩

/-- The other thief returns the next task. -/
theorem next (h : Overtaken s tasks) (hfew : tasks.length ≤ 1023) (x : Nat) :
    ∃ es s', Steps BoundedStep s es s' ∧ Overtaken s' (tasks ++ [x]) := by
  obtain ⟨es, hrun⟩ := h.push_win hfew x
  have hsize : taskQueueSize = 1024 := rfl
  have hbound : (s.pushed ++ [x]).length ≤ s.returned.length + taskQueueSize := by
    rw [length_append, h.pushed, h.returned]
    show tasks.length + 1 + 1 ≤ _
    omega
  have hpos : 0 ≤ (s.afterPush x).head := by
    show 0 ≤ s.head
    have := h.head
    omega
  have hreturn := return_run (s := (s.afterPush x).afterWin 1) (set_thief_self ..) hpos hbound
  refine ⟨_, _, hrun.append hreturn, ?_⟩
  have hslot : update s.data (slot taskQueueSize s.tail) x (slot taskQueueSize s.head) =
      x := by rw [h.tail, update_self]
  have htail := h.tail
  constructor
  case owner => rfl
  case parked => exact h.parked
  case helper => exact set_thief_self ..
  case head =>
    show s.head + 1 = ((tasks ++ [x]).length : Int) + 1
    rw [length_append, h.head]
    rfl
  case tail =>
    show s.tail + 1 = s.head + 1
    omega
  case pushed =>
    show s.pushed ++ [x] = 0 :: (tasks ++ [x])
    rw [h.pushed]
    rfl
  case returned =>
    show s.returned ++ [update s.data (slot taskQueueSize s.tail) x
      (slot taskQueueSize s.head)] = tasks ++ [x]
    rw [hslot, h.returned]

/-- The other thief returns any number of tasks. -/
theorem run (h : Overtaken s tasks) (xs : List Nat) (hfew : (tasks ++ xs).length ≤ 1023) :
    ∃ es s', Steps BoundedStep s es s' ∧ Overtaken s' (tasks ++ xs) := by
  induction xs generalizing s tasks with
  | nil => exact ⟨[], s, .nil s, by rwa [append_nil]⟩
  | cons x xs ih =>
    have hlen : (tasks ++ x :: xs).length = tasks.length + (xs.length + 1) := length_append
    obtain ⟨es, s₁, hfirst, h₁⟩ := h.next (by omega) x
    obtain ⟨fs, s₂, hrest, h₂⟩ := ih h₁ (by rwa [append_assoc])
    exact ⟨es ++ fs, s₂, hfirst.append hrest, by rwa [append_assoc] at h₂⟩

end Overtaken

/-- Thief 0 wins task 0 of two thieves. -/
theorem overtaken_start : ∃ es s,
    Steps BoundedStep (taskQueueCreate 2 fun _ => 0) es s ∧ Overtaken s [] := by
  have hpush := push_run (s := taskQueueCreate 2 fun _ => 0) rfl (by decide) (by decide) 0
    (by decide)
  have hwin := win_run (s := (taskQueueCreate 2 fun _ => 0).afterPush 0) (i := 0) rfl
    (by decide) (by decide) (by decide) (by decide)
  exact ⟨_, _, hpush.append hwin, ⟨rfl, rfl, rfl, rfl, rfl, rfl, rfl⟩⟩

/-- A thief has won task 0 and not read its slot when the owner pushes the task with index 1024 to
the same slot; all tasks between were stolen and returned. Then the thief returns the later task,
and task 0 is lost. At no time are more than two tasks pushed and not returned. -/
theorem stalled_thief_loses_task : ∃ es s,
    Steps BoundedStep (taskQueueCreate 2 fun _ => 0) es s ∧ s.Quiet ∧
    ¬ s.pushed.Perm (s.returned ++ Ring.span s.data s.head s.tail) := by
  obtain ⟨es, s₀, hstart, h₀⟩ := overtaken_start
  have hfew : ([] ++ replicate 1023 1).length ≤ 1023 := le_of_eq length_replicate
  obtain ⟨fs, s, hmany, h⟩ := h₀.run (replicate 1023 1) hfew
  obtain ⟨gs, hlast⟩ := h.push_win hfew 2
  rw [nil_append] at h
  have hzero : 0 ∉ replicate 1023 1 := fun hmem => by cases eq_of_mem_replicate hmem
  have htail : s.tail = 1024 := by rw [h.tail, h.head, length_replicate]; rfl
  generalize replicate 1023 1 = tasks at h hzero
  have hbound : (s.pushed ++ [2]).length ≤ s.returned.length + taskQueueSize := by
    rw [length_append, h.pushed, h.returned, length_cons, length_singleton, taskQueueSize]
    omega
  have hmore : (s.pushed ++ [2]).length ≤ (s.returned ++ [update s.data
      (slot taskQueueSize s.tail) 2 (slot taskQueueSize 0)]).length + taskQueueSize := by
    refine le_trans hbound (Nat.add_le_add_right ?_ _)
    rw [length_append]
    exact Nat.le_add_right ..
  have hpos : 0 ≤ s.head := by rw [← h.tail, htail]; decide
  have hfirst := return_run (s := (s.afterPush 2).afterWin 1) (i := 0) h.parked
    (Int.le_refl 0) hbound
  have hsecond := return_run (s := ((s.afterPush 2).afterWin 1).afterReturn 0 0) (i := 1)
    rfl hpos hmore
  refine ⟨_, _, (((hstart.append hmany).append hlast).append hfirst).append hsecond, ⟨rfl, ?_⟩, ?_⟩
  · exact fun | 0 => rfl | 1 => rfl
  · -- Both thieves read the slot that task 0 was in, and nothing is left in the queue.
    have hslot : update s.data (slot taskQueueSize s.tail) 2 (slot taskQueueSize 0) =
        2 := by
      rw [htail]
      exact update_self ..
    have hslot' : update s.data (slot taskQueueSize s.tail) 2
        (slot taskQueueSize s.head) = 2 := by
      rw [h.tail, update_self]
    have hempty : s.tail + 1 ≤ s.head + 1 := by rw [h.tail]
    show ¬ (s.pushed ++ [2]).Perm (s.returned ++ [update s.data _ 2 (slot taskQueueSize 0)] ++
      [update s.data _ 2 (slot taskQueueSize s.head)] ++ span _ (s.head + 1) (s.tail + 1))
    rw [hslot, hslot', span_of_le _ hempty, h.pushed, h.returned]
    intro hperm
    have hmem := hperm.mem_iff.mp (mem_append_left _ mem_cons_self)
    simp [hzero] at hmem

/-! ## What a push writes over -/

/-- The tasks that are not returned are those from `head` to `limit` and those that threads are
about to return. The slot that a push is about to write to has none of them, and no index into
`data` is negative, nor is that of the next push. -/
structure Sound (s : State τ n) : Prop where
  account : s.pushed.Perm (s.returned ++ (s.tasks ++ s.inHand))
  free : ∀ data tail, s.owner = .pushStore data tail → 0 ≤ tail ∧
    (∀ j, s.head ≤ j → j < s.limit → Ring.slot taskQueueSize j ≠ Ring.slot taskQueueSize tail) ∧
    ∀ i h, s.thieves i = .take h → Ring.slot taskQueueSize h ≠ Ring.slot taskQueueSize tail
  popped : ∀ t, s.owner = .popTake t → 0 ≤ t
  stolen : ∀ i h, s.thieves i = .take h → 0 ≤ h
  next : s.owner = .idle → 0 ≤ s.tail

/-- The owner is in `TaskQueuePush`. -/
def Owner.pushing : Owner τ → Bool
  | .pushData _ | .pushStore .. | .pushTail _ | .pushPublish .. => true
  | _ => false

/-- A step of a thread that is in a call. -/
def Event.InCall : Event τ n → Prop
  | .push _ | .pop => False
  | .owner | .steal _ | .thief _ => True

namespace State

/-- What the caller of `TaskQueuePush` has to see to. The push may be interrupted by thieves at any
point. -/
def HasRoom (s : State τ n) : Prop := s.Within s.tail ∧ s.tail < CInt.intMax

instance (s : State τ n) : Decidable s.HasRoom := inferInstanceAs (Decidable (_ ∧ _))

/-- A push is called only if it has room. -/
def Ready (s : State τ n) : Event τ n → Prop
  | .push _ => s.HasRoom
  | _ => True

instance (s : State τ n) (e : Event τ n) : Decidable (s.Ready e) :=
  match e with
  | .push _ => inferInstanceAs (Decidable s.HasRoom)
  | .pop | .owner | .steal _ | .thief _ => inferInstanceAs (Decidable True)

end State

theorem Event.InCall.ready {s : State τ n} (h : e.InCall) : s.Ready e := by
  cases e with
  | push | pop => exact h.elim
  | owner | steal | thief => trivial

namespace State.Within

variable {s s' : State τ n} {tail tail' : Int}

/-- Room is kept while `head` advances and `tail` does not. -/
theorem mono (h : s.Within tail) (htail : tail' ≤ tail) (hhead : s.head ≤ s'.head)
    (hthieves : s'.thieves = s.thieves) : s'.Within tail' := by
  refine ⟨by have := h.1; omega, fun i => ?_⟩
  have hnear := h.2 i
  rw [hthieves]
  cases hi : s.thieves i with
  | take j =>
    rw [hi] at hnear
    have hlt : tail - j < taskQueueSize := of_decide_eq_true hnear
    exact decide_eq_true (by omega)
  | idle | readHead | readTail | cas => rfl

theorem set_thief (h : s.Within tail) (hp : p.near tail) : (s.setThief i p).Within tail := by
  refine ⟨h.1, fun j => ?_⟩
  show (update s.thieves i p j).near tail
  rcases eq_or_ne j i with rfl | hne
  · rwa [update_self]
  · rw [update_of_ne hne]
    exact h.2 j

/-- A thief that wins a task takes one that was in the queue. -/
theorem thief_step (h : s.Within tail) (hinv : Inv s) (hstep : s.thiefStep i = some s') :
    s'.Within tail := by
  have hthief := hinv.thieves i
  rw [State.thiefStep] at hstep
  cases hs : s.thieves i with
  | idle => simp only [hs] at hstep; cases hstep
  | readHead =>
    simp only [hs] at hstep
    cases hstep
    exact h.set_thief rfl
  | readTail j =>
    simp only [hs] at hstep
    cases hstep
    refine h.set_thief ?_
    split <;> rfl
  | cas j =>
    simp only [hs] at hstep
    split at hstep
    · rename_i heq
      cases hstep
      rw [hs, ← heq] at hthief
      have hlt : s.head < s.limit := hthief.2.2 rfl
      have hpos := hinv.head_nonneg
      have hmax := hinv.limit_le
      rw [← heq, int_of_index (by omega) (by omega)]
      have hnear : (Thief.take s.head).near tail = true := decide_eq_true h.1
      have hqueue : State.Within { s with head := s.head + 1 } tail :=
        h.mono (Int.le_refl _) (Int.le_add_one (Int.le_refl _)) rfl
      exact hqueue.set_thief hnear
    · cases hstep
      exact h.set_thief rfl
  | take j =>
    simp only [hs] at hstep
    obtain ⟨k, -, rfl⟩ := Option.map_eq_some_iff.mp hstep
    exact (h.mono (Int.le_refl _) (Int.le_refl _) rfl).set_thief rfl

end State.Within

/-- What holds if every push is called with room: no task is left more than `taskQueueSize` behind,
and a push that is under way still has room. -/
structure Window (s : State τ n) : Prop where
  behind : s.Within (s.limit - 1)
  pushing : s.owner.pushing → s.HasRoom
  popped : ∀ t, s.owner = .popTake t → 0 ≤ t

namespace Window

variable {s s' : State τ n}

/-- A new queue has room. -/
theorem create (garbage : Fin taskQueueSize → τ) : Window (taskQueueCreate n garbage) where
  behind := ⟨show (0 : Int) + 0 - 1 - 0 < taskQueueSize by decide, fun _ => rfl⟩
  pushing h := by cases h
  popped t h := by cases h

/-- A queue with room has it at every step of the push. -/
theorem room (w : Window s) (h : Inv s) (e : Event τ n) : s.Room e := by
  have howner := h.owner
  rw [State.OwnerOk] at howner
  cases e with
  | push | pop | steal | thief => trivial
  | owner =>
    have hroom := w.pushing
    rw [State.Room]
    cases hs : s.owner with
    | pushStore data tail =>
      rw [hs] at hroom
      simp only [hs] at howner
      rw [howner]
      exact (hroom rfl).1
    | pushPublish data tail =>
      rw [hs] at hroom
      simp only [hs] at howner
      rw [howner.1]
      exact (hroom rfl).2
    | idle | pushData | pushTail | popTail | popClaim | popHead | popReset | popLast | popCAS |
      popTake => trivial

/-- A step of the owner that pushes nothing to the queue. -/
theorem move (w : Window s) (hhead : s.head ≤ s'.head) (hthieves : s'.thieves = s.thieves)
    (hlimit : s'.limit ≤ s.limit) (hpush : s'.owner.pushing → s.owner.pushing ∧ s'.tail = s.tail)
    (hpop : ∀ t, s'.owner = .popTake t → 0 ≤ t) : Window s' where
  behind := w.behind.mono (by omega) hhead hthieves
  pushing hpushing := by
    obtain ⟨hbefore, htail⟩ := hpush hpushing
    have hroom := w.pushing hbefore
    exact ⟨hroom.1.mono (le_of_eq htail) hhead hthieves, lt_of_eq_of_lt htail hroom.2⟩
  popped := hpop

/-- The owner keeps the room. -/
theorem owner_step (w : Window s) (h : Inv s) (hstep : s.ownerStep = some s') : Window s' := by
  have hpos := h.head_nonneg
  have hle := h.head_le
  have hmax := h.limit_le
  have howner := h.owner
  have hlimit : s.limit = s.tail + s.owner.extra := rfl
  rw [State.OwnerOk] at howner
  rw [State.ownerStep] at hstep
  cases hs : s.owner with
  | idle => simp only [hs] at hstep; cases hstep
  | pushPublish data tail =>
    simp only [hs] at hstep howner
    cases hstep
    obtain ⟨rfl, -⟩ := howner
    have hroom := w.pushing (by rw [hs]; rfl)
    rw [hs] at hlimit
    have hzero : s.limit = s.tail + 0 := hlimit
    rw [int_of_index (by omega) (Int.add_one_le_of_lt hroom.2)]
    refine ⟨hroom.1.mono ?_ (Int.le_refl _) rfl, nofun, nofun⟩
    show s.tail + 1 + 0 - 1 ≤ s.tail
    omega
  | pushStore data tail =>
    simp only [hs] at hstep
    obtain ⟨k, -, rfl⟩ := Option.map_eq_some_iff.mp hstep
    rw [hs] at hlimit
    exact w.move (Int.le_refl _) rfl (le_of_eq hlimit.symm) (fun _ => ⟨by rw [hs]; rfl, rfl⟩) nofun
  | popTake t =>
    simp only [hs] at hstep
    obtain ⟨k, -, rfl⟩ := Option.map_eq_some_iff.mp hstep
    rw [hs] at hlimit
    exact w.move (Int.le_refl _) rfl (le_of_eq hlimit.symm) nofun nofun
  | pushData | pushTail =>
    simp only [hs] at hstep
    cases hstep
    rw [hs] at hlimit
    exact w.move (Int.le_refl _) rfl (le_of_eq hlimit.symm) (fun _ => ⟨by rw [hs]; rfl, rfl⟩) nofun
  | popTail =>
    simp only [hs] at hstep
    cases hstep
    rw [hs] at hlimit
    exact w.move (Int.le_refl _) rfl (le_of_eq hlimit.symm) nofun nofun
  | popClaim t =>
    simp only [hs] at hstep howner
    cases hstep
    refine w.move (Int.le_refl _) rfl ?_ nofun nofun
    rw [hlimit, hs]
    show t + 1 ≤ s.tail + 0
    omega
  | popHead t =>
    simp only [hs] at hstep
    rw [hs] at hlimit
    split at hstep
    · cases hstep
      refine w.move (Int.le_refl _) rfl ?_ nofun fun t' ht => ?_
      · rw [hlimit]
        show s.tail + 0 ≤ s.tail + 1
        omega
      · cases ht
        omega
    split at hstep <;> cases hstep <;>
      exact w.move (Int.le_refl _) rfl (le_of_eq hlimit.symm) nofun nofun
  | popReset h' =>
    simp only [hs] at hstep howner
    cases hstep
    refine w.move (Int.le_refl _) rfl ?_ nofun nofun
    rw [hlimit, hs]
    show h' + 0 ≤ s.tail + 1
    omega
  | popLast t h' =>
    simp only [hs] at hstep howner
    cases hstep
    rw [hs, Owner.extra] at hlimit
    rw [int_of_index (by omega) (by omega)]
    refine w.move (Int.le_refl _) rfl ?_ nofun nofun
    rw [hlimit]
    show h' + 1 + 0 ≤ s.tail + 1
    omega
  | popCAS t h' =>
    simp only [hs] at hstep howner
    rw [hs] at hlimit
    split at hstep
    · cases hstep
      have hzero : s.limit = s.tail + 0 := hlimit
      rw [int_of_index (by omega) (by omega)]
      refine w.move (show s.head ≤ h' + 1 by omega) rfl (le_of_eq hlimit.symm) nofun fun t' ht => ?_
      cases ht
      omega
    · cases hstep
      exact w.move (Int.le_refl _) rfl (le_of_eq hlimit.symm) nofun nofun

theorem thief_frame (hstep : s.thiefStep i = some s') : s'.owner = s.owner ∧ s'.tail = s.tail := by
  rw [State.thiefStep] at hstep
  split at hstep
  case h_4 => split at hstep <;> cases hstep <;> exact ⟨rfl, rfl⟩
  case h_5 =>
    obtain ⟨k, -, rfl⟩ := Option.map_eq_some_iff.mp hstep
    exact ⟨rfl, rfl⟩
  all_goals cases hstep <;> exact ⟨rfl, rfl⟩

/-- What one event preserves if pushes are called with room. -/
theorem step (w : Window s) (h : Inv s) (hready : s.Ready e) (hstep : Step s e s') : Window s' := by
  cases e with
  | push data =>
    simp only [Step, State.step] at hstep
    split at hstep
    · rename_i hidle
      cases hstep
      have hlimit : s.limit = s.tail + s.owner.extra := rfl
      rw [hidle] at hlimit
      exact ⟨w.behind.mono (le_of_eq (congrArg (· - 1) hlimit.symm)) (Int.le_refl _) rfl,
        fun _ => hready, nofun⟩
    · cases hstep
  | pop =>
    simp only [Step, State.step] at hstep
    split at hstep
    · rename_i hidle
      cases hstep
      have hlimit : s.limit = s.tail + s.owner.extra := rfl
      rw [hidle] at hlimit
      exact w.move (Int.le_refl _) rfl (le_of_eq hlimit.symm) nofun nofun
    · cases hstep
  | owner => exact w.owner_step h hstep
  | steal i =>
    simp only [Step, State.step] at hstep
    split at hstep
    · cases hstep
      exact ⟨w.behind.set_thief rfl,
        fun hpush => ⟨(w.pushing hpush).1.set_thief rfl, (w.pushing hpush).2⟩, w.popped⟩
    · cases hstep
  | thief i =>
    obtain ⟨howner, htail⟩ := thief_frame hstep
    have hlimit : s'.limit = s.limit := by rw [limit, limit, howner, htail]
    refine ⟨?_, fun hpush => ?_, ?_⟩
    · rw [hlimit]
      exact w.behind.thief_step h hstep
    · rw [howner] at hpush
      obtain ⟨hwithin, hmax⟩ := w.pushing hpush
      rw [HasRoom, htail]
      exact ⟨hwithin.thief_step h hstep, hmax⟩
    · rw [howner]
      exact w.popped

/-- A push with room writes over no task. -/
theorem sound (w : Window s) (h : Inv s) : Sound s where
  account := h.account
  popped := w.popped
  stolen i h' hi := by
    have hthief := h.thieves i
    rw [hi] at hthief
    exact hthief.1
  next hidle := by
    have hpos := h.head_nonneg
    have hle := h.head_le
    rw [limit, hidle] at hle
    exact hpos.trans (le_of_le_of_eq hle (Int.add_zero _))
  free data tail hs := by
    have hpos := h.head_nonneg
    have hle := h.head_le
    have howner := h.owner
    have hroom := w.room h .owner
    rw [State.OwnerOk, hs] at howner
    obtain rfl : tail = s.tail := howner
    rw [State.Room, hs] at hroom
    obtain ⟨hqueue, hstolen⟩ : s.Within s.tail := hroom
    have hlimit : s.limit = s.tail := by rw [limit, hs]; exact Int.add_zero _
    refine ⟨by omega, fun j hj hlt => slot_ne (by omega) (by omega) (by omega), ?_⟩
    intro i h' hi
    have hthief := h.thieves i
    have hnear := hstolen i
    rw [hi] at hthief hnear
    have hlt := hthief.2
    exact slot_ne hthief.1 (by omega) (of_decide_eq_true hnear)

/-- A push without room that nothing interrupts writes over a task, or makes `tail` negative. -/
theorem has_room (w : Window s) (h : Inv s) (hidle : s.owner = .idle) {data : τ}
    (hsafe : ∀ fs s', (∀ e ∈ fs, e.InCall) → Steps Step s (.push data :: fs) s' → Sound s') :
    s.HasRoom := by
  have hpos := h.head_nonneg
  have hle := h.head_le
  have hmax := h.limit_le
  have hlimit : s.limit = s.tail := by rw [limit, hidle]; exact Int.add_zero _
  have hread : Step { s with owner := .pushData data } .owner
      { s with owner := .pushStore data s.tail } := rfl
  have hstart := hsafe [.owner] _ (by simp [Event.InCall])
    (.cons (push_step hidle data) (.single hread))
  obtain ⟨-, hqueue, hstolen⟩ := hstart.free data s.tail rfl
  obtain ⟨hbehind, hlate⟩ := w.behind
  refine ⟨⟨?_, fun i => ?_⟩, ?_⟩
  · -- Otherwise the task at `head` is `taskQueueSize` behind, and has the slot.
    by_contra hfull
    have hhead : s.head = s.tail - taskQueueSize := by omega
    refine hqueue s.head (Int.le_refl _) ?_ ?_
    · show s.head < s.tail + 0
      have : (0 : Int) < taskQueueSize := by decide
      omega
    · rw [hhead]
      exact slot_sub (by omega)
  · have hlast := hlate i
    have hthief := h.thieves i
    cases hi : s.thieves i with
    | take j =>
      rw [hi] at hlast hthief
      have hlt : s.limit - 1 - j < taskQueueSize := of_decide_eq_true hlast
      refine decide_eq_true ?_
      by_contra hfar
      have hj : j = s.tail - taskQueueSize := by omega
      refine hstolen i j hi ?_
      rw [hj]
      exact slot_sub (by have := hthief.1; omega)
    | idle | readHead | readTail | cas => rfl
  · have hall := hsafe [.owner, .owner, .owner, .owner] _ (by simp [Event.InCall])
      (.cons (push_step hidle data) (.cons hread (.cons (store_step (by omega) data)
        (.cons rfl (.single (publish_step
          { s with data := update s.data (slot taskQueueSize s.tail) data } data))))))
    have hnext : 0 ≤ CInt.int (s.tail + 1) := hall.next rfl
    rw [CInt.int_eq] at hnext
    unfold CInt.intMax at hmax ⊢
    omega

end Window

/-- In a run in which every push is called with room no push writes over a task that is not
returned, and no index is negative. The next push is safe, whatever the thieves do in the meantime,
exactly if it is called with room too. -/
theorem push_overwrites_nothing {garbage : Fin taskQueueSize → τ} {es : List (Event τ n)}
    {s : State τ n}
    (hrun : Steps (fun s e s' => s.Ready e ∧ Step s e s') (taskQueueCreate n garbage) es s) :
    Sound s ∧ ∀ data, s.owner = .idle → (s.HasRoom ↔ ∀ fs s', (∀ e ∈ fs, e.InCall) →
      Steps Step s (.push data :: fs) s' → Sound s') := by
  have hstep : ∀ s e s', Inv s ∧ Window s → (s.Ready e ∧ Step s e s') → Inv s' ∧ Window s' :=
    fun (s : State τ n) e s' ⟨h, w⟩ ⟨hready, hstep⟩ =>
      ⟨h.step (w.room h e) hstep, w.step h hready hstep⟩
  obtain ⟨h, w⟩ := hrun.invariant hstep ⟨create_inv garbage, .create garbage⟩
  refine ⟨w.sound h, fun data hidle => ⟨fun hroom fs s' hcall hpush => ?_, w.has_room h hidle⟩⟩
  cases hpush with
  | cons hfirst hrest =>
    obtain ⟨h', w'⟩ := hrest.invariant_of_mem
      (fun s e s' hmem hs hone => hstep s e s' hs ⟨(hcall e hmem).ready, hone⟩)
      (hstep s (.push data) _ ⟨h, w⟩ ⟨hroom, hfirst⟩)
    exact w'.sound h'

/-- A thief has won task 7 and not read its slot when task 9 is pushed beside task 8. -/
theorem push_beside_slow_thief : ∃ es s, Steps (fun (s : State Nat 1) e s' =>
      s.Ready e ∧ Step s e s') (taskQueueCreate 1 fun _ => 0) es s ∧
    s.thieves 0 = .take 0 ∧ s.tail = 2 ∧ Sound s ∧ ∀ fs s', (∀ e ∈ fs, e.InCall) →
      Steps Step s (.push 9 :: fs) s' → Sound s' := by
  obtain ⟨s, hrun, hthief, htail, hidle, hroom⟩ : ∃ s, Steps (fun (s : State Nat 1) e s' =>
      s.Ready e ∧ Step s e s') (taskQueueCreate 1 fun _ => 0)
      [.push 7, .owner, .owner, .owner, .owner, .steal 0, .thief 0, .thief 0, .thief 0,
        .push 8, .owner, .owner, .owner, .owner] s ∧
      s.thieves 0 = .take 0 ∧ s.tail = 2 ∧ s.owner = .idle ∧ s.HasRoom :=
    Steps.exists_of_checked (by decide)
  obtain ⟨hsound, hnext⟩ := push_overwrites_nothing hrun
  exact ⟨_, s, hrun, hthief, htail, hsound, (hnext 9 hidle).mp hroom⟩

/-- The push of task 1024 writes over task 0, which a thief has won and not read. -/
theorem push_overwrites_won_task : ∃ es s,
    Steps Step (taskQueueCreate 2 fun _ => 0) es s ∧ ¬ Sound s := by
  obtain ⟨es, s₀, hstart, h₀⟩ := overtaken_start
  obtain ⟨fs, s, hmany, h⟩ := h₀.run (replicate 1023 1) (le_of_eq length_replicate)
  have hrun := (hstart.append hmany).mono fun _ _ _ hstep => hstep.1
  have htail : s.tail = 1024 := by rw [h.tail, h.head, nil_append, length_replicate]; rfl
  have hread : Step { s with owner := .pushData 2 } .owner
      { s with owner := .pushStore 2 s.tail } := rfl
  refine ⟨_, _, hrun.append (.cons (push_step h.owner 2) (.single hread)), fun hsound => ?_⟩
  have hne := (hsound.free 2 s.tail rfl).2.2 0 0 h.parked
  rw [htail] at hne
  exact hne rfl

end Reconverse.TaskQueue
