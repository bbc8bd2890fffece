import Reconverse.Lib.CInt
import Reconverse.Lib.Levels
import Reconverse.Lib.Runs

/-!
# The scheduler queue

`queueing.cpp` keeps one double-ended queue for each priority in use, in a `std::map`, and the queue
of priority zero outside of it. A level that drains is kept allocated, as long as fewer than
`kKeptEmptyLevels` are. The queue is a list of messages in the order of their priorities,
`contents`, and the calls are the operations of that list (`Spec`).

`size` is an `int`, so the calls agree as long as fewer than `2 ^ 31` messages are queued.
-/

namespace Reconverse.Queueing

open Lib Lib.CInt List Levels

variable {α : Type*} (z : List α)

/-! ## The source -/

/-- `LLONG_MAX`. -/
def llongMax : Int := 2 ^ 63 - 1

/-- `kKeptEmptyLevels`. -/
def kKeptEmptyLevels : Int := 4

/-- `QueueImpl`. -/
structure QueueImpl (α : Type*) where
  levels : Levels Int α
  zero : List α
  emptyLevels : Int
  size : Int

/-- A `Level *`. -/
inductive LevelPtr where
  | zero
  | level (priority : Int)
  deriving DecidableEq, Repr

namespace QueueImpl

variable (q : QueueImpl α)

/-- The level that a pointer points to. -/
def deref : LevelPtr → List α
  | .zero => q.zero
  | .level p => (q.levels.find? p).getD []

/-- Change the level that a pointer points to. -/
def modify (l : LevelPtr) (f : List α → List α) : QueueImpl α :=
  match l with
  | .zero => { q with zero := f q.zero }
  | .level p => { q with levels := q.levels.alter p f }

/-- The second loop of `front_level`, after the queue of priority zero. -/
def frontLevelFrom (it : List (Int × List α)) : Option LevelPtr :=
  if !q.zero.isEmpty then some .zero
  else (it.find? fun l => !l.2.isEmpty).map fun l => .level l.1

/-- The first loop of `front_level`, over the negative priorities. -/
def frontLevelLoop : List (Int × List α) → Option LevelPtr
  | [] => q.frontLevelFrom []
  | l :: it =>
    if l.1 < 0 then if !l.2.isEmpty then some (.level l.1) else frontLevelLoop it
    else q.frontLevelFrom (l :: it)

/-- `front_level`. -/
def frontLevel : Option LevelPtr := q.frontLevelLoop q.levels.toList

/-- `level_for`. -/
def levelFor (priority : Int) : QueueImpl α × LevelPtr :=
  if priority = 0 then (q, .zero)
  else
    match q.levels.find? priority with
    | none => ({ q with levels := q.levels.alter priority id }, .level priority)
    | some l =>
      if l.isEmpty then ({ q with emptyLevels := q.emptyLevels - 1 }, .level priority)
      else (q, .level priority)

/-- `level_drained`. -/
def levelDrained : LevelPtr → QueueImpl α
  | .zero => q
  | .level p =>
    if q.emptyLevels < kKeptEmptyLevels then { q with emptyLevels := q.emptyLevels + 1 }
    else { q with levels := q.levels.erase p }

/-- `QueueInit`. -/
def queueInit : QueueImpl α := ⟨.empty, [], 0, 0⟩

/-- `QueueSize`. -/
def queueSize : Int := q.size

/-- `QueuePush`. -/
def queuePush (message : α) (priority : Int) : QueueImpl α :=
  let (q, l) := q.levelFor priority
  { q.modify l (· ++ [message]) with size := int (q.size + 1) }

/-- `QueuePushFront`. -/
def queuePushFront (message : α) (priority : Int) : QueueImpl α :=
  let (q, l) := q.levelFor priority
  { q.modify l (message :: ·) with size := int (q.size + 1) }

/-- `QueueTop`. -/
def queueTop : Option α :=
  if q.size = 0 then none
  else
    match q.frontLevel with
    | some l => (q.deref l).head?
    | none => none

/-- The second loop of `QueueTopPriority`. -/
def topPriorityFrom (it : List (Int × List α)) : Int :=
  if !q.zero.isEmpty then 0
  else
    match it.find? fun l => !l.2.isEmpty with
    | some l => l.1
    | none => llongMax

/-- The first loop of `QueueTopPriority`. -/
def topPriorityLoop : List (Int × List α) → Int
  | [] => q.topPriorityFrom []
  | l :: it =>
    if l.1 < 0 then if !l.2.isEmpty then l.1 else topPriorityLoop it
    else q.topPriorityFrom (l :: it)

/-- `QueueTopPriority`. -/
def queueTopPriority : Int :=
  if q.size = 0 then llongMax else q.topPriorityLoop q.levels.toList

/-- `QueuePop`. -/
def queuePop : QueueImpl α :=
  if q.size = 0 then q
  else
    match q.frontLevel with
    | none => q
    | some l =>
      let q := { q.modify l List.tail with size := int (q.size - 1) }
      if (q.deref l).isEmpty then q.levelDrained l else q

end QueueImpl

/-! ## Calls -/

/-- A call of the queue. -/
inductive Op (α : Type*) where
  | push (message : α) (priority : Int)
  | pushFront (message : α) (priority : Int)
  | pop
  | top
  | topPriority
  | size

/-- What a call returns. -/
inductive Out (α : Type*) where
  | unit
  | message (m : Option α)
  | number (n : Int)

/-- A call of the queue of the source. -/
def step (q : QueueImpl α) : Op α → Out α × QueueImpl α
  | .push m p => (.unit, q.queuePush m p)
  | .pushFront m p => (.unit, q.queuePushFront m p)
  | .pop => (.unit, q.queuePop)
  | .top => (.message q.queueTop, q)
  | .topPriority => (.number q.queueTopPriority, q)
  | .size => (.number q.queueSize, q)

/-- A call of a list in increasing priority. `push` inserts after, `pushFront` before all messages
of the same priority. -/
def Spec.step (l : List (Int × α)) : Op α → Out α × List (Int × α)
  | .push m p => (.unit, l.orderedInsert (·.1 < ·.1) (p, m))
  | .pushFront m p => (.unit, l.orderedInsert (·.1 ≤ ·.1) (p, m))
  | .pop => (.unit, l.tail)
  | .top => (.message (l.head?.map (·.2)), l)
  | .topPriority => (.number ((l.head?.map (·.1)).getD llongMax), l)
  | .size => (.number l.length, l)

namespace QueueImpl

variable (q : QueueImpl α)

/-- The levels, with the one of priority zero at its place. -/
def all : Levels Int α := q.levels.alter 0 fun _ => q.zero

/-- The messages with their priorities, in the order in which they come out. -/
def contents : List (Int × α) := q.all.flatten

/-! ## The invariant -/

/-- What holds between the calls. -/
structure Inv : Prop where
  zero_outside : q.levels.find? 0 = none
  empty_levels : q.emptyLevels = q.levels.emptyCount
  empty_levels_le : q.emptyLevels ≤ kKeptEmptyLevels
  size_eq : q.size = int q.contents.length

variable {q}

theorem Inv.init : (queueInit : QueueImpl α).Inv :=
  ⟨rfl, rfl, show (0 : Int) ≤ 4 by decide, show (0 : Int) = int 0 by decide⟩

theorem Inv.size_of_lt (h : q.Inv) (hfew : q.contents.length < 2 ^ 31) :
    q.size = q.contents.length := by
  rw [h.size_eq, int_natCast_of_lt hfew]

/-- The size is 0 exactly if the queue is empty, as long as it does not wrap. -/
theorem Inv.size_eq_zero (h : q.Inv) (hfew : q.contents.length < 2 ^ 31) :
    q.size = 0 ↔ q.contents = [] := by
  rw [h.size_of_lt hfew, ← length_eq_zero_iff]
  omega

/-! ## Changing a level -/

variable {q' : QueueImpl α} {f : List α → List α} {p : Int} {it : List (Int × List α)}

/-- A change of the level of priority 0. -/
theorem contents_of_zero (hlevels : q'.levels = q.levels)
    (hzero : q'.zero = f q.zero) : q'.contents = (q.all.alter 0 f).flatten := by
  unfold contents all
  rw [hlevels, hzero, alter_alter]
  rfl

/-- A change of another level. -/
theorem contents_of_level (hp : p ≠ 0)
    (hlevels : q'.levels = q.levels.alter p f) (hzero : q'.zero = q.zero) :
    q'.contents = (q.all.alter p f).flatten := by
  unfold contents all
  rw [hlevels, hzero, alter_comm _ hp]

theorem find_all_zero (q : QueueImpl α) : q.all.find? 0 = some q.zero :=
  find?_alter ..

theorem find_all (q : QueueImpl α) (hp : p ≠ 0) : q.all.find? p = q.levels.find? p :=
  find?_alter_of_ne _ hp _

/-! ## Pushes -/

/-- `level_for` and the change of the level that it returns. -/
theorem modify_level_for (q : QueueImpl α) (p : Int) (f : List α → List α) :
    (q.levelFor p).1.modify (q.levelFor p).2 f =
      if p = 0 then { q with zero := f q.zero }
      else { q with
        levels := q.levels.alter p f
        emptyLevels := q.emptyLevels - ((q.levels.find? p).any isEmpty).toNat } := by
  unfold levelFor
  split
  next => rfl
  next hp =>
    cases hfind : q.levels.find? p with
    | none =>
      simp only [modify, alter_alter, Function.comp_id, Option.any_none, Bool.toNat_false]
      simp
    | some l =>
      simp only [Option.any_some]
      cases hl : l.isEmpty with
      | true => rfl
      | false => simp [modify]

theorem size_level_for (q : QueueImpl α) (p : Int) : (q.levelFor p).1.size = q.size := by
  unfold levelFor
  split
  · rfl
  · split
    · rfl
    · split <;> rfl

/-- A message is added to a level. -/
theorem Inv.add (h : q.Inv) (p : Int) (hf : ∀ l, (f l).isEmpty = false)
    (hlen : (q.all.alter p f).flatten.length = q.contents.length + 1)
    (hq' : q' = { (q.levelFor p).1.modify (q.levelFor p).2 f with
      size := int ((q.levelFor p).1.size + 1) }) :
    q'.Inv ∧ q'.contents = (q.all.alter p f).flatten := by
  rw [modify_level_for, size_level_for] at hq'
  have hsize : int (q.size + 1) = int (q.all.alter p f).flatten.length := by
    rw [hlen, h.size_eq, int_int_add]
    rfl
  split at hq'
  next hp =>
    subst hp hq'
    have hcontents : QueueImpl.contents { q with
        zero := f q.zero, size := int (q.size + 1) } = (q.all.alter 0 f).flatten :=
      contents_of_zero rfl rfl
    exact ⟨⟨h.zero_outside, h.empty_levels, h.empty_levels_le, hcontents ▸ hsize⟩, hcontents⟩
  next hp =>
    subst hq'
    have hcontents : QueueImpl.contents { q with
        levels := q.levels.alter p f
        emptyLevels := q.emptyLevels - ((q.levels.find? p).any isEmpty).toNat
        size := int (q.size + 1) } = (q.all.alter p f).flatten :=
      contents_of_level hp rfl rfl
    have hcount := q.levels.emptyCount_alter p f
    rw [hf, Bool.toNat_false] at hcount
    have hempty := h.empty_levels
    have hle := h.empty_levels_le
    refine ⟨⟨?_, ?_, ?_, hcontents ▸ hsize⟩, hcontents⟩
    · rw [find?_alter_of_ne _ (Ne.symm hp)]
      exact h.zero_outside
    · show q.emptyLevels - _ = ((q.levels.alter p f).emptyCount : Int)
      omega
    · show q.emptyLevels - _ ≤ _
      omega

/-- A push puts the message behind those of the same priority. -/
theorem Inv.push (h : q.Inv) (m : α) (p : Int) : (q.queuePush m p).Inv ∧
    (q.queuePush m p).contents = q.contents.orderedInsert (·.1 < ·.1) (p, m) := by
  have hflat : (q.all.alter p (· ++ [m])).flatten = q.contents.orderedInsert (·.1 < ·.1) (p, m) :=
    flatten_alter_append ..
  rw [← hflat]
  refine h.add p (fun l => by simp) ?_ rfl
  rw [hflat, orderedInsert_length]

/-- A push to the front puts it before them. -/
theorem Inv.push_front (h : q.Inv) (m : α) (p : Int) : (q.queuePushFront m p).Inv ∧
    (q.queuePushFront m p).contents = q.contents.orderedInsert (·.1 ≤ ·.1) (p, m) := by
  have hflat : (q.all.alter p (m :: ·)).flatten = q.contents.orderedInsert (·.1 ≤ ·.1) (p, m) :=
    flatten_alter_cons ..
  rw [← hflat]
  refine h.add p (fun l => rfl) ?_ rfl
  rw [hflat, orderedInsert_length]

/-! ## The two walks -/

/-- The pointer to the level of a priority. -/
def ptrOf (p : Int) : LevelPtr := if p = 0 then .zero else .level p

theorem find_cons_zero (it : List (Int × List α)) :
    ((0, z) :: it).find? (fun l => !l.2.isEmpty) =
      if !z.isEmpty then some (0, z) else it.find? fun l => !l.2.isEmpty := by
  cases z <;> rfl

/-- The loop looks at the level of priority 0 in its place. -/
theorem front_level_loop_eq (q : QueueImpl α) (hzero : ∀ l ∈ it, l.1 ≠ 0) :
    q.frontLevelLoop it = ((Levels.alterList 0 (fun _ => q.zero) it).find?
      fun l => !l.2.isEmpty).map fun l => ptrOf l.1 := by
  induction it with
  | nil =>
    unfold frontLevelLoop frontLevelFrom alterList
    cases hq : q.zero.isEmpty <;> simp [hq, ptrOf]
  | cons l it ih =>
    obtain ⟨hl, hit⟩ := forall_mem_cons.mp hzero
    unfold frontLevelLoop
    by_cases hneg : l.1 < 0
    · rw [if_pos hneg, alterList, if_neg hneg.not_gt, if_neg hneg.ne', ih hit]
      cases hempty : l.2.isEmpty <;> simp [hempty, ptrOf, hl]
    · have hpos : 0 < l.1 := by omega
      have hkeys : ∀ b ∈ l :: it, ptrOf b.1 = .level b.1 := by
        intro b hb
        exact if_neg (hzero b hb)
      rw [if_neg hneg, alterList, if_pos hpos, frontLevelFrom, find_cons_zero]
      split
      · rfl
      · cases hfind : (l :: it).find? fun l => !l.2.isEmpty with
        | none => rfl
        | some b => exact congrArg some (hkeys b (mem_of_find?_eq_some hfind)).symm

/-- So does the loop for the priority. -/
theorem top_priority_loop_eq (q : QueueImpl α) (hzero : ∀ l ∈ it, l.1 ≠ 0) :
    q.topPriorityLoop it = (((Levels.alterList 0 (fun _ => q.zero) it).find?
      fun l => !l.2.isEmpty).map fun l => l.1).getD llongMax := by
  induction it with
  | nil =>
    unfold topPriorityLoop topPriorityFrom alterList
    cases hq : q.zero.isEmpty <;> simp [hq]
  | cons l it ih =>
    obtain ⟨hl, hit⟩ := forall_mem_cons.mp hzero
    unfold topPriorityLoop
    by_cases hneg : l.1 < 0
    · rw [if_pos hneg, alterList, if_neg hneg.not_gt, if_neg hneg.ne', ih hit]
      cases hempty : l.2.isEmpty <;> simp [hempty]
    · have hpos : 0 < l.1 := by omega
      rw [if_neg hneg, alterList, if_pos hpos, topPriorityFrom, find_cons_zero]
      split
      · rfl
      · cases (l :: it).find? fun l => !l.2.isEmpty <;> rfl

/-- No level of the map has priority zero. -/
theorem Inv.key_ne_zero (h : q.Inv) : ∀ l ∈ q.levels.toList, l.1 ≠ 0 := by
  intro l hl heq
  have hnone := h.zero_outside
  unfold Levels.find? at hnone
  rw [Option.map_eq_none_iff, find?_eq_none] at hnone
  simpa [heq] using hnone l hl

theorem Inv.front_level (h : q.Inv) : q.frontLevel = q.all.front.map fun l => ptrOf l.1 :=
  q.front_level_loop_eq h.key_ne_zero

/-- The queue is empty, or the first level that is not gives the first message. -/
theorem Inv.front_cases (h : q.Inv) :
    (q.all.front = none ∧ q.frontLevel = none ∧ q.contents = []) ∨
      ∃ p x l, q.all.front = some (p, x :: l) ∧ q.frontLevel = some (ptrOf p) ∧
        q.deref (ptrOf p) = x :: l ∧ q.contents = (p, x) :: (q.all.alter p List.tail).flatten := by
  cases hfront : q.all.front with
  | none =>
    refine .inl ⟨rfl, ?_, flatten_of_front_none _ hfront⟩
    rw [h.front_level, hfront]
    rfl
  | some b =>
    obtain ⟨p, l⟩ := b
    obtain ⟨x, hhead, hflat, hfind⟩ := flatten_of_front _ hfront
    obtain ⟨l, rfl⟩ := head?_eq_some_iff.mp hhead
    refine .inr ⟨p, x, l, rfl, ?_, ?_, hflat⟩
    · rw [h.front_level, hfront]
      rfl
    · unfold ptrOf deref
      by_cases hp : p = 0
      · subst hp
        rw [find_all_zero] at hfind
        exact Option.some.inj hfind
      · rw [find_all q hp] at hfind
        simp only [if_neg hp, hfind]
        rfl

/-! ## The other calls -/

/-- The top is the first message. -/
theorem Inv.top (h : q.Inv) (hfew : q.contents.length < 2 ^ 31) :
    q.queueTop = q.contents.head?.map (·.2) := by
  unfold queueTop
  split
  next hsize => rw [(h.size_eq_zero hfew).mp hsize]; rfl
  next =>
    rcases h.front_cases with ⟨-, hfront, hnil⟩ | ⟨p, x, l, -, hfront, hderef, hcontents⟩
    · rw [hfront, hnil]
      rfl
    · rw [hfront, hcontents]
      simp only [hderef]
      rfl

/-- Its priority is that of the first message, or the largest one. -/
theorem Inv.topPriority (h : q.Inv) (hfew : q.contents.length < 2 ^ 31) :
    q.queueTopPriority = (q.contents.head?.map (·.1)).getD llongMax := by
  unfold queueTopPriority
  split
  next hsize => rw [(h.size_eq_zero hfew).mp hsize]; rfl
  next =>
    rw [q.top_priority_loop_eq h.key_ne_zero]
    change (q.all.front.map (·.1)).getD llongMax = _
    rcases h.front_cases with ⟨hfront, -, hnil⟩ | ⟨p, x, l, hfront, -, -, hcontents⟩
    · rw [hfront, hnil]
      rfl
    · rw [hfront, hcontents]
      rfl

/-- A level that has lost its last message is kept or removed. -/
theorem Inv.drained (hp : p ≠ 0) (hzero : q.levels.find? 0 = none)
    (hempty : q.levels.find? p = some []) (hcount : q.emptyLevels + 1 = q.levels.emptyCount)
    (hle : q.emptyLevels ≤ kKeptEmptyLevels)
    (hsize : q.size = int q.contents.length) :
    (q.levelDrained (.level p)).Inv ∧ (q.levelDrained (.level p)).contents = q.contents := by
  unfold levelDrained
  simp only
  split
  next hlt => exact ⟨⟨hzero, hcount, hlt, hsize⟩, rfl⟩
  next hge =>
    have hall : QueueImpl.all { q with levels := q.levels.erase p } = q.all.erase p :=
      (erase_alter _ (Ne.symm hp) _).symm
    have hcontents : QueueImpl.contents { q with levels := q.levels.erase p } = q.contents := by
      unfold contents
      rw [hall]
      refine flatten_erase _ ?_
      rw [find_all q hp]
      exact hempty
    have herase := q.levels.emptyCount_erase p
    rw [hempty, Option.any_some, isEmpty_nil, Bool.toNat_true] at herase
    refine ⟨⟨?_, ?_, hle, ?_⟩, hcontents⟩
    · unfold Levels.find? at hzero ⊢
      rw [Option.map_eq_none_iff, find?_eq_none] at hzero ⊢
      exact fun l hl => hzero l (mem_of_mem_filter hl)
    · show q.emptyLevels = ((q.levels.erase p).emptyCount : Int)
      omega
    · rw [hcontents]
      exact hsize

/-- The first message of a level is removed. -/
theorem Inv.pop_level (h : q.Inv) {x : α} {l : List α}
    (hderef : q.deref (ptrOf p) = x :: l) (hq' : q' = { q.modify (ptrOf p) List.tail with
      size := int (q.all.alter p tail).flatten.length }) :
    (if (q'.deref (ptrOf p)).isEmpty then q'.levelDrained (ptrOf p) else q').Inv ∧
    (if (q'.deref (ptrOf p)).isEmpty then q'.levelDrained (ptrOf p) else q').contents =
      (q.all.alter p tail).flatten := by
  by_cases hp : p = 0
  · subst hp
    have hcontents : q'.contents = (q.all.alter 0 tail).flatten :=
      contents_of_zero (by rw [hq']; rfl) (by rw [hq']; rfl)
    have hinv : q'.Inv := by
      refine ⟨?_, ?_, ?_, ?_⟩
      · rw [hq']; exact h.zero_outside
      · rw [hq']; exact h.empty_levels
      · rw [hq']; exact h.empty_levels_le
      · rw [hcontents, hq']
    have hdrained : q'.levelDrained (ptrOf 0) = q' := rfl
    rw [hdrained, ite_self]
    exact ⟨hinv, hcontents⟩
  · have hptr : ptrOf p = .level p := if_neg hp
    rw [hptr] at hderef hq' ⊢
    have hfind : q.levels.find? p = some (x :: l) := by
      have hget : (q.levels.find? p).getD [] = x :: l := hderef
      cases hl : q.levels.find? p with
      | none => rw [hl] at hget; cases hget
      | some l' => rw [hl] at hget; exact congrArg some hget
    have hlevels : q'.levels = q.levels.alter p tail := by rw [hq']; rfl
    have hempty : q'.emptyLevels = q.emptyLevels := by rw [hq']; rfl
    have hcontents : q'.contents = (q.all.alter p tail).flatten :=
      contents_of_level hp hlevels (by rw [hq']; rfl)
    have hsize : q'.size = int q'.contents.length := by
      rw [hcontents, hq']
    have hzero : q'.levels.find? 0 = none := by
      rw [hlevels, find?_alter_of_ne _ (Ne.symm hp)]
      exact h.zero_outside
    have hfind' : q'.levels.find? p = some l := by
      rw [hlevels, find?_alter, hfind]
      rfl
    have hcount := q.levels.emptyCount_alter p tail
    rw [hfind, ← hlevels] at hcount
    have hderef' : q'.deref (.level p) = l := by
      unfold deref
      simp only [hfind']
      rfl
    have hold := h.empty_levels
    have hle := h.empty_levels_le
    rw [hderef', ← hcontents]
    cases l with
    | nil =>
      have hone : q'.levels.emptyCount + 0 = q.levels.emptyCount + 1 := hcount
      exact Inv.drained hp hzero hfind' (by omega) (by omega) hsize
    | cons y l =>
      have hsame : q'.levels.emptyCount + 0 = q.levels.emptyCount + 0 := hcount
      have hinv : q'.Inv := ⟨hzero, by omega, by omega, hsize⟩
      exact ⟨hinv, rfl⟩

/-- A pop takes the first message. -/
theorem Inv.pop (h : q.Inv) (hfew : q.contents.length < 2 ^ 31) :
    q.queuePop.Inv ∧ q.queuePop.contents = q.contents.tail := by
  unfold queuePop
  split
  next hsize =>
    refine ⟨h, ?_⟩
    rw [(h.size_eq_zero hfew).mp hsize]
    rfl
  next =>
    rcases h.front_cases with ⟨-, hfront, hnil⟩ | ⟨p, x, l, -, hfront, hderef, hcontents⟩
    · rw [hfront]
      refine ⟨h, ?_⟩
      rw [hnil]
      rfl
    · have hsize : int (q.size - 1) = int (q.all.alter p tail).flatten.length := by
        rw [h.size_eq, hcontents, length_cons, Int.sub_eq_add_neg, int_int_add]
        congr 1
        omega
      rw [hfront, hcontents]
      rw [hsize]
      exact h.pop_level hderef rfl

/-! ## The queue is a list -/

/-- Every call agrees with the call of the list. -/
theorem Inv.step (h : q.Inv) (hfew : q.contents.length < 2 ^ 31) (op : Op α) :
    (Queueing.step q op).1 = (Spec.step q.contents op).1 ∧ (Queueing.step q op).2.Inv ∧
      (Queueing.step q op).2.contents = (Spec.step q.contents op).2 := by
  cases op with
  | push m p => exact ⟨rfl, h.push m p⟩
  | pushFront m p => exact ⟨rfl, h.push_front m p⟩
  | pop => exact ⟨rfl, h.pop hfew⟩
  | top => exact ⟨congrArg Out.message (h.top hfew), h, rfl⟩
  | topPriority => exact ⟨congrArg Out.number (h.topPriority hfew), h, rfl⟩
  | size => exact ⟨congrArg Out.number (h.size_of_lt hfew), h, rfl⟩

end QueueImpl

/-- The messages that the calls put into the queue. -/
def pushed : List (Op α) → List α
  | [] => []
  | .push m _ :: ops | .pushFront m _ :: ops => m :: pushed ops
  | _ :: ops => pushed ops

/-- The messages that come out of the queue: what is on top when `QueuePop` is called. -/
def taken (q : QueueImpl α) : List (Op α) → List α
  | [] => []
  | .pop :: ops => q.queueTop.toList ++ taken (step q .pop).2 ops
  | op :: ops => taken (step q op).2 ops

/-- The queue never holds `2 ^ 31` messages. -/
def Few (l : List (Int × α)) (ops : List (Op α)) : Prop :=
  ∀ pre, pre <+: ops → (trace Spec.step l pre).2.length < 2 ^ 31

variable {ops : List (Op α)} {l : List (Int × α)} (m : α)

theorem Few.head (h : Few l ops) : l.length < 2 ^ 31 :=
  h [] nil_prefix

theorem Few.tail {op : Op α} (h : Few l (op :: ops)) : Few (Spec.step l op).2 ops :=
  fun pre hpre => h (op :: pre) (cons_prefix_cons.mpr ⟨rfl, hpre⟩)

/-- What comes out and what stays in the queue is what was put into it. -/
theorem taken_perm {q : QueueImpl α} (h : q.Inv) (hfew : Few q.contents ops) :
    (taken q ops ++ (trace step q ops).2.contents.map (·.2)).Perm
      (q.contents.map (·.2) ++ pushed ops) := by
  induction ops generalizing q with
  | nil =>
    show (q.contents.map (·.2)).Perm _
    rw [pushed, append_nil]
  | cons op ops ih =>
    obtain ⟨-, hinv, hcontents⟩ := h.step hfew.head op
    have htail := ih hinv (hcontents ▸ hfew.tail)
    rw [hcontents] at htail
    cases op with
    | push m p =>
      refine htail.trans ?_
      have hins := ((q.contents.perm_orderedInsert (·.1 < ·.1) (p, m)).map (·.2))
      exact (hins.append_right _).trans perm_middle.symm
    | pushFront m p =>
      refine htail.trans ?_
      have hins := ((q.contents.perm_orderedInsert (·.1 ≤ ·.1) (p, m)).map (·.2))
      exact (hins.append_right _).trans perm_middle.symm
    | pop =>
      have htop : q.queueTop.toList ++ q.contents.tail.map (·.2) = q.contents.map (·.2) := by
        rw [h.top hfew.head]
        cases q.contents <;> rfl
      show (q.queueTop.toList ++ taken _ ops ++ _).Perm (q.contents.map (·.2) ++ pushed ops)
      rw [← htop, append_assoc, append_assoc]
      exact htail.append_left _
    | top | topPriority | size => exact htail

/-- The scheduler queue is a list in increasing priority, as long as it holds fewer than `2 ^ 31`
messages: all calls return what the calls of the list return, every message that was pushed comes
out once or is still in the queue, and `emptyLevels` counts the empty levels of the map, none of
which has priority zero, and is at most four. -/
theorem queue_refines_list (ops : List (Op α)) (hfew : Few [] ops) :
    (trace step .queueInit ops).1 = (trace Spec.step [] ops).1 ∧
    (trace step .queueInit ops).2.contents = (trace Spec.step [] ops).2 ∧
    (trace Spec.step [] ops).2.Pairwise (fun x y => x.1 ≤ y.1) ∧
    (taken .queueInit ops ++ (trace Spec.step [] ops).2.map (·.2)).Perm (pushed ops) ∧
    (trace step .queueInit ops).2.emptyLevels =
      (trace step .queueInit ops).2.levels.toList.countP (·.2.isEmpty) ∧
    (∀ l ∈ (trace step .queueInit ops).2.levels.toList, l.1 ≠ 0) ∧
    (trace step .queueInit ops).2.emptyLevels ≤ 4 := by
  obtain ⟨houts, hinv, hcontents⟩ := trace_simulates (t := [])
    (M := fun (q : QueueImpl α) l => q.Inv ∧ q.contents = l) (P := fun l => l.length < 2 ^ 31)
    (fun q l op ⟨hinv, heq⟩ hlen => by subst heq; exact hinv.step hlen op)
    ⟨.init, rfl⟩ hfew
  refine ⟨houts, hcontents, ?_, ?_, hinv.empty_levels, hinv.key_ne_zero, hinv.empty_levels_le⟩
  · rw [← hcontents]
    exact flatten_sorted _
  · rw [← hcontents]
    exact taken_perm .init hfew

/-- Both ends of a level, a negative priority and a level that drains. -/
theorem queue_of_four_messages :
    Few [] [.push 1 5, .pushFront 2 5, .push 3 (-1), .push 4 0, .pop, .top, .pop, .size] ∧
    (trace step .queueInit
      [.push 1 5, .pushFront 2 5, .push 3 (-1), .push 4 0, .pop, .top, .pop, .size]).2.contents =
        [(5, 2), (5, 1)] ∧
    (trace step .queueInit
      [.push 1 5, .pushFront 2 5, .push 3 (-1), .push 4 0, .pop, .top, .pop, .size]).2.emptyLevels
        ≤ 4 := by
  have hfew : Few [] [.push 1 5, .pushFront 2 5, .push 3 (-1), .push 4 0, .pop, .top, .pop,
      .size] := by
    intro pre hpre
    rw [prefix_iff_eq_take] at hpre
    have hlen : ∀ k ≤ 8, (trace Spec.step [] (take k [.push 1 5, .pushFront 2 5, .push 3 (-1),
        .push 4 0, .pop, .top, .pop, .size])).2.length < 5 := by decide
    rw [hpre]
    have := hlen _ (IsPrefix.length_le (hpre ▸ take_prefix ..))
    omega
  obtain ⟨-, hcontents, -, -, -, -, hle⟩ := queue_refines_list _ hfew
  exact ⟨hfew, hcontents, hle⟩

/-! ## A queue that is too long -/

/-- A queue that holds messages of priority zero only. -/
def zeroQueue (z : List α) : QueueImpl α := ⟨.empty, z, 0, int z.length⟩

theorem contents_zero_queue : (zeroQueue z).contents.length = z.length := by
  show (z.map ((0 : Int), ·) ++ []).length = _
  rw [append_nil, length_map]

theorem push_zero_queue :
    (step (zeroQueue z) (.push m 0)).2 = zeroQueue (z ++ [m]) := by
  simp only [step, QueueImpl.queuePush, QueueImpl.levelFor, if_true, QueueImpl.modify, zeroQueue,
    int_int_add, length_append, length_singleton, Int.natCast_add, Int.cast_ofNat_Int]

/-- Pushes of priority 0 fill the level of priority 0. -/
theorem push_many (k : Nat) (z : List α) :
    (trace step (zeroQueue z) (List.replicate k (.push m 0))).2 =
      zeroQueue (z ++ List.replicate k m) := by
  induction k generalizing z with
  | zero =>
    rw [replicate_zero, replicate_zero, append_nil]
    rfl
  | succ k ih =>
    rw [replicate_succ, trace, push_zero_queue, ih, append_assoc]
    rfl

/-- The size wraps as an `int`. -/
theorem size_after_pushes (k : Nat) :
    (trace step .queueInit (List.replicate k (.push m 0))).2.contents.length = k ∧
    (trace step .queueInit (List.replicate k (.push m 0))).2.queueSize =
      int k := by
  have hlen : ([] ++ replicate k m).length = k := by
    rw [nil_append, length_replicate]
  have hinit : (QueueImpl.queueInit : QueueImpl α) = zeroQueue [] := by
    unfold zeroQueue QueueImpl.queueInit
    rw [length_nil, Int.natCast_zero]
    rfl
  rw [hinit, push_many]
  refine ⟨(contents_zero_queue _).trans hlen, ?_⟩
  rw [zeroQueue, QueueImpl.queueSize, hlen]

/-- After `2 ^ 31` pushes `QueueSize` is not the number of messages in the queue. -/
theorem size_of_long_queue : ∃ ops : List (Op Unit),
    (trace step .queueInit ops).2.contents.length = 2 ^ 31 ∧
    (trace step .queueInit ops).2.queueSize = -2 ^ 31 := by
  obtain ⟨hlen, hsize⟩ := size_after_pushes () (2 ^ 31)
  exact ⟨replicate (2 ^ 31) (.push () 0), hlen, hsize.trans (by decide)⟩

end Reconverse.Queueing
