import Reconverse.Lib.Gather
import Reconverse.Machine.Topology

/-!
# PE and node reductions

`CmiReduce` and `CmiListReduce` combine one message of every participating PE, `CmiNodeReduce`
one message of every node. A process (a PE or a node) keeps a ring of `CmiMaxReductions` records,
and the id of a reduction, a 32-bit counter value, selects the slot. A record is created by the
first of the local call and a child's message, collects the children's messages, and is cleared
once the merged message went to the parent or, at the root, once the destination handler has
returned.

Contributions are symbolic: the message a process passes to its call for one reduction. A merged
message is the tree of the `mergeFn` calls that made it, a `Merged` value.
-/

namespace Reconverse

open Lib List

namespace Reduction

/-- PE reductions and node reductions run the same code on separate tables. -/
inductive Level where
  | pe
  | node
  deriving DecidableEq, Repr

/-- Which reduction a call belongs to: the `k`-th call of `CmiReduce` (or `CmiNodeReduce`) on
every process, or the `j`-th list reduction of the program. -/
inductive Key where
  | global (k : Nat)
  | list (j : Nat)
  deriving DecidableEq, Repr

/-- A list reduction of the program: the PEs, and which call of `CmiGetGlobalReduction` gave
its id. -/
structure ListRed (m : Machine) where
  pes : List Nat
  request : Nat
  pes_ne_nil : pes ≠ []
  pes_nodup : pes.Nodup
  pes_lt : ∀ pe ∈ pes, pe < m.cmiNumPes

/-- The message a process passes to its call for one reduction. -/
abbrev Contribution := Nat × Key

/-- `CmiReduction`. The local buffer is `some` once `localContributed` is set. The remote buffer
is the list of its `messagesReceived` entries; `slots` is the number it was allocated for. -/
structure CmiReduction where
  reductionID : Nat
  numChildren : Nat
  parent : Option Nat
  localbuffer : Option Contribution
  remotebuffer : List (Merged Contribution)
  slots : Nat

/-- A reduction message: the id in its header, the process it goes to and the merged data. -/
structure RedMsg where
  redID : Nat
  dest : Nat
  value : Merged Contribution

/-- A run of a reduction's destination handler. -/
structure Run where
  proc : Nat
  redID : Nat
  value : Merged Contribution

/-- The counters and tables of all processes of one level and the messages in flight. `fetched`
holds the node reduction calls that have their id but not yet the slot lock, `running` the
destination handlers that have not returned, newest first. The number of calls made, the
contributions made and the values whose handler has returned are kept for the statements. -/
structure State where
  counter : Nat → Nat
  info : Nat → Nat → Option CmiReduction
  flight : List RedMsg
  fetched : List (Nat × Nat)
  running : List Run
  log : List Run
  calls : Nat → Nat
  called : List Contribution
  returned : List (Merged Contribution)

/-- `CmiReductionsInit` on every process. -/
def cmiReductionsInit : State where
  counter _ := 0
  info _ _ := none
  flight := []
  fetched := []
  running := []
  log := []
  calls _ := 0
  called := []
  returned := []

/-- Why a step is not taken: the aborts, a write past the remote buffer, a slot lock that is
held, or an event that cannot occur in the state. -/
inductive Stop where
  | tooManyReductions
  | notInList
  | overrun
  | bufferOverflow
  | locked
  | notEnabled
  deriving DecidableEq, Repr

/-! ## Ids and slots -/

/-- `CmiMaxReductions`. -/
def cmiMaxReductions : Nat := 2 ^ 5

/-- `CmiReductionsNumChildren`. -/
def cmiReductionsNumChildren : Nat := 4

/-- The number of values of a `CmiReductionID`, an unsigned 32-bit number. -/
def idRange : Nat := 2 ^ 32

/-- `CmiReductionID_multiplier` for PE reductions; node reduction ids step by one. -/
def idStep : Level → Nat
  | .pe => 2
  | .node => 1

/-- `getNextID`: the id handed out, and the counter after it. -/
def getNextID (ctr step : Nat) : Nat × Nat := (ctr, (ctr + step) % idRange)

/-- The id of the `request`-th call of `CmiGetGlobalReduction`, whose counter starts at
`CmiReductionID_requestOffset`. -/
def cmiGetGlobalReduction : Nat → Nat
  | 0 => 1
  | request + 1 => (getNextID (cmiGetGlobalReduction request) (idStep .pe)).2

/-- `CmiGetReductionIndex`. -/
def cmiGetReductionIndex (id : Nat) : Nat := id &&& (cmiMaxReductions - 1)

/-! ## The functions, for either level -/

variable (m : Machine)

/-- The number of processes of a level. -/
def numProcs : Level → Nat
  | .pe => m.cmiNumPes
  | .node => m.numNodes

/-- The child count a new record gets. -/
def spanNumChildren : Level → Nat → Nat
  | .pe, pe => m.cmiNumSpanTreeChildren pe
  | .node, node => m.cmiNumNodeSpanTreeChildren node

/-- The parent a new record gets. -/
def spanParent : Level → Nat → Option Nat
  | .pe, pe => m.cmiSpanTreeParent pe
  | .node, node => cmiNodeSpanTreeParent node

/-- The entries a new record's remote buffer is allocated for. A PE leaves room for the children
of a list reduction too. -/
def bufferSlots : Level → Nat → Nat
  | .pe, pe => max (m.cmiNumSpanTreeChildren pe) cmiReductionsNumChildren
  | .node, node => m.cmiNumNodeSpanTreeChildren node

/-- A record in the shape of the spanning tree. -/
def newReduction (level : Level) (me id : Nat) : CmiReduction where
  reductionID := id
  numChildren := spanNumChildren m level me
  parent := spanParent m level me
  localbuffer := none
  remotebuffer := []
  slots := bufferSlots m level me

/-- `CmiCheckReductionSlot` and the lookup or creation that follows it. The caller stores the
record. -/
def getCreateReduction (level : Level) (s : State) (me id : Nat) : Except Stop CmiReduction :=
  match s.info me (cmiGetReductionIndex id) with
  | some red => if red.reductionID ≠ id then .error .tooManyReductions else .ok red
  | none => .ok (newReduction m level me id)

/-- Store a record, or clear the slot of its id. -/
def setInfo (s : State) (me id : Nat) (red : Option CmiReduction) : State :=
  { s with
    info := Function.update s.info me
      (Function.update (s.info me) (cmiGetReductionIndex id) red) }

/-- `CmiSendReduce`. Without a parent the destination handler starts; the record stays in the
table until it returns. -/
def sendReduce (s : State) (me : Nat) (red : CmiReduction) : State :=
  match red.localbuffer with
  | none => setInfo s me red.reductionID (some red)
  | some own =>
    if red.numChildren ≠ red.remotebuffer.length then setInfo s me red.reductionID (some red)
    else
      let value := .node own red.remotebuffer
      match red.parent with
      | some parent =>
        { setInfo s me red.reductionID none with
          flight := s.flight ++ [⟨red.reductionID, parent, value⟩] }
      | none =>
        { setInfo s me red.reductionID (some red) with
          running := ⟨me, red.reductionID, value⟩ :: s.running
          log := s.log ++ [⟨me, red.reductionID, value⟩] }

/-- `CmiInternalReduce`: the local contribution goes into the record. -/
def internalReduce (s : State) (me : Nat) (own : Contribution) (red : CmiReduction) : State :=
  sendReduce { s with called := own :: s.called } me { red with localbuffer := some own }

/-- `CmiReduceHandler`: a child's message goes into the record. Only the node handler checks
that the message is one of `numChildren`. -/
def reduceHandler (level : Level) (s : State) (me : Nat) (msg : RedMsg) : Except Stop State := do
  let red ← getCreateReduction m level s me msg.redID
  if level = .node ∧ red.remotebuffer.length ≥ red.numChildren then throw .overrun
  if red.remotebuffer.length ≥ red.slots then throw .bufferOverflow
  return sendReduce s me { red with remotebuffer := red.remotebuffer ++ [msg.value] }

/-! ## The functions of the source -/

/-- `CmiGetCreateReduction`. -/
def cmiGetCreateReduction := getCreateReduction m .pe

/-- `CmiGetCreateNodeReduction`. -/
def cmiGetCreateNodeReduction := getCreateReduction m .node

/-- `CmiReduceHandler`. -/
def cmiReduceHandler := reduceHandler m .pe

/-- `CmiNodeReduceHandler`, within the slot lock. -/
def cmiNodeReduceHandler := reduceHandler m .node

/-- Take the next id of a process: `CmiGetNextReductionID`, `CmiGetNextNodeReductionID`. -/
def fetchID (level : Level) (s : State) (me : Nat) : State :=
  { s with
    counter := Function.update s.counter me (getNextID (s.counter me) (idStep level)).2
    calls := Function.update s.calls me (s.calls me + 1) }

/-- `CmiReduce`. -/
def cmiReduce (s : State) (me : Nat) : Except Stop State := do
  let id := (getNextID (s.counter me) (idStep .pe)).1
  let own := (me, Key.global (s.calls me))
  let s := fetchID .pe s me
  let red ← cmiGetCreateReduction m s me id
  return internalReduce s me own red

/-- The id that the `k`-th call on a process gets. -/
def globalID (level : Level) (k : Nat) : Nat := k * idStep level % idRange

/-- `CmiNodeReduce` after it has fetched its id, within the slot lock. -/
def cmiNodeReduce (s : State) (me k : Nat) : Except Stop State := do
  let red ← cmiGetCreateNodeReduction m s me (globalID .node k)
  return internalReduce s me (me, .global k) red

/-- The position of a PE in a list, and `npes` if it is not there. -/
def listPos (pes : List Nat) (me : Nat) : Nat := pes.idxOf me

/-- The child count `CmiListReduce` computes for position `myPos` of `npes`, in signed
arithmetic. -/
def listNumChildren (npes myPos : Nat) : Nat :=
  let numChildren : Int := (npes : Int) - (myPos <<< 2 : Nat) - 1
  let numChildren := if numChildren > cmiReductionsNumChildren then
    (cmiReductionsNumChildren : Int) else numChildren
  (if numChildren < 0 then 0 else numChildren).toNat

/-- The parent `CmiListReduce` computes. -/
def listParent (pes : List Nat) (myPos : Nat) : Option Nat :=
  if myPos = 0 then none else pes[(myPos - 1) >>> 2]?

variable {m} in
/-- `CmiListReduce` for the list reduction `l`, the program's `j`-th. -/
def cmiListReduce (s : State) (me j : Nat) (l : ListRed m) : Except Stop State := do
  let red ← cmiGetCreateReduction m s me (cmiGetGlobalReduction l.request)
  let myPos := listPos l.pes me
  if myPos = l.pes.length then throw .notInList
  return internalReduce s me (me, .list j)
    { red with
      numChildren := listNumChildren l.pes.length myPos
      parent := listParent l.pes myPos }

/-! ## The system -/

/-- What can happen: a process makes a call, a message is handled, a destination handler
returns. A node reduction call takes its id first and the slot lock later. -/
inductive Event where
  | reduce (me : Nat)
  | listReduce (me j : Nat)
  | fetch (me : Nat)
  | nodeReduce (me k : Nat)
  | deliver (n : Nat)
  | ret (n : Nat)
  deriving DecidableEq, Repr

/-- A node's slot lock is held while a destination handler runs for that slot. -/
def Locked (level : Level) (s : State) (me id : Nat) : Prop :=
  level = .node ∧ ∃ r ∈ s.running, r.proc = me ∧
    cmiGetReductionIndex r.redID = cmiGetReductionIndex id

instance (level : Level) (s : State) (me id : Nat) : Decidable (Locked level s me id) :=
  inferInstanceAs (Decidable (_ ∧ _))

/-- The return of the `n`-th running handler, followed by `CmiClearReduction`. Handlers on one
PE nest, so there the newest returns first. -/
def handlerReturn (level : Level) (s : State) (n : Nat) : Except Stop State :=
  match s.running[n]? with
  | none => .error .notEnabled
  | some r =>
    if level = .pe ∧ ∃ r' ∈ s.running.take n, r'.proc = r.proc then .error .notEnabled
    else .ok { setInfo s r.proc r.redID none with
      running := s.running.eraseIdx n
      returned := r.value :: s.returned }

variable {m} in
/-- One step of the processes of a level. -/
def step (level : Level) (lists : Nat → ListRed m) (s : State) : Event → Except Stop State
  | .reduce me =>
    if level = .pe ∧ me < m.cmiNumPes then cmiReduce m s me else .error .notEnabled
  | .listReduce me j =>
    if level = .pe ∧ me < m.cmiNumPes then cmiListReduce s me j (lists j)
    else .error .notEnabled
  | .fetch me =>
    if level = .node ∧ me < m.numNodes then
      .ok { fetchID level s me with fetched := (me, s.calls me) :: s.fetched }
    else .error .notEnabled
  | .nodeReduce me k =>
    if level = .node ∧ (me, k) ∈ s.fetched then
      if Locked level s me (globalID level k) then .error .locked
      else cmiNodeReduce m { s with fetched := s.fetched.erase (me, k) } me k
    else .error .notEnabled
  | .deliver n =>
    match s.flight[n]? with
    | none => .error .notEnabled
    | some msg =>
      if Locked level s msg.dest msg.redID then .error .locked
      else
        let s := { s with flight := s.flight.eraseIdx n }
        match level with
        | .pe => cmiReduceHandler m s msg.dest msg
        | .node => cmiNodeReduceHandler m s msg.dest msg
  | .ret n => handlerReturn level s n

/-! ## Ids -/

@[simp] theorem reduction_index_eq (id : Nat) : cmiGetReductionIndex id = id % 32 :=
  Nat.and_two_pow_sub_one_eq_mod id 5

/-- The ids handed out for list reductions are odd. -/
theorem global_reduction_eq (request : Nat) :
    cmiGetGlobalReduction request = (1 + request * 2) % idRange := by
  induction request with
  | zero => rfl
  | succ request ih =>
    simp only [cmiGetGlobalReduction, getNextID, idStep, ih, idRange]
    omega

/-! ## The trees -/

namespace ListRed

variable {m : Machine} (l : ListRed m)

variable {l} {me : Nat}

theorem list_pos_lt (h : me ∈ l.pes) : listPos l.pes me < l.pes.length :=
  idxOf_lt_length_of_mem h

theorem get_list_pos (h : me ∈ l.pes) : l.pes[listPos l.pes me]? = some me := by
  rw [getElem?_eq_getElem (list_pos_lt h)]
  exact congrArg some (getElem_idxOf _)

theorem list_pos_of_get {pos me : Nat} (h : l.pes[pos]? = some me) : listPos l.pes me = pos := by
  obtain ⟨hlt, rfl⟩ := List.getElem?_eq_some_iff.mp h
  exact l.pes_nodup.idxOf_getElem pos hlt

/-- The parent is the PE at the parent's position. -/
theorem list_parent_eq_some {pos p : Nat} : listParent l.pes pos = some p ↔
    ∃ n, cmiNodeSpanTreeParent pos = some n ∧ l.pes[n]? = some p := by
  by_cases h0 : pos = 0
  · simp [listParent, cmiNodeSpanTreeParent, h0]
  · simp [listParent, cmiNodeSpanTreeParent, h0, cstW, Nat.shiftRight_eq_div_pow]

/-- The parent of a listed PE comes before it in the list. -/
theorem list_parent_pos_lt {me p : Nat} (h : listParent l.pes (listPos l.pes me) = some p) :
    listPos l.pes p < listPos l.pes me := by
  obtain ⟨n, hn, hp⟩ := list_parent_eq_some.mp h
  rw [list_pos_of_get hp]
  exact node_span_tree_parent_lt hn

/-- Only the first PE of the list has no parent. -/
theorem list_parent_eq_none (h : me ∈ l.pes) :
    listParent l.pes (listPos l.pes me) = none ↔ me = l.pes.head l.pes_ne_nil := by
  have hhead : l.pes[0]? = some (l.pes.head l.pes_ne_nil) := by
    rw [← head?_eq_getElem?, head?_eq_some_head]
  constructor
  · intro hnone
    have h0 : listPos l.pes me = 0 := by
      by_contra h0
      have hlt := list_pos_lt h
      rw [listParent, if_neg h0, getElem?_eq_none_iff] at hnone
      omega
    have hget := get_list_pos h
    rw [h0, hhead] at hget
    exact (Option.some.inj hget).symm
  · rintro rfl
    rw [list_pos_of_get hhead]
    rfl

variable (l) in
/-- The tree over the list positions that `CmiListReduce` sets up. -/
def tree : RootedTree Nat where
  members := l.pes
  nodup := l.pes_nodup
  parent me := listParent l.pes (listPos l.pes me)
  root := l.pes.head l.pes_ne_nil
  rank := listPos l.pes
  root_mem := head_mem _
  parent_mem _ hp := by
    obtain ⟨n, -, hget⟩ := list_parent_eq_some.mp hp
    exact mem_of_getElem? hget
  parent_rank _ hp := list_parent_pos_lt hp
  parent_eq_none := list_parent_eq_none

/-- The clamped difference in the code is the child count of the macros. -/
theorem list_num_children_eq (npes myPos : Nat) :
    listNumChildren npes myPos = numSpanChildren npes myPos := by
  rw [num_span_children_eq_min]
  simp only [listNumChildren, cmiReductionsNumChildren, cstW, Nat.shiftLeft_eq]
  split <;> split <;> omega

/-- `CmiListReduce` sets the number of children in the tree over the list. -/
theorem list_num_children_eq_length (h : me ∈ l.pes) :
    listNumChildren l.pes.length (listPos l.pes me) = (l.tree.children me).length := by
  have hinj : ∀ x ∈ l.tree.children me, ∀ y ∈ l.tree.children me,
      listPos l.pes x = listPos l.pes y → x = y := by
    intro x hx y hy hxy
    have hxget := get_list_pos (RootedTree.mem_children.mp hx).1
    rw [hxy, get_list_pos (RootedTree.mem_children.mp hy).1] at hxget
    exact (Option.some.inj hxget).symm
  have hperm : ((l.tree.children me).map (listPos l.pes)).Perm
      (spanChildren l.pes.length (listPos l.pes me)) := by
    rw [perm_ext_iff_of_nodup (((l.tree).children_nodup me).map_on hinj) (span_children_nodup _ _)]
    intro pos
    simp only [mem_map, RootedTree.mem_children, mem_span_children]
    constructor
    · rintro ⟨c, ⟨hc, hp⟩, rfl⟩
      obtain ⟨n, hn, hget⟩ := list_parent_eq_some.mp hp
      rw [list_pos_of_get hget]
      exact ⟨list_pos_lt hc, node_span_tree_parent_eq_some.mp hn⟩
    · rintro ⟨hlt, hpar⟩
      have hget := getElem?_eq_getElem hlt
      refine ⟨l.pes[pos], ⟨getElem_mem hlt, ?_⟩, list_pos_of_get hget⟩
      refine list_parent_eq_some.mpr ⟨_, ?_, get_list_pos h⟩
      rw [list_pos_of_get hget]
      exact node_span_tree_parent_eq_some.mpr hpar
  rw [list_num_children_eq, ← span_children_length, ← hperm.length_eq, length_map]

/-- No member of a list has more children than a record has room for. -/
theorem children_length_le (me : Nat) (h : me ∈ l.pes) :
    (l.tree.children me).length ≤ cmiReductionsNumChildren := by
  rw [← list_num_children_eq_length h, list_num_children_eq, num_span_children_eq_min]
  exact min_le_left _ _

end ListRed

section Trees

variable {m : Machine} (level : Level) (lists : Nat → ListRed m)

/-- The tree of the processes of a level. -/
def spanningTree (m : Machine) : Level → RootedTree Nat
  | .pe => m.peSpanTree
  | .node => spanTree m.numNodes m.numNodes_pos

/-- The tree of each reduction. -/
def tree : Key → RootedTree Nat
  | .global _ => spanningTree m level
  | .list j => (lists j).tree

/-- The id of each reduction. -/
def keyID : Key → Nat
  | .global k => globalID level k
  | .list j => cmiGetGlobalReduction (lists j).request

variable {level} {me : Nat}

theorem mem_spanning_tree : me ∈ (spanningTree m level).members ↔ me < numProcs m level := by
  cases level <;> exact mem_range

/-- A new record's shape is the spanning tree's. -/
theorem span_num_children_eq (h : me < numProcs m level) :
    spanNumChildren m level me = ((spanningTree m level).children me).length := by
  cases level with
  | pe => exact Machine.num_span_tree_children_eq h
  | node =>
    exact (span_children_length ..).symm.trans (span_children_perm m.numNodes_pos me).length_eq

theorem span_parent_eq (me : Nat) : spanParent m level me = (spanningTree m level).parent me := by
  cases level <;> rfl

/-- A record has room for a message from every child, in the spanning tree and in the tree of a
list reduction. -/
theorem children_le_slots {k : Key} (h : me ∈ (tree level lists k).members)
    (hlevel : level = .pe ∨ ∃ n, k = .global n) :
    ((tree level lists k).children me).length ≤ bufferSlots m level me := by
  cases k with
  | global k =>
    have := span_num_children_eq (mem_spanning_tree.mp h)
    cases level with
    | pe => exact this ▸ le_max_left _ _
    | node => exact this ▸ le_refl _
  | list j =>
    obtain rfl | ⟨n, hn⟩ := hlevel
    · exact le_trans (ListRed.children_length_le me h) (le_max_right _ _)
    · cases hn

end Trees

end Reduction

end Reconverse
