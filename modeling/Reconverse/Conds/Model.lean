import Reconverse.Conds.Periodic
import Reconverse.Lib.CInt
import Reconverse.Lib.Runs

/-!
# Condition callbacks

The lists of `conv-conds.cpp` on one PE. A condition has a list of callbacks that fire once and are
then removed, and a list of callbacks that are kept. `CcdRaiseCondition` runs the first list from
its end to its start and then the second one from its start to its end.

A callback is code of the program: while it runs it may register callbacks and raise conditions, to
any depth, and then it returns. So a raise is not one step. Each `CcdRaiseCondition` that has not
returned is a `Frame`, which says how far it has come, and a step is a call that the program makes,
at the outermost level or inside the callback that runs now, or the return of that callback.

Registrations and raises are numbered in their order. The number of a registration stands for the
function and the argument that were registered.
-/

namespace Reconverse.Conds

open Function (update)
open Lib.CInt

/-- The two lists of a condition, `condcb` and `condcb_keep`. -/
inductive Kind where
  | once
  | keep
  deriving DecidableEq, Repr

/-- Which list: the kind and the condition. -/
abbrev Key := Kind × Nat

/-- `ccd_cond_callback`. -/
structure CcdCondCallback where
  reg : Nat
  id : Int
  deriving DecidableEq, Repr

/-- `ccd_cblist`. -/
structure CcdCblist where
  elems : List CcdCondCallback
  flag : Bool
  nextId : Int
  deriving DecidableEq, Repr

/-- A registration that was made, with the handle that was returned for it. -/
structure Registration where
  key : Key
  handle : Int
  deriving DecidableEq, Repr

/-- A raise that was started: its condition, the number of registrations made before it, those
of them that had been cancelled, and whether the one-time list of its condition was running. -/
structure Raise where
  cond : Nat
  regs : Nat
  cancelled : List Nat
  nested : Bool
  deriving DecidableEq, Repr

/-- A callback that was fired, the raise that fired it, and the number of registrations made before
that raise started to walk the list. -/
structure Firing where
  reg : Nat
  raise : Nat
  since : Nat
  deriving DecidableEq, Repr

/-- How far a raise has come: before `call_cblist_remove`, in its loop with element `i` of the
first `len` running, before `call_cblist_keep`, in its loop. `since` is the number of
registrations made before the loop. -/
inductive Phase where
  | atOnce
  | removing (i len since : Nat)
  | atKeep
  | keeping (i len since : Nat)
  deriving DecidableEq, Repr

/-- A `CcdRaiseCondition` that has not returned. -/
structure Frame where
  raise : Nat
  cond : Nat
  phase : Phase
  deriving DecidableEq, Repr

/-- The conditions of a PE. The registrations, the raises, the firings and the registrations that
were removed by a cancel call are kept for the statements. -/
structure Pe where
  lists : Key → CcdCblist
  /-- `_ccd_num_timed_cond_cbs`. -/
  numTimed : Int
  /-- The raises that run, the innermost first. -/
  stack : List Frame
  regs : List Registration
  raises : List Raise
  fired : List Firing
  cancelled : List Nat

/-- Before the first registration. -/
def Pe.initial : Pe where
  lists _ := ⟨[], false, 1⟩
  numTimed := 0
  stack := []
  regs := []
  raises := []
  fired := []
  cancelled := []

/-- `CcdPERIODIC_LAST`. -/
def ccdPeriodicLast : Nat := 18

/-- `MAXNUMCONDS`. -/
def maxNumConds : Nat := 128

/-- `isTimed`. -/
def isTimed (condnum : Nat) : Bool := ccdPeriodicFirst ≤ condnum ∧ condnum < ccdPeriodicLast

namespace Pe

variable (s : Pe)

/-- Change the number of callbacks on timed conditions. -/
def addTimed (condnum : Nat) (n : Int) : Pe :=
  if isTimed condnum then { s with numTimed := int (s.numTimed + n) } else s

/-- Replace the elements of a list. -/
def setElems (key : Key) (elems : List CcdCondCallback) : Pe :=
  { s with lists := update s.lists key { s.lists key with elems } }

/-- Set the flag of a list. -/
def setFlag (key : Key) (flag : Bool) : Pe :=
  { s with lists := update s.lists key { s.lists key with flag } }

/-- `remove_elem`. -/
def removeElem (key : Key) (id : Int) : Pe :=
  match (s.lists key).elems.find? (·.id = id) with
  | none => s
  | some cb =>
    { (s.addTimed key.2 (-1)).setElems key ((s.lists key).elems.eraseP (·.id = id)) with
      cancelled := cb.reg :: s.cancelled }

/-- `remove_n_elems`. -/
def removeNElems (key : Key) (n : Nat) : Pe :=
  if n = 0 ∨ (s.lists key).elems.length < n then s
  else (s.addTimed key.2 (-n)).setElems key ((s.lists key).elems.drop n)

/-- `append_elem`. -/
def appendElem (key : Key) : Pe :=
  let l := s.lists key
  { s.addTimed key.2 1 with
    lists := update s.lists key
      { l with elems := l.elems ++ [⟨s.regs.length, l.nextId⟩], nextId := int (l.nextId + 1) }
    regs := s.regs ++ [⟨key, l.nextId⟩] }

/-- Run element `i` of a list, in the loop of the innermost raise. An element that does not exist
is undefined behaviour. -/
def call (key : Key) (i since : Nat) (f : Frame) (rest : List Frame) : Option Pe := do
  let cb ← (s.lists key).elems[i]?
  return { s with
    stack := f :: rest
    fired := s.fired ++ [⟨cb.reg, f.raise, since⟩] }

/-- `call_cblist_keep`, up to its first callback. Without one the raise returns. -/
def callCblistKeep (f : Frame) (rest : List Frame) : Option Pe :=
  let len := (s.lists (.keep, f.cond)).elems.length
  if len = 0 then some { s with stack := rest }
  else s.call (.keep, f.cond) 0 s.regs.length
    { f with phase := .keeping 0 len s.regs.length } rest

/-- `call_cblist_remove`, up to its first callback. Without one, or if it is already running, the
raise goes on with the other list. -/
def callCblistRemove (f : Frame) (rest : List Frame) : Option Pe :=
  let l := s.lists (.once, f.cond)
  let len := l.elems.length
  if len = 0 ∨ l.flag then
    { s with stack := { f with phase := .atKeep } :: rest }.callCblistKeep
      { f with phase := .atKeep } rest
  else (s.setFlag (.once, f.cond) true).call (.once, f.cond) (len - 1) s.regs.length
    { f with phase := .removing (len - 1) len s.regs.length } rest

/-- The end of `call_cblist_remove`. -/
def endRemove (f : Frame) (rest : List Frame) (len : Nat) : Pe :=
  { (s.removeNElems (.once, f.cond) len).setFlag (.once, f.cond) false with
    stack := { f with phase := .atKeep } :: rest }

/-- A raise is started. -/
def startRaise (condnum : Nat) : Pe :=
  { s with
    stack := ⟨s.raises.length, condnum, .atOnce⟩ :: s.stack
    raises := s.raises ++
      [⟨condnum, s.regs.length, s.cancelled, (s.lists (.once, condnum)).flag⟩] }

/-- `CcdRaiseCondition`, up to its first callback. -/
def ccdRaiseCondition (condnum : Nat) : Option Pe :=
  (s.startRaise condnum).callCblistRemove ⟨s.raises.length, condnum, .atOnce⟩ s.stack

/-- The callback that runs now returns, and the innermost raise goes on with its loop. -/
def callbackReturn : Option Pe :=
  match s.stack with
  | [] => none
  | f :: rest =>
    match f.phase with
    | .removing i len since =>
      if i = 0 then (s.endRemove f rest len).callCblistKeep { f with phase := .atKeep } rest
      else s.call (.once, f.cond) (i - 1) since
        { f with phase := .removing (i - 1) len since } rest
    | .keeping i len since =>
      if i + 1 < len then s.call (.keep, f.cond) (i + 1) since
        { f with phase := .keeping (i + 1) len since } rest
      else some { s with stack := rest }
    | _ => none

/-! ## The functions of the source -/

/-- `CcdCallOnCondition`; the handle is in the last registration. -/
def ccdCallOnCondition (condnum : Nat) : Pe := s.appendElem (.once, condnum)

/-- `CcdCallOnConditionKeep`. -/
def ccdCallOnConditionKeep (condnum : Nat) : Pe := s.appendElem (.keep, condnum)

/-- `CcdCancelCallOnCondition`. -/
def ccdCancelCallOnCondition (condnum : Nat) (handle : Int) : Pe :=
  s.removeElem (.once, condnum) handle

/-- `CcdCancelCallOnConditionKeep`. -/
def ccdCancelCallOnConditionKeep (condnum : Nat) (handle : Int) : Pe :=
  s.removeElem (.keep, condnum) handle

end Pe

/-! ## The system -/

/-- A call of the program, or the return of the callback that runs. -/
inductive Event where
  | callOnCondition (kind : Kind) (condnum : Nat)
  | cancel (kind : Kind) (condnum : Nat) (handle : Int)
  | raise (condnum : Nat)
  | ret
  deriving DecidableEq, Repr

/-- One step. Conditions are below `MAXNUMCONDS`, and no cancel call is made inside a callback. -/
def step (s : Pe) : Event → Option Pe
  | .callOnCondition kind condnum =>
    if condnum < maxNumConds then
      match kind with
      | .once => some (s.ccdCallOnCondition condnum)
      | .keep => some (s.ccdCallOnConditionKeep condnum)
    else none
  | .cancel kind condnum handle =>
    if condnum < maxNumConds ∧ s.stack = [] then
      match kind with
      | .once => some (s.ccdCancelCallOnCondition condnum handle)
      | .keep => some (s.ccdCancelCallOnConditionKeep condnum handle)
    else none
  | .raise condnum => if condnum < maxNumConds then s.ccdRaiseCondition condnum else none
  | .ret => s.callbackReturn

/-- `CcdModuleInit`: the two callbacks that are registered for idle PEs. -/
def ccdModuleInitConds : Pe :=
  (Pe.initial.ccdCallOnConditionKeep 2).ccdCallOnConditionKeep 1

/-- A run on one PE. -/
abbrev Run (es : List Event) (s : Pe) : Prop :=
  Lib.Steps (fun s e s' => step s e = some s') ccdModuleInitConds es s

/-! ## What the statements speak about -/

namespace Pe

/-- How often a registered callback has fired. -/
def hits (s : Pe) (n : Nat) : Nat := s.fired.countP (·.reg = n)

/-- How often a registered callback has fired in one raise. -/
def hitsIn (s : Pe) (n r : Nat) : Nat := s.fired.countP fun x => x.reg = n ∧ x.raise = r

/-- The raise has returned. -/
def Returned (s : Pe) (r : Nat) : Prop := ∀ f ∈ s.stack, f.raise ≠ r

/-- The callbacks in the lists of the timed conditions. -/
def timedCallbacks (s : Pe) : Nat :=
  ∑ c ∈ Finset.Ico ccdPeriodicFirst ccdPeriodicLast,
    ((s.lists (.once, c)).elems.length + (s.lists (.keep, c)).elems.length)

end Pe

end Reconverse.Conds
