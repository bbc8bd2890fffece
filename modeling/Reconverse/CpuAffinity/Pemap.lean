import Reconverse.Lib.Emit
import Reconverse.Lib.Scan

/-!
# PE maps

`search_pemap` of `cpuaffinity.cpp` reads a map string such as `2x0-7:4.2+8,16-19` and returns the
entry for a PE. The items of the string are expanded into an array that is cut off at the number of
PEs. `Item` is the grammar, and `expand` is the list that an item denotes.

The entry is found modulo the number of entries. If a map denotes no entries, that is a division by
zero.
-/

namespace Reconverse.CpuAffinity

open Lib Lib.CInt Lib.Scan

/-- Why a call returns no value. -/
inductive Fault where
  | divisionByZero
  /-- A variable without a value, a number or a sum that does not fit an `int`, or a write outside
  an array. -/
  | undefined
  | outOfFuel
  deriving DecidableEq, Repr

/-- A value that may be undefined. -/
def defined {α : Type} : Option α → Except Fault α
  | some v => .ok v
  | none => .error .undefined

/-- `sscanf`. -/
def scan (format : List Directive) (s : List Char) : Except Fault (List Int) :=
  defined (sscanf format s)

/-! ## One item -/

/-- What the loop over the characters of an item finds. `plus` are the values in `plusarr` after
the first one, which is 0. -/
structure Flags where
  hasdash : Bool := false
  hascolon : Bool := false
  hasdot : Bool := false
  hasstar1 : Bool := false
  hasstar2 : Bool := false
  plus : List Int := []
  deriving DecidableEq, Repr

/-- The loop over the characters of an item. `first` says that this is the first one. -/
def scanItem (first : Bool) : List Char → Flags → Except Fault Flags
  | [], f => .ok f
  | c :: cs, f =>
    if c = '-' ∧ first = false then scanItem false cs { f with hasdash := true }
    else if c = ':' then scanItem false cs { f with hascolon := true }
    else if c = '.' then scanItem false cs { f with hasdot := true }
    else if c = 'x' then scanItem false cs { f with hasstar1 := true }
    else if c = 'X' then scanItem false cs { f with hasstar2 := true }
    else if c = '+' then
      if cs.head? = some '+' ∨ cs.head? = some '-' then scanItem false cs f
      else
        match scan [.lit '+', .d] (c :: cs) with
        | .error e => .error e
        | .ok [] => scanItem false cs f
        | .ok (v :: _) =>
          -- `plusarr` has 128 entries.
          if f.plus.length + 1 < 128 then scanItem false cs { f with plus := f.plus ++ [v] }
          else .error .undefined
    else scanItem false cs f

/-- The variables of an item after it was read. -/
structure Fields where
  iter : Int
  start : Int
  last : Int
  stride : Int
  block : Int
  plusarr : List Int
  deriving DecidableEq, Repr

/-- The number of repetitions and the text after it. -/
def readIter (f : Flags) (str : List Char) : Except Fault (Int × List Char) := do
  if f.hasstar1 || f.hasstar2 then
    let iter := 1
    let iter ← if f.hasstar1 then (·.headD iter) <$> scan [.d, .lit 'x'] str else .ok iter
    let iter ← if f.hasstar2 then (·.headD iter) <$> scan [.d, .lit 'X'] str else .ok iter
    return (iter, (str.dropWhile fun c => c ≠ 'x' ∧ c ≠ 'X').tail)
  else return (1, str)

/-- The numbers that are read for `start`, `end`, `stride` and `block`. -/
def readRange (f : Flags) (str : List Char) : Except Fault (List Int) := do
  if f.hasdash then
    if f.hascolon then
      if f.hasdot then scan [.d, .lit '-', .d, .lit ':', .d, .lit '.', .d] str
      else scan [.d, .lit '-', .d, .lit ':', .d] str
    else scan [.d, .lit '-', .d] str
  else
    let values ← scan [.d] str
    -- `end = start`
    return values ++ values

/-- Read one item. -/
def readItem (str : List Char) : Except Fault Fields := do
  let f ← scanItem true str {}
  let (iter, str) ← readIter f str
  let values ← readRange f str
  match values with
  | start :: last :: more =>
    let stride := more.headD 1
    let block := more.tail.headD 1
    return ⟨iter, start, last, stride, if block > stride then 1 else block, 0 :: f.plus⟩
  | _ => .error .undefined

/-! ## The loops -/

section Loops

variable (numPes : Nat)

/-- `map[count++] = v`. -/
def store (v : Int) (map : List Int) : Except Fault (List Int) :=
  if map.length < numPes then .ok (map ++ [v]) else .error .undefined

/-- The loop over the offsets. -/
def hLoop (v : Int) : List Int → List Int → Except Fault (List Int)
  | [], map => .ok map
  | p :: plusarr, map => do
    let map ← (do store numPes (← defined (addInt v p)) map)
    if map.length = numPes then .ok map else hLoop v plusarr map

variable (f : Fields)

/-- The loop over a block: `j` and the number of turns that are left. -/
def jLoop (i : Int) (j : Nat) : Nat → List Int → Except Fault (List Int)
  | 0, map => .ok map
  | left + 1, map => do
    let v ← defined (addInt i j)
    if v > f.last then .ok map
    else
      let map ← hLoop numPes v f.plusarr map
      if map.length = numPes then .ok map else jLoop i (j + 1) left map

/-- The loop from `start` to `end`. -/
def iLoop : Nat → Int → List Int → Except Fault (List Int)
  | 0, _, _ => .error .outOfFuel
  | fuel + 1, i, map =>
    if i ≤ f.last then do
      let map ← jLoop numPes f i 0 f.block.toNat map
      if map.length = numPes then .ok map
      else
        let i ← defined (addInt i f.stride)
        iLoop fuel i map
    else .ok map

/-- The loop over the repetitions. -/
def kLoop (fuel : Nat) : Nat → List Int → Except Fault (List Int)
  | 0, map => .ok map
  | left + 1, map => do
    let map ← iLoop numPes f fuel f.start map
    if map.length = numPes then .ok map else kLoop fuel left map

/-- The loop over the items. -/
def itemLoop (fuel : Nat) : List (List Char) → List Int → Except Fault (List Int)
  | [], map => .ok map
  | str :: strs, map =>
    if map.length < numPes then do
      let f ← readItem str
      let map ← kLoop numPes f fuel f.iter.toNat map
      itemLoop fuel strs map
    else .ok map

end Loops

/-- The tokens that `strtok_r` finds. -/
def strtok (s : List Char) : List (List Char) := (s.splitOn ',').filter (· ≠ [])

/-- `search_pemap`, with a bound on the turns of its unbounded loop. -/
def searchPemap (fuel numPes : Nat) (pecoremap : List Char) (pe : Nat) : Except Fault Int := do
  let map ← itemLoop numPes fuel (strtok pecoremap) []
  if map.length = 0 then .error .divisionByZero
  else
    match map[pe % map.length]? with
    | some v => .ok v
    | none => .error .undefined

/-! ## The grammar -/

/-- An item `[n x] start [-end [:stride [.block]]] [+off]...`. The flag of a repetition says that it
is written with `X`. -/
structure Item where
  reps : Option (Numeral × Bool)
  start : Numeral
  range : Option (Numeral × Option (Numeral × Option Numeral))
  offs : List Numeral

namespace Item

variable (t : Item)

/-- The text of the repetitions. -/
def repsText : List Char :=
  match t.reps with
  | none => []
  | some (n, upper) => n.digits ++ [if upper then 'X' else 'x']

/-- The text of the range. -/
def rangeText : List Char :=
  match t.range with
  | none => []
  | some (last, none) => '-' :: last.digits
  | some (last, some (stride, none)) => '-' :: (last.digits ++ ':' :: stride.digits)
  | some (last, some (stride, some block)) =>
    '-' :: (last.digits ++ ':' :: (stride.digits ++ '.' :: block.digits))

/-- The text of the offsets. -/
def offsText : List Char := t.offs.flatMap fun o => '+' :: o.digits

/-- The text of an item. -/
def text : List Char := t.repsText ++ (t.start.digits ++ (t.rangeText ++ t.offsText))

/-- The number of repetitions. -/
def n : Nat := (t.reps.map fun r => r.1.value).getD 1

/-- The end of the range. -/
def last : Nat := ((t.range.map fun r => r.1).getD t.start).value

/-- The stride. -/
def stride : Nat := ((t.range.bind fun r => r.2).map fun r => r.1.value).getD 1

/-- The block, as it is written. -/
def block : Nat := (((t.range.bind fun r => r.2).bind fun r => r.2).map Numeral.value).getD 1

/-- The block that is used. -/
def blockUsed : Nat := if t.block > t.stride then 1 else t.block

/-- The offsets, the first of which is 0. -/
def offsets : List Nat := 0 :: t.offs.map Numeral.value

/-- From `start` to `end` in steps of `stride`. -/
def steps : List Nat :=
  if t.start.value ≤ t.last then
    List.range' t.start.value ((t.last - t.start.value) / t.stride + 1) t.stride
  else []

/-- The entries of one repetition. -/
def body : List Nat :=
  t.steps.flatMap fun i => (List.range t.blockUsed).flatMap fun j =>
    if i + j ≤ t.last then t.offsets.map (i + j + ·) else []

/-- The entries that the item denotes. -/
def expand : List Nat := (List.replicate t.n t.body).flatten

/-- The numbers of the item. -/
def numerals : List Numeral :=
  (t.reps.map fun r => r.1).toList ++ t.start :: (match t.range with
    | none => []
    | some (last, none) => [last]
    | some (last, some (stride, none)) => [last, stride]
    | some (last, some (stride, some block)) => [last, stride, block]) ++ t.offs

/-- The stride is at least 1, there are at most 127 offsets, and neither a number nor a sum exceeds
an `int`. -/
structure Ok : Prop where
  stride_pos : 1 ≤ t.stride
  offs_le : t.offs.length ≤ 127
  numerals_le : ∀ m ∈ t.numerals, (m.value : Int) ≤ intMax
  steps_le : 0 < t.n → ∀ i ∈ t.steps, (i + t.stride : Int) ≤ intMax
  body_le : 0 < t.n → ∀ x ∈ t.body, (x : Int) ≤ intMax

end Item

/-- The text of a map. -/
def mapText (items : List Item) : List Char := [','].intercalate (items.map Item.text)

/-- The entries that a map denotes. -/
def entries (items : List Item) : List Nat := items.flatMap Item.expand

end Reconverse.CpuAffinity
