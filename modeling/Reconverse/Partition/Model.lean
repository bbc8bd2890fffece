import Mathlib

/-!
# Partitions of a run

A run may be split into partitions, each of which numbers its processes from 0. This module models
`create_partition_map`, which every process calls at start-up with its global number, and the
translations from local to global numbers. The sizes of the partitions are all the same, or all the
same but for a first partition of one process (`+master_partition`), or given by the user
(`+partition_sizes`).

A call that aborts, divides by zero, does not end, reads a variable without a value or writes
outside of an array is `none`. The `int`s of the source are integers, and an array is a function
whose indices are checked where it is written.
-/

namespace Reconverse.Partition

/-- `Partition_Type`. -/
inductive PartitionType where
  | singleton
  | default
  | master
  | prefixed
  deriving DecidableEq, Repr

/-- The fields of `PartitionInfo` that have a use here. -/
structure PartitionInfo where
  type : PartitionType
  numPartitions : Nat
  partitionSize : Nat → Int
  partitionPrefix : Nat → Int
  myPartition : Nat

/-- The options: `+partitions` (or `+replicas`), `+master_partition`, `+partition_sizes`, and
whether any of those for partitions that follow the topology is given. -/
structure Options where
  partitions : Option Int
  masterPartition : Bool
  partitionSizes : Option String
  isTopoaware : Bool
  deriving DecidableEq, Repr

/-! ## Integer division -/

/-- `/`, which rounds towards zero. -/
def intDiv (a b : Int) : Option Int := if b = 0 then none else some (a.tdiv b)

/-- `%`. -/
def intMod (a b : Int) : Option Int := if b = 0 then none else some (a.tmod b)

/-! ## The list of sizes -/

/-- A directive of a format string: `%d`, or a character that has to be there. -/
inductive Directive where
  | int
  | char (c : Char)
  deriving DecidableEq, Repr

/-- `isspace`. -/
def isSpace (c : Char) : Bool := c = ' ' || 9 ≤ c.toNat && c.toNat ≤ 13

/-- `%d`: blanks, a sign and digits. -/
def scanInt (text : List Char) : Option (Int × List Char) :=
  let text := text.dropWhile isSpace
  let (negative, text) := match text with
    | '-' :: rest => (true, rest)
    | '+' :: rest => (false, rest)
    | text => (false, text)
  match text.takeWhile Char.isDigit with
  | [] => none
  | digits =>
    let value : Int := digits.foldl (fun value c => 10 * value + (c.toNat - '0'.toNat)) 0
    some (if negative then -value else value, text.dropWhile Char.isDigit)

/-- `sscanf`: the values that are assigned, up to the first directive that does not match. -/
def sscanf : List Directive → List Char → List Int
  | [], _ => []
  | .int :: format, text =>
    match scanInt text with
    | some (value, text) => value :: sscanf format text
    | none => []
  | .char c :: format, text =>
    match text with
    | d :: text => if c = d then sscanf format text else []
    | [] => []

/-- The variables that are set from a token; `none` is a variable without a value. -/
structure Range where
  first : Option Int
  last : Option Int
  stride : Int
  block : Int
  size : Option Int
  deriving DecidableEq, Repr

/-- How a token is read. The formats are `%d-%d:%d.%d#%d`, `%d-%d:%d#%d`, `%d-%d#%d` and `%d#%d`. -/
def readToken (token : List Char) : Range :=
  let range :=
    if '-' ∈ token then
      if ':' ∈ token then
        if '.' ∈ token then
          let values := sscanf [.int, .char '-', .int, .char ':', .int, .char '.', .int, .char '#',
            .int] token
          ⟨values[0]?, values[1]?, values[2]?.getD 1, values[3]?.getD 1, values[4]?⟩
        else
          let values := sscanf [.int, .char '-', .int, .char ':', .int, .char '#', .int] token
          ⟨values[0]?, values[1]?, values[2]?.getD 1, 1, values[3]?⟩
      else
        let values := sscanf [.int, .char '-', .int, .char '#', .int] token
        ⟨values[0]?, values[1]?, 1, 1, values[2]?⟩
    else
      let values := sscanf [.int, .char '#', .int] token
      ⟨values[0]?, values[0]?, 1, 1, values[1]?⟩
  if range.block > range.stride then { range with block := 1 } else range

/-- `partitionSize[i] = size`. -/
def store (numPartitions : Nat) (sizes : Nat → Int) (i : Int) (size : Option Int) :
    Option (Nat → Int) := do
  guard (0 ≤ i ∧ i < numPartitions)
  let size ← size
  some (Function.update sizes i.toNat size)

/-- The inner loop, from `i` for the next `block` partitions. -/
def fillBlock (numPartitions : Nat) (last : Int) (size : Option Int) :
    Nat → Int → (Nat → Int) → Option (Nat → Int)
  | 0, _, sizes => some sizes
  | block + 1, i, sizes =>
    if i > last then some sizes
    else do
      let sizes ← store numPartitions sizes i size
      fillBlock numPartitions last size block (i + 1) sizes

/-- The outer loop. -/
def fill (numPartitions : Nat) (last stride block : Int) (size : Option Int) :
    Nat → Int → (Nat → Int) → Option (Nat → Int)
  | 0, _, _ => none
  | fuel + 1, i, sizes =>
    if i > last then some sizes
    else do
      let sizes ← fillBlock numPartitions last size block.toNat i sizes
      fill numPartitions last stride block size fuel (i + stride) sizes

/-- What a token does to the sizes. With a positive stride the loop ends after at most
`last - first + 1` rounds, and otherwise, if it is entered, not at all or outside of the array. -/
def fillRange (numPartitions : Nat) (sizes : Nat → Int) (range : Range) : Option (Nat → Int) := do
  let first ← range.first
  let last ← range.last
  fill numPartitions last range.stride range.block range.size ((last - first + 1).toNat + 1) first
    sizes

/-- The sizes that `+partition_sizes` gives, with 0 where it gives none. `strtok_r` skips empty
tokens. -/
def readSizes (numPartitions : Nat) (partsizes : String) : Option (Nat → Int) :=
  let tokens := (partsizes.toList.splitOn ',').filter (· ≠ [])
  (tokens.map readToken).foldlM (fillRange numPartitions) fun _ => 0

/-! ## The map -/

/-- The two arrays. -/
structure Table where
  partitionSize : Nat → Int
  partitionPrefix : Nat → Int

/-- The body of the loops for partitions of the same size. -/
def Table.copySize (t : Table) (i : Nat) : Table where
  partitionSize := Function.update t.partitionSize i (t.partitionSize (i - 1))
  partitionPrefix := Function.update t.partitionPrefix i
    (t.partitionPrefix (i - 1) + t.partitionSize (i - 1))

/-- `PARTITION_DEFAULT`. -/
def defaultMap (numPartitions numNodes myNode : Nat) : Option PartitionInfo := do
  let rest ← intMod numNodes numPartitions
  guard (rest = 0)
  let size ← intDiv numNodes numPartitions
  let table : Table := (List.range' 1 (numPartitions - 1)).foldl Table.copySize
    { partitionSize := Function.update (fun _ => 0) 0 size
      partitionPrefix := fun _ => 0 }
  let myPartition ← intDiv myNode (table.partitionSize 0)
  some ⟨.default, numPartitions, table.partitionSize, table.partitionPrefix, myPartition.toNat⟩

/-- `PARTITION_MASTER`. -/
def masterMap (numPartitions numNodes myNode : Nat) : Option PartitionInfo := do
  let rest ← intMod (numNodes - 1) (numPartitions - 1)
  guard (rest = 0)
  let size ← intDiv (numNodes - 1) (numPartitions - 1)
  let table : Table := (List.range' 2 (numPartitions - 2)).foldl Table.copySize
    { partitionSize := Function.update (Function.update (fun _ => 0) 0 1) 1 size
      partitionPrefix := Function.update (fun _ => 0) 1 1 }
  let quotient ← intDiv (myNode - 1) (table.partitionSize 1)
  let myPartition := if myNode = 0 then 0 else 1 + quotient
  some ⟨.master, numPartitions, table.partitionSize, table.partitionPrefix, myPartition.toNat⟩

/-- The body of the loop for given sizes: the start of partition `i`, and whether the process is
in it. -/
def prefixStep (partitionSize : Nat → Int) (myNode : Nat) (state : (Nat → Int) × Nat) (i : Nat) :
    Option ((Nat → Int) × Nat) := do
  let (partitionPrefix, myPartition) := state
  guard (0 < partitionSize (i - 1))
  let start := partitionPrefix (i - 1) + partitionSize (i - 1)
  some (Function.update partitionPrefix i start,
    if myNode ≥ start ∧ myNode < start + partitionSize i then i else myPartition)

/-- `PARTITION_PREFIX`. -/
def prefixMap (numPartitions myNode : Nat) (partsizes : String) : Option PartitionInfo := do
  let partitionSize ← readSizes numPartitions partsizes
  let (partitionPrefix, myPartition) ←
    (List.range' 1 (numPartitions - 1)).foldlM (prefixStep partitionSize myNode) (fun _ => 0, 0)
  guard (0 < partitionSize (numPartitions - 1))
  some ⟨.prefixed, numPartitions, partitionSize, partitionPrefix, myPartition⟩

/-- `+partitions`. -/
def Options.numPartitions (opts : Options) : Int := opts.partitions.getD 1

/-- The table and the partition of the process, by type. Process 0 aborts if `+master_partition` and
`+partition_sizes` are both given. -/
def Options.partitionMap (opts : Options) (numPartitions numNodes myNode : Nat) :
    Option PartitionInfo :=
  match opts.partitionSizes with
  | some partsizes => do
      guard (¬ (myNode = 0 ∧ opts.masterPartition))
      prefixMap numPartitions myNode partsizes
  | none =>
    if opts.masterPartition then masterMap numPartitions numNodes myNode
    else defaultMap numPartitions numNodes myNode

/-- `create_partition_map`, called by the process `myNode` of `numNodes`: the partitions and the new
`Cmi_mynode`. Without a positive number of partitions each type divides by it, writes to an empty
array, or to one that could not be allocated. -/
def createPartitionMap (opts : Options) (numNodes myNode : Nat) :
    Option (PartitionInfo × Int) := do
  guard (0 < opts.numPartitions)
  let info ← opts.partitionMap opts.numPartitions.toNat numNodes myNode
  guard (¬ opts.isTopoaware)
  some (info, myNode - info.partitionPrefix info.myPartition)

/-! ## Translations -/

/-- `CmiNodeOf`. -/
def cmiNodeOf (nodeSize : Nat) (pe : Int) : Int := pe.tdiv nodeSize

/-- `CmiRankOf`. -/
def cmiRankOf (nodeSize : Nat) (pe : Int) : Int := pe.tmod nodeSize

namespace PartitionInfo

variable (info : PartitionInfo)

/-- `node_lToGTranslate`. -/
def nodeLToGTranslate (node : Int) (partition : Nat) : Int :=
  match info.type with
  | .singleton => node
  | .default => partition * info.partitionSize 0 + node
  | .master =>
    if partition = 0 then 0 else 1 + (partition - 1) * info.partitionSize 1 + node
  | .prefixed => info.partitionPrefix partition + node

/-- `pe_lToGTranslate`, in a run of `numPes` PEs. -/
def peLToGTranslate (nodeSize numPes : Nat) (pe : Int) (partition : Nat) : Int :=
  if info.type = .singleton then pe
  else if pe < info.partitionSize partition * nodeSize then
    info.nodeLToGTranslate (cmiNodeOf nodeSize pe) partition * nodeSize + cmiRankOf nodeSize pe
  else
    numPes + info.nodeLToGTranslate (pe - info.partitionSize partition * nodeSize) partition

end PartitionInfo

end Reconverse.Partition
