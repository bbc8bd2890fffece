import Reconverse.Lib.Gather
import Reconverse.Machine.Topology

/-!
# The gathering of the CPU topology

`conv-topology.cpp`. Every PE contributes a record with the IP address of its process to a
reduction, `combineMessage` joins the records, and on PE 0 `cpuTopoHandler` gives each PE the number
of the first PE with the same address. These numbers are broadcast. Every process then compacts them
and sorts the PEs by hosts.

What the reduction hands to PE 0 is a merge of the contributions, `Merged`, in which the
contributions of the children may stand in any order.
-/

namespace Reconverse.HostTopology

open Lib

variable {α : Type} [DecidableEq α]

/-- `_procInfo`. -/
structure ProcInfo (α : Type) where
  ip : α
  pe : Nat
  nodeID : Int
  deriving DecidableEq, Repr

/-! ## The reduction -/

/-- `combineMessage`, on the records of the messages. -/
def combineMessage (data : List (ProcInfo α)) (remote : List (List (ProcInfo α))) :
    List (ProcInfo α) :=
  if remote.length = 0 then data else data ++ remote.flatten

mutual

/-- The message that a merge of the contributions of the PEs is. -/
def message (own : Nat → ProcInfo α) : Merged Nat → List (ProcInfo α)
  | .node pe parts => combineMessage [own pe] (messages own parts)

/-- The messages of a list of merges. -/
def messages (own : Nat → ProcInfo α) : List (Merged Nat) → List (List (ProcInfo α))
  | [] => []
  | v :: vs => message own v :: messages own vs

end

/-- The record that a PE contributes. -/
def procOf (m : Machine) (ip : Nat → α) (pe : Nat) : ProcInfo α := ⟨ip (m.cmiNodeOf pe), pe, 0⟩

/-! ## On PE 0 -/

/-- One turn of the loop of `cpuTopoHandler`: the host table, by addresses, and `topomsg->nodes`. -/
def handleProc (s : List (α × Int) × List Int) (proc : ProcInfo α) : List (α × Int) × List Int :=
  match s.1.find? (·.1 = proc.ip) with
  | some rec => (s.1, s.2.set proc.pe rec.2)
  | none => ((proc.ip, (proc.pe : Int)) :: s.1, s.2.set proc.pe proc.pe)

/-- `cpuTopoHandler`. -/
def cpuTopoHandler (m : Machine) (procs : List (ProcInfo α)) : Option (List Int) :=
  if procs.length = m.cmiNumPes then
    some (procs.foldl handleProc ([], List.replicate m.cmiNumPes (-1))).2
  else none

/-! ## On every process -/

/-- `CpuTopology`. -/
structure CpuTopology where
  nodeIDs : Option (List Int)
  numPes : Nat
  numNodes : Nat
  bynodes : List (List Nat)
  supported : Bool
  deriving DecidableEq, Repr

/-- Before the gathering. -/
def CpuTopology.initial (m : Machine) : CpuTopology := ⟨none, m.cmiNumPes, 0, [], false⟩

/-- The variables of the loop of `numUniqNodes`. -/
structure Uniq where
  last : Int
  nodemap : Int → Nat
  numNodes : Nat

/-- One turn of the loop of `numUniqNodes`. -/
def uniqStep (s : Uniq) (node : Int) : Uniq :=
  if node ≠ s.last then ⟨node, Function.update s.nodemap node s.numNodes, s.numNodes + 1⟩ else s

/-- The loop of `numUniqNodes`. -/
def uniq (unodes : List Int) : Uniq := unodes.foldl uniqStep ⟨-1, fun _ => 0, 0⟩

namespace CpuTopology

/-- `numUniqNodes`. -/
def numUniqNodes (m : Machine) (t : CpuTopology) : CpuTopology :=
  if t.numNodes > 0 then t
  else
    let nodeIDs := t.nodeIDs.getD []
    let s := uniq ((nodeIDs.take t.numPes).insertionSort (· ≤ ·))
    if s.numNodes = 0 then { t with numNodes := m.numNodes, numPes := m.cmiNumPes }
    else { t with
      numNodes := s.numNodes
      nodeIDs := some (nodeIDs.map fun id => (s.nodemap id : Int))
      supported := true }

/-- `bynodes[node].push_back(pe)`. -/
def pushBack (bynodes : List (List Nat)) (node pe : Nat) : Option (List (List Nat)) :=
  if node < bynodes.length then some (bynodes.modify node (· ++ [pe])) else none

/-- One turn of the loop of `sort` over the PEs. -/
def sortStep (nodeIDs : List Int) (numNodes : Nat) (bynodes : List (List Nat)) (pe : Nat) :
    Option (List (List Nat)) := do
  let id ← nodeIDs[pe]?
  if 0 ≤ id ∧ id ≤ numNodes then pushBack bynodes id.toNat pe else none

/-- `sort`. -/
def sort (m : Machine) (t : CpuTopology) : Option CpuTopology := do
  let t := t.numUniqNodes m
  let bynodes := List.replicate t.numNodes []
  let bynodes ←
    if t.supported then
      (List.range t.numPes).foldlM (sortStep (t.nodeIDs.getD []) t.numNodes) bynodes
    else (List.range m.cmiNumPes).foldlM (fun b pe => pushBack b (m.cmiNodeOf pe) pe) bynodes
  return { t with bynodes }

/-- `cpuTopoRecvHandler`. -/
def cpuTopoRecvHandler (m : Machine) (t : CpuTopology) (nodes : List Int) : Option CpuTopology :=
  match t.nodeIDs with
  | none => { t with nodeIDs := some nodes }.sort m
  | some _ => some t

/-! ## Queries -/

variable (m : Machine) (t : CpuTopology)

/-- `LrtsNodeOf`. -/
def lrtsNodeOf (pe : Nat) : Option Int :=
  if !t.supported then some (m.cmiNodeOf pe) else (t.nodeIDs.getD [])[pe]?

/-- `LrtsPeOnNode`. -/
def lrtsPeOnNode (node : Nat) : Option (List Nat) :=
  if !t.supported then some (m.cmiNodePes node) else t.bynodes[node]?

/-- `LrtsRankOf`. -/
def lrtsRankOf (pe : Nat) : Option Nat :=
  if !t.supported then some (m.cmiRankOf pe)
  else do
    let id ← (t.nodeIDs.getD [])[pe]?
    let v ← t.bynodes[id.toNat]?
    let rank := (v.takeWhile (· < pe)).length
    if v[rank]? = some pe then some rank else none

/-- The loop of `CmiNodeRankOnPhysicalNode` over the PEs of the host. -/
def nodesOf (pelist : List Nat) : List Nat :=
  pelist.foldl (fun nodes pe =>
    if m.cmiNodeOf pe ∈ nodes then nodes else nodes ++ [m.cmiNodeOf pe]) []

/-- `CmiNodeRankOnPhysicalNode`. -/
def cmiNodeRankOnPhysicalNode (node : Nat) : Option Nat := do
  let id ← t.lrtsNodeOf m (m.cmiNodeFirst node)
  let pelist ← t.lrtsPeOnNode m id.toNat
  if pelist.length = 0 then return 0
  let nodes := (nodesOf m pelist).insertionSort (· ≤ ·)
  let it := (nodes.takeWhile (· < node)).length
  if nodes[it]? = some node then return it else return 0

end CpuTopology

/-! ## The system -/

/-- The broadcast message arrives at one process. -/
def deliver (m : Machine) (nodes : List Int) (s : Nat → CpuTopology) (node : Nat) :
    Option (Nat → CpuTopology) :=
  (s node).cpuTopoRecvHandler m nodes |>.map fun t => Function.update s node t

/-- The topologies of all processes after `cpuTopoHandler` has run on the merge `v` and its message
has arrived at the processes `arrivals`, in this order. -/
def gather (m : Machine) (ip : Nat → α) (v : Merged Nat) (arrivals : List Nat) :
    Option (Nat → CpuTopology) := do
  let nodes ← cpuTopoHandler m (message (procOf m ip) v)
  arrivals.foldlM (deliver m nodes) fun _ => .initial m

end Reconverse.HostTopology
