import Reconverse.Machine.Alloc
import Reconverse.Partition.Model

/-!
# Which PE numbers a send accepts

`CmiSyncSendAndFree` checks the node of the PE number that it is given. `CmiNodeOf` divides toward
zero, so that a number between `-CmiMyNodeSize` and 0 has node 0 and passes the check. Only on node
0 is it stopped after that, by the assertion of `CmiPushPE` (`missing_pe_rejected_iff`).
-/

namespace Reconverse.Send

open Reconverse.Partition (cmiNodeOf cmiRankOf)

/-- How a message leaves the sender: by its own scheduler queue, the queue of another PE of the
node, the shared-memory pool, `comm_backend::issueAm` or a persistent channel. -/
inductive Via where
  | sched
  | queue
  | pool
  | am
  | channel
  deriving DecidableEq, Repr

/-- A message is handed to the PE with a rank on a node. For an active message that is the rank that
the node finds by the PE number in the header. -/
structure Handed where
  via : Via
  node : Int
  rank : Int
  deriving DecidableEq, Repr

/-- The sending PE, whether assertions are compiled out, whether the pool takes a message for a node
and a rank, and the PE and `sizeMax` of the channel of the current handle in `phs`, if there is one.
`newSendSlot` makes channels to existing PEs only. -/
structure Sender (m : Machine) where
  me : Nat
  me_lt : me < m.cmiNumPes
  optimize : Bool
  ipcTakes : Int → Int → Bool
  channel : Option (Int × Int)
  channel_lt : ∀ c ∈ channel, 0 ≤ c.1 ∧ c.1 < m.cmiNumPes

variable {m : Machine} (s : Sender m)

/-- `CmiMyNode`. -/
def cmiMyNode : Int := cmiNodeOf m.nodeSize s.me

/-- `CmiPushPE`. -/
def cmiPushPE (rank : Int) : Option Handed :=
  if s.optimize ∨ 0 ≤ rank ∧ rank < m.nodeSize then some ⟨.queue, cmiMyNode s, rank⟩ else none

/-- `CmiSyncSendAndFreeNoPersistent`, with `none` for an abort. -/
def cmiSyncSendAndFreeNoPersistent (destPE : Int) : Option Handed :=
  let destNode := cmiNodeOf m.nodeSize destPE
  let rank := cmiRankOf m.nodeSize destPE
  if destNode ≥ m.numNodes ∨ destNode < 0 then none
  else if cmiMyNode s = destNode then
    if rank = cmiRankOf m.nodeSize s.me then
      some ⟨.sched, cmiMyNode s, cmiRankOf m.nodeSize s.me⟩
    else cmiPushPE s rank
  else if s.ipcTakes destNode rank then some ⟨.pool, destNode, rank⟩
  else some ⟨.am, destNode, rank⟩

/-- `CmiSyncSendAndFree`, with `CmiPersistentHandleSend`. -/
def cmiSyncSendAndFree (destPE messageSize : Int) : Option Handed :=
  match s.channel with
  | some (pe, sizeMax) =>
    if pe ≠ destPE then cmiSyncSendAndFreeNoPersistent s destPE
    else if messageSize > sizeMax then none
    else if cmiNodeOf m.nodeSize pe = cmiMyNode s then cmiSyncSendAndFreeNoPersistent s pe
    else some ⟨.channel, cmiNodeOf m.nodeSize pe, cmiRankOf m.nodeSize pe⟩
  | none => cmiSyncSendAndFreeNoPersistent s destPE

/-- `CmiSyncSend`: a copy is sent, for which `CmiAlloc` returns the memory. -/
def cmiSyncSend (destPE messageSize : Int) : Option Handed :=
  (m.backend.alloc messageSize).toOption.bind fun _ => cmiSyncSendAndFree s destPE messageSize

/-- What a send is to do with a message for `destPE`. -/
def Right (m : Machine) (destPE : Int) (sent : Option Handed) : Prop :=
  if 0 ≤ destPE ∧ destPE < m.cmiNumPes then ∃ via, sent = some ⟨via, cmiNodeOf m.nodeSize destPE,
    cmiRankOf m.nodeSize destPE⟩ ∧ 0 ≤ cmiRankOf m.nodeSize destPE ∧
      cmiRankOf m.nodeSize destPE < m.nodeSize
  else sent = none

variable {s} {destPE : Int}

/-- The PE numbers that pass the check. -/
theorem node_exists_iff (m : Machine) (destPE : Int) :
    0 ≤ cmiNodeOf m.nodeSize destPE ∧ cmiNodeOf m.nodeSize destPE < m.numNodes ↔
      -(m.nodeSize : Int) < destPE ∧ destPE < m.cmiNumPes := by
  have hnodes := m.numNodes_pos
  have hsize := m.nodeSize_pos
  rw [Machine.cmiNumPes]
  obtain ⟨k, rfl | rfl⟩ := destPE.eq_nat_or_neg
  · have hnode : cmiNodeOf m.nodeSize k = (k / m.nodeSize : Nat) := (Int.ofNat_tdiv ..).symm
    have hlt : k / m.nodeSize < m.numNodes ↔ k < m.numNodes * m.nodeSize :=
      Nat.div_lt_iff_lt_mul hsize
    generalize k / m.nodeSize = q at hnode hlt
    omega
  · have hnode : cmiNodeOf m.nodeSize (-k) = -(k / m.nodeSize : Nat) := Int.neg_tdiv ..
    have hzero : k / m.nodeSize < 1 ↔ k < 1 * m.nodeSize := Nat.div_lt_iff_lt_mul hsize
    have hpos := Nat.mul_pos hnodes hsize
    generalize k / m.nodeSize = q at hnode hzero
    omega

/-- A send to a PE that exists gets to its process and rank. -/
theorem no_persistent_of_exists (hpe : 0 ≤ destPE) (hlt : destPE < m.cmiNumPes) :
    ∃ via, cmiSyncSendAndFreeNoPersistent s destPE =
      some ⟨via, cmiNodeOf m.nodeSize destPE, cmiRankOf m.nodeSize destPE⟩ := by
  have hsize := m.nodeSize_pos
  have hnode := (node_exists_iff ..).mpr ⟨show -(m.nodeSize : Int) < destPE by omega, hlt⟩
  have hrank : cmiRankOf m.nodeSize destPE < m.nodeSize := Int.tmod_lt_of_pos _ (by omega)
  simp only [cmiSyncSendAndFreeNoPersistent]
  rw [if_neg (by omega)]
  split
  next hmine =>
    rw [← hmine]
    split
    next hme => exact ⟨_, by rw [hme]⟩
    next =>
      rw [cmiPushPE, if_pos (.inr ⟨Int.tmod_nonneg _ hpe, hrank⟩)]
      exact ⟨_, rfl⟩
  next => split <;> exact ⟨_, rfl⟩

/-- A PE number that does not exist is sent to if it has node 0 and no assertion stops it. -/
theorem no_persistent_of_missing (hpe : ¬ (0 ≤ destPE ∧ destPE < m.cmiNumPes)) :
    cmiSyncSendAndFreeNoPersistent s destPE = none ↔
      ¬ (-(m.nodeSize : Int) < destPE ∧ destPE < 0 ∧ (s.optimize ∨ cmiMyNode s ≠ 0)) := by
  have hexists := node_exists_iff m destPE
  simp only [cmiSyncSendAndFreeNoPersistent]
  split
  next => exact iff_of_true rfl (by omega)
  next hnode =>
    have hneg : -(m.nodeSize : Int) < destPE ∧ destPE < 0 := by omega
    obtain ⟨k, rfl⟩ : ∃ k : Nat, destPE = -k := ⟨(-destPE).toNat, by omega⟩
    have hzero : cmiNodeOf m.nodeSize (-k) = 0 := by
      rw [cmiNodeOf, Int.neg_tdiv, Int.tdiv_eq_zero_of_lt (by omega) (by omega), Int.neg_zero]
    have hrank : cmiRankOf m.nodeSize (-k) = -k := by
      rw [cmiRankOf, Int.neg_tmod, Int.tmod_eq_of_lt (by omega) (by omega)]
    have hown : 0 ≤ cmiRankOf m.nodeSize s.me := Int.tmod_nonneg _ (by omega)
    rw [hzero, hrank, and_iff_right hneg.1, and_iff_right hneg.2]
    by_cases hmine : cmiMyNode s = 0
    · rw [if_pos hmine, if_neg (by omega), cmiPushPE]
      have hrange : ¬ (0 ≤ -(k : Int) ∧ -(k : Int) < m.nodeSize) := by omega
      rw [ite_eq_right_iff, or_iff_left hrange, or_iff_left (not_not.mpr hmine)]
      simp
    · rw [if_neg hmine]
      split <;> simp [hmine]

/-- Both sends do what they are to do, unless the number is negative with node 0 and the sender is
on another node or assertions are compiled out, or the message is too large for the channel to the
PE. The size is one that `CmiAlloc` can serve. -/
theorem missing_pe_rejected_iff (s : Sender m) (destPE messageSize : Int)
    (hpos : 0 < messageSize) (hsize : messageSize ≤ Alloc.maxSize m.backend) :
    Right m destPE (cmiSyncSend s destPE messageSize) ∧
        Right m destPE (cmiSyncSendAndFree s destPE messageSize) ↔
      ¬ (-(m.nodeSize : Int) < destPE ∧ destPE < 0 ∧ (s.optimize ∨ cmiMyNode s ≠ 0)) ∧
        ∀ sizeMax, s.channel = some (destPE, sizeMax) → messageSize ≤ sizeMax := by
  have hcopy : cmiSyncSend s destPE messageSize = cmiSyncSendAndFree s destPE messageSize := by
    obtain ⟨size, rfl⟩ := Int.eq_ofNat_of_zero_le (le_of_lt hpos)
    rw [cmiSyncSend, Alloc.alloc_of_le (by omega) hsize]
    rfl
  rw [hcopy, and_self, Right]
  split
  next hpe =>
    have hrank : 0 ≤ cmiRankOf m.nodeSize destPE ∧ cmiRankOf m.nodeSize destPE < m.nodeSize :=
      ⟨Int.tmod_nonneg _ hpe.1, Int.tmod_lt_of_pos _ (by have := m.nodeSize_pos; omega)⟩
    obtain ⟨via, hsent⟩ := no_persistent_of_exists (s := s) hpe.1 hpe.2
    have hnot : ¬ (-(m.nodeSize : Int) < destPE ∧ destPE < 0 ∧
        (s.optimize ∨ cmiMyNode s ≠ 0)) := by omega
    rw [and_iff_right hnot, cmiSyncSendAndFree]
    split
    next pe sizeMax hchannel =>
      by_cases hsame : pe = destPE
      · subst hsame
        rw [if_neg (not_not.mpr rfl), hchannel]
        split
        next hlarge => simpa using hlarge
        next hfits =>
          rw [Int.not_lt] at hfits
          split <;> simp [hsent, hrank, hfits]
      · simp [hsame, hchannel, hsent, hrank]
    next hchannel => simp [hchannel, hsent, hrank]
  next hpe =>
    have hother {sizeMax : Int} : s.channel ≠ some (destPE, sizeMax) :=
      fun h => hpe (s.channel_lt _ h)
    have hsend : cmiSyncSendAndFree s destPE messageSize =
        cmiSyncSendAndFreeNoPersistent s destPE := by
      rw [cmiSyncSendAndFree]
      split
      next hchannel => rw [if_pos fun h => hother (h ▸ hchannel)]
      next => rfl
    rw [hsend, no_persistent_of_missing hpe]
    exact (and_iff_left fun _ h => absurd h hother).symm

/-- Two nodes of two PEs. -/
def twoByTwo : Machine := ⟨2, 2, Nat.two_pos, Nat.two_pos, .lci⟩

/-- PE 2 of them, without a pool or a channel. -/
def peTwo : Sender twoByTwo := ⟨2, by decide, false, fun _ _ => false, none, nofun⟩

theorem pe_four_rejected : Right twoByTwo 4 (cmiSyncSend peTwo 4 64) :=
  ((missing_pe_rejected_iff peTwo 4 64 (by decide) (by decide)).mpr ⟨by decide, nofun⟩).1

/-- PE 2 sends a message for PE -1 to node 0. -/
theorem negative_pe_accepted : cmiSyncSend peTwo (-1) 64 = some ⟨.am, 0, -1⟩ ∧
    ¬ Right twoByTwo (-1) (cmiSyncSend peTwo (-1) 64) := by
  refine ⟨rfl, fun h => ?_⟩
  rw [Right, if_neg (by decide)] at h
  cases h

end Reconverse.Send
