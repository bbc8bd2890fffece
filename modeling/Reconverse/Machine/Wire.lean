import Reconverse.Lib.Bytes
import Reconverse.Machine.Alloc
import Reconverse.Machine.Message

/-!
# Messages as bytes

The send path of `convcore.cpp` on the bytes of a message. Only the header fields it touches are
named here: `handlerId` in bytes 0 and 1, `destPE` in bytes 4 to 7 and `messageSize` in bytes 8
to 11. A function fails (`none`) where the program aborts, dereferences a null pointer or leaves
an allocation.
-/

namespace Reconverse.Wire

open Alloc Lib.Bytes Lib.CInt List

/-! ## Header fields -/

/-- `header->handlerId`, a `CmiInt2`. -/
def getHandlerId (buf : Buf) : Option Int := (loadNum buf 0 2).map fun n : Nat => signed 16 n

/-- `header->handlerId = handlerId`. -/
def setHandlerId (buf : Buf) (handlerId : Nat) : Option Buf := store buf 0 (encode 2 handlerId)

/-- `header->destPE`, a `CmiUInt4`. -/
def getDestPE (buf : Buf) : Option Nat := loadNum buf 4 4

/-- `header->destPE = destPE`. -/
def setDestPE (buf : Buf) (destPE : Nat) : Option Buf := store buf 4 (encode 4 destPE)

/-- `header->messageSize`, an `int`. -/
def getMessageSize (buf : Buf) : Option Int := (loadNum buf 8 4).map fun n : Nat => int n

/-- `header->messageSize = messageSize`. -/
def setMessageSize (buf : Buf) (messageSize : Nat) : Option Buf :=
  store buf 8 (encode 4 messageSize)

/-! ## Allocation and copies -/

/-- `memcpy` of the first `len` bytes. -/
def memcpy (dst src : Buf) (len : Nat) : Option Buf := do store dst 0 (← load src 0 len)

/-- `CmiAlloc(size)` and a `memcpy` of the first `len` bytes of the message into it. -/
def allocCopy (m : Machine) (size : Int) (msg : Buf) (len : Nat) : Option Buf := do
  memcpy (List.replicate (← (m.backend.alloc size).toOption) 0) msg len

/-! ## The send path -/

/-- A message on its way: an active message to a node, or a message on the queue of a PE. -/
inductive Transit where
  | am (node : Nat) (buf : Buf)
  | queue (pe : Nat) (buf : Buf)
  deriving DecidableEq, Repr

variable (m : Machine)

/-- `CmiSyncSendAndFreeNoPersistent`. A message to the sender's own node goes on a queue, any
other one to the node, whose `CommRemoteHandler` finds the PE in the header. -/
def cmiSyncSendAndFree (me destPE : Nat) (buf : Buf) : Option Transit := do
  let buf ← setDestPE buf destPE
  let destNode := m.cmiNodeOf destPE
  if destNode ≥ m.numNodes then none
  else if m.cmiNodeOf me = destNode then some (.queue destPE buf)
  else some (.am destNode buf)

/-- `CmiSyncSend`: a copy of the message is sent. -/
def cmiSyncSend (me destPE len : Nat) (msg : Buf) : Option Transit := do
  let copymsg ← allocCopy m len msg len
  cmiSyncSendAndFree m me destPE copymsg

/-- `CmiPushPE` on a node. A rank out of range fails its assertion. -/
def cmiPushPE (node rank : Nat) (buf : Buf) : Option Transit :=
  if rank < m.nodeSize then some (.queue (m.cmiNodeFirst node + rank) buf) else none

/-- `CommRemoteHandler` for a message to a PE. -/
def commRemoteHandler (node : Nat) (buf : Buf) : Option Transit := do
  let destPE ← getDestPE buf
  -- A message for the node queue is not sent by the functions above.
  if destPE = cmiMessageDestPENode then none
  else cmiPushPE m node (m.cmiRankOf destPE) buf

/-! ## What the send path does to a message -/

variable {m} {len size : Nat} {msg buf : Buf}

/-- A message that goes on a queue is stamped. -/
theorem sync_send_queue {me destPE pe : Nat} (h : cmiSyncSendAndFree m me destPE msg =
    some (.queue pe buf)) : pe = destPE ∧ setDestPE msg destPE = some buf := by
  obtain ⟨stamped, hstamp, hroute⟩ := Option.bind_eq_some_iff.mp h
  simp only at hroute
  split at hroute
  · cases hroute
  split at hroute
  · obtain ⟨rfl, rfl⟩ := Transit.queue.inj (Option.some.inj hroute)
    exact ⟨rfl, hstamp⟩
  · cases hroute

/-- The bytes `CmiSyncSend` and the fan-out leave alone: all but `destPE` and `messageSize`. -/
def Kept (i : Nat) : Prop := i < 4 ∨ 12 ≤ i

instance : DecidablePred Kept := fun _ => inferInstanceAs (Decidable (_ ∨ _))

/-- The buffer holds the `len` bytes of the message, but for `destPE` and `messageSize`. -/
structure Carries (len : Nat) (msg buf : Buf) : Prop where
  room : len ≤ buf.length
  bytes : ∀ i < len, Kept i → buf[i]? = msg[i]?

/-- The first `len` bytes, with `destPE` and `messageSize` left out. -/
def payload (len : Nat) (buf : Buf) : List (Option UInt8) :=
  (List.range len).map fun i => if Kept i then buf[i]? else none

/-- A copy has the payload. -/
theorem Carries.payload_eq (h : Carries len msg buf) : payload len buf = payload len msg := by
  refine map_congr_left fun i hi => ?_
  rcases Decidable.em (Kept i) with hk | hk
  · rw [if_pos hk, if_pos hk, h.bytes i (mem_range.mp hi) hk]
  · rw [if_neg hk, if_neg hk]

/-- A copy has the handler. -/
theorem Carries.handler_id_eq (h : Carries len msg buf) (hlen : 2 ≤ len)
    (hmsg : len ≤ msg.length) : getHandlerId buf = getHandlerId msg := by
  have hroom := h.room
  have hnum : loadNum buf 0 2 = loadNum msg 0 2 :=
    loadNum_congr (by omega) fun i hi => h.bytes _ (by omega) (.inl (by omega))
  rw [getHandlerId, getHandlerId, hnum]

/-- Writing `destPE`, `messageSize` or bytes behind the message keeps it. -/
theorem Carries.patch (h : Carries len msg buf) {off : Nat} {bytes : List UInt8}
    (hfit : off + bytes.length ≤ buf.length)
    (hoff : len ≤ off ∨ (4 ≤ off ∧ off + bytes.length ≤ 12)) :
    Carries len msg (patch buf off bytes) := by
  refine ⟨by rw [length_patch hfit]; exact h.room, fun i hi hk => ?_⟩
  rw [← h.bytes i hi hk]
  rcases lt_or_ge i off with hlt | hge
  · exact getElem?_patch_of_lt hlt (by omega)
  · refine getElem?_patch_of_ge ?_ (by omega)
    rcases hk with hk | hk <;> omega

/-- A fresh copy of the message. -/
theorem alloc_copy_spec (hsize : 0 < size) (hfits : size ≤ maxSize m.backend) (hlen : len ≤ size)
    (hmsg : len ≤ msg.length) : ∃ copy, allocCopy m size msg len = some copy ∧ copy.length = size ∧
      ∀ i < len, copy[i]? = msg[i]? := by
  have hbytes : (List.take len msg).length = len := by simp only [length_take]; omega
  have hfit : 0 + (List.take len msg).length ≤ (List.replicate size (0 : UInt8)).length := by
    rw [length_replicate]
    omega
  refine ⟨patch (List.replicate size 0) 0 (msg.take len), ?_, ?_, ?_⟩
  · rw [allocCopy, alloc_of_le hsize hfits]
    show memcpy (List.replicate size 0) msg len = _
    rw [memcpy, load, if_pos (by omega)]
    exact store_eq hfit
  · rw [length_patch hfit, length_replicate]
  · intro i hi
    have h := getElem?_patch_add (List.replicate size 0)
      (by rwa [hbytes] : i < (List.take len msg).length) (Nat.zero_le _)
    rw [zero_add] at h
    rw [h, getElem?_take_of_lt hi]

/-- A copy has the size it was allocated with, which the backend allows. -/
theorem length_alloc_copy {size : Int} {copy : Buf} (h : allocCopy m size msg len = some copy) :
    len ≤ copy.length ∧ copy.length ≤ maxSize m.backend ∧ int size = copy.length := by
  simp only [allocCopy, bind, Option.bind_eq_some_iff, memcpy] at h
  obtain ⟨n, halloc, bytes, hload, hstore⟩ := h
  obtain ⟨hfit, hlen⟩ := store_eq_some hstore
  rw [length_replicate] at hfit hlen
  have halloc : m.backend.alloc size = .ok n := by
    cases hres : m.backend.alloc size with
    | ok k => rw [hres] at halloc; cases halloc; rfl
    | error => rw [hres] at halloc; cases halloc
  rw [hlen]
  exact ⟨by have := length_of_load hload; omega, alloc_le halloc⟩

end Reconverse.Wire
