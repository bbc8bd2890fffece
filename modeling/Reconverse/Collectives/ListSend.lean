import Reconverse.Lib.Dispatch
import Reconverse.Machine.Wire

/-!
# List sends

`CmiSyncListSend` groups the listed PEs by process and sends one message to each other process:
the caller's bytes, padding to a multiple of 8, and a trailer with the number of ranks, the
handler of the message and the ranks. `CmiFanoutHandler` rebuilds the messages there. The main
result is `list_send_like_loop_iff`: a list send delivers what a loop of `CmiSyncSend` would
deliver, exactly if `CmiAlloc` can serve every fan-out message, as it can the message.
-/

namespace Reconverse.Wire

open Alloc Lib Lib.Bytes Lib.CInt List Machine
open Option (bind_eq_some_iff bind_none bind_some map_some)

variable {rest order pes' : List Nat} {first : Nat} {node : Nat} {sent : List Transit}

/-! ## The functions of the source -/

section Model

variable (m : Machine) (hs : Handlers)

/-- `CmiFanoutTrailerOffset`: the length rounded up to a multiple of 8. -/
def cmiFanoutTrailerOffset (len : Nat) : Nat := (len + 7) / 8 * 8

/-- `CmiFanoutTrailerFixed`. -/
def cmiFanoutTrailerFixed : Nat := 2

/-- `CmiFanoutTotalSize`. -/
def cmiFanoutTotalSize (len nranks : Nat) : Nat :=
  cmiFanoutTrailerOffset len + (cmiFanoutTrailerFixed + nranks) * 4

/-- The end of both paths of `CmiFanoutHandler`: `destPE` is stamped and the message pushed. -/
def stampAndPush (myNode rank : Nat) (buf : Buf) : Option Transit := do
  cmiPushPE m myNode rank (← setDestPE buf (m.cmiNodeFirst myNode + rank))

/-- The loop body of `CmiFanoutHandler`: a copy for the rank with number `i` of the trailer. -/
def fanoutCopy (myNode len : Nat) (msg : Buf) (ranks i : Nat) : Option Transit := do
  let rank ← loadNum msg (ranks + 4 * i) 4
  stampAndPush m myNode rank (← allocCopy m len msg len)

/-- `CmiFanoutHandler` from the point where it knows the length of the message. -/
def fanoutRanks (myNode len : Nat) (msg : Buf) : Option (List Transit) := do
  let trailer := cmiFanoutTrailerOffset len
  let nranks := int (← loadNum msg trailer 4)
  let msg ← setHandlerId msg (← loadNum msg (trailer + 4) 4)
  let ranks := trailer + 4 * cmiFanoutTrailerFixed
  let copies ← (List.range' 1 (nranks.toNat - 1)).mapM (fanoutCopy m myNode len msg ranks)
  let own ← stampAndPush m myNode (← loadNum msg ranks 4) msg
  pure (copies ++ [own])

/-- `CmiFanoutHandler` on a PE of node `myNode`: the messages it pushes. A negative length puts
the trailer in front of the buffer. -/
def cmiFanoutHandler (myNode : Nat) (msg : Buf) : Option (List Transit) := do
  let len ← getMessageSize msg
  if len < 0 then none else fanoutRanks m myNode len.toNat msg

/-- A loop of `CmiSyncSend`. -/
def sendEach (me len : Nat) (msg : Buf) (pes : List Nat) : Option (List Transit) :=
  pes.mapM (cmiSyncSend m me · len msg)

/-- `CmiListSendToProcess` for the listed PEs `first :: rest` of one other process. -/
def cmiListSendToProcess (me len : Nat) (msg : Buf) (first : Nat) (rest : List Nat) :
    Option (List Transit) :=
  let pes := first :: rest
  let nranks := pes.length
  if nranks = 1 ∨ len < cmiMsgHeaderSizeBytes then sendEach m me len msg pes
  else do
    let total := int (cmiFanoutTotalSize len nranks)
    let fmsg ← allocCopy m total msg len
    let fmsg ← setMessageSize fmsg len
    let trailer := cmiFanoutTrailerOffset len
    let fmsg ← store fmsg trailer (encode 4 nranks)
    let fmsg ← store fmsg (trailer + 4) (encode 4 (unsigned 32 (← getHandlerId fmsg)).toNat)
    let fmsg ← storeWords fmsg (trailer + 4 * cmiFanoutTrailerFixed) (pes.map m.cmiRankOf)
    let fmsg ← setHandlerId fmsg hs.fanoutHandler
    pure [← cmiSyncSendAndFree m me first fmsg]

/-- The loop body of `CmiSyncListSend`: the entries `first :: rest` of one process. -/
def sendGroup (me len : Nat) (msg : Buf) (first : Nat) (rest : List Nat) :
    Option (List Transit) :=
  if m.cmiNodeOf first = m.cmiNodeOf me then sendEach m me len msg (first :: rest)
  else cmiListSendToProcess m hs me len msg first rest

/-- The loop of `CmiSyncListSend` over the sorted destinations. Every turn takes the entries of
one process, so as many turns as there are entries are enough. -/
def sendByProcess (me len : Nat) (msg : Buf) : (fuel : Nat) → List Nat → Option (List Transit)
  | 0, _ => some []
  | _, [] => some []
  | fuel + 1, first :: order => do
    let node := m.cmiNodeOf first
    let sent ← sendGroup m hs me len msg first (order.takeWhile (m.cmiNodeOf · == node))
    let more ← sendByProcess me len msg fuel (order.dropWhile (m.cmiNodeOf · == node))
    pure (sent ++ more)

/-- The listed PEs in the order in which `CmiSyncListSend` visits them, which is that of
`std::stable_sort` by their nodes. -/
def sortByNode (pes : List Nat) : List Nat :=
  pes.mergeSort fun a b => decide (m.cmiNodeOf a ≤ m.cmiNodeOf b)

/-- `CmiSyncListSend` called on PE `me`; `phs` says whether an array of persistent handles is
installed. The result is the caller's buffer, which is only read, and the messages sent. -/
def cmiSyncListSend (me : Nat) (phs : Bool) (pes : List Nat) (len : Nat) (msg : Buf) :
    Option (Buf × List Transit) :=
  let npes := pes.length
  if npes = 1 ∨ m.numNodes = 1 ∨ phs then do
    pure (msg, ← sendEach m me len msg pes)
  else do
    pure (msg, ← sendByProcess m hs me len msg npes (sortByNode m pes))

/-- What happens to a message on its way: an active message is queued by `CommRemoteHandler`,
and the scheduler hands a queued message to the handler it names. The handlers of other
collectives do not occur here. -/
def handleListSend : Transit → Option (List Transit × List (Nat × Buf))
  | .am node buf => do pure ([← commRemoteHandler m node buf], [])
  | .queue pe buf => do
    let handlerId ← getHandlerId buf
    if handlerId < 0 then none
    match hs.table[handlerId.toNat]? with
    | some .fanout => do pure (← cmiFanoutHandler m (m.cmiNodeOf pe) buf, [])
    | some (.user _) => some ([], [(pe, buf)])
    | _ => none

end Model

/-- What is observed of a message handed to a handler: the PE, the handler index, and the `len`
bytes of the message without `destPE` and `messageSize`. -/
def observe (len : Nat) (run : Nat × Buf) : Nat × Option Int × List (Option UInt8) :=
  (run.1, getHandlerId run.2, payload len run.2)

/-! ## Point-to-point sends -/

section Sends

variable {m : Machine} {hs : Handlers} {me len : Nat} {msg buf : Buf} {destPE : Nat}

/-- Where `CmiSyncSendAndFree` puts a message. -/
def route (m : Machine) (me destPE : Nat) (buf : Buf) : Transit :=
  if m.cmiNodeOf me = m.cmiNodeOf destPE then .queue destPE buf else .am (m.cmiNodeOf destPE) buf

/-- `CmiSyncSendAndFree` stamps the destination and sends the message itself. -/
theorem sync_send_and_free_eq (hd : destPE < m.cmiNumPes) (hb : 8 ≤ buf.length) :
    cmiSyncSendAndFree m me destPE buf =
      some (route m me destPE (patch buf 4 (encode 4 destPE))) := by
  have hnode : ¬m.cmiNodeOf destPE ≥ m.numNodes :=
    not_le.mpr (lt_num_pes_iff.mp hd)
  have hset : setDestPE buf destPE = some (patch buf 4 (encode 4 destPE)) :=
    store_eq hb
  simp only [cmiSyncSendAndFree, hset, bind, bind_some, hnode, if_false, route]
  split <;> rfl

/-- `CmiSyncSend` sends a copy. -/
theorem sync_send_spec (me : Nat) (hd : destPE < m.cmiNumPes) (hlen : 8 ≤ len)
    (hfits : len ≤ maxSize m.backend) (hmsg : len ≤ msg.length) : ∃ buf, Carries len msg buf ∧
      getDestPE buf = some (destPE % 256 ^ 4) ∧
      cmiSyncSend m me destPE len msg = some (route m me destPE buf) := by
  obtain ⟨copy, hcopy, hsize, hbytes⟩ := alloc_copy_spec (by omega) hfits (le_refl len) hmsg
  have hfit : 4 + (encode 4 destPE).length ≤ copy.length := by rw [length_encode]; omega
  have hcarries : Carries len msg copy := ⟨by omega, fun i hi _ => hbytes i hi⟩
  refine ⟨patch copy 4 (encode 4 destPE), hcarries.patch hfit (.inr ?_), ?_, ?_⟩
  · rw [length_encode]
    omega
  · exact loadNum_patch_same (by omega)
  · rw [← sync_send_and_free_eq hd (by omega), cmiSyncSend, hcopy]
    rfl

/-- A message that ends before its `destPE` does, or is too large for a copy, cannot be sent. -/
theorem sync_send_none (destPE : Nat) (hlen : len < 8 ∨ maxSize m.backend < len) :
    cmiSyncSend m me destPE len msg = none := by
  rw [cmiSyncSend]
  cases hcopy : allocCopy m len msg len with
  | none => rfl
  | some copy =>
    obtain ⟨hle, hmax, hint⟩ := length_alloc_copy hcopy
    have hle' := max_size_le m.backend
    rw [int_eq] at hint
    have hset : setDestPE copy destPE = none :=
      store_eq_none (by rw [length_encode]; omega)
    simp only [bind, bind_some, cmiSyncSendAndFree, hset, bind_none]

/-- A loop whose body always succeeds succeeds. -/
theorem exists_mapM {α β : Type} {f : α → Option β} {P : α → β → Prop} {xs : List α}
    (h : ∀ x ∈ xs, ∃ y, f x = some y ∧ P x y) :
    ∃ ys, xs.mapM f = some ys ∧ List.Forall₂ P xs ys := by
  induction xs with
  | nil => exact ⟨[], rfl, .nil⟩
  | cons x xs ih =>
    obtain ⟨y, hy, hxy⟩ := h x mem_cons_self
    obtain ⟨ys, hys, hxys⟩ := ih fun z hz => h z (mem_cons_of_mem _ hz)
    exact ⟨y :: ys, by simp [mapM_cons, hy, hys], .cons hxy hxys⟩

end Sends

/-! ## Fan-out messages -/

section Fanout

variable {m : Machine} {hs : Handlers} {me len : Nat} {msg buf : Buf} {ranks : List Nat}

/-- A fan-out message for the given ranks: the bytes of the message but for the three fields the
sender writes, and the trailer, in which the handler of the message is parked. -/
structure IsFanout (hs : Handlers) (len : Nat) (msg : Buf) (ranks : List Nat) (buf : Buf) :
    Prop where
  handler : getHandlerId buf = some (hs.fanoutHandler : Int)
  size : getMessageSize buf = some (len : Int)
  body : ∀ i < len, 2 ≤ i → Kept i → buf[i]? = msg[i]?
  count : loadNum buf (cmiFanoutTrailerOffset len) 4 = some ranks.length
  parked : ∃ v, loadNum buf (cmiFanoutTrailerOffset len + 4) 4 = some v ∧
    encode 2 v = msg.take 2
  rank : ∀ i r, ranks[i]? = some r →
    loadNum buf (cmiFanoutTrailerOffset len + 8 + 4 * i) 4 = some r

theorem le_trailer_offset (len : Nat) : len ≤ cmiFanoutTrailerOffset len := by
  rw [cmiFanoutTrailerOffset]
  omega

/-- The handler index survives the trailer: it is widened to 32 bits there and cut to 16 bits
again. -/
theorem encode_parked (n : Nat) : encode 2 (unsigned 32 (signed 16 n)).toNat = encode 2 n := by
  have hmod : (unsigned 32 (signed 16 n)).toNat % 256 ^ 2 = n % 256 ^ 2 := by
    rw [unsigned, signed, Int.bmod_def]
    split <;> omega
  rw [← encode_mod, hmod, encode_mod]

/-- Once the handler is restored, a fan-out message carries the message. -/
theorem IsFanout.carries (h : IsFanout hs len msg ranks buf) (hlen : 24 ≤ len) {v : Nat}
    (hv : encode 2 v = msg.take 2) : Carries len msg (patch buf 0 (encode 2 v)) := by
  have hroom := (loadNum_eq_some h.count).1
  have htrailer := le_trailer_offset len
  have hfit : 0 + (encode 2 v).length ≤ buf.length := by rw [length_encode]; omega
  refine ⟨by rw [length_patch hfit]; omega, fun i hi hk => ?_⟩
  rcases lt_or_ge i 2 with hlt | hge
  · have hbyte := getElem?_patch_add buf (by rwa [length_encode] : i < (encode 2 v).length)
      (Nat.zero_le buf.length)
    rw [zero_add] at hbyte
    rw [hbyte, hv, getElem?_take_of_lt hlt]
  · rw [getElem?_patch_of_ge (by rw [length_encode]; omega) (Nat.zero_le _)]
    exact h.body i hi hge hk

/-- A message for one rank of the process in which `CmiFanoutHandler` runs. -/
def Pushed (m : Machine) (len : Nat) (msg : Buf) (node rank : Nat) (t : Transit) : Prop :=
  ∃ b, Carries len msg b ∧ t = .queue (m.cmiNodeFirst node + rank) b

/-- A copy for a rank goes to the queue of its PE. -/
theorem stamp_and_push_spec (node : Nat) {rank : Nat} (h : Carries len msg buf)
    (hlen : 24 ≤ len) (hrank : rank < m.nodeSize) :
    ∃ t, stampAndPush m node rank buf = some t ∧ Pushed m len msg node rank t := by
  have hroom := h.room
  have hfit : 4 + (encode 4 (m.cmiNodeFirst node + rank)).length ≤ buf.length := by
    rw [length_encode]
    omega
  refine ⟨.queue (m.cmiNodeFirst node + rank) (patch buf 4 _), ?_, _, h.patch hfit (.inr ?_), rfl⟩
  · rw [stampAndPush, setDestPE, store_eq hfit]
    exact if_pos hrank
  · rw [length_encode]
    omega

/-- A copy is made for the rank that the trailer lists. -/
theorem fanout_copy_spec (node : Nat) {ranks i rank : Nat} (h : Carries len msg buf)
    (hlen : 24 ≤ len) (hfits : len ≤ maxSize m.backend)
    (hload : loadNum buf (ranks + 4 * i) 4 = some rank) (hrank : rank < m.nodeSize) :
    ∃ t, fanoutCopy m node len buf ranks i = some t ∧ Pushed m len msg node rank t := by
  obtain ⟨copy, hcopy, hsize, hbytes⟩ := alloc_copy_spec (by omega) hfits (le_refl len) h.room
  have hcarries : Carries len msg copy :=
    ⟨by omega, fun i hi hk => (hbytes i hi).trans (h.bytes i hi hk)⟩
  obtain ⟨t, ht, hpushed⟩ := stamp_and_push_spec node hcarries hlen hrank
  refine ⟨t, ?_, hpushed⟩
  rw [fanoutCopy, hload, hcopy]
  exact ht

/-- `CmiFanoutHandler` pushes one message carrying the caller's bytes for every listed rank. -/
theorem fanout_handler_spec (node : Nat)
    (h : IsFanout hs len msg (first :: rest) buf) (hlen : 24 ≤ len)
    (hfits : len ≤ maxSize m.backend) (hcount : rest.length + 1 < 2 ^ 31)
    (hranks : ∀ r ∈ first :: rest, r < m.nodeSize) :
    ∃ sent, cmiFanoutHandler m node buf = some sent ∧
      List.Forall₂ (Pushed m len msg node) (rest ++ [first]) sent := by
  obtain ⟨v, hparked, hv⟩ := h.parked
  have hcarries := h.carries hlen hv
  have hroom := (loadNum_eq_some h.count).1
  have htrailer := le_trailer_offset len
  have hfit : 0 + (encode 2 v).length ≤ buf.length := by rw [length_encode]; omega
  have hset : setHandlerId buf v = some (patch buf 0 (encode 2 v)) := store_eq hfit
  have hload : ∀ i r, (first :: rest)[i]? = some r → loadNum (patch buf 0 (encode 2 v))
      (cmiFanoutTrailerOffset len + 4 * cmiFanoutTrailerFixed + 4 * i) 4 = some r := by
    intro i r hr
    rw [loadNum_patch_other hfit (.inr (by rw [length_encode]; omega))]
    exact h.rank i r hr
  have hbody : ∀ i ∈ List.range' 1 rest.length, ∃ t,
      fanoutCopy m node len (patch buf 0 (encode 2 v))
        (cmiFanoutTrailerOffset len + 4 * cmiFanoutTrailerFixed) i = some t ∧
      ∃ r, (first :: rest)[i]? = some r ∧ Pushed m len msg node r t := by
    intro i hi
    rw [mem_range'_1] at hi
    obtain ⟨r, hr⟩ : ∃ r, (first :: rest)[i]? = some r :=
      ⟨_, getElem?_eq_getElem (by rw [length_cons]; omega)⟩
    obtain ⟨t, ht, hpushed⟩ := fanout_copy_spec node hcarries hlen hfits (hload i r hr)
      (hranks r (mem_of_getElem? hr))
    exact ⟨t, ht, r, hr, hpushed⟩
  obtain ⟨copies, hcopies, hpushed⟩ := exists_mapM hbody
  obtain ⟨own, hown, hownpush⟩ := stamp_and_push_spec node hcarries hlen
    (hranks first mem_cons_self)
  have hnranks : loadNum buf (cmiFanoutTrailerOffset len) 4 = some (rest.length + 1) := h.count
  have hint : (int (rest.length + 1 : Nat)).toNat - 1 = rest.length := by
    rw [int_natCast_of_lt hcount]
    omega
  refine ⟨copies ++ [own], ?_, rel_append ?_ (.cons hownpush .nil)⟩
  · have hzero := hload 0 first rfl
    have hranks' : fanoutRanks m node len buf = some (copies ++ [own]) := by
      simp only [fanoutRanks, bind, bind_eq_some_iff]
      refine ⟨_, hnranks, v, hparked, _, hset, copies, ?_, first, hzero, own, hown, rfl⟩
      rw [hint]
      exact hcopies
    rw [cmiFanoutHandler, h.size]
    show (if (len : Int) < 0 then none else fanoutRanks m node (len : Int).toNat buf) = _
    rw [if_neg (Int.not_lt.mpr (Int.natCast_nonneg len)), Int.toNat_natCast, hranks']
  · -- Copy number `i` is for the rank in place `i + 1` of the trailer.
    rw [forall₂_iff_get] at hpushed ⊢
    obtain ⟨hlength, hget⟩ := hpushed
    rw [length_range'] at hlength
    refine ⟨hlength, fun i hi hi' => ?_⟩
    obtain ⟨r, hr, hp⟩ := hget i (by rw [length_range']; exact hi) hi'
    simp only [get_eq_getElem, getElem_range', one_mul, add_comm 1 i,
      List.getElem?_cons_succ] at hr hp ⊢
    obtain ⟨_, rfl⟩ := List.getElem?_eq_some_iff.mp hr
    exact hp

theorem unsigned_lt (v : Int) : (unsigned 32 v).toNat < 256 ^ 4 := by
  rw [unsigned]
  omega

/-- `CmiListSendToProcess` sends one fan-out message if there are several ranks and `CmiAlloc` can
serve the total size. -/
theorem list_send_to_process_spec (me : Nat) {handlerId : Nat}
    (hfan : hs.fanoutHandler < 2 ^ 15) (hpes : m.cmiNumPes ≤ 2 ^ 31)
    (hrest : rest ≠ []) (hlen : 24 ≤ len) (hmsg : len ≤ msg.length)
    (htotal : cmiFanoutTotalSize len (rest.length + 1) ≤ maxSize m.backend)
    (hfirst : first < m.cmiNumPes) (hid : loadNum msg 0 2 = some handlerId) :
    ∃ buf, IsFanout hs len msg ((first :: rest).map m.cmiRankOf) buf ∧
      getDestPE buf = some (first % 256 ^ 4) ∧
      cmiListSendToProcess m hs me len msg first rest = some [route m me first buf] := by
  have hpos : 0 < rest.length := length_pos_iff.mpr hrest
  have htrailer := le_trailer_offset len
  have hsum : cmiFanoutTotalSize len (rest.length + 1) =
      cmiFanoutTrailerOffset len + 8 + 4 * (rest.length + 1) := by
    rw [cmiFanoutTotalSize, cmiFanoutTrailerFixed]
    omega
  have hmax := max_size_le m.backend
  have hint := int_natCast_of_lt (by omega : cmiFanoutTotalSize len (rest.length + 1) < 2 ^ 31)
  obtain ⟨copy, hcopy, hsize, hbytes⟩ := alloc_copy_spec (by omega) htotal (by omega) hmsg
  have hwords : (wordBytes ((first :: rest).map m.cmiRankOf)).length = 4 * (rest.length + 1) := by
    rw [length_wordBytes, length_map, length_cons]
  -- No store leaves the allocation, so each of them is a patch of the same length.
  obtain ⟨b1, h1⟩ : ∃ b, patch copy 8 (encode 4 len) = b := ⟨_, rfl⟩
  have l1 : b1.length = copy.length := h1 ▸ length_patch_encode (by omega)
  obtain ⟨b2, h2⟩ : ∃ b, patch b1 (cmiFanoutTrailerOffset len) (encode 4 (rest.length + 1)) = b :=
    ⟨_, rfl⟩
  have l2 : b2.length = copy.length := h2 ▸ (length_patch_encode (by omega)).trans l1
  obtain ⟨b3, h3⟩ : ∃ b, patch b2 (cmiFanoutTrailerOffset len + 4)
      (encode 4 (unsigned 32 (signed 16 handlerId)).toNat) = b := ⟨_, rfl⟩
  have l3 : b3.length = copy.length := h3 ▸ (length_patch_encode (by omega)).trans l2
  obtain ⟨b4, h4⟩ : ∃ b, patch b3 (cmiFanoutTrailerOffset len + 8)
      (wordBytes ((first :: rest).map m.cmiRankOf)) = b := ⟨_, rfl⟩
  have l4 : b4.length = copy.length := h4 ▸ (length_patch (by omega)).trans l3
  obtain ⟨b5, h5⟩ : ∃ b, patch b4 0 (encode 2 hs.fanoutHandler) = b := ⟨_, rfl⟩
  have l5 : b5.length = copy.length := h5 ▸ (length_patch_encode (by omega)).trans l4
  obtain ⟨b6, h6⟩ : ∃ b, patch b5 4 (encode 4 first) = b := ⟨_, rfl⟩
  -- Each of them is seen only by loads of the place it writes.
  have f1 : ∀ {off n}, off + n ≤ 8 → loadNum b1 off n = loadNum copy off n := fun h =>
    h1 ▸ loadNum_patch_other (by rw [length_encode]; omega) (.inl h)
  have f2 : ∀ {off n}, off + n ≤ cmiFanoutTrailerOffset len →
      loadNum b2 off n = loadNum b1 off n := fun h =>
    h2 ▸ loadNum_patch_other (by rw [length_encode]; omega) (.inl h)
  have f3 : ∀ {off n}, off + n ≤ cmiFanoutTrailerOffset len + 4 →
      loadNum b3 off n = loadNum b2 off n := fun h =>
    h3 ▸ loadNum_patch_other (by rw [length_encode]; omega) (.inl h)
  have f4 : ∀ {off n}, off + n ≤ cmiFanoutTrailerOffset len + 8 →
      loadNum b4 off n = loadNum b3 off n := fun h =>
    h4 ▸ loadNum_patch_other (by omega) (.inl h)
  have f6 : ∀ {off n}, 8 ≤ off → loadNum b6 off n = loadNum b4 off n := fun h => by
    rw [← h6, loadNum_patch_other (by rw [length_encode]; omega) (.inr (by exact h)), ← h5,
      loadNum_patch_other (by rw [length_encode]; omega) (.inr (by rw [length_encode]; omega))]
  have hid2 : loadNum b2 0 2 = some handlerId := by
    rw [f2 (by omega), f1 (by omega), ← hid]
    exact loadNum_congr (by omega) fun i hi => hbytes _ (by omega)
  refine ⟨b6, ⟨?_, ?_, ?_, ?_, ?_, ?_⟩, ?_, ?_⟩
  · have hload : loadNum b6 0 2 = some hs.fanoutHandler := by
      rw [← h6, loadNum_patch_other (by rw [length_encode]; omega) (.inl (by omega)), ← h5,
        loadNum_patch_same (by omega), Nat.mod_eq_of_lt (by omega)]
    rw [getHandlerId, hload, map_some, signed_of_lt (by omega) (by omega)]
  · have hload : loadNum b6 8 4 = some len := by
      rw [f6 (by omega), f4 (by omega), f3 (by omega), f2 (by omega), ← h1,
        loadNum_patch_same (by omega), Nat.mod_eq_of_lt (by omega)]
    rw [getMessageSize, hload, map_some, int_natCast_of_lt (by omega)]
  · intro i hi hge hk
    have hk : i < 4 ∨ 12 ≤ i := hk
    have e6 : b6[i]? = b5[i]? := by
      rw [← h6]
      rcases hk with hk | hk
      · exact getElem?_patch_of_lt hk (by omega)
      · exact getElem?_patch_of_ge (by rw [length_encode]; omega) (by omega)
    have e1 : b1[i]? = copy[i]? := by
      rw [← h1]
      rcases hk with hk | hk
      · exact getElem?_patch_of_lt (by omega) (by omega)
      · exact getElem?_patch_of_ge (by rw [length_encode]; omega) (by omega)
    rw [e6, ← h5, getElem?_patch_of_ge (by rw [length_encode]; omega) (by omega), ← h4,
      getElem?_patch_of_lt (by omega) (by omega), ← h3, getElem?_patch_of_lt (by omega) (by omega),
      ← h2, getElem?_patch_of_lt (by omega) (by omega), e1]
    exact hbytes i hi
  · rw [f6 (by omega), f4 (by omega), f3 (by omega), ← h2, loadNum_patch_same (by omega),
      Nat.mod_eq_of_lt (by omega), length_map, length_cons]
  · refine ⟨(unsigned 32 (signed 16 handlerId)).toNat, ?_, ?_⟩
    · rw [f6 (by omega), f4 (by omega), ← h3, loadNum_patch_same (by omega),
        Nat.mod_eq_of_lt (unsigned_lt _)]
    · rw [encode_parked]
      exact (loadNum_eq_some hid).2
  · intro i r hr
    have hlt : r < 2 ^ 32 := by
      obtain ⟨pe, -, rfl⟩ := mem_map.mp (mem_of_getElem? hr)
      have hnode : m.nodeSize ≤ m.cmiNumPes := Nat.le_mul_of_pos_left _ m.numNodes_pos
      have hrank := m.cmi_rank_of_lt pe
      omega
    rw [f6 (by omega), ← h4, loadNum_wordBytes hr (by rw [length_map, length_cons]; omega),
      Nat.mod_eq_of_lt hlt]
  · rw [getDestPE, ← h6, loadNum_patch_same (by omega)]
  · have hbranch : ¬((first :: rest).length = 1 ∨ len < cmiMsgHeaderSizeBytes) := by
      rw [length_cons, cmiMsgHeaderSizeBytes]
      omega
    simp only [cmiListSendToProcess, if_neg hbranch, bind, bind_eq_some_iff]
    refine ⟨copy, ?_, b1, h1 ▸ store_encode (by omega), b2, h2 ▸ store_encode (by omega),
      signed 16 handlerId, ?_, b3, h3 ▸ store_encode (by omega), b4, ?_, b5,
      h5 ▸ store_encode (by omega), _, sync_send_and_free_eq hfirst (by omega), ?_⟩
    · rw [length_cons, hint]
      exact hcopy
    · rw [getHandlerId, hid2]
      rfl
    · rw [storeWords_eq _ (by rw [cmiFanoutTrailerFixed]; omega), ← h4]
      show store b3 (cmiFanoutTrailerOffset len + 8) _ = _
      exact store_eq (by rw [hwords]; omega)
    · rw [h6]
      rfl

/-- `CmiListSendToProcess` fails if `CmiAlloc` cannot serve the total size: if it returns a message
at all, that is smaller, so a store, at the latest that of the last rank, leaves the allocation. -/
theorem list_send_to_process_overflow (hrest : rest ≠ [])
    (hlen : 24 ≤ len) (htotal : maxSize m.backend < cmiFanoutTotalSize len (rest.length + 1)) :
    cmiListSendToProcess m hs me len msg first rest = none := by
  have hpos : 0 < rest.length := length_pos_iff.mpr hrest
  have hbranch : ¬((first :: rest).length = 1 ∨ len < cmiMsgHeaderSizeBytes) := by
    rw [length_cons, cmiMsgHeaderSizeBytes]
    omega
  rw [Option.eq_none_iff_forall_ne_some]
  intro sent hsent
  simp only [cmiListSendToProcess, if_neg hbranch, bind, bind_eq_some_iff] at hsent
  obtain ⟨copy, hcopy, b1, h1, b2, h2, id, -, b3, h3, b4, h4, -⟩ := hsent
  have l0 := (length_alloc_copy hcopy).2.1
  have l1 := (store_eq_some h1).2
  have l2 := (store_eq_some h2).2
  obtain ⟨hroom, l3⟩ := store_eq_some h3
  rw [length_encode] at hroom
  rw [storeWords_eq _ (by rw [cmiFanoutTrailerFixed]; omega)] at h4
  have hfit := (store_eq_some h4).1
  rw [length_wordBytes, length_map, length_cons] at hfit
  rw [cmiFanoutTotalSize] at htotal
  omega

end Fanout

/-! ## What the messages in flight still owe -/

/-- `CmiAlloc` can serve the fan-out message for `nranks` ranks. -/
def FanoutFits (m : Machine) (len nranks : Nat) : Prop :=
  cmiMsgHeaderSizeBytes ≤ len → cmiFanoutTotalSize len nranks ≤ maxSize m.backend

instance (m : Machine) (len nranks : Nat) : Decidable (FanoutFits m len nranks) :=
  inferInstanceAs (Decidable (_ → _))

/-- The handler index of the message belongs to a handler of the program. -/
def IsUserMsg (hs : Handlers) (msg : Buf) : Prop :=
  ∃ id : Nat, getHandlerId msg = some (id : Int) ∧ hs.IsUser id

/-- A message for a handler of the program that is long enough to be stamped, and not too large for
a copy. -/
structure Sending (m : Machine) (hs : Handlers) where
  len : Nat
  msg : Buf
  long : 8 ≤ len
  fits : len ≤ maxSize m.backend
  whole : len ≤ msg.length
  user : IsUserMsg hs msg

namespace Sending

variable {m : Machine} {hs : Handlers} (w : Sending m hs)

/-- What the handler on `pe` is to see. -/
def expected (pe : Nat) : Nat × Option Int × List (Option UInt8) := observe w.len (pe, w.msg)

/-- The messages that occur: copies of the message, fan-out messages, and either of them on its
way to a node. -/
inductive Ok : Transit → Prop where
  | plain {pe : Nat} {buf : Buf} (carries : Carries w.len w.msg buf) : Ok (.queue pe buf)
  | fanout {pe first : Nat} {rest : List Nat} {buf : Buf} (long : 24 ≤ w.len)
      (count : rest.length + 1 < 2 ^ 31) (ranks : ∀ r ∈ first :: rest, r < m.nodeSize)
      (fan : IsFanout hs w.len w.msg (first :: rest) buf) : Ok (.queue pe buf)
  | am {pe : Nat} {buf : Buf} (dest : getDestPE buf = some pe) (small : pe < 2 ^ 31)
      (ok : Ok (.queue pe buf)) : Ok (.am (m.cmiNodeOf pe) buf)

/-- The observation of a queued copy of the message. -/
def direct : Transit → List (Nat × Option Int × List (Option UInt8))
  | .queue pe buf => [observe w.len (pe, buf)]
  | .am _ _ => []

/-- What a message owes: the observations of the handler it is for or, for a fan-out message,
of the messages its handler pushes. -/
def owes : Transit → List (Nat × Option Int × List (Option UInt8))
  | .queue pe buf =>
    match handleListSend m hs (.queue pe buf) with
    | some (sent, ran) => sent.flatMap w.direct ++ ran.map (observe w.len)
    | none => []
  | .am node buf =>
    match (commRemoteHandler m node buf).bind (handleListSend m hs) with
    | some (sent, ran) => sent.flatMap w.direct ++ ran.map (observe w.len)
    | none => []

/-- The number of deliveries a message leads to. -/
def weight (m : Machine) (hs : Handlers) : Transit → Nat
  | .queue pe buf =>
    match handleListSend m hs (.queue pe buf) with
    | some (sent, _) => sent.length + 1
    | none => 0
  | .am node buf =>
    match (commRemoteHandler m node buf).bind (handleListSend m hs) with
    | some (sent, _) => sent.length + 2
    | none => 0

variable {w} {pe : Nat} {buf : Buf}

theorem observe_eq (h : Carries w.len w.msg buf) : observe w.len (pe, buf) = w.expected pe := by
  rw [expected, observe, observe, h.payload_eq,
    h.handler_id_eq (le_trans (by omega) w.long) w.whole]

/-- A copy of the message is handed to the program. -/
theorem handle_plain (h : Carries w.len w.msg buf) :
    handleListSend m hs (.queue pe buf) = some ([], [(pe, buf)]) := by
  obtain ⟨id, hid, fn, hfn⟩ := w.user
  rw [← h.handler_id_eq (le_trans (by omega) w.long) w.whole] at hid
  have hneg : ¬((id : Int) < 0) := Int.not_lt.mpr (Int.natCast_nonneg id)
  simp only [handleListSend, hid, bind, bind_some, hneg, if_false, Int.toNat_natCast, hfn]

/-- A fan-out message is handed to `CmiFanoutHandler`, which pushes copies of the message. -/
theorem handle_fanout (pe : Nat) (hlen : 24 ≤ w.len)
    (hcount : rest.length + 1 < 2 ^ 31) (hranks : ∀ r ∈ first :: rest, r < m.nodeSize)
    (h : IsFanout hs w.len w.msg (first :: rest) buf) :
    ∃ sent, handleListSend m hs (.queue pe buf) = some (sent, []) ∧
      List.Forall₂ (Pushed m w.len w.msg (m.cmiNodeOf pe)) (rest ++ [first]) sent := by
  obtain ⟨sent, hsent, hpushed⟩ := fanout_handler_spec (m.cmiNodeOf pe) h hlen w.fits hcount hranks
  have hneg : ¬((hs.fanoutHandler : Int) < 0) := Int.not_lt.mpr (Int.natCast_nonneg _)
  refine ⟨sent, ?_, hpushed⟩
  simp only [handleListSend, h.handler, bind, bind_some, hneg, if_false,
    Int.toNat_natCast, hs.fanout_entry, hsent, pure]

/-- `CommRemoteHandler` queues a message on the PE it is stamped with. -/
theorem remote_handler_eq (h : getDestPE buf = some pe) (hsmall : pe < 2 ^ 31) :
    commRemoteHandler m (m.cmiNodeOf pe) buf = some (.queue pe buf) := by
  have hnode : pe ≠ cmiMessageDestPENode := by rw [cmiMessageDestPENode]; omega
  simp only [commRemoteHandler, h, bind, bind_some, if_neg hnode, cmiPushPE,
    if_pos (m.cmi_rank_of_lt pe), node_first_add_rank]

/-- A copy in the queue of a PE owes one delivery. -/
theorem owes_plain (pe : Nat) (h : Carries w.len w.msg buf) :
    w.owes (.queue pe buf) = [w.expected pe] ∧ weight m hs (.queue pe buf) = 1 := by
  simp only [owes, weight, handle_plain h, flatMap_nil, nil_append, map_cons,
    map_nil, observe_eq h, length_nil, zero_add, and_self]

/-- What the pushed copies owe. -/
theorem flat_map_pushed {ranks : List Nat}
    (h : List.Forall₂ (Pushed m w.len w.msg node) ranks sent) :
    sent.flatMap w.direct = ranks.map (fun r => w.expected (m.cmiNodeFirst node + r)) ∧
    sent.flatMap (w.owes) = ranks.map (fun r => w.expected (m.cmiNodeFirst node + r)) ∧
    (sent.map (weight m hs)).sum = ranks.length ∧ ∀ x ∈ sent, w.Ok x := by
  induction h with
  | nil => simp
  | cons hpush _ ih =>
    obtain ⟨b, hb, rfl⟩ := hpush
    obtain ⟨hdirect, howes, hweight, hok⟩ := ih
    obtain ⟨ho, hw⟩ := owes_plain (m.cmiNodeFirst node + _) hb
    refine ⟨?_, ?_, ?_, ?_⟩
    · rw [flatMap_cons, hdirect, direct, observe_eq hb]
      rfl
    · rw [flatMap_cons, howes, ho]
      rfl
    · rw [map_cons, sum_cons, length_cons]
      omega
    · exact forall_mem_cons.mpr ⟨.plain hb, hok⟩

theorem owes_am (h : getDestPE buf = some pe) (hsmall : pe < 2 ^ 31) :
    w.owes (.am (m.cmiNodeOf pe) buf) = w.owes (.queue pe buf) := by
  simp only [owes, remote_handler_eq h hsmall, bind_some]

/-- A message in the network has one more step to go. -/
theorem weight_am (h : getDestPE buf = some pe) (hsmall : pe < 2 ^ 31)
    (hok : w.Ok (.queue pe buf)) :
    weight m hs (.am (m.cmiNodeOf pe) buf) = weight m hs (.queue pe buf) + 1 := by
  simp only [weight, remote_handler_eq h hsmall, bind_some]
  cases hok with
  | plain carries => rw [handle_plain carries]
  | fanout long count ranks fan =>
    obtain ⟨sent, hsent, -⟩ := handle_fanout _ long count ranks fan
    rw [hsent]

/-- Handling a message keeps what is owed, and takes a delivery off its weight. -/
theorem handle_ok {t : Transit} (h : w.Ok t) :
    ∃ sent ran, handleListSend m hs t = some (sent, ran) ∧ (∀ x ∈ sent, w.Ok x) ∧
      w.owes t = sent.flatMap (w.owes) ++ ran.map (observe w.len) ∧
      (sent.map (weight m hs)).sum < weight m hs t := by
  cases h with
  | plain carries =>
    obtain ⟨howes, hweight⟩ := owes_plain _ carries
    refine ⟨_, _, handle_plain carries, by simp, ?_, by rw [hweight]; simp⟩
    rw [howes, flatMap_nil, nil_append, map_singleton, observe_eq carries]
  | fanout long count ranks fan =>
    obtain ⟨sent, hsent, hpushed⟩ := handle_fanout _ long count ranks fan
    obtain ⟨hdirect, howes, hweight, hok⟩ := flat_map_pushed hpushed
    refine ⟨sent, [], hsent, hok, ?_, ?_⟩
    · rw [owes, hsent, howes, ← hdirect]
    · rw [hweight, weight, hsent, hpushed.length_eq]
      exact Nat.lt_succ_self _
  | am dest small ok =>
    refine ⟨[.queue _ _], [], ?_, by simpa using ok, ?_, ?_⟩
    · simp only [handleListSend, remote_handler_eq dest small, bind, bind_some, pure]
    · simp [owes_am dest small]
    · rw [weight_am dest small ok]
      simp

/-- The account of a list send. -/
def account (w : Sending m hs) :
    Dispatch.Account (handleListSend m hs) (observe w.len) where
  ok := w.Ok
  owes := w.owes
  pays := fun _ h => by
    obtain ⟨sent, ran, hhandle, hok, howes, -⟩ := handle_ok h
    exact ⟨sent, ran, hhandle, hok, .of_eq howes⟩

/-! ## What the sends put in flight -/

/-- The messages `sent` owe one observation for every PE in `pes`. -/
structure Sends (w : Sending m hs) (pes : List Nat) (sent : List Transit) : Prop where
  ok : ∀ x ∈ sent, w.Ok x
  owes : (sent.flatMap (w.owes)).Perm (pes.map w.expected)
  weight : (sent.map (weight m hs)).sum ≤ 2 * pes.length

variable {me : Nat} {pes : List Nat} {sent : List Transit}

theorem Sends.nil : w.Sends [] [] := ⟨by simp, by simp, by simp⟩

/-- Two groups of messages for two lists of PEs. -/
theorem Sends.append {sent' : List Transit} (h : w.Sends pes sent)
    (h' : w.Sends pes' sent') : w.Sends (pes ++ pes') (sent ++ sent') where
  ok := fun x hx => (mem_append.mp hx).elim (h.ok x) (h'.ok x)
  owes := by
    rw [flatMap_append, map_append]
    exact h.owes.append h'.owes
  weight := by
    have hw := h.weight
    have hw' := h'.weight
    rw [map_append, sum_append, length_append]
    omega

theorem Sends.perm (h : w.Sends pes sent) (hperm : pes.Perm pes') : w.Sends pes' sent :=
  ⟨h.ok, h.owes.trans (hperm.map _), hperm.length_eq ▸ h.weight⟩

/-- A message that is sent to `pe`, from this node or from another one. -/
theorem ok_route (me : Nat) (hpe : pe < 2 ^ 31) (hdest : getDestPE buf = some (pe % 256 ^ 4))
    (hok : w.Ok (.queue pe buf)) : w.Ok (route m me pe buf) ∧
      w.owes (route m me pe buf) = w.owes (.queue pe buf) ∧
      weight m hs (route m me pe buf) ≤ weight m hs (.queue pe buf) + 1 := by
  rw [Nat.mod_eq_of_lt (by omega)] at hdest
  rw [route]
  split
  · exact ⟨hok, rfl, Nat.le_succ _⟩
  · exact ⟨.am hdest hpe hok, owes_am hdest hpe, le_of_eq (weight_am hdest hpe hok)⟩

/-- A loop of sends sends to every PE. -/
theorem send_each_spec (me : Nat) (hnum : m.cmiNumPes ≤ 2 ^ 31)
    (hpes : ∀ p ∈ pes, p < m.cmiNumPes) :
    ∃ sent, sendEach m me w.len w.msg pes = some sent ∧ w.Sends pes sent := by
  induction pes with
  | nil => exact ⟨[], rfl, .nil⟩
  | cons p pes ih =>
    obtain ⟨hp, hpes⟩ := forall_mem_cons.mp hpes
    obtain ⟨sent, hsent, hsends⟩ := ih hpes
    obtain ⟨buf, hcarries, hdest, hsend⟩ := sync_send_spec me hp w.long w.fits w.whole
    obtain ⟨hok, howes, hweight⟩ := ok_route me (by omega) hdest
      (.plain hcarries : w.Ok (.queue p buf))
    obtain ⟨ho, hw⟩ := owes_plain p hcarries
    have hone : w.Sends [p] [route m me p buf] := by
      rw [hw] at hweight
      exact ⟨by simpa using hok, by simp [howes, ho], by simpa using hweight⟩
    refine ⟨route m me p buf :: sent, ?_, hone.append hsends⟩
    rw [sendEach] at hsent ⊢
    rw [mapM_cons, hsend, hsent]
    rfl

/-- What a fan-out message owes. -/
theorem owes_fanout (pe : Nat) (hlen : 24 ≤ w.len)
    (hcount : rest.length + 1 < 2 ^ 31) (hranks : ∀ r ∈ first :: rest, r < m.nodeSize)
    (h : IsFanout hs w.len w.msg (first :: rest) buf) :
    (w.owes (.queue pe buf)).Perm ((first :: rest).map fun r =>
      w.expected (m.cmiNodeFirst (m.cmiNodeOf pe) + r)) ∧
    weight m hs (.queue pe buf) = rest.length + 2 := by
  obtain ⟨sent, hsent, hpushed⟩ := handle_fanout pe hlen hcount hranks h
  have hlength := hpushed.length_eq
  rw [length_append, length_singleton] at hlength
  rw [owes, weight, hsent]
  refine ⟨?_, by show sent.length + 1 = _; omega⟩
  show (sent.flatMap w.direct ++ []).Perm _
  rw [append_nil, (flat_map_pushed hpushed).1]
  exact (perm_append_singleton first rest).map _

/-- `CmiListSendToProcess` sends to all listed PEs of a process, if the fan-out message fits. -/
theorem list_send_to_process_sends (hfan : hs.fanoutHandler < 2 ^ 15) (hnum : m.cmiNumPes ≤ 2 ^ 31)
    (hpes : ∀ p ∈ first :: rest, p < m.cmiNumPes)
    (hnode : ∀ p ∈ rest, m.cmiNodeOf p = m.cmiNodeOf first)
    (hfit : rest ≠ [] → FanoutFits m w.len (rest.length + 1)) :
    ∃ sent, cmiListSendToProcess m hs me w.len w.msg first rest = some sent ∧
      w.Sends (first :: rest) sent := by
  rcases Decidable.em ((first :: rest).length = 1 ∨ w.len < cmiMsgHeaderSizeBytes) with hb | hb
  · obtain ⟨sent, hsent, hsends⟩ := send_each_spec me hnum hpes
    exact ⟨sent, by rw [cmiListSendToProcess, if_pos hb, hsent], hsends⟩
  · have hlen : 24 ≤ w.len := Nat.le_of_not_lt fun h => hb (.inr h)
    have hrest : rest ≠ [] := fun h => hb (.inl (by simp [h]))
    have hpos : 0 < rest.length := length_pos_iff.mpr hrest
    have htotal := hfit hrest hlen
    have hmax := max_size_le m.backend
    have hcount : rest.length + 1 < 2 ^ 31 := by
      rw [cmiFanoutTotalSize] at htotal
      omega
    obtain ⟨id, hid, -⟩ := w.user
    obtain ⟨handlerId, hid, -⟩ := Option.map_eq_some_iff.mp hid
    have hfirst := hpes first mem_cons_self
    obtain ⟨buf, hfanout, hdest, hsend⟩ := list_send_to_process_spec me hfan hnum hrest
      hlen w.whole htotal hfirst hid
    have hranks : ∀ r ∈ m.cmiRankOf first :: rest.map m.cmiRankOf, r < m.nodeSize := by
      intro r hr
      obtain ⟨p, -, rfl⟩ := mem_map.mp (show r ∈ (first :: rest).map m.cmiRankOf from hr)
      exact m.cmi_rank_of_lt p
    have hcount' : (rest.map m.cmiRankOf).length + 1 < 2 ^ 31 := by rwa [length_map]
    obtain ⟨howes, hweight⟩ := owes_fanout first hlen hcount' hranks hfanout
    obtain ⟨hok, howes', hweight'⟩ := ok_route me (by omega) hdest
      (.fanout hlen hcount' hranks hfanout)
    refine ⟨_, hsend, ⟨by simpa using hok, ?_, ?_⟩⟩
    · -- A rank in the node of `first` is the listed PE again.
      have hback : (first :: rest).map w.expected = (m.cmiRankOf first :: rest.map m.cmiRankOf).map
          fun r => w.expected (m.cmiNodeFirst (m.cmiNodeOf first) + r) := by
        rw [← map_cons, map_map]
        refine map_congr_left fun p hp => ?_
        have hp' : m.cmiNodeOf first = m.cmiNodeOf p := by
          rcases mem_cons.mp hp with rfl | hp
          · rfl
          · exact (hnode p hp).symm
        rw [Function.comp, hp', node_first_add_rank]
      rw [hback]
      simpa [howes'] using howes
    · rw [hweight, length_map] at hweight'
      simp only [map_cons, map_nil, sum_cons, sum_nil, length_cons]
      omega

end Sending

/-! ## The loop over the processes -/

section ByProcess

/-- In a list sorted by `f`, what is dropped behind the entries with the least value has greater
values. -/
theorem lt_of_mem_drop_while {α : Type} {f : α → Nat} {k : Nat} {l : List α}
    (hsorted : l.Pairwise fun a b => f a ≤ f b) (hk : ∀ x ∈ l, k ≤ f x) :
    ∀ x ∈ l.dropWhile (f · == k), k < f x := by
  induction l with
  | nil => simp
  | cons a l ih =>
    obtain ⟨ha, hl⟩ := pairwise_cons.mp hsorted
    obtain ⟨hka, hkl⟩ := forall_mem_cons.mp hk
    rcases eq_or_lt_of_le hka with heq | hlt
    · rw [dropWhile_cons_of_pos (by simpa using heq.symm)]
      exact ih hl hkl
    · rw [dropWhile_cons_of_neg (by simpa using Nat.ne_of_gt hlt)]
      exact forall_mem_cons.mpr ⟨hlt, fun x hx => lt_of_lt_of_le hlt (ha x hx)⟩

variable {m : Machine} {hs : Handlers} {me len : Nat} {msg : Buf} {w : Sending m hs}
  {pes : List Nat}

/-- How many of the listed PEs are in a node. -/
def listed (m : Machine) (pes : List Nat) (node : Nat) : Nat := pes.countP (m.cmiNodeOf · == node)

/-- A PE on the node of another. -/
abbrev near (m : Machine) (first : Nat) : Nat → Bool := (m.cmiNodeOf · == m.cmiNodeOf first)

/-- One turn of the loop takes all entries of the first node, and leaves those of the others. -/
theorem listed_split
    (hsorted : (first :: order).Pairwise fun a b => m.cmiNodeOf a ≤ m.cmiNodeOf b) :
    (∀ p ∈ order.takeWhile (near m first), m.cmiNodeOf p = m.cmiNodeOf first) ∧
    listed m (first :: order) (m.cmiNodeOf first) = (order.takeWhile (near m first)).length + 1 ∧
    listed m (order.dropWhile (near m first)) (m.cmiNodeOf first) = 0 ∧
    ∀ node ≠ m.cmiNodeOf first,
      listed m (order.dropWhile (near m first)) node = listed m (first :: order) node := by
  obtain ⟨hfirst, horder⟩ := pairwise_cons.mp hsorted
  obtain ⟨taken, htaken⟩ : ∃ t, order.takeWhile (near m first) = t := ⟨_, rfl⟩
  obtain ⟨left, hleft⟩ : ∃ t, order.dropWhile (near m first) = t := ⟨_, rfl⟩
  have hsplit : order = taken ++ left := by
    rw [← htaken, ← hleft, takeWhile_append_dropWhile]
  have hsame : ∀ p ∈ taken, m.cmiNodeOf p = m.cmiNodeOf first := by
    intro p hp
    rw [← htaken] at hp
    simpa using mem_takeWhile_imp hp
  have hother : ∀ p ∈ left, m.cmiNodeOf first < m.cmiNodeOf p := by
    rw [← hleft]
    exact lt_of_mem_drop_while horder hfirst
  rw [htaken, hleft]
  have hnone : listed m left (m.cmiNodeOf first) = 0 := by
    rw [listed, countP_eq_zero]
    intro p hp
    simpa using Nat.ne_of_gt (hother p hp)
  refine ⟨hsame, ?_, hnone, fun node hnode => ?_⟩
  · have hall : taken.countP (near m first) = taken.length :=
      countP_eq_length.mpr fun p hp => by simpa using hsame p hp
    rw [listed] at hnone
    rw [hsplit, listed, countP_cons_of_pos (by simp), countP_append, hall, hnone]
  · have hzero : taken.countP (m.cmiNodeOf · == node) = 0 :=
      countP_eq_zero.mpr fun p hp => by simpa [hsame p hp] using hnode.symm
    rw [hsplit, listed, listed, countP_cons_of_neg (by simpa using hnode.symm),
      countP_append, hzero, zero_add]

/-- `CmiAlloc` can serve the fan-out message to every other process with several listed PEs. -/
def FanoutsFit (m : Machine) (me len : Nat) (pes : List Nat) : Prop :=
  ∀ node ≠ m.cmiNodeOf me, 2 ≤ listed m pes node → FanoutFits m len (listed m pes node)

/-- The PEs of one process, of the sender's or of another. -/
theorem send_group_spec (hfan : hs.fanoutHandler < 2 ^ 15) (hnum : m.cmiNumPes ≤ 2 ^ 31)
    (hpes : ∀ p ∈ first :: rest, p < m.cmiNumPes)
    (hnode : ∀ p ∈ rest, m.cmiNodeOf p = m.cmiNodeOf first)
    (hfit : m.cmiNodeOf first ≠ m.cmiNodeOf me → rest ≠ [] →
      FanoutFits m w.len (rest.length + 1)) :
    ∃ sent, sendGroup m hs me w.len w.msg first rest = some sent ∧
      w.Sends (first :: rest) sent := by
  rw [sendGroup]
  split
  · exact Sending.send_each_spec me hnum hpes
  next hother => exact Sending.list_send_to_process_sends hfan hnum hpes hnode (hfit hother)

/-- A loop over the listed PEs that gives every turn's entries, those of one node, to `group`. -/
structure IsByProcess {α : Type} (m : Machine) (group : Nat → List Nat → Option (List α))
    (loop : Nat → List Nat → Option (List α)) : Prop where
  nil : ∀ fuel, loop fuel [] = some []
  cons : ∀ fuel first order, loop (fuel + 1) (first :: order) =
    (group first (order.takeWhile (m.cmiNodeOf · == m.cmiNodeOf first))).bind fun sent =>
      (loop fuel (order.dropWhile (m.cmiNodeOf · == m.cmiNodeOf first))).bind fun more =>
        some (sent ++ more)

section

variable {α : Type} {group : Nat → List Nat → Option (List α)}
  {loop : Nat → List Nat → Option (List α)} (h : IsByProcess m group loop)

include h

/-- If every group that fits is sent, then so is the list. -/
theorem IsByProcess.sends (Sends : List Nat → List α → Prop) (hnil : Sends [] [])
    (happend : ∀ {ps qs a b}, Sends ps a → Sends qs b → Sends (ps ++ qs) (a ++ b))
    (hgroup : ∀ {first rest}, (∀ p ∈ first :: rest, p < m.cmiNumPes) →
      (∀ p ∈ rest, m.cmiNodeOf p = m.cmiNodeOf first) →
      (m.cmiNodeOf first ≠ m.cmiNodeOf me → rest ≠ [] → FanoutFits m len (rest.length + 1)) →
      ∃ sent, group first rest = some sent ∧ Sends (first :: rest) sent)
    (fuel : Nat) (hfuel : order.length ≤ fuel) (hpes : ∀ p ∈ order, p < m.cmiNumPes)
    (hsorted : order.Pairwise fun a b => m.cmiNodeOf a ≤ m.cmiNodeOf b)
    (hfit : FanoutsFit m me len order) :
    ∃ sent, loop fuel order = some sent ∧ Sends order sent := by
  -- Every turn takes at least the first entry off `order`.
  induction fuel generalizing order with
  | zero =>
    obtain rfl := eq_nil_of_length_eq_zero (Nat.le_zero.mp hfuel)
    exact ⟨[], h.nil _, hnil⟩
  | succ fuel ih =>
    cases order with
    | nil => exact ⟨[], h.nil _, hnil⟩
    | cons first order =>
      obtain ⟨hsame, hcount, hzero, hothers⟩ := listed_split hsorted
      have hperm : (first :: order.takeWhile (near m first)) ++
          order.dropWhile (near m first) = first :: order := by
        rw [cons_append, takeWhile_append_dropWhile]
      have hmem : ∀ p, p ∈ first :: order.takeWhile (near m first) ∨
          p ∈ order.dropWhile (near m first) → p < m.cmiNumPes :=
        fun p hp => hpes p (hperm ▸ mem_append.mpr hp)
      obtain ⟨sent, hsent, hsends⟩ := hgroup (fun p hp => hmem p (.inl hp)) hsame
        fun hnode hrest => by
          have hpos := length_pos_iff.mpr hrest
          rw [← hcount]
          exact hfit _ hnode (by omega)
      obtain ⟨more, hmore, hmores⟩ := ih
        (le_trans (dropWhile_suffix _).length_le (Nat.le_of_succ_le_succ hfuel))
        (fun p hp => hmem p (.inr hp))
        ((pairwise_cons.mp hsorted).2.sublist (dropWhile_sublist _)) (by
          intro node hnode htwo
          have hne : node ≠ m.cmiNodeOf first := by
            rintro rfl
            omega
          rw [hothers node hne] at htwo ⊢
          exact hfit node hnode htwo)
      refine ⟨sent ++ more, ?_, hperm ▸ happend hsends hmores⟩
      rw [h.cons, hsent, hmore, bind_some, bind_some]

/-- The loop fails if the fan-out message to some process is too large. -/
theorem IsByProcess.overflow
    (hgroup : ∀ {first rest}, m.cmiNodeOf first ≠ m.cmiNodeOf me → rest ≠ [] →
      ¬ FanoutFits m len (rest.length + 1) → group first rest = none)
    (fuel : Nat) (hfuel : order.length ≤ fuel)
    (hsorted : order.Pairwise fun a b => m.cmiNodeOf a ≤ m.cmiNodeOf b)
    (hnode : node ≠ m.cmiNodeOf me) (htwo : 2 ≤ listed m order node)
    (htotal : ¬ FanoutFits m len (listed m order node)) : loop fuel order = none := by
  induction fuel generalizing order with
  | zero =>
    obtain rfl := eq_nil_of_length_eq_zero (Nat.le_zero.mp hfuel)
    exact absurd htwo (by simp [listed])
  | succ fuel ih =>
    cases order with
    | nil => exact absurd htwo (by simp [listed])
    | cons first order =>
      obtain ⟨-, hcount, -, hothers⟩ := listed_split hsorted
      rcases Decidable.em (node = m.cmiNodeOf first) with rfl | hne
      · -- This turn sends the message that is too large.
        have hrest : order.takeWhile (near m first) ≠ [] := by
          intro h
          rw [hcount, h] at htwo
          exact absurd htwo (by simp)
        rw [hcount] at htotal
        rw [h.cons, hgroup hnode hrest htotal, bind_none]
      · rw [← hothers node hne] at htwo htotal
        have hmore := ih
          (le_trans (dropWhile_suffix _).length_le (Nat.le_of_succ_le_succ hfuel))
          ((pairwise_cons.mp hsorted).2.sublist (dropWhile_sublist _)) htwo htotal
        rw [h.cons, hmore]
        simp only [bind_none, Option.bind_fun_none]

end

/-- The list send goes through the sorted list process by process. -/
theorem is_by_process (m : Machine) (hs : Handlers) (me len : Nat) (msg : Buf) :
    IsByProcess m (sendGroup m hs me len msg) (sendByProcess m hs me len msg) where
  nil fuel := by cases fuel <;> rfl
  cons _ _ _ := rfl

section

variable (hlen : len < 8 ∨ maxSize m.backend < len) (hpes : pes ≠ [])

include hlen hpes

/-- Neither the loop nor the list send gets past a message that cannot be sent. -/
theorem send_each_none : sendEach m me len msg pes = none := by
  obtain ⟨p, pes, rfl⟩ := exists_cons_of_ne_nil hpes
  rw [sendEach, mapM_cons, sync_send_none p hlen]
  rfl

theorem list_send_none {phs : Bool} : cmiSyncListSend m hs me phs pes len msg = none := by
  rw [cmiSyncListSend]
  split
  · rw [send_each_none hlen hpes]
    rfl
  · -- The first turn of the loop already fails.
    obtain ⟨fuel, hfuel⟩ := Nat.exists_eq_succ_of_ne_zero (Nat.ne_of_gt (length_pos_iff.mpr hpes))
    have hne : sortByNode m pes ≠ [] := by
      rw [← length_pos_iff, sortByNode, length_mergeSort]
      exact length_pos_iff.mpr hpes
    obtain ⟨first, order, horder⟩ := exists_cons_of_ne_nil hne
    have hgroup : ∀ rest, sendGroup m hs me len msg first rest = none := by
      intro rest
      have heach : sendEach m me len msg (first :: rest) = none :=
        send_each_none hlen (cons_ne_nil _ _)
      rw [sendGroup, heach, ite_eq_left_iff]
      intro _
      rcases Decidable.em ((first :: rest).length = 1 ∨ len < cmiMsgHeaderSizeBytes) with hb | hb
      · rw [cmiListSendToProcess, if_pos hb, heach]
      · have hlong : 24 ≤ len := Nat.le_of_not_lt fun h => hb (.inr h)
        have hle := le_trailer_offset len
        refine list_send_to_process_overflow (fun h => hb (.inl (by simp [h]))) hlong ?_
        rw [cmiFanoutTotalSize]
        omega
    rw [horder, hfuel]
    simp only [sendByProcess, hgroup, bind, bind_none]

end

end ByProcess

/-! ## List sends deliver like the loop -/

/-- Whatever the order of delivery, every message in flight can be handled, the deliveries come
to an end, and once nothing is in flight the handlers of the program have seen `seen`. -/
structure Yields (m : Machine) (hs : Handlers) (len : Nat) (sent : List Transit)
    (seen : List (Nat × Option Int × List (Option UInt8))) : Prop where
  enabled : ∀ es s, Steps (Dispatch.Delivers (handleListSend m hs)) ⟨sent, []⟩ es s →
    ∀ i < s.flight.length, ∃ s', Dispatch.Delivers (handleListSend m hs) s i s'
  bounded : ∃ n, ∀ es s, Steps (Dispatch.Delivers (handleListSend m hs)) ⟨sent, []⟩ es s →
    es.length ≤ n
  seen : ∀ es s, Steps (Dispatch.Delivers (handleListSend m hs)) ⟨sent, []⟩ es s →
    s.flight = [] → (s.log.map (observe len)).Perm seen

/-- The list send is equivalent to a loop of `CmiSyncSend`: it fails where the loop fails;
otherwise it leaves the caller's buffer as it was, and what it sends yields what the messages of
the loop yield, one copy of the message for every listed PE. -/
def LikeLoop (m : Machine) (hs : Handlers) (me : Nat) (phs : Bool) (pes : List Nat) (len : Nat)
    (msg : Buf) : Prop :=
  match sendEach m me len msg pes with
  | none => cmiSyncListSend m hs me phs pes len msg = none
  | some loop => ∃ sent, cmiSyncListSend m hs me phs pes len msg = some (msg, sent) ∧
      Yields m hs len sent (pes.map fun pe => observe len (pe, msg)) ∧
      Yields m hs len loop (pes.map fun pe => observe len (pe, msg))

variable {m : Machine} {hs : Handlers} {me len : Nat} {msg : Buf} {phs : Bool} {pes : List Nat}
  {w : Sending m hs}

/-- Messages that were sent to a list are delivered to it. -/
theorem Sending.Sends.yields (h : w.Sends pes sent) :
    Yields m hs w.len sent (pes.map fun pe => observe w.len (pe, w.msg)) := by
  have hcovers : (w.account).Covers ⟨sent, []⟩ := h.ok
  refine ⟨fun es s hsteps i hi => ?_, ⟨2 * pes.length, fun es s hsteps => ?_⟩,
    fun es s hsteps hdone => ?_⟩
  · exact (Dispatch.Account.steps hcovers hsteps).1.enabled hi
  · have hdec : ∀ t, w.Ok t → ∀ sent' ran, handleListSend m hs t = some (sent', ran) →
        (sent'.map (Sending.weight m hs)).sum < Sending.weight m hs t := by
      intro t ht sent' ran hhandle
      obtain ⟨sent'', ran', hhandle', -, -, hless⟩ := handle_ok ht
      obtain ⟨rfl, rfl⟩ : sent' = sent'' ∧ ran = ran' := by simpa [hhandle] using hhandle'
      exact hless
    have hle := Dispatch.Account.steps_length_le (Sending.weight m hs) hdec hcovers hsteps
    have hweight := h.weight
    simp only at hle
    omega
  · have htotal := (Dispatch.Account.steps hcovers hsteps).2
    simp only [Dispatch.Account.total, hdone, flatMap_nil, nil_append, map_nil,
      append_nil] at htotal
    exact htotal.trans h.owes

/-- Nothing is delivered if nothing was sent. -/
theorem yields_nil : Yields m hs len [] [] := by
  have hstuck : ∀ es s, Steps (Dispatch.Delivers (handleListSend m hs)) ⟨[], []⟩ es s →
      es = [] ∧ s = ⟨[], []⟩ := by
    intro es s hsteps
    cases hsteps with
    | nil => exact ⟨rfl, rfl⟩
    | cons hstep _ => exact absurd hstep (by simp [Dispatch.Delivers, Dispatch.deliver])
  refine ⟨fun es s h i hi => ?_, ⟨0, fun es s h => ?_⟩, fun es s h _ => ?_⟩
  · rw [(hstuck es s h).2] at hi
    exact absurd hi (Nat.not_lt_zero i)
  · rw [(hstuck es s h).1]
    exact le_refl 0
  · rw [(hstuck es s h).2]
    exact .refl _

/-- The list is sorted by process. -/
theorem sorted_by_node (m : Machine) (pes : List Nat) :
    (sortByNode m pes).Pairwise fun a b => m.cmiNodeOf a ≤ m.cmiNodeOf b := by
  refine (pairwise_mergeSort ?_ ?_ pes).imp ?_
  · intro a b c hab hbc
    simp only [decide_eq_true_eq] at hab hbc ⊢
    exact le_trans hab hbc
  · intro a b
    simpa using le_total (m.cmiNodeOf a) (m.cmiNodeOf b)
  · intro a b hab
    simpa using hab

theorem listed_perm (h : pes.Perm pes') (node : Nat) :
    listed m pes node = listed m pes' node := h.countP_eq _

/-- With sizes that fit, the list send sends what is owed to the listed PEs. -/
theorem list_send_sends (hnum : m.cmiNumPes ≤ 2 ^ 31)
    (hfan : hs.fanoutHandler < 2 ^ 15) (hpes : ∀ p ∈ pes, p < m.cmiNumPes)
    (hfit : phs = false → FanoutsFit m me w.len pes) :
    ∃ sent, cmiSyncListSend m hs me phs pes w.len w.msg = some (w.msg, sent) ∧
      w.Sends pes sent := by
  rw [cmiSyncListSend]
  split
  · obtain ⟨sent, hsent, hsends⟩ := Sending.send_each_spec me hnum hpes
    exact ⟨sent, by rw [hsent]; rfl, hsends⟩
  next hbranch =>
    have hphs : phs = false := by
      cases phs with
      | false => rfl
      | true => exact absurd (.inr (.inr rfl)) hbranch
    have hperm : (sortByNode m pes).Perm pes := mergeSort_perm _ _
    obtain ⟨sent, hsent, hsends⟩ := (is_by_process m hs me w.len w.msg).sends (w.Sends)
      .nil Sending.Sends.append (send_group_spec hfan hnum) pes.length (le_of_eq hperm.length_eq)
      (fun p hp => hpes p (hperm.mem_iff.mp hp)) (sorted_by_node m pes) (by
        intro node hnode htwo
        rw [listed_perm hperm] at htwo ⊢
        exact hfit hphs node hnode htwo)
    exact ⟨sent, by rw [hsent]; rfl, hsends.perm hperm⟩

/-- With a size that does not fit, the list send fails. -/
theorem list_send_overflow (hme : me < m.cmiNumPes)
    (hpes : ∀ p ∈ pes, p < m.cmiNumPes) (hnode : node ≠ m.cmiNodeOf me)
    (htwo : 2 ≤ listed m pes node) (htotal : ¬ FanoutFits m len (listed m pes node)) :
    cmiSyncListSend m hs me false pes len msg = none := by
  have hperm : (sortByNode m pes).Perm pes := mergeSort_perm _ _
  have hlength : listed m pes node ≤ pes.length := countP_le_length
  -- There are two nodes, that of the sender and the one with the message that is too large.
  have hnodes : m.numNodes ≠ 1 := by
    obtain ⟨p, hp, hpn⟩ := countP_pos_iff.mp (by omega : 0 < listed m pes node)
    have hp' := lt_num_pes_iff.mp (hpes p hp)
    have hme' := lt_num_pes_iff.mp hme
    simp only [beq_iff_eq] at hpn
    omega
  have hbranch : ¬(pes.length = 1 ∨ m.numNodes = 1 ∨ false = true) := by
    simp only [Bool.false_eq_true, or_false]
    omega
  have hgroup {first : Nat} {rest : List Nat} (hne : m.cmiNodeOf first ≠ m.cmiNodeOf me)
      (hrest : rest ≠ []) (htotal : ¬ FanoutFits m len (rest.length + 1)) :
      sendGroup m hs me len msg first rest = none := by
    obtain ⟨hlen, htotal⟩ := Classical.not_imp.mp htotal
    rw [sendGroup, if_neg hne, list_send_to_process_overflow hrest hlen (Int.not_le.mp htotal)]
  rw [cmiSyncListSend, if_neg hbranch, (is_by_process m hs me len msg).overflow hgroup pes.length
    (le_of_eq hperm.length_eq) (sorted_by_node m pes) hnode
    (by rw [listed_perm hperm]; exact htwo) (by rw [listed_perm hperm]; exact htotal)]
  rfl

/-- For every machine, sending PE, list of existing PEs and message, `CmiSyncListSend` is
equivalent to a loop of `CmiSyncSend` exactly if, unless persistent handles are installed, or the
message is shorter than a header or too large for `CmiSyncSend`, `CmiAlloc` can serve the fan-out
message to each other process with at least two listed PEs. PE numbers are `int`s and the index of
the fan-out handler, which is registered at startup, fits the `handlerId` field. -/
theorem list_send_like_loop_iff (m : Machine) (hs : Handlers) (me : Nat) (phs : Bool)
    (pes : List Nat) (len : Nat) (msg : Buf) (hnum : m.cmiNumPes ≤ 2 ^ 31)
    (hfan : hs.fanoutHandler < 2 ^ 15) (hme : me < m.cmiNumPes)
    (hpes : ∀ p ∈ pes, p < m.cmiNumPes) (hmsg : len ≤ msg.length) (huser : IsUserMsg hs msg) :
    LikeLoop m hs me phs pes len msg ↔
      (phs = false → len ≤ maxSize m.backend → FanoutsFit m me len pes) := by
  by_cases hlen : len < 8 ∨ maxSize m.backend < len
  · -- Too short to be stamped or too large: both fail, unless there is nothing to send.
    have hfit : phs = false → len ≤ maxSize m.backend → FanoutsFit m me len pes := by
      intro _ _ node _ _ hlong
      rw [cmiMsgHeaderSizeBytes] at hlong
      omega
    refine iff_of_true ?_ hfit
    rcases Decidable.em (pes = []) with rfl | hne
    · have hnil : cmiSyncListSend m hs me phs [] len msg = some (msg, []) := by
        rw [cmiSyncListSend]
        split <;> rfl
      exact ⟨[], hnil, yields_nil, yields_nil⟩
    · rw [LikeLoop, send_each_none hlen hne]
      exact list_send_none hlen hne
  · let w : Sending m hs := ⟨len, msg, by omega, by omega, hmsg, huser⟩
    obtain ⟨loop, hloop, hsends⟩ := Sending.send_each_spec (w := w) me hnum hpes
    constructor
    · intro hlike hphs _ node hnode htwo
      rw [LikeLoop, hloop] at hlike
      obtain ⟨sent, hsent, -⟩ := hlike
      by_contra htotal
      rw [hphs, list_send_overflow hme hpes hnode htwo htotal] at hsent
      cases hsent
    · intro hfit
      obtain ⟨sent, hsent, hsends'⟩ := list_send_sends (w := w) hnum hfan hpes
        fun hphs => hfit hphs w.fits
      rw [LikeLoop, hloop]
      exact ⟨sent, hsent, hsends'.yields, hsends.yields⟩

/-- A buffer that starts with handler index 6. -/
theorem is_user_msg_six (rest : Buf) : IsUserMsg (collectiveInit [] [.user 0])
    (6 :: 0 :: rest) := by
  refine ⟨6, ?_, 0, rfl⟩
  have hload : load (6 :: 0 :: rest) 0 2 = some [6, 0] := by simp [load]
  have hdecode : decode [6, 0] = 6 := by decide
  rw [getHandlerId, loadNum, hload, map_some, hdecode, map_some, signed_of_lt (by omega) (by omega)]

/-- Two nodes of two PEs, with PE 0 sending 25 bytes to PEs 2, 3, 2, 1 and 0. -/
theorem list_send_to_five :
    LikeLoop ⟨2, 2, by decide, by decide, .lci⟩ (collectiveInit [] [.user 0]) 0 false
      [2, 3, 2, 1, 0] 25 (6 :: 0 :: List.replicate 23 1) := by
  have hiff := list_send_like_loop_iff ⟨2, 2, by decide, by decide, .lci⟩
    (collectiveInit [] [.user 0]) 0 false [2, 3, 2, 1, 0] 25 (6 :: 0 :: List.replicate 23 1)
    (by decide) (by decide) (by decide) (by decide) (by decide) (is_user_msg_six _)
  refine hiff.mpr fun _ _ node _ _ _ => ?_
  have hle : listed ⟨2, 2, by decide, by decide, .lci⟩ [2, 3, 2, 1, 0] node ≤ 5 := countP_le_length
  show _ ≤ (2 ^ 31 - 384 : Int)
  rw [cmiFanoutTotalSize, cmiFanoutTrailerOffset, cmiFanoutTrailerFixed]
  omega

/-- A message of `2 ^ 31 - 392` bytes to two listed PEs of another process: the fan-out message has
`2 ^ 31 - 376` bytes, too many for `CmiAlloc` with LCI, and the list send fails where the loop
delivers. -/
theorem list_send_overflows :
    cmiSyncListSend ⟨2, 1, by decide, by decide, .lci⟩ (collectiveInit [] [.user 0]) 0 false [1, 1]
      (2 ^ 31 - 392) (6 :: 0 :: List.replicate (2 ^ 31 - 394) 0) = none ∧
    ∃ loop, sendEach ⟨2, 1, by decide, by decide, .lci⟩ 0 (2 ^ 31 - 392)
        (6 :: 0 :: List.replicate (2 ^ 31 - 394) 0) [1, 1] = some loop ∧
      Yields ⟨2, 1, by decide, by decide, .lci⟩ (collectiveInit [] [.user 0]) (2 ^ 31 - 392) loop
        ([1, 1].map fun pe => observe (2 ^ 31 - 392)
          (pe, 6 :: 0 :: List.replicate (2 ^ 31 - 394) 0)) := by
  have hnode : 1 ≠ cmiNodeOf ⟨2, 1, by decide, by decide, .lci⟩ 0 := by decide
  refine ⟨list_send_overflow (by decide) (by decide) hnode (by decide) (by decide), ?_⟩
  let w : Sending ⟨2, 1, by decide, by decide, .lci⟩ (collectiveInit [] [.user 0]) :=
    ⟨2 ^ 31 - 392, 6 :: 0 :: List.replicate (2 ^ 31 - 394) 0, by omega, by decide,
      by rw [length_cons, length_cons, length_replicate]; omega, is_user_msg_six _⟩
  have hnum : cmiNumPes ⟨2, 1, by decide, by decide, .lci⟩ ≤ 2 ^ 31 := by decide
  have hpes : ∀ p ∈ [1, 1], p < cmiNumPes ⟨2, 1, by decide, by decide, .lci⟩ := by decide
  obtain ⟨loop, hloop, hsends⟩ := Sending.send_each_spec (w := w) 0 hnum hpes
  exact ⟨loop, hloop, hsends.yields⟩

end Reconverse.Wire
