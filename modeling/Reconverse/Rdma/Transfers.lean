import Reconverse.Lib.Handles
import Reconverse.Lib.Runs
import Reconverse.Rdma.Model

/-!
# Every operation is a transfer

An operation that is not acknowledged yet is in one place: a message, or an operation of the backend
(`Token`). The place tells its phase, and every step moves it to another place (`Rel.replace`) or
acknowledges it (`Rel.finish`). Thus every run is one of the transfers (`rel_step`). This needs
that `CmiAlloc` can serve the messages, that the mode of a reversed get is known, and that no other
PE polls the device of an operation of the backend.
-/

namespace Reconverse.Rdma

open Function (update update_of_ne update_self)
open Alloc Lib Lib.CInt List State
open Machine (mem_node_pes)
open Option (bind_eq_bind bind_some map_eq_bind)

/-! ## Places -/

/-- Where an operation is. -/
inductive Token where
  | msg (pe : Nat) (msg : RdmaMsg)
  | backend (r : BackendOp)

def RdmaMsg.info : RdmaMsg → NcpyOperationInfo
  | .getRequest info | .putData info _ | .putDone info | .regAndPut info | .regAndGet info => info

/-- The number of the operation. -/
def Token.op : Token → Nat
  | .msg _ x => x.info.op
  | .backend r => r.info.op

def State.tokens (s : State) : List Token :=
  s.network.map (fun x => .msg x.1 x.2) ++ s.backend.map .backend

variable {m : Net} {copyBased : Bool} {s s' : State} {a a' : Spec.State} {op : Op} {pe j : Nat}
  {info : NcpyOperationInfo} {bytes : List UInt8} {x : Ack} {i : Nat} {n : Int}

/-- The information describes the same buffers as when the operation was issued. -/
structure NcpyOperationInfo.Of (info : NcpyOperationInfo) (op : Op) : Prop where
  srcPtr : info.srcPtr = op.info.srcPtr
  srcPe : info.srcPe = op.info.srcPe
  srcSize : info.srcSize = op.info.srcSize
  destPtr : info.destPtr = op.info.destPtr
  destPe : info.destPe = op.info.destPe
  destSize : info.destSize = op.info.destSize
  infoSize : info.ncpyOpInfoSize = op.info.ncpyOpInfoSize

/-- The information gives the length of the transfer. -/
theorem NcpyOperationInfo.Of.len_eq (m : Net) (copyBased : Bool) (h : info.Of op) :
    info.len = (op.transfer m copyBased).len := by
  rw [NcpyOperationInfo.len, h.srcSize, h.destSize]
  rfl

/-- What an operation of the backend does. -/
def BackendOp.transfer (r : BackendOp) : Transfer where
  srcNode := r.srcNode
  srcPtr := r.srcPtr
  destNode := r.destNode
  destPtr := r.destPtr
  len := r.len
  ackPe := r.pe

def Stage.phase : Stage → Phase
  | .issued => .issued
  | .read bytes => .taken bytes
  | .placed => .placed

/-- A place of an operation in a phase. -/
def Token.Ok (m : Net) (copyBased : Bool) (op : Op) (phase : Phase) : Token → Prop
  | .msg pe (.getRequest info) => info.Of op ∧ op.isGet = true ∧ (copyBased = true ∧ op.Remote m) ∧
      pe = op.info.srcPe ∧ phase = .issued
  | .msg pe (.putData info payload) => info.Of op ∧ (copyBased = true ∧ op.Remote m) ∧
      pe = op.info.destPe ∧ info.ackMode = (if op.isGet then .destAck else .srcDestAck) ∧
      phase = .taken (payload.take info.len)
  | .msg pe (.putDone _) => op.isGet = false ∧ (copyBased = true ∧ op.Remote m) ∧
      pe = op.info.srcPe ∧ phase = .placed
  | .msg pe (.regAndPut info) => info.Of op ∧ op.isGet = true ∧ op.Reversed m copyBased ∧
      pe = op.info.srcPe ∧ info.ackMode = .srcDestAck ∧ info.destRegion = op.info.destPtr ∧
      phase = .issued
  | .msg pe (.regAndGet info) => info.Of op ∧ op.isGet = false ∧ op.Reversed m copyBased ∧
      pe = op.info.destPe ∧ info.ackMode = .srcDestAck ∧ phase = .issued
  | .backend r => r.transfer = op.transfer m copyBased ∧ r.info.ackMode = .srcDestAck ∧
      (op.Rma m copyBased ∧ r.device = m.deviceOf (op.reachedPe m copyBased)) ∧
      phase = r.stage.phase

/-- The state and the transfers. -/
structure Rel (m : Net) (copyBased : Bool) (s : State) (a : Spec.State) : Prop where
  mem : a.mem = s.mem
  ops : a.ops = s.ops.map (Op.transfer m copyBased)
  acks : a.acks = s.acks.map fun x => (x.info.op, x.pe)
  modes : ∀ x ∈ s.acks, x.info.ackMode = .srcDestAck
  sound : ∀ op ∈ s.ops, op.Allowed m copyBased ∧ op.Sound m copyBased
  /-- Every operation is in one place or acknowledged. -/
  ids : (s.tokens.map Token.op ++ s.acks.map (·.info.op)).Perm (List.range s.ops.length)
  ok : ∀ k ∈ s.tokens, ∃ op, s.ops[k.op]? = some op ∧ k.Ok m copyBased op (a.phase k.op)
  fresh : ∀ i, s.ops.length ≤ i → a.phase i = .issued

namespace Rel

variable {k k' : Token} {rest : List Token}

section

variable (h : Rel m copyBased s a)

include h

theorem lookup (hop : s.ops[i]? = some op) : a.ops[i]? = some (op.transfer m copyBased) := by
  rw [h.ops, getElem?_map, hop]
  rfl

section

variable (hk : s.tokens.Perm (k :: rest))

include hk

/-- The other places belong to other operations. -/
theorem rest_ne : ∀ k₁ ∈ rest, k₁ ∈ s.tokens ∧ k₁.op ≠ k.op := by
  intro k₁ hk₁
  refine ⟨hk.mem_iff.mpr (mem_cons_of_mem _ hk₁), fun heq => ?_⟩
  have hnodup := h.ids.nodup_iff.mpr nodup_range
  have htokens := (nodup_append.mp hnodup).1
  rw [(hk.map Token.op).nodup_iff, map_cons, nodup_cons] at htokens
  exact htokens.1 (heq ▸ mem_map_of_mem hk₁)

/-- An operation moves to another place. -/
theorem replace
    (hk' : s'.tokens.Perm (k' :: rest)) (hid : k'.op = k.op) (hop : s.ops[k.op]? = some op)
    (hops : s'.ops = s.ops) (hacks : s'.acks = s.acks) (hmem : a'.mem = s'.mem)
    (hopsa : a'.ops = a.ops)
    (hacksa : a'.acks = a.acks) (hphase : ∀ i, i ≠ k.op → a'.phase i = a.phase i)
    (hok : k'.Ok m copyBased op (a'.phase k.op)) : Rel m copyBased s' a' := by
  refine ⟨hmem, hops ▸ hopsa.trans h.ops, hacks ▸ hacksa.trans h.acks, hacks ▸ h.modes,
    hops ▸ h.sound, ?_, fun k₁ hk₁ => ?_, fun i hi => ?_⟩
  · rw [hops, hacks]
    refine Perm.trans (Perm.append_right _ ?_) h.ids
    rw [(hk'.map Token.op).congr_left, (hk.map Token.op).congr_right]
    rw [map_cons, map_cons, hid]
  · rw [hops]
    rcases mem_cons.mp (hk'.mem_iff.mp hk₁) with rfl | hk₁
    · rw [hid]
      exact ⟨op, hop, hok⟩
    · obtain ⟨hmem₁, hne⟩ := h.rest_ne hk k₁ hk₁
      rw [hphase _ hne]
      exact h.ok k₁ hmem₁
  · rw [hops] at hi
    have hlt := (List.getElem?_eq_some_iff.mp hop).1
    rw [hphase i (by omega)]
    exact h.fresh i hi

/-- An operation is acknowledged. -/
theorem finish (hk' : s'.tokens.Perm rest)
    (hop : s.ops[k.op]? = some op) (hops : s'.ops = s.ops) (hacks : s'.acks = s.acks ++ [x])
    (hid : x.info.op = k.op) (hmode : x.info.ackMode = .srcDestAck) (hmem : a'.mem = s'.mem)
    (hopsa : a'.ops = a.ops) (hacksa : a'.acks = a.acks ++ [(k.op, x.pe)])
    (hphase : ∀ i, i ≠ k.op → a'.phase i = a.phase i) : Rel m copyBased s' a' := by
  refine ⟨hmem, hops ▸ hopsa.trans h.ops, ?_, fun y hy => ?_, hops ▸ h.sound, ?_, fun k₁ hk₁ => ?_,
    fun i hi => ?_⟩
  · rw [hacksa, hacks, h.acks, map_append, ← hid]
    rfl
  · rw [hacks] at hy
    rcases mem_append.mp hy with hy | hy
    · exact h.modes y hy
    · rw [mem_singleton.mp hy]
      exact hmode
  · rw [hops, hacks]
    refine Perm.trans ?_ h.ids
    refine ((hk'.map Token.op).append_right _).trans ?_
    refine Perm.trans ?_ ((hk.map Token.op).append_right _).symm
    rw [map_append, map_cons, hid, ← append_assoc]
    exact perm_append_singleton ..
  · rw [hops]
    obtain ⟨hmem₁, hne⟩ := h.rest_ne hk k₁ (hk'.mem_iff.mp hk₁)
    rw [hphase _ hne]
    exact h.ok k₁ hmem₁
  · rw [hops] at hi
    have hlt := (List.getElem?_eq_some_iff.mp hop).1
    rw [hphase i (by omega)]
    exact h.fresh i hi

end

/-- The old operations after one was issued. -/
theorem ok_append (op : Op) (hphase : ∀ i, i ≠ s.ops.length → a'.phase i = a.phase i)
    (hk : k ∈ s.tokens) : ∃ op₁, (s.ops ++ [op])[k.op]? = some op₁ ∧
    k.Ok m copyBased op₁ (a'.phase k.op) := by
  obtain ⟨op₁, hop₁, hok⟩ := h.ok k hk
  have hlt := (List.getElem?_eq_some_iff.mp hop₁).1
  rw [hphase _ (ne_of_lt hlt), getElem?_append_left hlt]
  exact ⟨op₁, hop₁, hok⟩

section

variable (hallowed : op.Allowed m copyBased) (hsound : op.Sound m copyBased)

include hallowed hsound

/-- The operations after one was issued. -/
theorem sound_append : ∀ op₁ ∈ s.ops ++ [op], op₁.Allowed m copyBased ∧ op₁.Sound m copyBased := by
  intro op₁ hop₁
  rcases mem_append.mp hop₁ with hop₁ | hop₁
  · exact h.sound op₁ hop₁
  · rw [mem_singleton.mp hop₁]
    exact ⟨hallowed, hsound⟩

/-- An operation is issued and acknowledged at once. -/
theorem startFinish (hk' : s'.tokens = s.tokens) (hops : s'.ops = s.ops ++ [op])
    (hacks : s'.acks = s.acks ++ [x]) (hid : x.info.op = s.ops.length)
    (hmode : x.info.ackMode = .srcDestAck) (hmem : a'.mem = s'.mem)
    (hopsa : a'.ops = a.ops ++ [op.transfer m copyBased])
    (hacksa : a'.acks = a.acks ++ [(s.ops.length, x.pe)])
    (hphase : ∀ i, i ≠ s.ops.length → a'.phase i = a.phase i) : Rel m copyBased s' a' := by
  refine ⟨hmem, ?_, ?_, fun y hy => ?_, hops ▸ h.sound_append hallowed hsound, ?_, fun k₁ hk₁ => ?_,
    fun i hi => ?_⟩
  · rw [hopsa, hops, h.ops, map_append]
    rfl
  · rw [hacksa, hacks, h.acks, map_append, ← hid]
    rfl
  · rw [hacks] at hy
    rcases mem_append.mp hy with hy | hy
    · exact h.modes y hy
    · rw [mem_singleton.mp hy]
      exact hmode
  · rw [hk', hops, hacks, length_append, length_singleton, range_succ, map_append,
      map_singleton, hid, ← append_assoc]
    exact h.ids.append_right _
  · rw [hops]
    exact h.ok_append op hphase (hk' ▸ hk₁)
  · rw [hops, length_append, length_singleton] at hi
    rw [hphase i (by omega)]
    exact h.fresh i (by omega)

/-- An operation is issued and has a place. -/
theorem start
    (hk' : s'.tokens.Perm (k' :: s.tokens)) (hid : k'.op = s.ops.length)
    (hops : s'.ops = s.ops ++ [op]) (hacks : s'.acks = s.acks) (hmem : a'.mem = s'.mem)
    (hopsa : a'.ops = a.ops ++ [op.transfer m copyBased]) (hacksa : a'.acks = a.acks)
    (hphase : ∀ i, i ≠ s.ops.length → a'.phase i = a.phase i)
    (hok : k'.Ok m copyBased op (a'.phase s.ops.length)) : Rel m copyBased s' a' := by
  refine ⟨hmem, ?_, hacks ▸ hacksa.trans h.acks, hacks ▸ h.modes,
    hops ▸ h.sound_append hallowed hsound, ?_, fun k₁ hk₁ => ?_, fun i hi => ?_⟩
  · rw [hopsa, hops, h.ops, map_append]
    rfl
  · rw [hops, hacks, length_append, length_singleton, range_succ]
    refine ((hk'.map Token.op).append_right _).trans ?_
    rw [map_cons, hid]
    exact (h.ids.cons _).trans (perm_append_singleton ..).symm
  · rw [hops]
    rcases mem_cons.mp (hk'.mem_iff.mp hk₁) with rfl | hk₁
    · rw [hid]
      exact ⟨op, getElem?_concat_length .., hok⟩
    · exact h.ok_append op hphase hk₁
  · rw [hops, length_append, length_singleton] at hi
    rw [hphase i (by omega)]
    exact h.fresh i (by omega)

end

end

end Rel

/-! ## Runs of one transfer -/

namespace Spec

variable {tr : Transfer}

/-- The bytes of a new transfer are taken at once. -/
theorem issue_take (a : State) (tr : Transfer) (hfresh : a.phase a.ops.length = .issued) :
    Steps Step a [.issue tr, .take a.ops.length]
      { a with
        ops := a.ops ++ [tr]
        phase := update a.phase a.ops.length
          (.taken ((a.mem tr.srcNode).read tr.srcPtr tr.len)) } :=
  .cons (.issue tr) (.single (.take (getElem?_concat_length ..) hfresh))

/-- The bytes of a transfer that were taken are put in place, and it is acknowledged. -/
theorem place_ack (htr : a.ops[i]? = some tr) (hphase : a.phase i = .taken bytes) :
    Steps Step a [.place i, .ack i]
      { a with
        mem := update a.mem tr.destNode ((a.mem tr.destNode).write tr.destPtr bytes)
        phase := update (update a.phase i .placed) i .acked
        acks := a.acks ++ [(i, tr.ackPe)] } :=
  .cons (.place htr hphase) (.single (.ack htr (update_self ..)))

end Spec

/-! ## Calls -/

theorem ok_bind {α : Type} (x : α) (f : α → Except Failure State) :
    (do let y ← Except.ok x; f y) = f x := rfl

section

variable (h : op.Allowed m copyBased) (hof : info.Of op)

include h hof

/-- The message of an operation without its bytes can be allocated. -/
theorem Op.Allowed.alloc_msg {f : Nat → Except Failure State} :
    (do let n ← m.backend.alloc (cmiMsgHeaderSizeBytes + info.ncpyOpInfoSize : Nat); f n) =
      f (cmiMsgHeaderSizeBytes + info.ncpyOpInfoSize) := by
  have hsize := h.infoSize
  have hmax := le_max_size m.backend
  have hhead : cmiMsgHeaderSizeBytes = 24 := rfl
  rw [alloc_of_le (by omega) (by rw [hof.infoSize]; omega), ok_bind]

/-- So can the record of an operation. -/
theorem Op.Allowed.alloc_info {f : Nat → Except Failure State} :
    (do let n ← m.backend.alloc info.ncpyOpInfoSize; f n) = f info.ncpyOpInfoSize := by
  have hsize := h.infoSize
  have hmax := le_max_size m.backend
  rw [alloc_of_le (by rw [hof.infoSize]; omega) (by rw [hof.infoSize]; omega), ok_bind]

end

/-- The size of the message with the bytes of the source, if its size is an `int`. -/
def NcpyOperationInfo.copySize (info : NcpyOperationInfo) : Nat :=
  cmiMsgHeaderSizeBytes + info.ncpyOpInfoSize + info.srcSize % 2 ^ 32

/-- `CmiIssueRputCopyBased` sends as many bytes as the size is as an `int`, if `CmiAlloc` can serve
the message. -/
theorem rput_copy_based_eq (s : State) (pe : Nat)
    (hinfo : (cmiMsgHeaderSizeBytes + info.ncpyOpInfoSize : Nat) ≤ maxSize m.backend) :
    s.cmiIssueRputCopyBased m pe info =
      if info.copySize ≤ maxSize m.backend then
        .ok (s.send info.destPe (.putData
          (if info.ackMode ≠ .destAck then { info with ackMode := .srcDestAck } else info)
          ((s.mem (m.cmiNodeOf pe)).read info.srcPtr (info.srcSize % 2 ^ 32))))
      else if m.backend = .lci ∧ 2 ^ 31 - 64 < info.copySize ∧ info.copySize < 2 ^ 31 then
        .error .abort
      else .error .fault := by
  have hmax := max_size_le m.backend
  have hsize := int_eq info.srcSize
  have htotal := int_eq ((cmiMsgHeaderSizeBytes + info.ncpyOpInfoSize : Nat) + int info.srcSize)
  have hcopy : info.copySize =
      cmiMsgHeaderSizeBytes + info.ncpyOpInfoSize + info.srcSize % 2 ^ 32 :=
    rfl
  rw [cmiIssueRputCopyBased, alloc_eq]
  generalize int ((cmiMsgHeaderSizeBytes + info.ncpyOpInfoSize : Nat) + int info.srcSize) = total
    at htotal
  generalize int info.srcSize = size at hsize htotal
  by_cases hneg : size < 0
  · -- The size of the message is too small for its bytes.
    have hlci : ¬ (m.backend = .lci ∧ 2 ^ 31 - 64 < total) := by
      intro h
      rw [h.1] at hinfo
      change _ ≤ (2 ^ 31 - 384 : Int) at hinfo
      omega
    have hlarge : ¬ info.copySize ≤ maxSize m.backend := by omega
    have hwraps : ¬ (m.backend = .lci ∧ 2 ^ 31 - 64 < info.copySize ∧ info.copySize < 2 ^ 31) := by
      omega
    rw [if_neg hlarge, if_neg hwraps, if_neg hlci]
    by_cases hserved : 1 ≤ total ∧ total ≤ maxSize m.backend
    · rw [if_pos hserved]
      simp only [if_pos hneg]
      rfl
    · rw [if_neg hserved]
      rfl
  · simp only [if_neg hneg]
    have hserved : (1 ≤ total ∧ total ≤ maxSize m.backend) ↔ info.copySize ≤ maxSize m.backend := by
      have hhead : cmiMsgHeaderSizeBytes = 24 := rfl
      omega
    by_cases hfits : info.copySize ≤ maxSize m.backend
    · rw [if_pos hfits, if_pos (hserved.mpr hfits),
        show size.toNat = info.srcSize % 2 ^ 32 by omega]
      rfl
    · have haborts : (m.backend = .lci ∧ 2 ^ 31 - 64 < total) ↔
          m.backend = .lci ∧ 2 ^ 31 - 64 < info.copySize ∧ info.copySize < 2 ^ 31 :=
        and_congr_right fun _ => by omega
      rw [if_neg hfits, if_neg (mt hserved.mp hfits)]
      simp only [haborts]
      by_cases habort : m.backend = .lci ∧ 2 ^ 31 - 64 < info.copySize ∧ info.copySize < 2 ^ 31
      · simp only [if_pos habort]
        rfl
      · simp only [if_neg habort]
        rfl

/-- The bytes of an operation whose message is not too large. -/
theorem Op.Allowed.rput_copy_based (hallowed : op.Allowed m copyBased) (hof : info.Of op)
    (hsize : (cmiMsgHeaderSizeBytes + op.info.ncpyOpInfoSize + op.info.srcSize : Nat) ≤
      maxSize m.backend) :
    s.cmiIssueRputCopyBased m pe info = .ok (s.send op.info.destPe (.putData
      (if info.ackMode ≠ .destAck then { info with ackMode := .srcDestAck } else info)
      ((s.mem (m.cmiNodeOf pe)).read op.info.srcPtr op.info.srcSize))) := by
  have hsrc := hallowed.srcSize
  have hmod : info.srcSize % 2 ^ 32 = op.info.srcSize := by
    rw [hof.srcSize, Nat.mod_eq_of_lt (by omega)]
  have hcopy : (info.copySize : Int) ≤ maxSize m.backend := by
    rw [NcpyOperationInfo.copySize, hmod, hof.infoSize]
    exact hsize
  rw [rput_copy_based_eq s pe (by rw [hof.infoSize]; omega), if_pos hcopy, hmod, hof.destPe,
    hof.srcPtr]

/-- `CmiIssueRput` on the PE of the source, if the bytes travel in a message. -/
theorem rput_remote_eq (hallowed : op.Allowed m true) (hsound : op.Sound m true) (hof : info.Of op)
    (hremote : op.Remote m) :
    s.cmiIssueRput m true op.info.srcPe info = .ok (s.send op.info.destPe (.putData
      (if info.ackMode ≠ .destAck then { info with ackMode := .srcDestAck } else info)
      ((s.mem (m.cmiNodeOf op.info.srcPe)).read op.info.srcPtr op.info.srcSize))) := by
  have hnode : ¬ m.cmiNodeOf info.destPe = m.cmiNodeOf op.info.srcPe := by
    rw [hof.destPe]
    exact hremote.symm
  rw [cmiIssueRput, if_neg hnode]
  exact hallowed.rput_copy_based hof (hsound.size rfl hremote)

/-- A mode that can be reversed; nothing else changes. -/
theorem set_reverse_mode (info : NcpyOperationInfo)
    (hmode : info.opMode = .directApi ∨ info.opMode = .emApi ∨ info.opMode = .bcastEmApi) :
    ∃ mode, setReverseModeForNcpyOpInfo info = .ok { info with opMode := mode } := by
  unfold setReverseModeForNcpyOpInfo
  rcases hmode with hmode | hmode | hmode
  · refine ⟨info.opMode, ?_⟩
    rw [hmode]
    exact congrArg Except.ok (congrArg (fun mode => { info with opMode := mode }) hmode)
  · refine ⟨.emApiReverse, ?_⟩
    rw [hmode]
  · refine ⟨.bcastEmApiReverse, ?_⟩
    rw [hmode]

/-- The bytes that travel in a message, of which as many are copied as both sides allow. -/
theorem payload_take (mem : Memory) (op : Op) (hof : info.Of op) :
    (mem.read op.info.srcPtr op.info.srcSize).take info.len =
      mem.read op.info.srcPtr (op.transfer m copyBased).len := by
  rw [take_read, hof.len_eq m copyBased]
  refine congrArg _ (min_eq_left ?_)
  exact min_le_left ..

/-- A message that is sent stands for its operation. -/
theorem tokens_send (s : State) (pe : Nat) (msg : RdmaMsg) :
    (s.send pe msg).tokens.Perm (.msg pe msg :: s.tokens) := by
  rw [tokens, send, map_append, append_assoc]
  exact perm_middle

/-- So does an operation of the backend. -/
theorem tokens_backend (s : State) (r : BackendOp) :
    (State.tokens { s with backend := s.backend ++ [r] }).Perm (.backend r :: s.tokens) := by
  rw [tokens, map_append, ← append_assoc]
  exact perm_append_singleton ..

/-! ## Issuing -/

/-- What follows from an event: the state after it, and a run of the transfers to a related
state. -/
def Simulates (m : Net) (copyBased : Bool) (a : Spec.State) (o : Option State) : Prop :=
  ∃ s' fs a', o = some s' ∧ Steps Spec.Step a fs a' ∧ Rel m copyBased s' a'

section

variable (h : Rel m copyBased s a) (hallowed : op.Allowed m copyBased)
  (hsound : op.Sound m copyBased) {s₁ : State} {k : Token}

include h in
theorem Rel.length_eq : a.ops.length = s.ops.length := by
  rw [h.ops, length_map]

include h hallowed hsound

/-- A new operation gets its first place. -/
theorem Rel.issue (htokens : s₁.tokens.Perm (k :: s.tokens))
    (hid : k.op = s.ops.length) (hops : s₁.ops = s.ops) (hacks : s₁.acks = s.acks)
    (hmem : s₁.mem = s.mem) (hok : k.Ok m copyBased op .issued) :
    Simulates m copyBased a (some { s₁ with ops := s₁.ops ++ [op] }) := by
  refine ⟨_, _, _, rfl, .single (.issue (op.transfer m copyBased)), ?_⟩
  refine h.start hallowed hsound htokens hid (congrArg (· ++ [op]) hops) hacks
    (h.mem.trans hmem.symm) rfl rfl (fun _ _ => rfl) ?_
  rw [h.fresh _ (le_refl _)]
  exact hok

/-- The bytes of a new operation travel in a message. -/
theorem Rel.issueTaken (htokens : s₁.tokens.Perm (k :: s.tokens))
    (hid : k.op = s.ops.length) (hops : s₁.ops = s.ops) (hacks : s₁.acks = s.acks)
    (hmem : s₁.mem = s.mem)
    (hok : k.Ok m copyBased op (.taken ((s.mem (m.cmiNodeOf op.info.srcPe)).read op.info.srcPtr
      (op.transfer m copyBased).len))) :
    Simulates m copyBased a (some { s₁ with ops := s₁.ops ++ [op] }) := by
  have hfresh : a.phase a.ops.length = .issued := h.fresh _ (le_of_eq h.length_eq.symm)
  refine ⟨_, _, _, rfl, Spec.issue_take a (op.transfer m copyBased) hfresh, ?_⟩
  rw [h.length_eq]
  refine h.start hallowed hsound htokens hid (congrArg (· ++ [op]) hops) hacks
    (h.mem.trans hmem.symm) rfl rfl (fun i hi => update_of_ne hi ..) ?_
  show k.Ok m copyBased op (update a.phase s.ops.length _ s.ops.length)
  rw [update_self, h.mem]
  exact hok

/-- Both buffers are in one process. -/
theorem Rel.issueLocal (hlocal : ¬ op.Remote m) {node : Nat}
    (hnode : node = m.cmiNodeOf op.info.srcPe) (hid : x.info.op = s.ops.length)
    (hpe : x.pe = op.initiatorPe) (hmode : x.info.ackMode = .srcDestAck) :
    Simulates m copyBased a (some { s with
      mem := update s.mem node ((s.mem node).write op.info.destPtr
        ((s.mem node).read op.info.srcPtr (op.transfer m copyBased).len))
      acks := s.acks ++ [x]
      ops := s.ops ++ [op] }) := by
  have hsame : m.cmiNodeOf op.info.destPe = node := by
    rw [hnode]
    exact (not_not.mp hlocal).symm
  have hack : (op.transfer m copyBased).ackPe = x.pe := by
    rw [hpe]
    exact if_neg fun hrev => hlocal hrev.1
  have hfresh : a.phase a.ops.length = .issued := h.fresh _ (le_of_eq h.length_eq.symm)
  have hrun := (Spec.issue_take a (op.transfer m copyBased) hfresh).append
    (Spec.place_ack (getElem?_concat_length ..) (update_self ..))
  refine ⟨_, _, _, rfl, hrun, ?_⟩
  rw [h.length_eq]
  refine h.startFinish hallowed hsound rfl rfl rfl hid hmode ?_ rfl ?_ fun i hi => ?_
  · show update a.mem (m.cmiNodeOf op.info.destPe)
      ((a.mem (m.cmiNodeOf op.info.destPe)).write op.info.destPtr
      ((a.mem (m.cmiNodeOf op.info.srcPe)).read op.info.srcPtr (op.transfer m copyBased).len)) = _
    rw [h.mem, hsame, ← hnode]
  · rw [hack]
  · show update (update (update a.phase s.ops.length _) s.ops.length _) s.ops.length _ i = _
    rw [update_of_ne hi, update_of_ne hi, update_of_ne hi]

/-- `CmiIssueRget` is the issue of a transfer. -/
theorem Rel.issueGet (hget : op.isGet = true) (hinfo : { op.info with op := s.ops.length } = info) :
    Simulates m copyBased a ((s.cmiIssueRget m copyBased op.info.destPe info).toOption.map fun s =>
      { s with ops := s.ops ++ [op] }) := by
  have hinit : op.initiatorPe = op.info.destPe := if_pos hget
  have hreg : op.remoteRegistered = info.isSrcRegistered := by
    rw [← hinfo]
    exact if_pos hget
  have hof : info.Of op := hinfo ▸ ⟨rfl, rfl, rfl, rfl, rfl, rfl, rfl⟩
  have hid : info.op = s.ops.length := hinfo ▸ rfl
  have hmode : info.ackMode = .srcDestAck := hinfo ▸ hallowed.ackMode
  unfold cmiIssueRget
  rw [hof.srcPe]
  by_cases hremote : op.Remote m
  · rw [if_neg hremote]
    cases copyBased with
    | false =>
      by_cases hsrc : info.isSrcRegistered = false
      · have hrev : op.Reversed m false := ⟨hremote, rfl, hreg.trans hsrc⟩
        have hregion : info.destRegion = op.info.destPtr :=
          hinfo ▸ hallowed.region (hallowed.initiator hget rfl hremote)
        have hopMode : info.opMode = op.info.opMode := hinfo ▸ rfl
        obtain ⟨mode, hreverse⟩ := set_reverse_mode info (hopMode ▸ hsound.mode hget hrev)
        have hof' : ({ info with opMode := mode } : NcpyOperationInfo).Of op :=
          ⟨hof.srcPtr, hof.srcPe,
          hof.srcSize, hof.destPtr, hof.destPe, hof.destSize, hof.infoSize⟩
        rw [if_pos hsrc, hreverse, ok_bind, sendRegRequest, hallowed.alloc_msg hof']
        exact h.issue hallowed hsound (tokens_send ..) hid rfl rfl rfl
          ⟨hof', hget, hrev, hof.srcPe, hmode, hregion, rfl⟩
      · have hnot : ¬ op.Reversed m false := fun hrev => hsrc (hreg.symm.trans hrev.2.2)
        rw [if_neg hsrc]
        refine h.issue hallowed hsound (tokens_backend ..) hid rfl rfl rfl
          ⟨?_, hmode, ⟨⟨rfl, hremote⟩, ?_⟩, rfl⟩
        · rw [Op.transfer, Op.ackPe, if_neg hnot, hinit, hof.srcPe, hof.srcPtr, hof.destPtr,
            hof.len_eq m false]
          rfl
        · rw [Op.reachedPe, if_neg hnot, hof.srcPe]
          exact congrArg m.deviceOf (if_pos hget).symm
    | true =>
      rw [cmiIssueRgetCopyBased, hallowed.alloc_msg hof, hof.srcPe]
      exact h.issue hallowed hsound (tokens_send ..) hid rfl rfl rfl
        ⟨hof, hget, ⟨rfl, hremote⟩, rfl, rfl⟩
  · rw [if_pos (not_not.mp hremote), hof.srcPtr, hof.destPtr, hof.len_eq m copyBased]
    exact h.issueLocal hallowed hsound hremote (not_not.mp hremote).symm hid hinit.symm hmode

/-- `CmiIssueRput` is the issue of a transfer. -/
theorem Rel.issuePut (hput : op.isGet = false)
    (hinfo : { op.info with op := s.ops.length } = info) :
    Simulates m copyBased a ((s.cmiIssueRput m copyBased op.info.srcPe info).toOption.map fun s =>
      { s with ops := s.ops ++ [op] }) := by
  have hinit : op.initiatorPe = op.info.srcPe := if_neg (by rw [hput]; decide)
  have hreg : op.remoteRegistered = info.isDestRegistered := by
    rw [← hinfo]
    exact if_neg (by rw [hput]; decide)
  have hof : info.Of op := hinfo ▸ ⟨rfl, rfl, rfl, rfl, rfl, rfl, rfl⟩
  have hid : info.op = s.ops.length := hinfo ▸ rfl
  have hmode : info.ackMode = .srcDestAck := hinfo ▸ hallowed.ackMode
  unfold cmiIssueRput
  rw [hof.destPe]
  by_cases hremote : op.Remote m
  · rw [if_neg hremote.symm]
    cases copyBased with
    | false =>
      by_cases hdest : info.isDestRegistered = false
      · have hrev : op.Reversed m false := ⟨hremote, rfl, hreg.trans hdest⟩
        rw [if_pos hdest, sendRegRequest, hallowed.alloc_msg hof]
        exact h.issue hallowed hsound (tokens_send ..) hid rfl rfl rfl
          ⟨hof, hput, hrev, rfl, hmode, rfl⟩
      · have hnot : ¬ op.Reversed m false := fun hrev => hdest (hreg.symm.trans hrev.2.2)
        have hregion : info.destRegion = op.info.destPtr := by
          have hregistered : op.info.isDestRegistered = true := by
            rw [← hinfo] at hdest
            exact Bool.eq_true_of_not_eq_false hdest
          exact hinfo ▸ hallowed.region hregistered
        rw [if_neg hdest]
        refine h.issue hallowed hsound (tokens_backend ..) hid rfl rfl rfl
          ⟨?_, hmode, ⟨⟨rfl, hremote⟩, ?_⟩, rfl⟩
        · rw [Op.transfer, Op.ackPe, if_neg hnot, hinit, hof.destPe, hof.srcPtr, hregion,
            hof.len_eq m false]
          rfl
        · rw [Op.reachedPe, if_neg hnot, hof.destPe]
          exact congrArg m.deviceOf (if_neg (by rw [hput]; decide)).symm
    | true =>
      rw [if_neg (by decide), hallowed.rput_copy_based hof (hsound.size rfl hremote), hmode]
      refine h.issueTaken hallowed hsound (tokens_send ..) hid rfl rfl rfl
        ⟨?_, ⟨rfl, hremote⟩, rfl, ?_, ?_⟩
      · exact ⟨hof.srcPtr, hof.srcPe, hof.srcSize, hof.destPtr, hof.destPe, hof.destSize,
          hof.infoSize⟩
      · rw [hput]
        rfl
      · exact congrArg _ (payload_take _ op hof).symm
  · rw [if_pos (not_not.mp hremote).symm, hof.srcPtr, hof.destPtr, hof.len_eq m copyBased]
    exact h.issueLocal hallowed hsound hremote rfl hid hinit.symm hmode

end

/-! ## Messages -/

/-- The PE that an operation without reversal tells. -/
theorem Op.ack_pe_of_copy_based (op : Op) : (op.transfer m true).ackPe = op.initiatorPe :=
  if_neg fun hrev => Bool.noConfusion hrev.2.1

theorem tokens_deliver {msg : RdmaMsg} (hmsg : s.network[j]? = some (pe, msg)) :
    s.tokens.Perm (.msg pe msg :: State.tokens { s with network := s.network.eraseIdx j }) := by
  exact ((perm_cons_eraseIdx hmsg).map _).append_right _

section

variable (h : Rel m copyBased s a) {r : BackendOp}

include h

/-- `getRequestHandler` sends the bytes. -/
theorem Rel.getRequest (hmsg : s.network[j]? = some (pe, .getRequest info)) :
    Simulates m copyBased a
      (State.getRequestHandler m copyBased
      { s with network := s.network.eraseIdx j } pe info).toOption := by
  have hk := tokens_deliver hmsg
  obtain ⟨op, hop, hof, hget, ⟨rfl, hremote⟩, rfl, hphase⟩ := h.ok _ (hk.mem_iff.mpr mem_cons_self)
  obtain ⟨hallowed, hsound⟩ := h.sound op (mem_of_getElem? hop)
  have hof' : NcpyOperationInfo.Of
      { info with freeMe := .dontFreeNcpyOpInfo, ackMode := .destAck } op :=
    ⟨hof.srcPtr, hof.srcPe, hof.srcSize, hof.destPtr, hof.destPe, hof.destSize, hof.infoSize⟩
  rw [getRequestHandler, rput_remote_eq hallowed hsound hof' hremote]
  refine ⟨_, _, _, rfl, .single (.take (h.lookup hop) hphase), ?_⟩
  refine h.replace hk (tokens_send ..) rfl hop rfl rfl h.mem rfl rfl
    (fun i hi => update_of_ne hi ..) ?_
  show Token.Ok m true op (update a.phase info.op _ info.op) _
  rw [update_self, h.mem]
  refine ⟨hof', ⟨rfl, hremote⟩, rfl, ?_, ?_⟩
  · rw [hget]
    rfl
  · exact congrArg _ (payload_take _ op hof').symm

/-- `putDataHandler` puts the bytes in place, and acknowledges a get. -/
theorem Rel.putData {payload : List UInt8}
    (hmsg : s.network[j]? = some (pe, .putData info payload)) : Simulates m copyBased a
      (State.putDataHandler m
      { s with network := s.network.eraseIdx j } pe info payload).toOption := by
  have hk := tokens_deliver hmsg
  obtain ⟨op, hop, hof, ⟨rfl, hremote⟩, rfl, hmode, hphase⟩ := h.ok _ (hk.mem_iff.mpr mem_cons_self)
  obtain ⟨hallowed, hsound⟩ := h.sound op (mem_of_getElem? hop)
  unfold putDataHandler
  cases hget : op.isGet with
  | true =>
    rw [hget] at hmode
    simp only [hmode, if_true]
    have hack : (op.transfer m true).ackPe = op.info.destPe :=
      op.ack_pe_of_copy_based.trans (if_pos hget)
    refine ⟨_, _, _, rfl, Spec.place_ack (h.lookup hop) hphase, ?_⟩
    refine h.finish hk (.refl _) hop rfl rfl rfl rfl ?_ rfl ?_ fun i hi => ?_
    · show update a.mem (m.cmiNodeOf op.info.destPe) ((a.mem (m.cmiNodeOf op.info.destPe)).write
        op.info.destPtr _) = _
      rw [h.mem, ← hof.destPtr]
      rfl
    · show a.acks ++ [(info.op, (op.transfer m true).ackPe)] = _
      rw [hack]
      rfl
    · change i ≠ info.op at hi
      show update (update a.phase info.op _) info.op _ i = _
      rw [update_of_ne hi, update_of_ne hi]
  | false =>
    rw [hget] at hmode
    have hnot : ¬ info.ackMode = .destAck := by
      rw [hmode]
      decide
    simp only [hnot, if_false, hallowed.alloc_msg hof, hof.srcPe]
    refine ⟨_, _, _, rfl, .single (.place (h.lookup hop) hphase), ?_⟩
    refine h.replace hk (tokens_send ..) rfl hop rfl rfl ?_ rfl rfl
      (fun i hi => update_of_ne hi ..) ?_
    · show update a.mem (m.cmiNodeOf op.info.destPe) ((a.mem (m.cmiNodeOf op.info.destPe)).write
        op.info.destPtr _) = _
      rw [h.mem, ← hof.destPtr]
      rfl
    · exact ⟨hget, ⟨rfl, hremote⟩, rfl, update_self ..⟩

/-- The end of a put is the acknowledgement. -/
theorem Rel.putDone (hmsg : s.network[j]? = some (pe, .putDone info)) :
    Simulates m copyBased a
      (some (State.putDoneHandler { s with network := s.network.eraseIdx j } pe info)) := by
  have hk := tokens_deliver hmsg
  obtain ⟨op, hop, hput, ⟨rfl, hremote⟩, rfl, hphase⟩ := h.ok _ (hk.mem_iff.mpr mem_cons_self)
  have hack : (op.transfer m true).ackPe = op.info.srcPe :=
    op.ack_pe_of_copy_based.trans (if_neg (by rw [hput]; decide))
  refine ⟨_, _, _, rfl, .single (.ack (h.lookup hop) hphase), ?_⟩
  refine h.finish hk (.refl _) hop rfl rfl rfl rfl h.mem rfl ?_ fun i hi => update_of_ne hi ..
  show a.acks ++ [(info.op, (op.transfer m true).ackPe)] = _
  rw [hack]
  rfl

/-- `regAndPutHandler` puts to the destination of a get. -/
theorem Rel.regAndPut (hmsg : s.network[j]? = some (pe, .regAndPut info)) :
    Simulates m copyBased a
      (State.regAndPutHandler m { s with network := s.network.eraseIdx j } pe info).toOption := by
  have hk := tokens_deliver hmsg
  obtain ⟨op, hop, hof, hget, hrev, rfl, hmode, hregion, hphase⟩ :=
    h.ok _ (hk.mem_iff.mpr mem_cons_self)
  obtain ⟨hallowed, -⟩ := h.sound op (mem_of_getElem? hop)
  have hremote : op.remotePe = op.info.srcPe := if_pos hget
  rw [regAndPutHandler, hallowed.alloc_info hof]
  refine ⟨_, _, _, rfl, .nil a, ?_⟩
  refine h.replace hk (tokens_backend ..) rfl hop rfl rfl h.mem rfl rfl (fun _ _ => rfl)
    ⟨?_, hmode, ⟨⟨hrev.2.1, hrev.1⟩, ?_⟩, hphase⟩
  · show (⟨m.cmiNodeOf op.info.srcPe, info.srcPtr, m.cmiNodeOf info.destPe, info.destRegion,
      info.len, op.info.srcPe⟩ : Transfer) = _
    rw [hof.srcPtr, hof.destPe, hregion, hof.len_eq m copyBased, Op.transfer, Op.ackPe,
      if_pos hrev, hremote]
  · rw [Op.reachedPe, if_pos hrev]
    exact congrArg m.deviceOf (hof.destPe.trans (if_pos hget).symm)

/-- `regAndGetHandler` gets from the source of a put. -/
theorem Rel.regAndGet (hmsg : s.network[j]? = some (pe, .regAndGet info)) :
    Simulates m copyBased a
      (State.regAndGetHandler m { s with network := s.network.eraseIdx j } pe info).toOption := by
  have hk := tokens_deliver hmsg
  obtain ⟨op, hop, hof, hput, hrev, rfl, hmode, hphase⟩ := h.ok _ (hk.mem_iff.mpr mem_cons_self)
  obtain ⟨hallowed, -⟩ := h.sound op (mem_of_getElem? hop)
  have hremote : op.remotePe = op.info.destPe := if_neg (by rw [hput]; decide)
  rw [regAndGetHandler, hallowed.alloc_info hof]
  refine ⟨_, _, _, rfl, .nil a, ?_⟩
  refine h.replace hk (tokens_backend ..) rfl hop rfl rfl h.mem rfl rfl (fun _ _ => rfl)
    ⟨?_, hmode, ⟨⟨hrev.2.1, hrev.1⟩, ?_⟩, hphase⟩
  · show (⟨m.cmiNodeOf info.srcPe, info.srcPtr, m.cmiNodeOf op.info.destPe, info.destPtr,
      info.len, op.info.destPe⟩ : Transfer) = _
    rw [hof.srcPtr, hof.srcPe, hof.destPtr, hof.len_eq m copyBased, Op.transfer, Op.ackPe,
      if_pos hrev, hremote]
  · rw [Op.reachedPe, if_pos hrev]
    exact congrArg m.deviceOf (hof.srcPe.trans (if_neg (by rw [hput]; decide)).symm)

/-- Every message has a handler that gets its operation on. -/
theorem Rel.deliver (hj : j < s.network.length) :
    Simulates m copyBased a (s.exec m copyBased (.deliver j)) := by
  obtain ⟨⟨pe, msg⟩, hmsg⟩ : ∃ x, s.network[j]? = some x := ⟨_, getElem?_eq_getElem hj⟩
  rw [exec, hmsg]
  show Simulates m copyBased a
    (State.handle m copyBased { s with network := s.network.eraseIdx j } pe msg).toOption
  cases msg with
  | getRequest info => exact h.getRequest hmsg
  | putData info payload => exact h.putData hmsg
  | putDone info => exact h.putDone hmsg
  | regAndPut info =>
    rw [handle]
    exact h.regAndPut hmsg
  | regAndGet info =>
    rw [handle]
    exact h.regAndGet hmsg

/-! ## The backend -/

omit h in
theorem tokens_erase (hr : s.backend[j]? = some r) :
    s.tokens.Perm (.backend r :: State.tokens { s with backend := s.backend.eraseIdx j }) := by
  rw [tokens, tokens]
  exact (((perm_cons_eraseIdx hr).map _).append_left _).trans perm_middle

omit h in
theorem tokens_set (hr : s.backend[j]? = some r) (r' : BackendOp) :
    (State.tokens { s with backend := s.backend.set j r' }).Perm
      (.backend r' :: State.tokens { s with backend := s.backend.eraseIdx j }) := by
  have hlt := (List.getElem?_eq_some_iff.mp hr).1
  rw [tokens, tokens]
  exact (((set_perm_cons_eraseIdx hlt r').map _).append_left _).trans perm_middle

/-- The backend reads the bytes of the source. -/
theorem Rel.backendRead (hr : s.backend[j]? = some r) (hstage : r.stage = .issued) :
    Simulates m copyBased a (s.backendRead j) := by
  have hk := tokens_erase hr
  obtain ⟨op, hop, htr, hmode, hdevice, hphase⟩ := h.ok _ (hk.mem_iff.mpr mem_cons_self)
  rw [hstage] at hphase
  rw [State.backendRead, hr, bind_eq_bind, bind_some, hstage]
  refine ⟨_, _, _, rfl, .single (.take (h.lookup hop) hphase), ?_⟩
  refine h.replace hk (tokens_set hr _) rfl hop rfl rfl h.mem rfl rfl
    (fun i hi => update_of_ne hi ..) ⟨htr, hmode, hdevice, ?_⟩
  show update a.phase r.info.op _ r.info.op = _
  rw [update_self, ← htr, h.mem]
  rfl

/-- The backend puts the bytes of an operation in place. -/
theorem Rel.backendPlace (hr : s.backend[j]? = some r)
    (hstage : r.stage = .read bytes) : Simulates m copyBased a (s.backendPlace j) := by
  have hk := tokens_erase hr
  obtain ⟨op, hop, htr, hmode, hdevice, hphase⟩ := h.ok _ (hk.mem_iff.mpr mem_cons_self)
  rw [hstage] at hphase
  rw [State.backendPlace, hr, bind_eq_bind, bind_some, hstage]
  refine ⟨_, _, _, rfl, .single (.place (h.lookup hop) hphase), ?_⟩
  refine h.replace hk (tokens_set hr _) rfl hop rfl rfl ?_ rfl rfl
    (fun i hi => update_of_ne hi ..) ⟨htr, hmode, hdevice, update_self ..⟩
  rw [← htr, h.mem]
  rfl

/-- Only the PE that has posted an operation polls its device. -/
theorem Rel.polls (hr : s.backend[j]? = some r) (hnode : m.cmiNodeOf pe = m.cmiNodeOf r.pe)
    (hpolls : s.Polls m copyBased pe r.device) : pe = r.pe := by
  obtain ⟨op, hop, htr, -, ⟨hrma, hdevice⟩, -⟩ :=
    h.ok _ ((tokens_erase hr).mem_iff.mpr mem_cons_self)
  have hack : r.pe = op.ackPe m copyBased := congrArg Transfer.ackPe htr
  have howns : m.deviceOf pe = r.device := by
    rcases hpolls with hpolls | ⟨op', hop', hrma', rfl, hdevice'⟩
    · exact hpolls
    · exact (((h.sound op' hop').2.device hrma' _ (mem_node_pes.mpr rfl)).mpr rfl).trans hdevice'
  rw [hack] at hnode ⊢
  exact ((h.sound op (mem_of_getElem? hop)).2.device hrma pe (mem_node_pes.mpr hnode)).mp
    (howns.trans hdevice)

/-- The completion handler acknowledges an operation. -/
theorem Rel.backendComplete (hr : s.backend[j]? = some r) (hstage : r.stage = .placed) :
    Simulates m copyBased a (s.backendComplete j r.pe) := by
  have hk := tokens_erase hr
  obtain ⟨op, hop, htr, hmode, hdevice, hphase⟩ := h.ok _ (hk.mem_iff.mpr mem_cons_self)
  rw [hstage] at hphase
  have hack : (op.transfer m copyBased).ackPe = r.pe := congrArg Transfer.ackPe htr.symm
  have hcomplete : s.backendComplete j r.pe = some (ncpyDirectAckHandlerFn
      { s with backend := s.backend.eraseIdx j } r.pe
      { r.info with freeMe := .dontFreeNcpyOpInfo }) := by
    rw [State.backendComplete, hr, bind_eq_bind, bind_some, hstage]
    exact congrArg some (ite_self _)
  rw [hcomplete]
  refine ⟨_, _, _, rfl, .single (.ack (h.lookup hop) hphase), ?_⟩
  refine h.finish hk (.refl _) hop rfl rfl rfl hmode h.mem rfl ?_ fun i hi => update_of_ne hi ..
  rw [hack]

/-! ## Runs -/

/-- Every event that may happen gets on to a related state. -/
theorem Rel.exec {e : Event} (hallowed : s.Allowed m copyBased e) (hsound : e.Sound m copyBased) :
    Simulates m copyBased a (s.exec m copyBased e) := by
  cases e with
  | write node x b =>
    refine ⟨_, _, _, rfl, .single (.write node x b), ?_⟩
    refine ⟨?_, h.ops, h.acks, h.modes, h.sound, h.ids, h.ok, h.fresh⟩
    rw [h.mem]
  | issue op =>
    cases hget : op.isGet with
    | true =>
      have hissue := h.issueGet hallowed hsound hget rfl
      rw [map_eq_bind] at hissue
      simp only [State.exec, hget, if_true]
      exact hissue
    | false =>
      have hissue := h.issuePut hallowed hsound hget rfl
      rw [map_eq_bind] at hissue
      simp only [State.exec, hget, Bool.false_eq_true, if_false]
      exact hissue
  | deliver j => exact h.deliver hallowed
  | backendRead j =>
    obtain ⟨r, hr, hstage⟩ := hallowed
    exact h.backendRead hr hstage
  | backendPlace j =>
    obtain ⟨r, bytes, hr, hstage⟩ := hallowed
    exact h.backendPlace hr hstage
  | backendComplete j pe =>
    obtain ⟨r, hr, hstage, hnode, hpolls⟩ := hallowed
    rw [h.polls hr hnode hpolls]
    exact h.backendComplete hr hstage

end

theorem Rel.initial (mem : Nat → Memory) : Rel m copyBased (State.initial mem) (Spec.initial mem) :=
  ⟨rfl, rfl, rfl, fun _ hx => absurd hx not_mem_nil, fun _ hop => absurd hop not_mem_nil,
    .refl _, fun _ hk => absurd hk not_mem_nil, fun _ _ => rfl⟩

/-- The information of an operation between the PEs `srcPe` and `destPe`. -/
def exampleInfo (srcPe destPe size : Nat) (registered : Bool) (opMode : OpMode) :
    NcpyOperationInfo where
  op := 0
  srcPtr := 100
  srcPe := srcPe
  srcSize := size
  isSrcRegistered := registered
  destPtr := 200
  destPe := destPe
  destSize := size
  isDestRegistered := true
  destRegion := 200
  opMode := opMode
  ackMode := .srcDestAck
  freeMe := .freeNcpyOpInfo
  ncpyOpInfoSize := 216

/-- Two processes of `nodeSize` PEs. -/
def twoNodes (nodeSize : Nat) (h : 0 < nodeSize) : Net where
  numNodes := 2
  nodeSize := nodeSize
  numNodes_pos := Nat.two_pos
  nodeSize_pos := h

/-- A PE that serves a get or a put aborts, or it sends only bytes of the source, at least as many
as the handler reads, and the handler copies what both sides allow. -/
def CopiesAll (m : Net) (s : State) (pe : Nat) (isGet : Bool) (info : NcpyOperationInfo) : Prop :=
  let served := if isGet then s.getRequestHandler m true pe info else s.cmiIssueRput m true pe info
  served = .error .abort ∨
    ∃ embedded payload, served = .ok (s.send info.destPe (.putData embedded payload)) ∧
      (∃ n ≤ info.srcSize, payload = (s.mem (m.cmiNodeOf pe)).read info.srcPtr n) ∧
      embedded.len ≤ payload.length ∧
      ∀ t : State, ∃ t', t.putDataHandler m info.destPe embedded payload = .ok t' ∧
        t'.mem = (t.memcpy (m.cmiNodeOf info.destPe) info.destPtr
          ((s.mem (m.cmiNodeOf pe)).read info.srcPtr info.len)).mem

/-- `CmiAlloc` can serve the message with the bytes, and the transfer is not longer, or the pool of
LCI has nothing for the message. -/
def CopyFits (m : Net) (info : NcpyOperationInfo) : Prop :=
  info.copySize ≤ maxSize m.backend ∧ info.len ≤ info.srcSize % 2 ^ 32 ∨
    m.backend = .lci ∧ 2 ^ 31 - 64 < info.copySize ∧ info.copySize < 2 ^ 31

instance (m : Net) (info : NcpyOperationInfo) : Decidable (CopyFits m info) :=
  inferInstanceAs (Decidable (_ ∨ _))

section

variable (isGet : Bool)
  (hinfo : (cmiMsgHeaderSizeBytes + info.ncpyOpInfoSize : Nat) ≤ maxSize m.backend)

include hinfo

/-- The handler copies as many of the bytes as both sides allow. -/
theorem put_data_mem (pe : Nat) (t : State) (payload : List UInt8) :
    ∃ t', t.putDataHandler m pe info payload = .ok t' ∧
      t'.mem = (t.memcpy (m.cmiNodeOf pe) info.destPtr (payload.take info.len)).mem := by
  have hhead : 0 < cmiMsgHeaderSizeBytes := by decide
  simp only [putDataHandler, alloc_of_le (by omega) hinfo]
  split <;> exact ⟨_, rfl, rfl⟩

/-- Gets and puts are served by one put, with the record `e` in its message. -/
theorem exists_served (s : State) (hremote : m.cmiNodeOf info.destPe ≠ m.cmiNodeOf pe) :
    ∃ e : NcpyOperationInfo, (e.destPtr = info.destPtr ∧ e.len = info.len ∧
      e.ncpyOpInfoSize = info.ncpyOpInfoSize) ∧
    (if isGet then s.getRequestHandler m true pe info else s.cmiIssueRput m true pe info) =
      if info.copySize ≤ maxSize m.backend then
        .ok (s.send info.destPe (.putData e
          ((s.mem (m.cmiNodeOf pe)).read info.srcPtr (info.srcSize % 2 ^ 32))))
      else if m.backend = .lci ∧ 2 ^ 31 - 64 < info.copySize ∧ info.copySize < 2 ^ 31 then
        .error .abort
      else .error .fault := by
  cases isGet with
  | false =>
    refine ⟨if info.ackMode ≠ .destAck then { info with ackMode := .srcDestAck } else info, ?_, ?_⟩
    · split <;> exact ⟨rfl, rfl, rfl⟩
    · rw [cmiIssueRput, if_neg hremote]
      exact rput_copy_based_eq s pe hinfo
  | true =>
    refine ⟨{ info with freeMe := .dontFreeNcpyOpInfo, ackMode := .destAck }, ⟨rfl, rfl, rfl⟩, ?_⟩
    rw [if_pos rfl, getRequestHandler, cmiIssueRput, if_neg hremote]
    exact rput_copy_based_eq s pe hinfo

/-- All is copied only if the message fits. -/
theorem CopiesAll.fits (hremote : m.cmiNodeOf info.destPe ≠ m.cmiNodeOf pe)
    (h : CopiesAll m s pe isGet info) : CopyFits m info := by
  obtain ⟨e, ⟨-, hlen, -⟩, hserve⟩ := exists_served isGet hinfo s hremote
  unfold CopiesAll at h
  rw [hserve] at h
  by_cases hfits : info.copySize ≤ maxSize m.backend
  · rw [if_pos hfits] at h
    obtain ⟨embedded, payload, hput, -, hread, -⟩ := h.resolve_left nofun
    obtain ⟨rfl, rfl⟩ : e = embedded ∧ _ = payload := by simpa [send] using hput
    rw [hlen, Memory.read, length_map, length_range] at hread
    exact .inl ⟨hfits, hread⟩
  · rw [if_neg hfits] at h
    split at h
    next habort => exact .inr habort
    next => rcases h with h | ⟨_, _, h, -⟩ <;> cases h

end

/-- For sizes of any kind, the copy-based path aborts or reads and writes the right bytes exactly if
they fit the message, or LCI has no memory for it. -/
theorem copies_all_iff (m : Net) (s : State) (pe : Nat) (isGet : Bool) (info : NcpyOperationInfo)
    (hremote : m.cmiNodeOf info.destPe ≠ m.cmiNodeOf pe)
    (hinfo : (cmiMsgHeaderSizeBytes + info.ncpyOpInfoSize : Nat) ≤ maxSize m.backend) :
    CopiesAll m s pe isGet info ↔ CopyFits m info := by
  refine ⟨CopiesAll.fits isGet hinfo hremote, fun hfits => ?_⟩
  obtain ⟨e, ⟨hdest, hlen, hsize⟩, hserve⟩ := exists_served isGet hinfo s hremote
  unfold CopiesAll
  rw [hserve]
  rcases hfits with ⟨hfits, hle⟩ | habort
  · rw [if_pos hfits]
    refine .inr ⟨e, _, rfl, ⟨_, Nat.mod_le .., rfl⟩, ?_, fun t => ?_⟩
    · rwa [hlen, Memory.read, length_map, length_range]
    · obtain ⟨t', ht', hmem⟩ := put_data_mem (hsize ▸ hinfo) info.destPe t _
      refine ⟨t', ht', hmem.trans ?_⟩
      rw [take_read, hdest, hlen, min_eq_left hle]
  · have hlarge : ¬ info.copySize ≤ maxSize m.backend := by
      have hlarge := habort.2.1
      rw [habort.1]
      show ¬ (info.copySize : Int) ≤ 2 ^ 31 - 384
      omega
    rw [if_neg hlarge, if_pos habort]
    exact .inl rfl

/-- A put of 4 bytes. -/
theorem copies_all_of_four_bytes : CopiesAll (twoNodes 1 (by decide)) (State.initial fun _ _ => 0) 0
    false (exampleInfo 0 1 4 true .directApi) :=
  (copies_all_iff _ _ _ _ _ (by decide) (by decide)).mpr (by decide)

/-- A put of `2 ^ 32 + 4` bytes sends 4 of them, and `putDataHandler` reads all. -/
theorem copy_reads_past_payload : ¬ CopiesAll (twoNodes 1 (by decide))
    (State.initial fun _ _ => 0) 0 false (exampleInfo 0 1 (2 ^ 32 + 4) true .directApi) := fun h =>
  absurd (h.fits false (by decide) (by decide)) (by decide)

end Reconverse.Rdma
