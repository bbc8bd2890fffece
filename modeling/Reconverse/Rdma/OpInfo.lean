import Reconverse.Rdma.Model

/-!
# The record of a zero-copy operation

`setNcpyOpInfo` of `cmirdmautils.cpp` fills in an `NcpyOperationInfo` and copies the layer
information and the acknowledgements of both sides behind it. The record travels as `ncpyOpInfoSize`
bytes, and `resetNcpyOpInfoPointers` then points the copy at its own bytes.

The record itself is a structure here, and the bytes behind it are memory. The sizes are stored in
`short int` fields, so they are wrapped.
-/

namespace Reconverse.Rdma.OpInfo

open Lib.CInt List

variable {a : Args} {addr : Int} {bytes : List UInt8} {n : Int}

/-- The bytes of the memory, by their addresses. -/
abbrev Mem := Int → UInt8

/-- Write bytes from an address on. -/
def Mem.write (mem : Mem) (addr : Int) (bytes : List UInt8) : Mem := fun x =>
  if addr ≤ x then (bytes[(x - addr).toNat]?).getD (mem x) else mem x

/-- `sizeof(NcpyOperationInfo)`. -/
def sizeofNcpyOperationInfo : Int := 136

/-! ## The source -/

/-- The fields of one side, `src...` or `dest...`. A null pointer is `none`. -/
structure Side where
  ptr : Nat
  layerInfo : Option Int
  ack : Option Int
  ref : Nat
  pe : Int
  size : Nat
  layerSize : Int
  ackSize : Int
  regMode : Nat
  deregMode : Nat
  isRegistered : Nat
  deriving DecidableEq, Repr

/-- `NcpyOperationInfo`. -/
structure NcpyOperationInfo where
  src : Side
  dest : Side
  opMode : OpMode
  ackMode : AckMode
  freeMe : FreeMe
  ncpyOpInfoSize : Int
  rootNode : Int
  refPtr : Nat
  deviceRdmaOpInfo : Nat
  deriving DecidableEq, Repr

/-- The arguments for one side. `layerInfo` and `ack` are the bytes behind the pointers, as many as
the size arguments say; a null pointer, `none`, comes with size 0. -/
structure SideArgs where
  ptr : Nat
  layerInfo : Option (List UInt8)
  ack : Option (List UInt8)
  size : Nat
  regMode : Nat
  deregMode : Nat
  isRegistered : Nat
  pe : Int
  ref : Nat
  deriving DecidableEq, Repr

namespace SideArgs

variable (a : SideArgs)

/-- The bytes behind `layerInfo`. -/
def layerBytes : List UInt8 := a.layerInfo.getD []

/-- The bytes behind `ack`. -/
def ackBytes : List UInt8 := a.ack.getD []

/-- The assertions about the arguments for one side. -/
def Asserted : Prop :=
  a.layerBytes.length ≤ 65535 ∧ a.ackBytes.length ≤ 65535 ∧ a.regMode ≤ 255 ∧
    a.deregMode ≤ 255 ∧ a.isRegistered ≤ 255

instance : Decidable a.Asserted := inferInstanceAs (Decidable (_ ∧ _ ∧ _ ∧ _ ∧ _))

end SideArgs

/-- The arguments of `setNcpyOpInfo`. -/
structure Args where
  src : SideArgs
  dest : SideArgs
  rootNode : Int
  deviceRdmaOpInfo : Nat
  deriving DecidableEq, Repr

/-- `getNcpyOpInfoTotalSize`. -/
def getNcpyOpInfoTotalSize (srcLayerSize srcAckSize destLayerSize destAckSize : Nat) : Int :=
  sizeofNcpyOperationInfo + srcLayerSize + destLayerSize + srcAckSize + destAckSize

/-- The total size for the arguments. -/
def Args.totalSize (a : Args) : Int :=
  getNcpyOpInfoTotalSize a.src.layerBytes.length a.src.ackBytes.length a.dest.layerBytes.length
    a.dest.ackBytes.length

/-- One of the four copies: the bytes go to `base`, if the pointer that is tested is not null and
there are bytes. The pointer of the record, the memory and the next `base`. -/
def place (notNull : Bool) (bytes : List UInt8) (mem : Mem) (base : Int) :
    Option Int × Mem × Int :=
  if notNull ∧ bytes.length ≠ 0 then (some base, mem.write base bytes, base + bytes.length)
  else (none, mem, base)

/-- The fields of one side that are set after the copies. -/
def setSide (a : SideArgs) (layerInfo ack : Option Int) : Side where
  ptr := a.ptr
  layerInfo := layerInfo
  ack := ack
  ref := a.ref
  pe := a.pe
  size := a.size
  layerSize := signed 16 a.layerBytes.length
  ackSize := signed 16 a.ackBytes.length
  regMode := a.regMode
  deregMode := a.deregMode
  isRegistered := a.isRegistered

/-- `setNcpyOpInfo`, for the record at `addr`. It fails if an assertion does not hold. -/
def setNcpyOpInfo (mem : Mem) (addr : Int) (info : NcpyOperationInfo) (a : Args) :
    Option (Mem × NcpyOperationInfo) :=
  let base := addr + sizeofNcpyOperationInfo
  let (srcLayerInfo, mem, base) := place a.src.layerInfo.isSome a.src.layerBytes mem base
  let (srcAck, mem, base) := place a.src.ack.isSome a.src.ackBytes mem base
  -- The source tests `srcLayerInfo` here.
  let (destLayerInfo, mem, base) := place a.src.layerInfo.isSome a.dest.layerBytes mem base
  let (destAck, mem, _) := place a.dest.ack.isSome a.dest.ackBytes mem base
  if a.src.Asserted ∧ a.dest.Asserted then
    some (mem, {
      src := setSide a.src srcLayerInfo srcAck
      dest := setSide a.dest destLayerInfo destAck
      opMode := .directApi
      ackMode := .srcDestAck
      freeMe := .freeNcpyOpInfo
      ncpyOpInfoSize := signed 16 (unsigned 16 a.totalSize)
      rootNode := a.rootNode
      refPtr := info.refPtr
      deviceRdmaOpInfo := a.deviceRdmaOpInfo })
  else none

/-- One step of `resetNcpyOpInfoPointers`. -/
def rebase (ptr : Option Int) (size base : Int) : Option Int × Int :=
  if ptr.isSome then (some base, base + size) else (none, base)

/-- `resetNcpyOpInfoPointers`, for the record at `addr`. -/
def resetNcpyOpInfoPointers (addr : Int) (info : NcpyOperationInfo) : NcpyOperationInfo :=
  let base := addr + sizeofNcpyOperationInfo
  let (srcLayerInfo, base) := rebase info.src.layerInfo info.src.layerSize base
  let (srcAck, base) := rebase info.src.ack info.src.ackSize base
  let (destLayerInfo, base) := rebase info.dest.layerInfo info.dest.layerSize base
  let (destAck, _) := rebase info.dest.ack info.dest.ackSize base
  { info with
    src := { info.src with layerInfo := srcLayerInfo, ack := srcAck }
    dest := { info.dest with layerInfo := destLayerInfo, ack := destAck } }

/-- `memcpy` of the first `n` bytes of a record from `src` to `dest`. It fails if they do not cover
the structure. -/
def copyRecord (mem : Mem) (info : NcpyOperationInfo) (src dest n : Int) :
    Option (Mem × NcpyOperationInfo) :=
  if sizeofNcpyOperationInfo ≤ n then
    some (fun x => if dest + sizeofNcpyOperationInfo ≤ x ∧ x < dest + n then mem (x - dest + src)
      else mem x, info)
  else none

/-! ## What is expected -/

/-- A pointer of a record of `n` bytes at `addr` is null if there are no bytes for it, and otherwise
points inside the record at the bytes. -/
def PointsTo (mem : Mem) (addr n : Int) (bytes : List UInt8) (ptr : Option Int) : Prop :=
  if bytes = [] then ptr = none
  else ∃ p, ptr = some p ∧ addr ≤ p ∧ p + bytes.length ≤ addr + n ∧
    ∀ (i : Nat) (b : UInt8), bytes[i]? = some b → mem (p + i) = b

/-- The record that `setNcpyOpInfo` makes at `addr` says how long it is, and a copy of it at any
address has the bytes that were given. -/
def Survives (mem : Mem) (addr : Int) (old : NcpyOperationInfo) (a : Args) : Prop :=
  ∃ mem₁ info, setNcpyOpInfo mem addr old a = some (mem₁, info) ∧
    info.ncpyOpInfoSize = a.totalSize ∧
    ∀ dest, ∃ mem₂ copy,
      copyRecord mem₁ info addr dest info.ncpyOpInfoSize = some (mem₂, copy) ∧
      PointsTo mem₂ dest info.ncpyOpInfoSize a.src.layerBytes
        (resetNcpyOpInfoPointers dest copy).src.layerInfo ∧
      PointsTo mem₂ dest info.ncpyOpInfoSize a.src.ackBytes
        (resetNcpyOpInfoPointers dest copy).src.ack ∧
      PointsTo mem₂ dest info.ncpyOpInfoSize a.dest.layerBytes
        (resetNcpyOpInfoPointers dest copy).dest.layerInfo ∧
      PointsTo mem₂ dest info.ncpyOpInfoSize a.dest.ackBytes
        (resetNcpyOpInfoPointers dest copy).dest.ack

/-! ## Writing the bytes -/

theorem Mem.write_nil (mem : Mem) (addr : Int) : mem.write addr [] = mem := by
  funext x
  unfold Mem.write
  split <;> rfl

/-- Two writes side by side are one. -/
theorem Mem.write_append (mem : Mem) (addr : Int) (xs ys : List UInt8) :
    (mem.write addr xs).write (addr + xs.length) ys = mem.write addr (xs ++ ys) := by
  funext x
  unfold Mem.write
  by_cases hx : addr ≤ x
  · by_cases hy : addr + xs.length ≤ x
    · rw [if_pos hy, if_pos hx, if_pos hx, List.getElem?_append_right (by omega),
        getElem?_eq_none (l := xs) (by omega)]
      congr 3
      omega
    · rw [if_neg hy, if_pos hx, if_pos hx, getElem?_append_left (by omega)]
  · rw [if_neg hx, if_neg (by omega), if_neg hx]

theorem Mem.write_get (mem : Mem) (addr : Int) {i : Nat} {b : UInt8}
    (h : bytes[i]? = some b) : mem.write addr bytes (addr + i) = b := by
  unfold Mem.write
  rw [if_pos (by omega), show (addr + i - addr).toNat = i by omega, h]
  rfl

/-- The pointer to bytes at `base`. -/
def pointer (bytes : List UInt8) (base : Int) : Option Int :=
  if bytes = [] then none else some base

/-- A copy whose test does not leave out any bytes. -/
theorem place_eq {notNull : Bool} (h : notNull = false → bytes = [])
    (mem : Mem) (base : Int) : place notNull bytes mem base =
      (pointer bytes base, mem.write base bytes, base + bytes.length) := by
  unfold place pointer
  by_cases hb : bytes = []
  · subst hb
    rw [Mem.write_nil]
    simp
  · have hnull : notNull = true := by
      cases notNull with
      | true => rfl
      | false => exact absurd (h rfl) hb
    rw [if_pos ⟨hnull, by simpa using hb⟩, if_neg hb]

/-- A pointer into the record is moved with it. -/
theorem rebase_pointer (bytes : List UInt8) (old base : Int) :
    rebase (pointer bytes old) bytes.length base = (pointer bytes base, base + bytes.length) := by
  unfold rebase pointer
  by_cases hb : bytes = []
  · subst hb
    simp
  · simp [hb]

theorem bytes_nil_of_isSome {o : Option (List UInt8)} (h : o.isSome = false) : o.getD [] = [] := by
  cases o with
  | none => rfl
  | some l => cases h

/-- The size field holds a total size if and only if that fits. -/
theorem size_field_iff (hpos : 0 ≤ n) : signed 16 (unsigned 16 n) = n ↔ n ≤ 32767 := by
  constructor
  · intro h
    have hlt : signed 16 (unsigned 16 n) < (2 ^ 16 + 1) / 2 := Int.bmod_lt (by decide)
    omega
  · intro h
    have hself : unsigned 16 n = n := Int.emod_eq_of_lt hpos (by omega)
    rw [hself, signed_of_lt (by omega) (by omega)]

section Layout

variable (mem : Mem) (addr : Int) (old : NcpyOperationInfo) (a : Args)

/-- The bytes behind the record. -/
def Args.payload : List UInt8 :=
  a.src.layerBytes ++ a.src.ackBytes ++ a.dest.layerBytes ++ a.dest.ackBytes

/-- The record with its pointers laid out from `base` on. -/
def Args.info (base : Int) : NcpyOperationInfo where
  src := setSide a.src (pointer a.src.layerBytes base)
    (pointer a.src.ackBytes (base + a.src.layerBytes.length))
  dest := setSide a.dest
    (pointer a.dest.layerBytes (base + a.src.layerBytes.length + a.src.ackBytes.length))
    (pointer a.dest.ackBytes (base + a.src.layerBytes.length + a.src.ackBytes.length +
      a.dest.layerBytes.length))
  opMode := .directApi
  ackMode := .srcDestAck
  freeMe := .freeNcpyOpInfo
  ncpyOpInfoSize := signed 16 (unsigned 16 a.totalSize)
  rootNode := a.rootNode
  refPtr := old.refPtr
  deviceRdmaOpInfo := a.deviceRdmaOpInfo

variable {a}

/-- What `setNcpyOpInfo` makes, if the test of `srcLayerInfo` does not leave out the layer
information of the destination. -/
theorem set_eq (h : a.src.Asserted ∧ a.dest.Asserted)
    (hdest : a.src.layerInfo.isSome = false → a.dest.layerBytes = []) :
    setNcpyOpInfo mem addr old a =
      some (mem.write (addr + sizeofNcpyOperationInfo) a.payload,
        a.info old (addr + sizeofNcpyOperationInfo)) := by
  have hsrc : a.src.layerInfo.isSome = false → a.src.layerBytes = [] := bytes_nil_of_isSome
  have hack : a.src.ack.isSome = false → a.src.ackBytes = [] := bytes_nil_of_isSome
  have hdestAck : a.dest.ack.isSome = false → a.dest.ackBytes = [] := bytes_nil_of_isSome
  unfold setNcpyOpInfo
  simp only [place_eq hsrc, place_eq hack, place_eq hdest, place_eq hdestAck, if_pos h]
  have hmem : (((mem.write (addr + sizeofNcpyOperationInfo) a.src.layerBytes).write
      (addr + sizeofNcpyOperationInfo + a.src.layerBytes.length) a.src.ackBytes).write
      (addr + sizeofNcpyOperationInfo + a.src.layerBytes.length + a.src.ackBytes.length)
      a.dest.layerBytes).write
      (addr + sizeofNcpyOperationInfo + a.src.layerBytes.length + a.src.ackBytes.length +
        a.dest.layerBytes.length) a.dest.ackBytes =
      mem.write (addr + sizeofNcpyOperationInfo) a.payload := by
    have hlen : ∀ (b : Int) (xs ys : List UInt8), b + xs.length + ys.length =
        b + (xs ++ ys).length := fun b xs ys => by
      rw [length_append]
      omega
    rw [Mem.write_append, hlen, Mem.write_append, Mem.write_append, Args.payload,
      append_assoc (a.src.layerBytes ++ a.src.ackBytes)]
  rw [hmem, Args.info]

/-- The pointers of a record whose sizes fit are laid out again at its new place. -/
theorem reset_eq (hfits : a.totalSize ≤ 32767) (base dest : Int) :
    resetNcpyOpInfoPointers dest (a.info old base) =
      a.info old (dest + sizeofNcpyOperationInfo) := by
  unfold Args.totalSize getNcpyOpInfoTotalSize sizeofNcpyOperationInfo at hfits
  unfold resetNcpyOpInfoPointers Args.info setSide
  have hshort {n : Nat} (h : n ≤ 32767) : signed 16 n = n := signed_of_lt (by omega) (by omega)
  simp only [hshort (n := a.src.layerBytes.length) (by omega),
    hshort (n := a.src.ackBytes.length) (by omega),
    hshort (n := a.dest.layerBytes.length) (by omega),
    hshort (n := a.dest.ackBytes.length) (by omega), rebase_pointer]

/-- Bytes of the payload are where the record points to after the copy. -/
theorem points_to_copy {n dest : Int} (pre bytes post : List UInt8)
    (hpayload : a.payload = pre ++ (bytes ++ post))
    (hn : sizeofNcpyOperationInfo + a.payload.length ≤ n) {base : Int}
    (hbase : base = dest + sizeofNcpyOperationInfo + pre.length) :
    PointsTo (fun x => if dest + sizeofNcpyOperationInfo ≤ x ∧ x < dest + n then
        mem.write (addr + sizeofNcpyOperationInfo) a.payload (x - dest + addr)
      else mem.write (addr + sizeofNcpyOperationInfo) a.payload x) dest n bytes
      (pointer bytes base) := by
  subst hbase
  unfold PointsTo pointer
  by_cases hb : bytes = []
  · rw [if_pos hb, if_pos hb]
  · have hlen : a.payload.length = pre.length + (bytes.length + post.length) := by
      rw [hpayload, length_append, length_append]
    have hsizeof : (0 : Int) ≤ sizeofNcpyOperationInfo := by decide
    rw [if_neg hb, if_neg hb]
    refine ⟨_, rfl, by omega, by omega, fun i b hi => ?_⟩
    have hilt := (List.getElem?_eq_some_iff.mp hi).1
    have hget : a.payload[pre.length + i]? = some b := by
      rw [hpayload, List.getElem?_append_right (Nat.le_add_right ..), Nat.add_sub_cancel_left,
        getElem?_append_left hilt]
      exact hi
    beta_reduce
    rw [if_pos ⟨by omega, by omega⟩, ← Mem.write_get mem (addr + sizeofNcpyOperationInfo) hget]
    push_cast
    ring_nf

end Layout

/-- A record whose size fits and whose layer information is not left out survives. -/
theorem survives_of_fits (mem : Mem) (addr : Int) (old : NcpyOperationInfo)
    (h : a.src.Asserted ∧ a.dest.Asserted) (hfits : a.totalSize ≤ 32767)
    (hdest : a.src.layerInfo.isSome = false → a.dest.layerBytes = []) :
    Survives mem addr old a := by
  have hpos : 0 ≤ a.totalSize := by
    unfold Args.totalSize getNcpyOpInfoTotalSize sizeofNcpyOperationInfo
    omega
  have hsize : (a.info old (addr + sizeofNcpyOperationInfo)).ncpyOpInfoSize = a.totalSize := by
    rw [Args.info, (size_field_iff hpos).mpr hfits]
  have hlen : a.totalSize = sizeofNcpyOperationInfo + a.payload.length := by
    unfold Args.totalSize getNcpyOpInfoTotalSize Args.payload
    rw [length_append, length_append, length_append]
    push_cast
    ring
  refine ⟨_, _, set_eq mem addr old h hdest, hsize, fun dest => ?_⟩
  rw [hsize]
  refine ⟨_, _, if_pos (by omega), ?_⟩
  rw [reset_eq old hfits]
  -- The four parts of the payload, each between those before and behind it.
  refine ⟨?_, ?_, ?_, ?_⟩
  · refine points_to_copy mem addr [] _
      (a.src.ackBytes ++ (a.dest.layerBytes ++ a.dest.ackBytes)) ?_ hlen.ge ?_
    · simp only [Args.payload, append_assoc, nil_append]
    · simp
  · refine points_to_copy mem addr a.src.layerBytes _ (a.dest.layerBytes ++ a.dest.ackBytes)
      ?_ hlen.ge rfl
    simp only [Args.payload, append_assoc]
  · refine points_to_copy mem addr (a.src.layerBytes ++ a.src.ackBytes) _ a.dest.ackBytes
      ?_ hlen.ge ?_
    · simp only [Args.payload, append_assoc]
    · rw [length_append]
      push_cast
      ring
  · refine points_to_copy mem addr (a.src.layerBytes ++ a.src.ackBytes ++ a.dest.layerBytes) _ []
      ?_ hlen.ge ?_
    · simp only [Args.payload, append_nil]
    · rw [length_append, length_append]
      push_cast
      ring

/-- A copy that succeeds has all fields. -/
theorem copy_eq {mem mem' : Mem} {info copy : NcpyOperationInfo} {src dest n : Int}
    (h : copyRecord mem info src dest n = some (mem', copy)) : copy = info := by
  unfold copyRecord at h
  split at h
  · exact (Prod.mk.inj (Option.some.inj h)).2.symm
  · cases h

/-- The size is stored in 16 bits. -/
theorem set_size {mem mem₁ : Mem} {old info : NcpyOperationInfo}
    (hset : setNcpyOpInfo mem addr old a = some (mem₁, info)) :
    info.ncpyOpInfoSize = signed 16 (unsigned 16 a.totalSize) := by
  unfold setNcpyOpInfo at hset
  split at hset
  · obtain ⟨-, hinfo⟩ := Prod.mk.inj (Option.some.inj hset)
    rw [← hinfo]
  · cases hset

/-- Without layer information of the source the one of the destination is lost. -/
theorem dest_layer_lost {mem mem₁ : Mem} {old info : NcpyOperationInfo}
    (hset : setNcpyOpInfo mem addr old a = some (mem₁, info))
    (hsrc : a.src.layerInfo.isSome = false) (dest : Int) :
    (resetNcpyOpInfoPointers dest info).dest.layerInfo = none := by
  have hnone : info.dest.layerInfo = none := by
    unfold setNcpyOpInfo at hset
    simp only [hsrc] at hset
    split at hset
    · cases hset
      rfl
    · cases hset
  unfold resetNcpyOpInfoPointers rebase
  simp [hnone]

/-- A record survives without layer information only if the other side has none either. -/
theorem Survives.layer {mem : Mem} {old : NcpyOperationInfo}
    (h : Survives mem addr old a) (hnull : a.src.layerInfo = none) : a.dest.layerBytes = [] := by
  obtain ⟨mem₁, info, hset, -, hcopy⟩ := h
  obtain ⟨mem₂, copy, hcopy, -, -, hlayer, -⟩ := hcopy 0
  by_contra hbytes
  unfold PointsTo at hlayer
  rw [if_neg hbytes] at hlayer
  obtain ⟨p, hp, -⟩ := hlayer
  obtain rfl := copy_eq hcopy
  rw [dest_layer_lost hset (by rw [hnull]; rfl)] at hp
  cases hp

/-- The record of a zero-copy operation survives being copied if and only if its total size fits
the `short int` field, and the layer information of the destination does not come without layer
information of the source. -/
theorem op_info_survives_iff (mem : Mem) (addr : Int) (old : NcpyOperationInfo) (a : Args)
    (hsrc : a.src.Asserted) (hdest : a.dest.Asserted) :
    Survives mem addr old a ↔
      a.totalSize ≤ 32767 ∧ (a.src.layerInfo = none → a.dest.layerBytes = []) := by
  have hpos : 0 ≤ a.totalSize := by
    unfold Args.totalSize getNcpyOpInfoTotalSize sizeofNcpyOperationInfo
    omega
  constructor
  · intro h
    obtain ⟨mem₁, info, hset, hsize, -⟩ := id h
    rw [set_size hset] at hsize
    exact ⟨(size_field_iff hpos).mp hsize, h.layer⟩
  · rintro ⟨hfits, hlayer⟩
    refine survives_of_fits mem addr old ⟨hsrc, hdest⟩ hfits fun hnull => hlayer ?_
    exact Option.isSome_eq_false_iff.mp hnull |> Option.isNone_iff_eq_none.mp

/-- Layer information on both sides and one acknowledgement. -/
theorem op_info_with_ack_survives : ∃ mem addr old a,
    a.src.Asserted ∧ a.dest.Asserted ∧ a.src.layerBytes = [1, 2] ∧ a.dest.layerBytes = [3] ∧
      a.dest.ackBytes = [4, 5, 6] ∧ Survives mem addr old a := by
  let src : SideArgs := ⟨0, some [1, 2], none, 8, 0, 0, 0, 0, 0⟩
  let dest : SideArgs := ⟨0, some [3], some [4, 5, 6], 8, 0, 0, 0, 1, 0⟩
  let old : NcpyOperationInfo := ⟨setSide src none none, setSide dest none none, .directApi,
    .srcDestAck, .freeNcpyOpInfo, 0, 0, 0, 0⟩
  refine ⟨fun _ => 0, 0, old, ⟨src, dest, -1, 0⟩, by decide, by decide, rfl, rfl, rfl, ?_⟩
  exact (op_info_survives_iff _ _ _ _ (by decide) (by decide)).mpr ⟨by decide, by decide⟩

/-- A put from a buffer without layer information to one with it: the record loses it. -/
theorem dest_layer_without_src_layer : ∃ mem addr old a,
    a.src.Asserted ∧ a.dest.Asserted ∧ a.src.layerInfo = none ∧ a.dest.layerInfo = some [7] ∧
      ¬ Survives mem addr old a := by
  let src : SideArgs := ⟨0, none, none, 8, 0, 0, 0, 0, 0⟩
  let dest : SideArgs := ⟨0, some [7], none, 8, 0, 0, 0, 1, 0⟩
  let old : NcpyOperationInfo := ⟨setSide src none none, setSide dest none none, .directApi,
    .srcDestAck, .freeNcpyOpInfo, 0, 0, 0, 0⟩
  refine ⟨fun _ => 0, 0, old, ⟨src, dest, -1, 0⟩, by decide, by decide, rfl, rfl, fun h => ?_⟩
  have hlost := h.layer rfl
  cases hlost

end Reconverse.Rdma.OpInfo
