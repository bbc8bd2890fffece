import Reconverse.Lib.CInt
import Reconverse.Machine.Topology
import Reconverse.Mempool.Model

/-!
# Message memory

`CmiAlloc` asks the backend for memory. `CommBackendLCI::malloc` takes a small message from the pool
of the PE and a large one from `posix_memalign`, and `CommBackendLCI::free` decides by the size in
the header which of them it was; other processes use `std::malloc`. The sizes wrap in `int` and
`size_t` as they do in the code. The results of `posix_memalign` and `std::malloc` are not looked
at, so that a large message is right only if they succeed (`alloc_right_iff`).

With memory for every length that an `int` can be, `CmiAlloc` returns a message up to a size that
depends on the backend (`alloc_eq`). The models of the functions that allocate messages use
`Backend.alloc`.
-/

namespace Reconverse

open Lib.CInt
open Mempool (sizeofBlockHeader sizeofUsedHeader)

namespace Alloc

/-- `(~63) & x`. -/
def mask (x : Int) : Int := x - x % 64

/-- `sizeof(CmiChunkHeader)`. -/
def sizeofChunkHeader : Int := 32

/-- `sizeof(out_of_pool_header)`. -/
def sizeofOutOfPoolHeader : Int := sizeofBlockHeader + sizeofUsedHeader

/-- `ALIGNBUF`. -/
def alignbuf : Int := 128

/-- `BIG_MSG`. -/
def bigMsg : Int := 2 ^ 24

/-- What `mempool_malloc` is asked for. -/
def poolLength (size : Int) : Int := sizeT (int (alignbuf + mask (int (size + 63))))

/-- What `posix_memalign` is asked for. -/
def outOfPoolLength (size : Int) : Int :=
  let nBytes := int (sizeT (int (size + sizeofChunkHeader)) + sizeofOutOfPoolHeader)
  sizeT (mask (int (nBytes + 63)))

/-- A buffer of an allocation function. -/
structure Buffer where
  outOfPool : Bool
  base : Int
  length : Int
  deriving DecidableEq, Repr

/-- The allocation functions: the address that they return for a length. -/
inductive Heap where
  | lci (mempoolMalloc posixMemalign : Int → Option Int)
  | std (malloc : Int → Option Int)

/-- What `CmiAlloc` does: it aborts, returns a null pointer or a pointer into a buffer, or writes
the headers through a pointer to no buffer. -/
inductive Result where
  | abort
  | null
  | wild
  | ptr (user : Int) (buffer : Buffer)
  deriving DecidableEq, Repr

/-- `CommBackendLCI::malloc`, with `mempool_lb_size` 0, for `CmiAlloc`. -/
def lciMalloc (mempoolMalloc posixMemalign : Int → Option Int) (size : Int) : Result :=
  if sizeT (int (size + sizeofChunkHeader)) ≤ 0 then .abort
  else if mask (int (size + 63)) < bigMsg then
    match mempoolMalloc (poolLength size) with
    | some res => .ptr (res + sizeofUsedHeader + sizeofChunkHeader) ⟨false, res, poolLength size⟩
    | none => .abort
  else
    match posixMemalign (outOfPoolLength size) with
    | some res =>
      .ptr (res + sizeofOutOfPoolHeader + sizeofChunkHeader) ⟨true, res, outOfPoolLength size⟩
    | none => .wild

/-- What `std::malloc` is asked for. -/
def stdLength (size : Int) : Int := sizeT (int (size + sizeofChunkHeader))

/-- `CmiAlloc`, with `comm_backend::malloc`. -/
def cmiAlloc (heap : Heap) (size : Int) : Result :=
  if size ≤ 0 then .null
  else
    match heap with
    | .lci mempoolMalloc posixMemalign => lciMalloc mempoolMalloc posixMemalign size
    | .std malloc =>
      match malloc (stdLength size) with
      | some res => .ptr (res + sizeofChunkHeader) ⟨false, res, stdLength size⟩
      | none => .wild

/-- `CommBackendLCI::free`: whether it takes the out-of-pool branch, and the address that it
frees. -/
def free (msg size : Int) : Bool × Int :=
  if mask (sizeT (size + 63)) ≥ bigMsg then (true, msg - sizeofChunkHeader - sizeofOutOfPoolHeader)
  else (false, msg - sizeofChunkHeader - sizeofUsedHeader)

/-- The message and its headers are in the buffer, and it is freed as it was obtained. -/
def Right (size : Int) : Result → Prop
  | .abort => True
  | .null | .wild => False
  | .ptr user b =>
    b.base + (if b.outOfPool then sizeofOutOfPoolHeader else sizeofUsedHeader) + sizeofChunkHeader ≤
        user ∧
      user + size ≤ b.base + b.length ∧ free user size = (b.outOfPool, b.base)

section

variable {size : Int} (hpos : 1 ≤ size) (hlt : size < 2 ^ 31)

include hpos hlt

/-- The sizes that go to the pool: the small ones and those that wrap. -/
theorem small_iff : mask (int (size + 63)) < bigMsg ↔ size ≤ bigMsg - 64 ∨ 2 ^ 31 - 64 < size := by
  simp only [mask, int_eq, bigMsg]
  omega

/-- The sizes that `CmiFree` takes for those of `posix_memalign`. -/
theorem freed_large_iff : mask (sizeT (size + 63)) ≥ bigMsg ↔ bigMsg - 64 < size := by
  simp only [mask, sizeT, unsigned, bigMsg]
  omega

/-- A message from the pool fits its block. -/
theorem pool_length_le (hsmall : size ≤ bigMsg - 64) :
    sizeofUsedHeader + sizeofChunkHeader + size ≤ poolLength size := by
  simp only [poolLength, sizeT, unsigned, mask, int_eq, bigMsg, alignbuf, sizeofUsedHeader,
    sizeofChunkHeader] at hsmall ⊢
  omega

/-- A length that wraps is larger than any buffer. -/
theorem out_of_pool_length_le (hlarge : size ≤ 2 ^ 31 - 64) :
    sizeofOutOfPoolHeader + sizeofChunkHeader + size ≤ outOfPoolLength size := by
  simp only [outOfPoolLength, sizeT, unsigned, mask, int_eq, sizeofOutOfPoolHeader,
    sizeofBlockHeader, sizeofUsedHeader, sizeofChunkHeader] at hlarge ⊢
  omega

theorem total_pos : ¬ sizeT (int (size + sizeofChunkHeader)) ≤ 0 := by
  simp only [sizeT, unsigned, int_eq, sizeofChunkHeader]
  omega

/-- Up to `2 ^ 31 - 64` bytes `CmiAlloc` is right if `posix_memalign` does not fail. Above that the
length wraps, and a message would be taken from the pool that `CmiFree` does not give back to it. -/
theorem alloc_right_iff (mempoolMalloc posixMemalign : Int → Option Int) :
    Right size (cmiAlloc (.lci mempoolMalloc posixMemalign) size) ↔
      (bigMsg - 64 < size → size ≤ 2 ^ 31 - 64 → posixMemalign (outOfPoolLength size) ≠ none) ∧
        (2 ^ 31 - 64 < size → mempoolMalloc (poolLength size) = none) := by
  have hbig : bigMsg = 2 ^ 24 := rfl
  have hfree := freed_large_iff hpos hlt
  rw [cmiAlloc, if_neg (by omega)]
  show Right size (lciMalloc mempoolMalloc posixMemalign size) ↔ _
  rw [lciMalloc, if_neg (total_pos hpos hlt)]
  by_cases hsmall : size ≤ bigMsg - 64 ∨ 2 ^ 31 - 64 < size
  · rw [if_pos ((small_iff hpos hlt).mpr hsmall)]
    cases hres : mempoolMalloc (poolLength size) with
    | none => exact iff_of_true trivial ⟨by omega, fun _ => rfl⟩
    | some res =>
      by_cases hwraps : 2 ^ 31 - 64 < size
      · refine iff_of_false (fun hright => ?_) (fun hcond => nomatch hcond.2 hwraps)
        have heq := hright.2.2
        rw [free, if_pos (hfree.mpr (by omega))] at heq
        cases heq
      · have hlen := pool_length_le hpos hlt (by omega)
        refine iff_of_true ⟨Int.le_refl _, ?_, ?_⟩ ⟨by omega, by omega⟩
        · show res + sizeofUsedHeader + sizeofChunkHeader + size ≤ res + poolLength size
          omega
        · rw [free, if_neg (mt hfree.mp (by omega))]
          exact Prod.ext rfl (show _ = res by omega)
  · rw [if_neg (mt (small_iff hpos hlt).mp hsmall)]
    cases hres : posixMemalign (outOfPoolLength size) with
    | none => exact iff_of_false id fun hcond => hcond.1 (by omega) (by omega) rfl
    | some res =>
      have hlen := out_of_pool_length_le hpos hlt (by omega)
      refine iff_of_true ⟨Int.le_refl _, ?_, ?_⟩ ⟨nofun, by omega⟩
      · show res + sizeofOutOfPoolHeader + sizeofChunkHeader + size ≤ res + outOfPoolLength size
        omega
      · rw [free, if_pos (hfree.mpr (by omega))]
        exact Prod.ext rfl (show _ = res by omega)

end

/-- A message of `BIG_MSG` bytes, for which there is memory. -/
theorem big_message_right :
    Right (2 ^ 24) (cmiAlloc (.lci (fun _ => none) fun _ => some 128) (2 ^ 24)) :=
  (alloc_right_iff (by decide) (by decide) ..).mpr ⟨nofun, by decide⟩

/-- There is no memory for it, and the headers are written somewhere. -/
theorem big_message_wild :
    cmiAlloc (.lci (fun _ => some 128) fun _ => none) (2 ^ 24) = .wild ∧
      ¬ Right (2 ^ 24) (cmiAlloc (.lci (fun _ => some 128) fun _ => none) (2 ^ 24)) := by
  have hwild : cmiAlloc (.lci (fun _ => some 128) fun _ => none) (2 ^ 24) = .wild := rfl
  exact ⟨hwild, hwild ▸ id⟩

/-! ## Enough memory -/

/-- There is memory for every length below `2 ^ 31`. A negative `int` is a larger `size_t`. -/
def ample (length : Int) : Option Int := if length < 2 ^ 31 then some 0 else none

/-- The allocation functions of a process with enough memory. -/
def heapOf : Backend → Heap
  | .lci => .lci ample ample
  | .std => .std ample

/-- The largest message: its headers, and with LCI the rounding, fit an `int` with it. -/
def maxSize : Backend → Int
  | .lci => 2 ^ 31 - 384
  | .std => 2 ^ 31 - 33

/-- Why the caller of `CmiAlloc` does not get a message: the process aborts, or it writes through a
pointer to no buffer. -/
inductive Failure where
  | abort
  | fault
  deriving DecidableEq, Repr

end Alloc

open Alloc

/-- `CmiAlloc` in a process with enough memory, for a caller that writes to the message. The
argument is converted to an `int`, and the result is the number of bytes that there are. -/
def Backend.alloc (b : Backend) (size : Int) : Except Failure Nat :=
  match cmiAlloc (heapOf b) (int size) with
  | .ptr .. => .ok (int size).toNat
  | .abort => .error .abort
  | .null | .wild => .error .fault

namespace Alloc

variable {b : Backend} {size : Int}

/-- What `std::malloc` is asked for is positive as an `int` up to the largest size. -/
theorem std_length_lt_iff (hpos : 1 ≤ size) (hlt : size < 2 ^ 31) :
    stdLength size < 2 ^ 31 ↔ size ≤ maxSize .std := by
  simp only [stdLength, sizeT, unsigned, int_eq, sizeofChunkHeader, maxSize]
  omega

/-- The same for a block of the pool. -/
theorem pool_length_lt_iff (hpos : 1 ≤ size) (hsmall : size ≤ bigMsg - 64 ∨ 2 ^ 31 - 64 < size)
    (hlt : size < 2 ^ 31) : poolLength size < 2 ^ 31 ↔ size ≤ bigMsg - 64 := by
  simp only [poolLength, sizeT, unsigned, mask, int_eq, bigMsg, alignbuf] at hsmall ⊢
  omega

/-- The same for a block that LCI allocates outside of its pool. -/
theorem out_of_pool_length_lt_iff (hpos : 1 ≤ size) (hlarge : size ≤ 2 ^ 31 - 64) :
    outOfPoolLength size < 2 ^ 31 ↔ size ≤ maxSize .lci := by
  simp only [outOfPoolLength, sizeT, unsigned, mask, int_eq, sizeofOutOfPoolHeader,
    sizeofBlockHeader, sizeofUsedHeader, sizeofChunkHeader, maxSize]
  omega

/-- Messages are allocated up to the size that the backend allows. The pool of LCI has nothing for
the lengths that wrap, and the process aborts. -/
theorem alloc_eq (b : Backend) (size : Int) : b.alloc size =
    if 1 ≤ int size ∧ int size ≤ maxSize b then .ok (int size).toNat
    else if b = .lci ∧ 2 ^ 31 - 64 < int size then .error .abort else .error .fault := by
  have hlt : int size < 2 ^ 31 := by
    have hfits := (fits_int size).2
    unfold intMax at hfits
    omega
  unfold Backend.alloc cmiAlloc
  generalize int size = n at hlt
  by_cases hpos : 1 ≤ n
  swap
  · rw [if_pos (by omega), if_neg fun h => hpos h.1, if_neg (by omega)]
  rw [if_neg (by omega)]
  cases b with
  | std =>
    have hserved := std_length_lt_iff hpos hlt
    simp only [heapOf, ample]
    by_cases hle : n ≤ maxSize .std
    · rw [if_pos (hserved.mpr hle), if_pos ⟨hpos, hle⟩]
    · rw [if_neg (mt hserved.mp hle), if_neg fun h => hle h.2, if_neg (by simp)]
  | lci =>
    have hbig : bigMsg = 2 ^ 24 := rfl
    have hmax : maxSize .lci = 2 ^ 31 - 384 := rfl
    simp only [heapOf, lciMalloc, if_neg (total_pos hpos hlt), true_and]
    by_cases hsmall : n ≤ bigMsg - 64 ∨ 2 ^ 31 - 64 < n
    · have hserved := pool_length_lt_iff hpos hsmall hlt
      rw [if_pos ((small_iff hpos hlt).mpr hsmall), ample]
      by_cases hwraps : 2 ^ 31 - 64 < n
      · rw [if_neg (mt hserved.mp (by omega)), if_neg (by omega), if_pos hwraps]
      · rw [if_pos (hserved.mpr (by omega)), if_pos (by omega)]
    · have hserved := out_of_pool_length_lt_iff hpos (by omega)
      rw [if_neg (mt (small_iff hpos hlt).mp hsmall), ample]
      by_cases hle : n ≤ maxSize .lci
      · rw [if_pos (hserved.mpr hle), if_pos ⟨hpos, hle⟩]
      · rw [if_neg (mt hserved.mp hle), if_neg fun h => hle h.2, if_neg (by omega)]

theorem le_max_size (b : Backend) : 2 ^ 31 - 384 ≤ maxSize b := by cases b <;> decide

theorem max_size_le (b : Backend) : maxSize b ≤ 2 ^ 31 - 33 := by cases b <;> decide

/-- A message that can be allocated. -/
theorem alloc_of_le {size : Nat} (hpos : 1 ≤ size) (hle : size ≤ maxSize b) :
    b.alloc size = .ok size := by
  have hmax := max_size_le b
  rw [alloc_eq, int_natCast_of_lt (by omega), if_pos ⟨by omega, hle⟩, Int.toNat_natCast]

/-- The bytes that are returned are as many as the argument says, or fewer. -/
theorem alloc_le {n : Nat} (h : b.alloc size = .ok n) : (n : Int) ≤ maxSize b ∧ int size = n := by
  rw [alloc_eq] at h
  split at h
  · cases h
    omega
  · split at h <;> cases h

end Alloc

end Reconverse
