import Reconverse.Lib.Scan

/-!
# Reading and printing secret keys

`CCS_AUTH_makeSecretKey` takes two characters at a time and reads them with the directive for a
decimal number, so that it differs from the digits that `CcsSecMan_printkey` prints for most keys.
It reads both characters before it looks at the first, which is behind the null of a short string.
-/

namespace Reconverse.Ccs

open Lib List

variable {str : List Char} {c₀ c₁ : Char} {todo : Nat}

/-- The byte that is scanned in `tmp`, unless the loop breaks. -/
def scanTmp (c₀ c₁ : Char) : Option UInt8 :=
  let c₁ := if c₁ = '\x00' ∨ c₁ = ' ' ∨ c₁ = '\n' then '0' else c₁
  match Scan.sscanf [.d] ([c₀, c₁].takeWhile (· ≠ '\x00')) with
  | some [cur] => some (UInt8.ofInt cur)
  | _ => none

/-- The loop for the last `todo` bytes, on the string with its null from `str[2*i]` on. It returns
the bytes before a break, and nothing if it reads behind the null. -/
def scanKey : (todo : Nat) → List Char → Option (List UInt8)
  | 0, _ => some []
  | todo + 1, c₀ :: c₁ :: str =>
    match scanTmp c₀ c₁ with
    | none => some []
    | some b => (scanKey todo str).map (b :: ·)
  | _ + 1, _ => none

/-- Bytes that the loop does not reach stay zero. -/
def fillKey (todo : Nat) (bytes : List UInt8) : List UInt8 :=
  bytes ++ List.replicate (todo - bytes.length) 0

/-- `CCS_AUTH_makeSecretKey`. -/
def makeSecretKey (str : List Char) : Option (Int × List UInt8) :=
  (scanKey 16 (str ++ ['\x00'])).map fun bytes => (if bytes = [] then 0 else 1, fillKey 16 bytes)

def hexDigits : List Char := "0123456789ABCDEFabcdef".toList

/-- `%02X`. -/
def hexOf (b : UInt8) : List Char := [b.toNat / 16, b.toNat % 16].map fun n => hexDigits.getD n '0'

/-- The digits of `CcsSecMan_printkey`. -/
def printkey (k : List UInt8) : List Char := k.flatMap hexOf

/-- The byte of two digits, of either case. -/
def byteOf (c₀ c₁ : Char) : UInt8 :=
  let value (c : Char) : Nat := "0123456789ABCDEF".toList.idxOf c.toUpper
  UInt8.ofNat (16 * value c₀ + value c₁)

/-- The digits as bytes, with zeros behind them. -/
def keyOf : (todo : Nat) → List Char → List UInt8
  | 0, _ => []
  | todo + 1, str => byteOf (str.headD '0') (str.tail.headD '0') :: keyOf todo (str.drop 2)

/-- Every byte has its two digits, except that the last may lack its second, and is below 10. -/
def AllDecimal (todo : Nat) (str : List Char) : Prop :=
  ∀ i < todo, str[2 * i]? = some '0' ∧ (str.getD (2 * i + 1) '0').isDigit = true

instance (todo : Nat) (str : List Char) : Decidable (AllDecimal todo str) :=
  inferInstanceAs (Decidable (∀ i < todo, _))

theorem allDecimal_succ :
    AllDecimal (todo + 1) (c₀ :: c₁ :: str) ↔
      (c₀ = '0' ∧ c₁.isDigit = true) ∧ AllDecimal todo str := by
  constructor
  · intro h
    have h₀ := h 0 (Nat.succ_pos todo)
    exact ⟨⟨Option.some.inj h₀.1, h₀.2⟩, fun i hi => h (i + 1) (Nat.succ_lt_succ hi)⟩
  · rintro ⟨⟨rfl, h₁⟩, h⟩ i hi
    cases i with
    | zero => exact ⟨rfl, h₁⟩
    | succ i => exact h i (Nat.lt_of_succ_lt_succ hi)

/-- Two hexadecimal digits are read as the byte they denote exactly if it is below 10. -/
theorem scanTmp_eq_byteOf (h₀ : c₀ ∈ hexDigits) (h₁ : c₁ ∈ hexDigits) :
    (scanTmp c₀ c₁ = some (byteOf c₀ c₁) ↔ c₀ = '0' ∧ c₁.isDigit = true) ∧
      (scanTmp c₀ c₁ = none → byteOf c₀ c₁ ≠ 0) := by
  have hall : (hexDigits.all fun c₀ => hexDigits.all fun c₁ =>
      decide ((scanTmp c₀ c₁ = some (byteOf c₀ c₁) ↔ c₀ = '0' ∧ c₁.isDigit = true) ∧
        (scanTmp c₀ c₁ = none → byteOf c₀ c₁ ≠ 0))) = true := by
    decide +kernel
  exact of_decide_eq_true (all_eq_true.mp (all_eq_true.mp hall c₀ h₀) c₁ h₁)

/-- What is printed for a byte are hexadecimal digits that denote it. -/
theorem hexOf_spec (b : UInt8) : (∀ c ∈ hexOf b, c ∈ hexDigits) ∧ keyOf 1 (hexOf b) = [b] ∧
    (AllDecimal 1 (hexOf b) ↔ b < 10) := by
  have hall : ∀ n < 256, ((hexOf (.ofNat n)).all hexDigits.contains) = true ∧
      keyOf 1 (hexOf (.ofNat n)) = [.ofNat n] ∧
      (AllDecimal 1 (hexOf (.ofNat n)) ↔ UInt8.ofNat n < 10) := by
    decide +kernel
  obtain ⟨hdigits, hb⟩ := hall b.toNat b.toNat_lt
  rw [UInt8.ofNat_toNat] at hdigits hb
  exact ⟨fun c hc => contains_iff_mem.mp (all_eq_true.mp hdigits c hc), hb⟩

/-- One pair of digits and the bytes behind it. -/
theorem scan_pair (h₀ : c₀ ∈ hexDigits) (h₁ : c₁ ∈ hexDigits)
    (rest : Option (List UInt8)) (key : List UInt8) :
    (match scanTmp c₀ c₁ with
      | none => some []
      | some b => rest.map (b :: ·)).map (fillKey (todo + 1)) = some (byteOf c₀ c₁ :: key) ↔
    (c₀ = '0' ∧ c₁.isDigit = true) ∧ rest.map (fillKey todo) = some key := by
  obtain ⟨heq, hne⟩ := scanTmp_eq_byteOf h₀ h₁
  rw [← heq]
  cases hscan : scanTmp c₀ c₁ with
  | none =>
    refine ⟨fun h => ?_, nofun⟩
    exact absurd (List.cons.inj (Option.some.inj h)).1.symm (hne hscan)
  | some b =>
    cases rest with
    | none => exact ⟨nofun, fun h => nomatch h.2⟩
    | some bytes => simp [fillKey]

/-- A string is read as the bytes it denotes exactly if all of these are below 10. -/
theorem scan_key_iff (hstr : ∀ c ∈ str, c ∈ hexDigits) (hlen : str.length ≤ 2 * todo) :
    (scanKey todo (str ++ ['\x00'])).map (fillKey todo) = some (keyOf todo str) ↔
      AllDecimal todo str := by
  induction todo generalizing str with
  | zero => exact ⟨fun _ _ h => absurd h (Nat.not_lt_zero _), fun _ => rfl⟩
  | succ todo ih =>
    match str with
    | [] => exact ⟨nofun, fun h => nomatch (h 0 (Nat.succ_pos todo)).1⟩
    | [c] =>
      -- the null is taken for a digit 0
      refine (scan_pair (hstr c mem_cons_self) (by decide : '0' ∈ hexDigits) (scanKey todo [])
        (keyOf todo [])).trans ⟨fun ⟨⟨hc, _⟩, h⟩ => ?_, fun h => ?_⟩
      · cases todo with
        | zero => exact hc ▸ by decide
        | succ todo => cases h
      · refine ⟨⟨Option.some.inj (h 0 (Nat.succ_pos todo)).1, rfl⟩, ?_⟩
        cases todo with
        | zero => rfl
        | succ todo => cases (h 1 (by omega)).1
    | c₀ :: c₁ :: str =>
      obtain ⟨h₀, h₁, hrest⟩ : c₀ ∈ hexDigits ∧ c₁ ∈ hexDigits ∧ ∀ c ∈ str, c ∈ hexDigits := by
        simpa only [forall_mem_cons] using hstr
      rw [allDecimal_succ, ← ih hrest (by simp only [length_cons] at hlen; omega)]
      exact scan_pair h₀ h₁ _ _

/-- The digits of a key denote it. -/
theorem printkey_spec (k : List UInt8) : (∀ c ∈ printkey k, c ∈ hexDigits) ∧
    (printkey k).length = 2 * k.length ∧ keyOf k.length (printkey k) = k ∧
    (AllDecimal k.length (printkey k) ↔ ∀ b ∈ k, b < 10) := by
  induction k with
  | nil => exact ⟨nofun, rfl, rfl, nofun, nofun⟩
  | cons b k ih =>
    obtain ⟨hdigits, hlen, hkey, hdec⟩ := ih
    obtain ⟨hb, hbyte, hlt⟩ := hexOf_spec b
    refine ⟨?_, ?_, ?_, ?_⟩
    · exact forall_mem_append.mpr ⟨hb, hdigits⟩
    · rw [printkey, flatMap_cons, length_append, ← printkey, hlen]
      exact Nat.add_comm ..
    · exact congr (congrArg List.cons (List.cons.inj hbyte).1) hkey
    · rw [forall_mem_cons, ← hlt, ← hdec]
      refine allDecimal_succ.trans (and_congr_left' ?_)
      exact (allDecimal_succ.trans (and_iff_left fun i hi => absurd hi (Nat.not_lt_zero i))).symm

/-- The same for the key of 16 bytes. -/
theorem make_secret_key_iff (hstr : ∀ c ∈ str, c ∈ hexDigits) (hlen : str.length ≤ 32) :
    (makeSecretKey str).map Prod.snd = some (keyOf 16 str) ↔ AllDecimal 16 str := by
  rw [← scan_key_iff hstr hlen, makeSecretKey, Option.map_map]
  rfl

/-- A printed key is read back exactly if all its bytes are below 10. A string of digits is read as
the bytes it denotes, within its null, exactly if it has 31 or 32 digits and these bytes are below
10. -/
theorem secret_key_read_back_iff (k : List UInt8) (hk : k.length = 16) (str : List Char)
    (hstr : ∀ c ∈ str, c ∈ hexDigits) (hlen : str.length ≤ 32) :
    ((makeSecretKey (printkey k)).map Prod.snd = some k ↔ ∀ b ∈ k, b < 10) ∧
      ((makeSecretKey str).map Prod.snd = some (keyOf 16 str) ↔ AllDecimal 16 str) := by
  refine ⟨?_, make_secret_key_iff hstr hlen⟩
  obtain ⟨hdigits, hlength, hkey, hdec⟩ := printkey_spec k
  rw [hk] at hlength hkey hdec
  rw [← hdec, ← make_secret_key_iff hdigits (Nat.le_of_eq hlength), hkey]

/-- The key of sixteen bytes 7, and the string of 31 zeros. -/
theorem small_bytes_read_back :
    (makeSecretKey (printkey (List.replicate 16 7))).map Prod.snd = some (List.replicate 16 7) ∧
      (makeSecretKey (List.replicate 31 '0')).map Prod.snd =
      some (keyOf 16 (List.replicate 31 '0')) := by
  have hstr : ∀ c ∈ List.replicate 31 '0', c ∈ hexDigits :=
    fun c hc => eq_of_mem_replicate hc ▸ by decide
  have h := secret_key_read_back_iff (List.replicate 16 7) (length_replicate ..) _ hstr (by decide)
  exact ⟨h.1.mpr fun b hb => eq_of_mem_replicate hb ▸ by decide, h.2.mpr (by decide)⟩

/-- The byte 16 is printed as "10" and read back as 10, and the string "01" is read behind its
null. -/
theorem sixteen_read_back_as_ten :
    makeSecretKey (printkey (List.replicate 16 16)) = some (1, List.replicate 16 10) ∧
      makeSecretKey ['0', '1'] = none := by
  decide +kernel

end Reconverse.Ccs
