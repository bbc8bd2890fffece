import Reconverse.Lib.CInt

/-!
# Scanning numbers

`sscanf` with the directives that read an `int` and that match one character. A number that does not
fit an `int` is undefined behaviour. Numerals, which are non-empty strings of digits, are what the
directive for an `int` reads.
-/

namespace Reconverse.Lib.Scan

open CInt List

variable {s : List Char} {c : Char}

/-- The number that a string of digits denotes. -/
def decimal (digits : List Char) : Nat := digits.foldl (fun n c => 10 * n + (c.toNat - 48)) 0

/-- Read a number, after blanks and a sign. The rest of the text is returned with it. -/
def scanInt (s : List Char) : Option (Int × List Char) :=
  let s := s.dropWhile Char.isWhitespace
  let (negative, s) := match s with
    | '-' :: s => (true, s)
    | '+' :: s => (false, s)
    | s => (false, s)
  let digits := s.takeWhile Char.isDigit
  if digits = [] then none
  else some (if negative then -decimal digits else decimal digits, s.dropWhile Char.isDigit)

/-- A directive of a format. -/
inductive Directive where
  | d
  | lit (c : Char)
  deriving DecidableEq, Repr

/-- The numbers that are read before the first directive that fails. -/
def sscanf : List Directive → List Char → Option (List Int)
  | [], _ => some []
  | .d :: format, s =>
    match scanInt s with
    | none => some []
    | some (v, s) => if Fits v then (sscanf format s).map (v :: ·) else none
  | .lit _ :: _, [] => some []
  | .lit c :: format, c' :: s => if c = c' then sscanf format s else some []

/-- A non-empty string of digits. -/
structure Numeral where
  digits : List Char
  nonempty : digits ≠ []
  isDigit : ∀ c ∈ digits, c.isDigit = true

/-- The number that a numeral denotes. -/
def Numeral.value (n : Numeral) : Nat := decimal n.digits

/-- The text does not go on with a digit. -/
def Stops (s : List Char) : Prop := ∀ c, s.head? = some c → c.isDigit = false

theorem stops_nil : Stops [] := fun _ h => by cases h

theorem stops_cons (h : c.isDigit = false) (s : List Char) : Stops (c :: s) :=
  fun _ h' => Option.some.inj h' ▸ h

theorem Stops.takeWhile_eq (h : Stops s) : s.takeWhile Char.isDigit = [] := by
  cases s with
  | nil => rfl
  | cons c s => rw [takeWhile_cons_of_neg (by simp [h c rfl])]

theorem Stops.dropWhile_eq (h : Stops s) : s.dropWhile Char.isDigit = s := by
  cases s with
  | nil => rfl
  | cons c s => rw [dropWhile_cons_of_neg (by simp [h c rfl])]

theorem isDigit_ne {c c' : Char} (h : c.isDigit = true) (h' : c'.isDigit = false) : c ≠ c' := by
  rintro rfl
  rw [h] at h'
  cases h'

theorem isDigit_not_whitespace (h : c.isDigit = true) : c.isWhitespace = false := by
  have hne : ∀ c', c'.isDigit = false → c ≠ c' := fun _ => isDigit_ne h
  simp only [Char.isWhitespace, Bool.or_eq_false_iff, decide_eq_false_iff_not]
  exact ⟨⟨⟨hne _ (by decide), hne _ (by decide)⟩, hne _ (by decide)⟩, hne _ (by decide)⟩

namespace Numeral

variable (n : Numeral)

theorem exists_cons : ∃ c ds, n.digits = c :: ds ∧ c.isDigit = true := by
  obtain ⟨c, ds, h⟩ := exists_cons_of_ne_nil n.nonempty
  exact ⟨c, ds, h, n.isDigit c (h ▸ mem_cons_self)⟩

/-- A number is scanned up to its end. -/
theorem scanInt_append (hs : Stops s) : scanInt (n.digits ++ s) = some ((n.value : Int), s) := by
  obtain ⟨c, ds, hdigits, hc⟩ := n.exists_cons
  have hspace : (n.digits ++ s).dropWhile Char.isWhitespace = n.digits ++ s := by
    rw [hdigits, cons_append, dropWhile_cons_of_neg (by simp [isDigit_not_whitespace hc])]
  have hminus : c ≠ '-' := isDigit_ne hc (by decide)
  have hplus : c ≠ '+' := isDigit_ne hc (by decide)
  have htake : (n.digits ++ s).takeWhile Char.isDigit = n.digits := by
    rw [takeWhile_append_of_pos n.isDigit, hs.takeWhile_eq, append_nil]
  have hdrop : (n.digits ++ s).dropWhile Char.isDigit = s := by
    rw [dropWhile_append_of_pos n.isDigit, hs.dropWhile_eq]
  unfold scanInt
  simp only [hspace]
  split
  next heq =>
    rw [hdigits] at heq
    exact absurd (List.cons.inj heq).1 hminus
  next heq =>
    rw [hdigits] at heq
    exact absurd (List.cons.inj heq).1 hplus
  next =>
    simp only [htake, hdrop, if_neg n.nonempty]
    rfl

/-- The directive for an `int` reads a numeral. -/
theorem sscanf_d (hfits : Fits n.value) (hs : Stops s) (format : List Directive) :
    sscanf (.d :: format) (n.digits ++ s) = (sscanf format s).map ((n.value : Int) :: ·) := by
  rw [sscanf, n.scanInt_append hs]
  exact if_pos hfits

end Numeral

theorem sscanf_lit (c : Char) (format : List Directive) (s : List Char) :
    sscanf (.lit c :: format) (c :: s) = sscanf format s := by
  rw [sscanf, if_pos rfl]

/-- A numeral and the character behind it. -/
theorem Numeral.sscanf_d_lit (n : Numeral) (hfits : Fits n.value)
    (hc : c.isDigit = false) (format : List Directive) (s : List Char) :
    sscanf (.d :: .lit c :: format) (n.digits ++ c :: s) =
      (sscanf format s).map ((n.value : Int) :: ·) := by
  rw [n.sscanf_d hfits (stops_cons hc s), sscanf_lit]

end Reconverse.Lib.Scan
