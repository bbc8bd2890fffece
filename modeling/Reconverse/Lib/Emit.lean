import Mathlib

/-!
# Loops that fill a buffer

A loop writes entries into a buffer of `n` entries and stops when the buffer is full. What it leaves
is the old entries and the new ones, cut off at `n`. Loops in a row and nested loops, each left as
soon as the buffer is full, are again such loops.
-/

namespace Reconverse.Lib

open List

variable {ε α β : Type*} {n : Nat} {F G : List α → Except ε (List α)} {xs ys : List α}

/-- Entries that are cut off are cut off once more. -/
theorem take_append_take (n : Nat) (xs ys : List α) :
    (xs.take n ++ ys).take n = (xs ++ ys).take n := by
  rcases Nat.le_total n xs.length with hle | hge
  · rw [take_append_of_le_length hle,
      take_append_of_le_length (Nat.le_of_eq (length_take_of_le hle).symm),
      take_take, Nat.min_self]
  · rw [take_of_length_le hge]

/-- The loop `F` writes the entries `xs`, as long as there is room. -/
def Emits (n : Nat) (F : List α → Except ε (List α)) (xs : List α) : Prop :=
  ∀ buf, buf.length < n → F buf = .ok ((buf ++ xs).take n)

namespace Emits

theorem nil : Emits n (.ok : List α → Except ε (List α)) [] := by
  intro buf hbuf
  rw [append_nil, take_of_length_le (Nat.le_of_lt hbuf)]

/-- Two loops in a row, the second one only if there is room left. -/
theorem andThen (hF : Emits n F xs) (hG : Emits n G ys) :
    Emits n (fun buf => do
      let buf ← F buf
      if buf.length = n then .ok buf else G buf) (xs ++ ys) := by
  intro buf hbuf
  show (F buf).bind _ = _
  rw [hF buf hbuf]
  show (if ((buf ++ xs).take n).length = n then _ else _) = _
  rw [← append_assoc, ← take_append_take n (buf ++ xs)]
  split
  next hfull =>
    rw [take_append_of_le_length (Nat.le_of_eq hfull.symm), take_take, Nat.min_self]
  next hroom =>
    exact hG _ (Nat.lt_of_le_of_ne (length_take_le n _) hroom)

end Emits

end Reconverse.Lib
