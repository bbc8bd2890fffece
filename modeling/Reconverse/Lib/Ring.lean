import Mathlib

/-!
# Ring buffers with indices that count up

Element `i` of an unbounded sequence is kept in slot `i % n` of an array of `n` slots. `span` reads
the elements with the indices from `a` to `b`. A write to the slot of index `i` leaves a span alone
if its indices are less than `n` below `i` (`span_update`).
-/

namespace Reconverse.Lib.Ring

open Function (update)
open List

variable {n : Nat} [NeZero n] {α : Type*} {a b : Int} (data : Fin n → α)

/-- The slot of an index that is not negative. -/
def slot (n : Nat) [NeZero n] (i : Int) : Fin n := Fin.ofNat n i.toNat

/-- Indices that are less than `n` apart have different slots. -/
theorem slot_ne {i j : Int} (hi : 0 ≤ i) (hij : i < j) (hj : j - i < n) : slot n i ≠ slot n j := by
  intro heq
  have hmod : i.toNat % n = j.toNat % n := congrArg Fin.val heq
  have hdvd : n ∣ j.toNat - i.toNat :=
    Nat.dvd_of_mod_eq_zero (Nat.sub_mod_eq_zero_of_mod_eq hmod.symm)
  have hle := Nat.le_of_dvd (by omega) hdvd
  omega

/-- The elements with the indices from `a` on and below `b`. -/
def span (data : Fin n → α) (a b : Int) : List α :=
  (List.range (b - a).toNat).map fun k : Nat => data (slot n (a + k))

theorem span_of_le (h : b ≤ a) : span data a b = [] := by
  rw [span, Int.toNat_of_nonpos (by omega)]
  rfl

/-- The first entry of a span. -/
theorem span_front (h : a < b) :
    span data a b = data (slot n a) :: span data (a + 1) b := by
  obtain ⟨k, hk⟩ := Int.eq_ofNat_of_zero_le (show 0 ≤ b - (a + 1) by omega)
  have hlen : (b - a).toNat = k + 1 := by omega
  have hrest : (b - (a + 1)).toNat = k := by omega
  rw [span, span, hlen, hrest, range_succ_eq_map, map_cons, map_map]
  have hzero : a + ((0 : Nat) : Int) = a := by omega
  rw [hzero]
  refine congrArg _ (map_congr_left fun j _ => ?_)
  have hsucc : a + ((j + 1 : Nat) : Int) = a + 1 + j := by omega
  show data (slot n (a + ((j + 1 : Nat) : Int))) = data (slot n (a + 1 + j))
  rw [hsucc]

/-- The last entry of a span. -/
theorem span_back (h : a ≤ b) :
    span data a (b + 1) = span data a b ++ [data (slot n b)] := by
  obtain ⟨k, hk⟩ := Int.eq_ofNat_of_zero_le (show 0 ≤ b - a by omega)
  have hlen : (b + 1 - a).toNat = k + 1 := by omega
  have hrest : (b - a).toNat = k := by omega
  rw [span, span, hlen, hrest, range_succ, map_append, map_singleton]
  rw [show a + (k : Int) = b by omega]

/-- A write to the slot of an index that is less than `n` above the elements. -/
theorem span_update {a b i : Int} (ha : 0 ≤ a) (hb : b ≤ i) (hi : i - a < n)
    (x : α) : span (update data (slot n i) x) a b = span data a b := by
  refine map_congr_left fun k hk => ?_
  have hlt := mem_range.mp hk
  exact Function.update_of_ne (slot_ne (by omega) (by omega) (by omega)) ..

end Reconverse.Lib.Ring

namespace Reconverse.Lib

open Function (update)

variable {n : Nat} {α β : Type*}

/-- What the threads of a system hold, if only thread `i` changes. -/
theorem filterMap_finRange (f : Fin n → α) (i : Fin n) (g : α → Option β) :
    ∃ rest : List β, ∀ v : α,
      ((List.finRange n).filterMap fun j => g (update f i v j)).Perm ((g v).toList ++ rest) := by
  refine ⟨((List.finRange n).erase i).filterMap fun j => g (f j), fun v => ?_⟩
  have hperm := List.perm_cons_erase (List.mem_finRange i)
  refine (hperm.filterMap _).trans ?_
  have hrest : ((List.finRange n).erase i).filterMap (fun j => g (update f i v j)) =
      ((List.finRange n).erase i).filterMap fun j => g (f j) := by
    refine List.filterMap_congr fun j hj => ?_
    rw [Function.update_of_ne ((List.nodup_finRange n).mem_erase_iff.mp hj).1]
  rw [List.filterMap_cons, Function.update_self, hrest]
  cases g v <;> exact .refl _

end Reconverse.Lib
