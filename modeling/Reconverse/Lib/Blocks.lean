import Mathlib

/-!
# Blocks in a row

`f p` is the size of block `p`, and the blocks lie one behind the other: block `p` starts where the
blocks before it end. A place in a block and a place in the whole row are two names for the same
thing (`Blocks.bijOn`).
-/

namespace Reconverse.Lib.Blocks

variable {α : Type*} [AddCommGroup α] [LinearOrder α] [IsOrderedAddMonoid α] {f : ℕ → α}
  {m p q : ℕ} {x : α}

/-- Where block `p` starts. -/
def start (f : ℕ → α) (p : ℕ) : α := ∑ i ∈ Finset.range p, f i

omit [LinearOrder α] [IsOrderedAddMonoid α] in
@[simp] theorem start_zero : start f 0 = 0 := Finset.sum_range_zero f

omit [LinearOrder α] [IsOrderedAddMonoid α] in
theorem start_succ (f : ℕ → α) (p : ℕ) : start f (p + 1) = start f p + f p :=
  Finset.sum_range_succ f p

theorem start_mono (hf : ∀ i < m, 0 ≤ f i) (hpq : p ≤ q) (hq : q ≤ m) : start f p ≤ start f q :=
  Finset.sum_le_sum_of_subset_of_nonneg (Finset.range_mono hpq) fun i hi _ =>
    hf i (lt_of_lt_of_le (Finset.mem_range.mp hi) hq)

omit [IsOrderedAddMonoid α] in
/-- Every place before the end is in a block. -/
theorem exists_block (hx : 0 ≤ x) (hend : x < start f m) :
    ∃ p < m, start f p ≤ x ∧ x < start f p + f p := by
  induction m with
  | zero => exact absurd hend (not_lt_of_ge (start_zero (f := f) ▸ hx))
  | succ m ih =>
    rcases lt_or_ge x (start f m) with hlt | hge
    · obtain ⟨p, hp, hblock⟩ := ih hlt
      exact ⟨p, Nat.lt_succ_of_lt hp, hblock⟩
    · exact ⟨m, Nat.lt_succ_self m, hge, start_succ f m ▸ hend⟩

/-- No number is in two blocks. -/
theorem block_unique (hf : ∀ i < m, 0 ≤ f i) (hp : p < m) (hq : q < m) (hpx : start f p ≤ x)
    (hxp : x < start f p + f p) (hqx : start f q ≤ x) (hxq : x < start f q + f q) : p = q := by
  have hle {p q : ℕ} (hq : q < m) (hqx : start f q ≤ x) (hxp : x < start f p + f p) : q ≤ p := by
    by_contra hlt
    have hstart := start_mono hf (Nat.succ_le_of_lt (Nat.lt_of_not_le hlt)) (le_of_lt hq)
    rw [start_succ] at hstart
    exact absurd hxp (not_lt_of_ge (hstart.trans hqx))
  exact le_antisymm (hle hp hpx hxq) (hle hq hqx hxp)

/-- The blocks cover the row up to the end of the last one, without overlaps. -/
theorem bijOn (hf : ∀ i < m, 0 ≤ f i) :
    Set.BijOn (fun place : ℕ × α => start f place.1 + place.2)
      {place | place.1 < m ∧ 0 ≤ place.2 ∧ place.2 < f place.1} (Set.Ico 0 (start f m)) := by
  refine ⟨?_, ?_, ?_⟩
  · intro place hplace
    obtain ⟨hp, hnonneg, hlt⟩ := hplace
    constructor
    · exact add_nonneg (start_zero (f := f) ▸ start_mono hf (Nat.zero_le _) (Nat.le_of_lt hp))
        hnonneg
    · calc start f place.1 + place.2 < start f place.1 + f place.1 := by gcongr
        _ = start f (place.1 + 1) := (start_succ f _).symm
        _ ≤ start f m := start_mono hf hp (le_refl m)
  · intro place hplace place' hplace' heq
    obtain ⟨p, x⟩ := place
    obtain ⟨q, y⟩ := place'
    obtain ⟨hp, hx, hxp⟩ := hplace
    obtain ⟨hq, hy, hyq⟩ := hplace'
    have hsum : start f p + x = start f q + y := heq
    obtain rfl : p = q := by
      refine block_unique hf hp hq (le_add_of_nonneg_right hx)
        (by gcongr) ?_ ?_
      · rw [hsum]
        exact le_add_of_nonneg_right hy
      · rw [hsum]
        gcongr
    rw [add_left_cancel hsum]
  · intro x hx
    obtain ⟨p, hp, hle, hlt⟩ := exists_block hx.1 hx.2
    refine ⟨(p, x - start f p), ⟨hp, sub_nonneg.mpr hle, sub_lt_iff_lt_add'.mpr hlt⟩, ?_⟩
    exact add_sub_cancel (start f p) x

end Reconverse.Lib.Blocks
