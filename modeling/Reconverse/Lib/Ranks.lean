import Mathlib

/-!
# Ranks

The rank of a value in a finite set of values is the number of smaller ones. Ranks number the values
of the set from 0 on, in their order. In a sorted list the rank of a value is where it stands.
-/

namespace Reconverse.Lib

open List

variable {κ : Type*} [LinearOrder κ]

/-- The number of values in the set that are smaller. -/
def rank (s : Finset κ) (x : κ) : Nat := (s.filter (· < x)).card

variable {s : Finset κ} {x y : κ} {l : List κ}

/-- Ranks grow with the numbers of the set. -/
theorem rank_lt_rank (hx : x ∈ s) (h : x < y) : rank s x < rank s y := by
  refine Finset.card_lt_card ⟨fun z hz => ?_, fun hsub => ?_⟩
  · obtain ⟨hz, hlt⟩ := Finset.mem_filter.mp hz
    exact Finset.mem_filter.mpr ⟨hz, hlt.trans h⟩
  · exact lt_irrefl x (Finset.mem_filter.mp (hsub (Finset.mem_filter.mpr ⟨hx, h⟩))).2

/-- Values of the set with one rank are equal. -/
theorem rank_inj (hx : x ∈ s) (hy : y ∈ s) (h : rank s x = rank s y) : x = y := by
  rcases lt_trichotomy x y with hlt | heq | hgt
  · exact absurd h (rank_lt_rank hx hlt).ne
  · exact heq
  · exact absurd h (rank_lt_rank hy hgt).ne'

theorem rank_lt_card (hx : x ∈ s) : rank s x < s.card := by
  refine Finset.card_lt_card ⟨Finset.filter_subset _ _, fun hsub => ?_⟩
  exact lt_irrefl x (Finset.mem_filter.mp (hsub hx)).2

/-- The ranks of the values of a set are all numbers below its size. -/
theorem image_rank : s.image (rank s) = Finset.range s.card := by
  refine Finset.eq_of_subset_of_card_le (fun r hr => ?_) ?_
  · obtain ⟨x, hx, rfl⟩ := Finset.mem_image.mp hr
    exact Finset.mem_range.mpr (rank_lt_card hx)
  · rw [Finset.card_image_of_injOn fun x hx y hy => rank_inj hx hy, Finset.card_range]

/-- Every number below the size of a set is a rank. -/
theorem exists_rank_eq {r : Nat} (hr : r < s.card) : ∃ x ∈ s, rank s x = r := by
  have hmem : r ∈ s.image (rank s) := by
    rw [image_rank]
    exact Finset.mem_range.mpr hr
  exact Finset.mem_image.mp hmem

/-- The smallest value has rank 0. -/
theorem rank_eq_zero (h : ∀ y ∈ s, x ≤ y) : rank s x = 0 := by
  refine Finset.card_eq_zero.mpr (Finset.filter_eq_empty_iff.mpr fun y hy => ?_)
  exact not_lt.mpr (h y hy)

/-- A larger value does not change the rank. -/
theorem rank_insert_of_le (h : x ≤ y) : rank (insert y s) x = rank s x := by
  unfold rank
  rw [Finset.filter_insert, if_neg (not_lt.mpr h)]

/-! ## Sorted lists -/

/-- In a sorted list the smaller values are the first ones. -/
theorem takeWhile_lt (h : l.Pairwise (· < ·)) (x : κ) : l.takeWhile (· < x) = l.filter (· < x) := by
  induction l with
  | nil => rfl
  | cons y l ih =>
    obtain ⟨hy, hl⟩ := pairwise_cons.mp h
    by_cases hlt : y < x
    · rw [takeWhile_cons_of_pos (by simpa using hlt),
        filter_cons_of_pos (by simpa using hlt), ih hl]
    · rw [takeWhile_cons_of_neg (by simpa using hlt),
        filter_cons_of_neg (by simpa using hlt), filter_eq_nil_iff.mpr]
      intro z hz
      simpa using (not_lt.mp hlt).trans (hy z hz).le

/-- In a sorted list there are as many values before a value as its rank says. -/
theorem length_takeWhile_lt (h : l.Pairwise (· < ·)) (x : κ) :
    (l.takeWhile (· < x)).length = rank l.toFinset x := by
  have hnodup : (l.filter (· < x)).Nodup := (h.imp fun hlt => hlt.ne).filter _
  unfold rank
  rw [takeWhile_lt h, ← toFinset_card_of_nodup hnodup, toFinset_filter]
  simp only [decide_eq_true_eq]

/-- A value of a sorted list stands behind the smaller ones. -/
theorem getElem?_takeWhile_lt (h : l.Pairwise (· < ·)) (hx : x ∈ l) :
    l[(l.takeWhile (· < x)).length]? = some x := by
  induction l with
  | nil => cases hx
  | cons y l ih =>
    obtain ⟨hy, hl⟩ := pairwise_cons.mp h
    rcases mem_cons.mp hx with rfl | hx
    · rw [takeWhile_cons_of_neg (by simp)]
      rfl
    · rw [takeWhile_cons_of_pos (by simpa using hy x hx)]
      exact ih hl hx

end Reconverse.Lib
