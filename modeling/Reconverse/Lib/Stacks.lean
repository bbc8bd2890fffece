import Mathlib

/-!
# Linked stacks that share their cells

`Chain nil next head xs` says that the cells `xs` are linked from `head` by `next`, and that `nil`
ends the list. `Placed Present lists` says that every element that exists is in exactly one of the
lists of a family; its rule `Placed.move` covers pushing, popping, and moving a whole list.
-/

namespace Reconverse.Lib

open Function (update)
open List

/-! ## Chains -/

/-- The cells `xs` are linked from `head`. -/
def Chain {α : Type*} (nil : α) (next : α → α) : (head : α) → List α → Prop
  | head, [] => head = nil
  | head, x :: xs => head = x ∧ x ≠ nil ∧ Chain nil next (next x) xs

/-- The cells that are linked from `head`. -/
def walk (nil : Nat) (next : Nat → Nat) : (fuel : Nat) → (head : Nat) → List Nat
  | 0, _ => []
  | fuel + 1, head => if head = nil then [] else head :: walk nil next fuel (next head)

namespace Chain

variable {α : Type*} {nil head x : α} {next next' : α → α} {xs : List α}

/-- A list without a head is empty. -/
theorem head_eq_nil_iff (h : Chain nil next head xs) : head = nil ↔ xs = [] := by
  cases xs with
  | nil => exact ⟨fun _ => rfl, fun _ => h⟩
  | cons x xs => exact ⟨fun hnil => absurd (h.1.symm.trans hnil) h.2.1, fun hnil => nomatch hnil⟩

/-- A list that is not empty starts at its head. -/
theorem exists_cons (h : Chain nil next head xs) (hne : head ≠ nil) :
    ∃ rest, xs = head :: rest ∧ Chain nil next (next head) rest := by
  cases xs with
  | nil => exact absurd h hne
  | cons x xs =>
    obtain ⟨rfl, -, hrest⟩ := h
    exact ⟨xs, rfl, hrest⟩

/-- Only the links of the cells matter. -/
theorem congr (h : Chain nil next head xs) (hnext : ∀ y ∈ xs, next' y = next y) :
    Chain nil next' head xs := by
  induction xs generalizing head with
  | nil => exact h
  | cons y ys ih =>
    refine ⟨h.1, h.2.1, ?_⟩
    rw [hnext y mem_cons_self]
    exact ih h.2.2 fun z hz => hnext z (mem_cons_of_mem _ hz)

/-- The walk visits the cells in order. -/
theorem walk_eq {nil head : Nat} {next : Nat → Nat} {xs : List Nat} (h : Chain nil next head xs)
    {fuel : Nat} (hfuel : xs.length < fuel) : walk nil next fuel head = xs := by
  induction xs generalizing head fuel with
  | nil =>
    cases fuel with
    | zero => rfl
    | succ fuel => exact if_pos h
  | cons y ys ih =>
    obtain ⟨rfl, hne, hrest⟩ := h
    cases fuel with
    | zero => exact absurd hfuel (Nat.not_lt_zero _)
    | succ fuel =>
      rw [walk, if_neg hne, ih hrest (Nat.lt_of_succ_lt_succ hfuel)]

end Chain

/-! ## Elements with one place each -/

/-- Every element that exists is in exactly one of the lists, and there once. -/
structure Placed {ι α : Type*} (Present : α → Prop) (lists : ι → List α) : Prop where
  nodup : ∀ i, (lists i).Nodup
  unique : ∀ i j x, x ∈ lists i → x ∈ lists j → i = j
  mem_iff : ∀ x, Present x ↔ ∃ i, x ∈ lists i

namespace Placed

variable {ι α : Type*} {Present Present' : α → Prop} {lists lists' : ι → List α} {i j : ι} {x : α}

section

variable (h : Placed Present lists)

include h

/-- An element of one list is in no other. -/
theorem not_mem (hx : x ∈ lists i) (hij : j ≠ i) : x ∉ lists j := fun hj =>
  hij (h.unique j i x hj hx)

/-- Elements are moved from one list to another. -/
theorem move (ys : List α) (hij : i ≠ j)
    (hfrom : (lists i).Perm (ys ++ lists' i)) (hto : (lists' j).Perm (ys ++ lists j))
    (hother : ∀ k, k ≠ i → k ≠ j → lists' k = lists k) : Placed Present lists' := by
  have hnodup := hfrom.nodup_iff.mp (h.nodup i)
  obtain ⟨hys, hrest, hdisj⟩ := nodup_append.mp hnodup
  have hmem : ∀ z, z ∈ lists i ↔ z ∈ ys ∨ z ∈ lists' i := fun z => by
    rw [hfrom.mem_iff, mem_append]
  -- Where an element is after the move, by where it was before.
  have hcases : ∀ k z, z ∈ lists' k ↔
      (k = j ∧ z ∈ ys) ∨ (k = i ∧ z ∈ lists' i) ∨ (k ≠ i ∧ z ∈ lists k) := by
    intro k z
    rcases eq_or_ne k j with rfl | hkj
    · rw [hto.mem_iff]
      simp [hij.symm]
    · rcases eq_or_ne k i with rfl | hki
      · simp [hkj]
      · rw [hother k hki hkj]
        simp [hkj, hki]
  refine ⟨fun k => ?_, fun k l z hk hl => ?_, fun z => ?_⟩
  · rcases eq_or_ne k j with rfl | hkj
    · rw [hto.nodup_iff, nodup_append]
      refine ⟨hys, h.nodup k, fun y hy z hz heq => ?_⟩
      subst heq
      exact hij (h.unique i k y ((hmem y).mpr (.inl hy)) hz)
    · rcases eq_or_ne k i with rfl | hki
      · exact hrest
      · rw [hother k hki hkj]
        exact h.nodup k
  · have hold : ∀ m, z ∈ lists m → z ∈ lists i → m = i := fun m hm hi => h.unique m i z hm hi
    rw [hcases] at hk hl
    rcases hk with ⟨rfl, hk⟩ | ⟨rfl, hk⟩ | ⟨hki, hk⟩ <;> rcases hl with ⟨rfl, hl⟩ | ⟨rfl, hl⟩ |
      ⟨hli, hl⟩
    · rfl
    · exact absurd rfl (hdisj z hk z hl)
    · exact absurd (hold l hl ((hmem z).mpr (.inl hk))) hli
    · exact absurd rfl (hdisj z hl z hk)
    · rfl
    · exact absurd (hold l hl ((hmem z).mpr (.inr hk))) hli
    · exact absurd (hold k hk ((hmem z).mpr (.inl hl))) hki
    · exact absurd (hold k hk ((hmem z).mpr (.inr hl))) hki
    · exact h.unique k l z hk hl
  · rw [h.mem_iff]
    constructor
    · rintro ⟨k, hk⟩
      rcases eq_or_ne k i with rfl | hki
      · rcases (hmem z).mp hk with hz | hz
        · exact ⟨j, (hcases j z).mpr (.inl ⟨rfl, hz⟩)⟩
        · exact ⟨k, hz⟩
      · exact ⟨k, (hcases k z).mpr (.inr (.inr ⟨hki, hk⟩))⟩
    · rintro ⟨k, hk⟩
      rcases (hcases k z).mp hk with ⟨-, hz⟩ | ⟨-, hz⟩ | ⟨-, hz⟩
      · exact ⟨i, (hmem z).mpr (.inl hz)⟩
      · exact ⟨i, (hmem z).mpr (.inr hz)⟩
      · exact ⟨k, hz⟩

/-- A new element is put into a list. -/
theorem insert (hx : ¬ Present x) (hnew : ∀ z, Present' z ↔ z = x ∨ Present z)
    (hto : (lists' i).Perm (x :: lists i)) (hother : ∀ k, k ≠ i → lists' k = lists k) :
    Placed Present' lists' := by
  have hout : ∀ k, x ∉ lists k := fun k hk => hx ((h.mem_iff x).mpr ⟨k, hk⟩)
  have hcases : ∀ k z, z ∈ lists' k ↔ (k = i ∧ z = x) ∨ z ∈ lists k := by
    intro k z
    rcases eq_or_ne k i with rfl | hki
    · rw [hto.mem_iff]
      simp
    · rw [hother k hki]
      simp [hki]
  refine ⟨fun k => ?_, fun k l z hk hl => ?_, fun z => ?_⟩
  · rcases eq_or_ne k i with rfl | hki
    · rw [hto.nodup_iff, nodup_cons]
      exact ⟨hout k, h.nodup k⟩
    · rw [hother k hki]
      exact h.nodup k
  · rw [hcases] at hk hl
    rcases hk with ⟨rfl, rfl⟩ | hk <;> rcases hl with ⟨rfl, hl⟩ | hl
    · rfl
    · exact absurd hl (hout l)
    · exact absurd (hl ▸ hk) (hout k)
    · exact h.unique k l z hk hl
  · rw [hnew, h.mem_iff]
    constructor
    · rintro (rfl | ⟨k, hk⟩)
      · exact ⟨i, (hcases i z).mpr (.inl ⟨rfl, rfl⟩)⟩
      · exact ⟨k, (hcases k z).mpr (.inr hk)⟩
    · rintro ⟨k, hk⟩
      rcases (hcases k z).mp hk with ⟨-, rfl⟩ | hz
      · exact .inl rfl
      · exact .inr ⟨k, hz⟩

/-- An element is taken out of its list. -/
theorem remove (hnew : ∀ z, Present' z ↔ Present z ∧ z ≠ x)
    (hfrom : (lists i).Perm (x :: lists' i)) (hother : ∀ k, k ≠ i → lists' k = lists k) :
    Placed Present' lists' := by
  have hx : x ∈ lists i := hfrom.mem_iff.mpr mem_cons_self
  have hnodup := nodup_cons.mp (hfrom.nodup_iff.mp (h.nodup i))
  have hcases : ∀ k z, z ∈ lists' k ↔ z ∈ lists k ∧ z ≠ x := by
    intro k z
    rcases eq_or_ne k i with rfl | hki
    · rw [hfrom.mem_iff, mem_cons]
      constructor
      · intro hz
        exact ⟨.inr hz, ne_of_mem_of_not_mem hz hnodup.1⟩
      · rintro ⟨rfl | hz, hne⟩
        · exact absurd rfl hne
        · exact hz
    · rw [hother k hki]
      refine ⟨fun hz => ⟨hz, ?_⟩, And.left⟩
      rintro rfl
      exact hki (h.unique k i z hz hx)
  refine ⟨fun k => ?_, fun k l z hk hl => ?_, fun z => ?_⟩
  · rcases eq_or_ne k i with rfl | hki
    · exact hnodup.2
    · rw [hother k hki]
      exact h.nodup k
  · exact h.unique k l z ((hcases k z).mp hk).1 ((hcases l z).mp hl).1
  · rw [hnew, h.mem_iff]
    constructor
    · rintro ⟨⟨k, hk⟩, hne⟩
      exact ⟨k, (hcases k z).mpr ⟨hk, hne⟩⟩
    · rintro ⟨k, hk⟩
      exact ⟨⟨k, ((hcases k z).mp hk).1⟩, ((hcases k z).mp hk).2⟩

end

end Placed

end Reconverse.Lib
