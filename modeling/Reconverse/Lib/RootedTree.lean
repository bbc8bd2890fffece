import Mathlib

/-!
# Finite trees given by a parent function

A `RootedTree` is a duplicate-free list of members with a parent function that strictly
decreases a rank, so following parents from any member ends at the root. `Below t i j` says
`j` lies in the subtree of `i`. The counting law `count_children_below` is what exactly-once
arguments use: a member below `i` is `i` itself or lies below exactly one child of `i`;
`filter_below_perm` is the same law for items that live at the members.
-/

namespace Reconverse.Lib

open List

variable {ι : Type*}

/-- A finite tree over `members`. The rank is any measure that parents decrease. -/
structure RootedTree (ι : Type*) where
  members : List ι
  nodup : members.Nodup
  parent : ι → Option ι
  root : ι
  rank : ι → Nat
  root_mem : root ∈ members
  parent_mem : ∀ {c p}, c ∈ members → parent c = some p → p ∈ members
  parent_rank : ∀ {c p}, c ∈ members → parent c = some p → rank p < rank c
  parent_eq_none : ∀ {c}, c ∈ members → (parent c = none ↔ c = root)

namespace RootedTree

variable (t : RootedTree ι)

/-- The members whose parent is `p`, in member order. -/
def children [DecidableEq ι] (p : ι) : List ι :=
  t.members.filter fun c => t.parent c = some p

/-- `Below t i j` says `i` is reached from `j` by following parents zero or more times. -/
inductive Below (i : ι) : ι → Prop where
  | refl : Below i i
  | up {j p : ι} : t.parent j = some p → Below i p → Below i j

variable {t} {i j c p : ι}

/-- The ranks of the members are bounded. -/
theorem exists_rank_bound (t : RootedTree ι) : ∃ bound, ∀ j ∈ t.members, t.rank j ≤ bound := by
  induction t.members with
  | nil => exact ⟨0, by simp⟩
  | cons c cs ih =>
    obtain ⟨bound, hbound⟩ := ih
    refine ⟨max (t.rank c) bound, forall_mem_cons.mpr ⟨Nat.le_max_left _ _, ?_⟩⟩
    exact fun j hj => Nat.le_trans (hbound j hj) (Nat.le_max_right _ _)

section Children

variable [DecidableEq ι]

@[simp] theorem mem_children : c ∈ t.children p ↔ c ∈ t.members ∧ t.parent c = some p := by
  simp [children]

theorem children_nodup (t : RootedTree ι) (p : ι) : (t.children p).Nodup :=
  t.nodup.filter _

end Children

/-- Descending a subtree does not decrease the rank. -/
theorem Below.rank_le (h : t.Below i j) (hj : j ∈ t.members) : t.rank i ≤ t.rank j := by
  induction h with
  | refl => exact Nat.le_refl _
  | up hp _ ih => exact Nat.le_of_lt (Nat.lt_of_le_of_lt (ih (t.parent_mem hj hp))
      (t.parent_rank hj hp))

/-- Every member lies below the root. -/
theorem below_root (hj : j ∈ t.members) : t.Below t.root j := by
  induction hr : t.rank j using Nat.strongRecOn generalizing j with
  | _ r ih =>
    cases hp : t.parent j with
    | none =>
      rw [t.parent_eq_none hj] at hp
      exact hp ▸ .refl
    | some p => exact .up hp (ih _ (hr ▸ t.parent_rank hj hp) (t.parent_mem hj hp) rfl)

/-- `Below` as the closure of the parent relation. -/
theorem Below.reflTransGen (h : t.Below i j) :
    Relation.ReflTransGen (fun c p => t.parent c = some p) j i := by
  induction h with
  | refl => exact .refl
  | up hp _ ih => exact .head hp ih

/-- A member with a parent is below `i` exactly if it is `i` or its parent is below `i`. -/
theorem below_iff (hp : t.parent j = some p) : t.Below i j ↔ i = j ∨ t.Below i p := by
  constructor
  · intro h
    cases h with
    | refl => exact .inl rfl
    | up hp' h => exact .inr (Option.mem_unique hp hp' ▸ h)
  · rintro (rfl | h)
    · exact .refl
    · exact .up hp h

/-- Only `i` itself can be below `i` without having a parent. -/
theorem below_of_none (hp : t.parent j = none) : t.Below i j ↔ i = j := by
  constructor
  · intro h
    cases h with
    | refl => rfl
    | up hp' _ => exact absurd (hp.symm.trans hp') (by simp)
  · rintro rfl
    exact .refl

/-- A child of `i` is not above `i`. -/
theorem not_below_parent (hc : c ∈ t.members) (hp : t.parent c = some i) : ¬ t.Below c i := by
  intro h
  exact absurd (h.rank_le (t.parent_mem hc hp)) (Nat.not_le.mpr (t.parent_rank hc hp))

open Classical in
/-- A member is below `i` if it is `i` itself or below exactly one child of `i`; a member that
is not below `i` is below none of its children. -/
theorem count_children_below [DecidableEq ι] (i : ι) (hj : j ∈ t.members) :
    (if i = j then 1 else 0) + (t.children i).countP (t.Below · j) =
      if t.Below i j then 1 else 0 := by
  induction hr : t.rank j using Nat.strongRecOn generalizing j with
  | _ r ih =>
    by_cases hij : i = j
    · -- The children of `i` lie strictly under it, so none of them is above `i`.
      subst hij
      have hnone : (t.children i).countP (t.Below · i) = 0 := by
        simp only [countP_eq_zero, mem_children, decide_eq_true_eq]
        exact fun c hc => not_below_parent hc.1 hc.2
      rw [hnone, if_pos rfl, if_pos .refl]
    rw [if_neg hij, zero_add]
    cases hp : t.parent j with
    | none =>
      have hnone : (t.children i).countP (t.Below · j) = 0 := by
        simp only [countP_eq_zero, mem_children, decide_eq_true_eq]
        rintro c ⟨-, hc⟩ h
        rw [(below_of_none hp).mp h, hp] at hc
        cases hc
      rw [hnone, if_neg (by rwa [below_of_none hp])]
    | some p =>
      by_cases hpi : p = i
      · -- `j` is itself a child of `i`, and the only one that is above `j`.
        subst hpi
        have hone : (t.children p).countP (t.Below · j) = (t.children p).count j := by
          rw [count_eq_countP]
          refine countP_congr fun c hc => ?_
          rw [mem_children] at hc
          have hcp := not_below_parent hc.1 hc.2
          simp [below_iff hp, hcp]
        rw [hone, if_pos (.up hp .refl)]
        exact count_eq_one_of_mem (t.children_nodup p) (mem_children.mpr ⟨hj, hp⟩)
      · have hrest : (t.children i).countP (t.Below · j) =
            (t.children i).countP (t.Below · p) := by
          refine countP_congr fun c hc => ?_
          rw [mem_children] at hc
          have hcj : c ≠ j := by
            rintro rfl
            exact hpi (Option.mem_unique hp hc.2)
          simp [below_iff hp, hcj]
        have hpar := ih _ (hr ▸ t.parent_rank hj hp) (t.parent_mem hj hp) rfl
        rw [if_neg (Ne.symm hpi), zero_add] at hpar
        rw [hrest, hpar]
        simp [below_iff hp, hij]

open Classical in
/-- Items that live at members of the tree: those below `i` are those below one of its children
and those at `i` itself. -/
theorem filter_below_perm {κ : Type*} [DecidableEq ι] (xs : List κ) (home : κ → ι) (i : ι)
    (hxs : ∀ x ∈ xs, home x ∈ t.members) :
    (xs.filter (t.Below i <| home ·)).Perm
      ((t.children i).flatMap (fun c => xs.filter (t.Below c <| home ·)) ++
        xs.filter (home · = i)) := by
  have hcount : ∀ (p : κ → Prop) [DecidablePred p] (x : κ),
      (xs.filter (p ·)).count x = if p x then xs.count x else 0 := by
    intro p _ x
    split
    · exact count_filter (by simpa)
    · exact count_eq_zero_of_not_mem (by simp [*])
  rw [perm_iff_count]
  intro x
  rw [count_append, count_flatMap, hcount, hcount]
  by_cases hx : x ∈ xs
  · have hsum : ((t.children i).map (List.count x ∘ fun c => xs.filter (t.Below c <| home ·))).sum =
        xs.count x * (t.children i).countP (t.Below · (home x)) := by
      induction t.children i with
      | nil => simp
      | cons c cs ih =>
        simp only [map_cons, sum_cons, countP_cons, ih, Function.comp_apply,
          hcount, decide_eq_true_eq]
        split <;> simp [Nat.mul_add, Nat.add_comm]
    have hlaw := congrArg (xs.count x * ·) (count_children_below i (hxs x hx))
    simp only [Nat.mul_add, mul_ite, Nat.mul_one, Nat.mul_zero] at hlaw
    rw [hsum, ← hlaw, Nat.add_comm]
    simp only [eq_comm]
  · have hsum : ((t.children i).map (List.count x ∘ fun c => xs.filter (t.Below c <| home ·))) =
        (t.children i).map fun _ => 0 := by
      refine map_congr_left fun c _ => ?_
      simp [hcount, count_eq_zero_of_not_mem hx]
    simp [hsum, count_eq_zero_of_not_mem hx]

end RootedTree

end Reconverse.Lib
