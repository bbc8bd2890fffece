import Mathlib

/-!
# Multi-level lists

A map from keys to lists, kept in the order of the keys. Read level by level it is a list of pairs
in the order of the keys, `flatten`. Adding at the end or at the start of a level is an ordered
insertion into that list, and the first level that is not empty holds its head.
-/

namespace Reconverse.Lib

open List

variable {κ α : Type*} [LinearOrder κ] {k : κ}

/-- A map from keys to lists, in the order of the keys. -/
@[ext]
structure Levels (κ α : Type*) [LinearOrder κ] where
  toList : List (κ × List α)
  sorted : toList.Pairwise fun a b => a.1 < b.1

namespace Levels

/-- The map without keys. -/
def empty : Levels κ α := ⟨[], .nil⟩

/-! ## Access to one level -/

/-- Apply `f` to the list of the key `k`, which is created if there is none. -/
def alterList (k : κ) (f : List α → List α) : List (κ × List α) → List (κ × List α)
  | [] => [(k, f [])]
  | l :: it =>
    if k < l.1 then (k, f []) :: l :: it
    else if k = l.1 then (k, f l.2) :: it
    else l :: alterList k f it

/-- The keys are the old ones and perhaps `k`. -/
theorem key_alterList {f : List α → List α} {L : List (κ × List α)} {l : κ × List α}
    (h : l ∈ alterList k f L) : l.1 = k ∨ l ∈ L := by
  induction L with
  | nil =>
    rw [mem_singleton.mp h]
    exact .inl rfl
  | cons l' it ih =>
    unfold alterList at h
    split at h
    · rcases mem_cons.mp h with rfl | h
      · exact .inl rfl
      · exact .inr h
    · split at h
      · rcases mem_cons.mp h with rfl | h
        · exact .inl rfl
        · exact .inr (mem_cons_of_mem _ h)
      · rcases mem_cons.mp h with rfl | h
        · exact .inr mem_cons_self
        · exact (ih h).imp id (mem_cons_of_mem _)

/-- The list stays sorted. -/
theorem sorted_alterList (k : κ) (f : List α → List α) {L : List (κ × List α)}
    (h : L.Pairwise fun a b => a.1 < b.1) : (alterList k f L).Pairwise fun a b => a.1 < b.1 := by
  induction L with
  | nil => exact pairwise_singleton ..
  | cons l it ih =>
    obtain ⟨hhead, htail⟩ := pairwise_cons.mp h
    unfold alterList
    split
    next hlt =>
      refine pairwise_cons.mpr ⟨fun b hb => ?_, h⟩
      rcases mem_cons.mp hb with rfl | hb
      · exact hlt
      · exact hlt.trans (hhead b hb)
    next hge =>
      split
      next heq => exact pairwise_cons.mpr ⟨fun b hb => heq ▸ hhead b hb, htail⟩
      next hne =>
        refine pairwise_cons.mpr ⟨fun b hb => ?_, ih htail⟩
        rcases key_alterList hb with hb | hb
        · rw [hb]
          exact lt_of_le_of_ne (not_lt.mp hge) (Ne.symm hne)
        · exact hhead b hb

variable (L : Levels κ α) {A : List (κ × List α)} {l : List α} (f : List α → List α)

/-- Apply `f` to the list of the key `k`, which is created if there is none. -/
def alter (k : κ) (f : List α → List α) : Levels κ α :=
  ⟨alterList k f L.toList, sorted_alterList k f L.sorted⟩

/-- Remove a key. -/
def erase (k : κ) : Levels κ α := ⟨L.toList.filter (·.1 ≠ k), L.sorted.filter _⟩

/-- The list of a key. -/
def find? (k : κ) : Option (List α) := (L.toList.find? (·.1 = k)).map (·.2)

/-- The levels that are empty. -/
def emptyCount : Nat := L.toList.countP (·.2.isEmpty)

/-- The first level that is not empty. -/
def front : Option (κ × List α) := L.toList.find? (!·.2.isEmpty)

/-- The elements with their keys, level by level. -/
def flatten : List (κ × α) := L.toList.flatMap fun l => l.2.map (l.1, ·)

/-! ## A map cut at a key -/

/-- The map is `A`, then the level `o` of the key `k` if there is one, then `B`. -/
structure Split (k : κ) (A B : List (κ × List α)) (o : Option (List α)) : Prop where
  below : ∀ a ∈ A, a.1 < k
  above : ∀ b ∈ B, k < b.1
  toList_eq : L.toList = A ++ (o.toList.map (k, ·) ++ B)

/-- Every queue has what is below `k`, perhaps a level of `k`, and what is above. -/
theorem exists_split (k : κ) : ∃ A B o, L.Split k A B o := by
  obtain ⟨L, hL⟩ := L
  induction L with
  | nil => exact ⟨[], [], none, by simp, by simp, rfl⟩
  | cons l it ih =>
    obtain ⟨hhead, htail⟩ := pairwise_cons.mp hL
    rcases lt_trichotomy k l.1 with hlt | rfl | hgt
    · refine ⟨[], l :: it, none, by simp, fun b hb => ?_, rfl⟩
      rcases mem_cons.mp hb with rfl | hb
      · exact hlt
      · exact hlt.trans (hhead b hb)
    · exact ⟨[], it, some l.2, by simp, hhead, rfl⟩
    · obtain ⟨A, B, o, hA, hB, heq⟩ := ih htail
      refine ⟨l :: A, B, o, fun a ha => ?_, hB, congrArg (l :: ·) heq⟩
      rcases mem_cons.mp ha with rfl | ha
      · exact hgt
      · exact hA a ha

/-- The levels below are skipped. -/
theorem alterList_append (hA : ∀ a ∈ A, a.1 < k) (R : List (κ × List α)) :
    alterList k f (A ++ R) = A ++ alterList k f R := by
  induction A with
  | nil => rfl
  | cons a A ih =>
    obtain ⟨hlt, hA⟩ := forall_mem_cons.mp hA
    rw [cons_append, alterList, if_neg hlt.not_gt, if_neg hlt.ne', ih hA]
    rfl

theorem alterList_of_forall {B : List (κ × List α)}
    (hB : ∀ b ∈ B, k < b.1) : alterList k f B = (k, f []) :: B := by
  cases B with
  | nil => rfl
  | cons b B => rw [alterList, if_pos (hB b mem_cons_self)]

namespace Split

variable {L} {k : κ} {A B : List (κ × List α)} {o : Option (List α)}

/-- What `alter` does to a split. -/
theorem alter_eq (h : L.Split k A B o) (f : List α → List α) :
    (L.alter k f).toList = A ++ (k, f (o.getD [])) :: B := by
  show alterList k f L.toList = _
  rw [h.toList_eq, alterList_append f h.below]
  congr 1
  cases o with
  | none => exact alterList_of_forall f h.above
  | some l =>
    show alterList k f ((k, l) :: B) = _
    rw [alterList, if_neg (lt_irrefl k), if_pos rfl]
    rfl

/-- A level stands between the smaller and the larger keys. -/
theorem of_append (h : L.toList = A ++ (k, l) :: B) : L.Split k A B (some l) := by
  have hsorted := L.sorted
  rw [h, pairwise_append, pairwise_cons] at hsorted
  obtain ⟨-, ⟨hB, -⟩, hA⟩ := hsorted
  exact ⟨fun a ha => hA a ha (k, l) mem_cons_self, hB, h⟩

section

variable (h : L.Split k A B o)

include h

theorem alter : (L.alter k f).Split k A B (some (f (o.getD []))) :=
  ⟨h.below, h.above, h.alter_eq f⟩

/-- What `find?` finds in a split. -/
theorem find?_eq : L.find? k = o := by
  have hA : A.find? (·.1 = k) = none := by
    refine find?_eq_none.mpr fun a ha => ?_
    simpa using (h.below a ha).ne
  have hB : B.find? (·.1 = k) = none := by
    refine find?_eq_none.mpr fun b hb => ?_
    simpa using (h.above b hb).ne'
  unfold find?
  rw [h.toList_eq, find?_append, hA, find?_append, hB]
  cases o <;> simp

/-- What `erase` leaves of a split. -/
theorem erase_eq : (L.erase k).toList = A ++ B := by
  have hA : A.filter (·.1 ≠ k) = A :=
    filter_eq_self.mpr fun a ha => decide_eq_true (h.below a ha).ne
  have hB : B.filter (·.1 ≠ k) = B :=
    filter_eq_self.mpr fun b hb => decide_eq_true (h.above b hb).ne'
  show L.toList.filter (·.1 ≠ k) = _
  rw [h.toList_eq, filter_append, filter_append, hA, hB]
  cases o <;> simp

/-- The empty levels of a split. -/
theorem emptyCount_eq : L.emptyCount =
    A.countP (·.2.isEmpty) + (o.any List.isEmpty).toNat + B.countP (·.2.isEmpty) := by
  unfold emptyCount
  rw [h.toList_eq, countP_append, countP_append, Nat.add_assoc]
  cases o with
  | none => simp
  | some l => cases l <;> simp

end

end Split

theorem find?_alter (k : κ) (f : List α → List α) :
    (L.alter k f).find? k = some (f ((L.find? k).getD [])) := by
  obtain ⟨A, B, o, h⟩ := L.exists_split k
  rw [(h.alter f).find?_eq, h.find?_eq]

/-- Other levels are as before. -/
theorem find?_alter_of_ne {j k : κ} (hne : j ≠ k) (f : List α → List α) :
    (L.alter k f).find? j = L.find? j := by
  obtain ⟨A, B, o, h⟩ := L.exists_split k
  unfold find?
  rw [h.alter_eq, h.toList_eq, find?_append, find?_append, find?_append,
    find?_cons_of_neg (by simpa using hne.symm)]
  cases o with
  | none => rfl
  | some l =>
    have hl : (([l].map (k, ·)).find? (·.1 = j)) = none := by simpa using hne.symm
    rw [Option.toList_some, hl]
    rfl

/-- How many levels are empty after one of them was changed. -/
theorem emptyCount_alter (k : κ) (f : List α → List α) :
    (L.alter k f).emptyCount + ((L.find? k).any List.isEmpty).toNat =
      L.emptyCount + (f ((L.find? k).getD [])).isEmpty.toNat := by
  obtain ⟨A, B, o, h⟩ := L.exists_split k
  rw [(h.alter f).emptyCount_eq, h.emptyCount_eq, h.find?_eq]
  rw [Option.any_some]
  omega

/-- An empty level that is erased is no longer counted. -/
theorem emptyCount_erase (k : κ) :
    (L.erase k).emptyCount + ((L.find? k).any List.isEmpty).toNat = L.emptyCount := by
  obtain ⟨A, B, o, h⟩ := L.exists_split k
  rw [h.emptyCount_eq, h.find?_eq, emptyCount, h.erase_eq, countP_append]
  omega

/-- A level that is changed twice. -/
theorem alter_alter (k : κ) (f g : List α → List α) :
    (L.alter k f).alter k g = L.alter k (g ∘ f) := by
  obtain ⟨A, B, o, h⟩ := L.exists_split k
  ext1
  rw [(h.alter f).alter_eq, h.alter_eq]
  rfl

/-- Changes of two levels commute. -/
theorem alter_comm {j k : κ} (hne : j ≠ k) (f g : List α → List α) :
    (L.alter j f).alter k g = (L.alter k g).alter j f := by
  obtain ⟨L, hL⟩ := L
  ext1
  show alterList k g (alterList j f L) = alterList j f (alterList k g L)
  induction L with
  | nil => grind [alterList]
  | cons l it ih => grind [alterList]

/-- Changes of two levels commute. -/
theorem erase_alter {j k : κ} (hne : j ≠ k) (f : List α → List α) :
    (L.alter j f).erase k = (L.erase k).alter j f := by
  obtain ⟨L, hL⟩ := L
  ext1
  show (alterList j f L).filter (·.1 ≠ k) = alterList j f (L.filter (·.1 ≠ k))
  induction L with
  | nil => simp [alterList, hne]
  | cons l it ih =>
    obtain ⟨hhead, htail⟩ := pairwise_cons.mp hL
    rcases lt_trichotomy j l.1 with hlt | rfl | hgt
    · have habove : ∀ b ∈ l :: it, j < b.1 :=
        forall_mem_cons.mpr ⟨hlt, fun b hb => hlt.trans (hhead b hb)⟩
      rw [alterList_of_forall f habove, filter_cons_of_pos (by simpa using hne),
        alterList_of_forall f fun b hb => habove b (mem_of_mem_filter hb)]
    · rw [alterList, if_neg (lt_irrefl _), if_pos rfl,
        filter_cons_of_pos (by simpa using hne), filter_cons_of_pos (by simpa using hne),
        alterList, if_neg (lt_irrefl _), if_pos rfl]
    · rw [alterList, if_neg hgt.not_gt, if_neg hgt.ne', filter_cons, filter_cons, ih htail]
      split
      · rw [alterList, if_neg hgt.not_gt, if_neg hgt.ne']
      · rfl

/-! ## The flat list -/

omit [LinearOrder κ] in
theorem flatMap_keys {R : κ → Prop} (hA : ∀ a ∈ A, R a.1) :
    ∀ x ∈ A.flatMap fun l => l.2.map (l.1, ·), R x.1 := by
  intro x hx
  obtain ⟨l, hl, hx⟩ := mem_flatMap.mp hx
  obtain ⟨a, -, rfl⟩ := mem_map.mp hx
  exact hA l hl

/-- The flat list is in the order of the keys. -/
theorem flatten_sorted : L.flatten.Pairwise fun x y => x.1 ≤ y.1 := by
  obtain ⟨L, hL⟩ := L
  unfold flatten
  induction L with
  | nil => exact List.Pairwise.nil
  | cons l it ih =>
    obtain ⟨hhead, htail⟩ := pairwise_cons.mp hL
    refine pairwise_append.mpr ⟨?_, ih htail, fun x hx y hy => ?_⟩
    · exact pairwise_map.mpr (pairwise_of_forall fun _ _ => le_refl l.1)
    · obtain ⟨a, -, rfl⟩ := mem_map.mp hx
      exact (flatMap_keys hhead y hy).le

/-- An ordered insertion passes by what the new element does not precede. -/
theorem orderedInsert_append {β : Type*} {r : β → β → Prop} [DecidableRel r] {x : β}
    {as : List β} (has : ∀ a ∈ as, ¬ r x a) (bs : List β) :
    (as ++ bs).orderedInsert r x = as ++ bs.orderedInsert r x := by
  induction as with
  | nil => rfl
  | cons a as ih =>
    obtain ⟨ha, has⟩ := forall_mem_cons.mp has
    rw [cons_append, orderedInsert_of_not_le r _ ha, ih has]
    rfl

/-- An ordered insertion before elements that the new one precedes. -/
theorem orderedInsert_of_forall {β : Type*} {r : β → β → Prop} [DecidableRel r] {x : β}
    {bs : List β} (hbs : ∀ b ∈ bs, r x b) : bs.orderedInsert r x = x :: bs := by
  cases bs with
  | nil => rfl
  | cons b bs => exact orderedInsert_cons_of_le r _ (hbs b mem_cons_self)

/-- Adding at the end of a level puts the element behind all elements of its key. -/
theorem flatten_alter_append (k : κ) (x : α) :
    (L.alter k (· ++ [x])).flatten = L.flatten.orderedInsert (·.1 < ·.1) (k, x) := by
  obtain ⟨A, B, o, h⟩ := L.exists_split k
  have hA := flatMap_keys (R := (· < k)) h.below
  have hB := flatMap_keys h.above
  unfold flatten
  rw [h.alter_eq, h.toList_eq, flatMap_append, flatMap_append, flatMap_append,
    orderedInsert_append fun a ha => (hA a ha).not_gt,
    orderedInsert_append fun a ha => ?_, orderedInsert_of_forall hB]
  · cases o <;> simp
  · cases o with
    | none => cases ha
    | some l =>
      obtain ⟨b, -, rfl⟩ := mem_map.mp (by simpa using ha)
      exact lt_irrefl k

/-- Adding at the start of a level puts the element before all elements of its key. -/
theorem flatten_alter_cons (k : κ) (x : α) :
    (L.alter k (x :: ·)).flatten = L.flatten.orderedInsert (·.1 ≤ ·.1) (k, x) := by
  obtain ⟨A, B, o, h⟩ := L.exists_split k
  have hA := flatMap_keys (R := (· < k)) h.below
  have hB := flatMap_keys h.above
  unfold flatten
  rw [h.alter_eq, h.toList_eq, flatMap_append, flatMap_append, flatMap_append,
    orderedInsert_append fun a ha => (hA a ha).not_ge,
    orderedInsert_of_forall fun b hb => ?_]
  · cases o <;> simp
  · rcases mem_append.mp hb with hb | hb
    · cases o with
      | none => cases hb
      | some l =>
        obtain ⟨b, -, rfl⟩ := mem_map.mp (by simpa using hb)
        exact le_refl k
    · exact (hB b hb).le

/-- A level that is empty adds nothing. -/
theorem flatten_erase (hempty : L.find? k = some []) : (L.erase k).flatten = L.flatten := by
  obtain ⟨A, B, o, h⟩ := L.exists_split k
  rw [h.find?_eq] at hempty
  subst hempty
  unfold flatten
  rw [h.erase_eq, h.toList_eq, flatMap_append, flatMap_append]
  rfl

/-- The head of the flat list is the head of the first level that is not empty. -/
theorem flatten_of_front (h : L.front = some (k, l)) :
    ∃ x, l.head? = some x ∧ L.flatten = (k, x) :: (L.alter k List.tail).flatten ∧
      L.find? k = some l := by
  obtain ⟨hpos, as, bs, heq, has⟩ := find?_eq_some_iff_append.mp h
  have hsplit := Split.of_append heq
  have hnil : (as.flatMap fun l => l.2.map (l.1, ·)) = [] := by
    refine flatMap_eq_nil_iff.mpr fun a ha => ?_
    simpa using has a ha
  cases l with
  | nil => cases hpos
  | cons x l =>
    refine ⟨x, rfl, ?_, hsplit.find?_eq⟩
    unfold flatten
    rw [hsplit.alter_eq, heq, flatMap_append, flatMap_append, hnil]
    rfl

/-- A queue without a front is empty. -/
theorem flatten_of_front_none (h : L.front = none) : L.flatten = [] := by
  refine flatMap_eq_nil_iff.mpr fun l hl => ?_
  have hempty := find?_eq_none.mp h l hl
  simpa using hempty

end Levels

end Reconverse.Lib
