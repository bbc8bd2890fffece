import Mathlib

/-!
# Doubly linked lists

A heap of nodes is a pair of functions, `next` and `prev`. `Linked next prev a l b` says that the
nodes of `l` are linked in both directions in the order of the list, with `a` as the predecessor
of the first node and `b` as the successor of the last one. Null pointers play no special role:
they are values that `a` and `b` may have.
-/

namespace Reconverse.Lib.DList

open List

variable {α : Type} {next prev next' prev' : α → α} {a b : α} {l k : List α}

/-- The nodes of a list are linked in both directions. -/
def Linked (next prev : α → α) : α → List α → α → Prop
  | _, [], _ => True
  | a, x :: xs, b => prev x = a ∧ next x = xs.headD b ∧ Linked next prev x xs b

@[simp] theorem linked_nil : Linked next prev a [] b := trivial

variable {x : α}

@[simp] theorem linked_cons : Linked next prev a (x :: l) b ↔
    prev x = a ∧ next x = l.headD b ∧ Linked next prev x l b := Iff.rfl

theorem headD_append : (l ++ k).headD b = l.headD (k.headD b) := by
  cases l <;> rfl

theorem getLastD_append : (l ++ k).getLastD a = k.getLastD (l.getLastD a) := by
  induction l generalizing a with
  | nil => rfl
  | cons x l ih => rw [cons_append, getLastD_cons, ih, getLastD_cons]

/-- A linked list is cut in two linked lists. -/
theorem linked_append : Linked next prev a (l ++ k) b ↔
    Linked next prev a l (k.headD b) ∧ Linked next prev (l.getLastD a) k b := by
  induction l generalizing a with
  | nil => simp
  | cons x l ih =>
    rw [cons_append, linked_cons, linked_cons, ih, headD_append, getLastD_cons]
    simp only [and_assoc]

/-- Only the links of the nodes in the list matter. -/
theorem Linked.congr (h : Linked next prev a l b) (hn : ∀ x ∈ l, next' x = next x)
    (hp : ∀ x ∈ l, prev' x = prev x) : Linked next' prev' a l b := by
  induction l generalizing a with
  | nil => trivial
  | cons x l ih =>
    obtain ⟨hprev, hnext, hl⟩ := h
    simp only [mem_cons, forall_eq_or_imp] at hn hp
    exact ⟨hp.1.trans hprev, hn.1.trans hnext, ih hl hn.2 hp.2⟩

/-- A new predecessor for the first node. -/
theorem Linked.set_first {a' : α} (h : Linked next prev a l b)
    (hfirst : ∀ x, l.head? = some x → prev' x = a') (hn : ∀ x ∈ l, next' x = next x)
    (hp : ∀ x ∈ l.tail, prev' x = prev x) : Linked next' prev' a' l b := by
  cases l with
  | nil => trivial
  | cons x l =>
    obtain ⟨-, hnext, hl⟩ := h
    simp only [mem_cons, forall_eq_or_imp] at hn
    exact ⟨hfirst x rfl, hn.1.trans hnext, hl.congr hn.2 hp⟩

/-- A new successor for the last node. -/
theorem Linked.set_last {b' : α} (h : Linked next prev a l b)
    (hlast : ∀ x, l.getLast? = some x → next' x = b') (hn : ∀ x ∈ l.dropLast, next' x = next x)
    (hp : ∀ x ∈ l, prev' x = prev x) : Linked next' prev' a l b' := by
  induction l generalizing a with
  | nil => trivial
  | cons x l ih =>
    obtain ⟨hprev, hnext, hl⟩ := h
    simp only [mem_cons, forall_eq_or_imp] at hp
    cases l with
    | nil => exact ⟨hp.1.trans hprev, hlast x rfl, trivial⟩
    | cons y l =>
      simp only [dropLast_cons_cons, mem_cons, forall_eq_or_imp] at hn
      refine ⟨hp.1.trans hprev, hn.1.trans hnext, ih hl (fun z hz => hlast z ?_) hn.2 hp.2⟩
      exact hz

/-- The links of a node in the middle of a list. -/
theorem Linked.mid (h : Linked next prev a (l ++ x :: k) b) :
    prev x = l.getLastD a ∧ next x = k.headD b := by
  obtain ⟨-, hprev, hnext, -⟩ := linked_append.mp h
  exact ⟨hprev, hnext⟩

/-- A node is taken out by linking its neighbours with each other. -/
theorem Linked.unlink (h : Linked next prev a (l ++ x :: k) b)
    (hlast : ∀ y, l.getLast? = some y → next' y = next x)
    (hfirst : ∀ y, k.head? = some y → prev' y = prev x)
    (hnl : ∀ y ∈ l.dropLast, next' y = next y) (hnk : ∀ y ∈ k, next' y = next y)
    (hpl : ∀ y ∈ l, prev' y = prev y) (hpk : ∀ y ∈ k.tail, prev' y = prev y) :
    Linked next' prev' a (l ++ k) b := by
  obtain ⟨hl, hprev, hnext, hk⟩ := linked_append.mp h
  refine linked_append.mpr ⟨hl.set_last (fun y hy => ?_) hnl hpl,
    hk.set_first (fun y hy => ?_) hnk hpk⟩
  · exact (hlast y hy).trans hnext
  · exact (hfirst y hy).trans hprev

/-- The nodes between two parts of a list are replaced by others that start in the same place. -/
theorem Linked.replace {m m' : List α} (h : Linked next prev a (l ++ m ++ k) b)
    (hm : Linked next' prev' (l.getLastD a) m' (k.headD b))
    (hhead : m'.headD (k.headD b) = m.headD (k.headD b))
    (hfirst : ∀ y, k.head? = some y → prev' y = m'.getLastD (l.getLastD a))
    (hnl : ∀ y ∈ l, next' y = next y) (hpl : ∀ y ∈ l, prev' y = prev y)
    (hnk : ∀ y ∈ k, next' y = next y) (hpk : ∀ y ∈ k.tail, prev' y = prev y) :
    Linked next' prev' a (l ++ m' ++ k) b := by
  rw [linked_append, linked_append] at h ⊢
  rw [hhead]
  refine ⟨⟨h.1.1.congr hnl hpl, hm⟩, h.2.set_first (fun y hy => ?_) hnk hpk⟩
  rw [hfirst y hy, getLastD_append]

theorem headD_mem_or (l : List α) (b : α) : l.headD b = b ∨ l.headD b ∈ l := by
  cases l with
  | nil => exact .inl rfl
  | cons x l => exact .inr mem_cons_self

theorem getLastD_mem (h : l ≠ []) (a : α) : l.getLastD a ∈ l := by
  rw [getLastD_eq_getLast?, getLast?_eq_some_getLast h]
  exact getLast_mem h

theorem getLastD_mem_or (l : List α) (a : α) : l.getLastD a = a ∨ l.getLastD a ∈ l := by
  cases l with
  | nil => exact .inl rfl
  | cons x l => exact .inr (getLastD_mem (cons_ne_nil x l) a)

theorem getLastD_eq_of_ne_nil (h : l ≠ []) (a b : α) : l.getLastD a = l.getLastD b := by
  rw [getLastD_eq_getLast?, getLastD_eq_getLast?, getLast?_eq_some_getLast h]
  rfl

/-- A node behind the head is not the head. -/
theorem ne_headD_of_mem_tail {y : α} (hnodup : l.Nodup) (hy : y ∈ l.tail) (b : α) :
    y ≠ l.headD b := by
  cases l with
  | nil => simp at hy
  | cons z l =>
    intro heq
    have heq : y = z := heq
    exact (nodup_cons.mp hnodup).1 (heq ▸ hy)

/-- A node before the last one is not the last one. -/
theorem ne_getLastD_of_mem_dropLast {y : α} (hnodup : l.Nodup) (hy : y ∈ l.dropLast) (a : α) :
    y ≠ l.getLastD a := by
  rcases eq_nil_or_concat l with rfl | ⟨l, z, rfl⟩
  · simp at hy
  · rw [concat_eq_append] at hy hnodup ⊢
    rw [dropLast_concat] at hy
    rw [getLastD_concat]
    rw [nodup_append] at hnodup
    exact hnodup.2.2 y hy z (mem_singleton_self z)

/-- The usual way to take a node out of a list without repetitions: the links of its neighbours,
where there are any, are overwritten with its own. -/
theorem Linked.unlink_of_nodup [DecidableEq α] (h : Linked next prev a (l ++ x :: k) b)
    (hnodup : (l ++ x :: k).Nodup) (ha : a ∉ l ++ x :: k) (hb : b ∉ l ++ x :: k)
    (hn : ∀ y ∈ l ++ k, next' y = if y = prev x then next x else next y)
    (hp : ∀ y ∈ l ++ k, prev' y = if y = next x then prev x else prev y) :
    Linked next' prev' a (l ++ k) b := by
  obtain ⟨hprev, hnext⟩ := h.mid
  have hl : ∀ y ∈ l, y ∈ l ++ k := fun y hy => mem_append_left _ hy
  have hk : ∀ y ∈ k, y ∈ l ++ k := fun y hy => mem_append_right _ hy
  rw [nodup_append] at hnodup
  obtain ⟨hlnodup, hxk, hdisj⟩ := hnodup
  have hknodup := (nodup_cons.mp hxk).2
  refine h.unlink (fun y hy => ?_) (fun y hy => ?_) (fun y hy => ?_) (fun y hy => ?_)
    (fun y hy => ?_) (fun y hy => ?_)
  · rw [hn y (hl y (mem_of_getLast? hy)), if_pos]
    rw [hprev, getLastD_eq_getLast?, hy]
    rfl
  · rw [hp y (hk y (mem_of_head? hy)), if_pos]
    rw [hnext, headD_eq_head?_getD, hy]
    rfl
  · rw [hn y (hl y (dropLast_subset _ hy)), if_neg]
    rw [hprev]
    exact ne_getLastD_of_mem_dropLast hlnodup hy a
  · rw [hn y (hk y hy), if_neg]
    rw [hprev]
    intro heq
    rcases getLastD_mem_or l a with hlast | hlast
    · exact ha (mem_append_right _ (mem_cons_of_mem _ (heq.trans hlast ▸ hy)))
    · exact hdisj _ hlast y (mem_cons_of_mem _ hy) heq.symm
  · rw [hp y (hl y hy), if_neg]
    rw [hnext]
    intro heq
    rcases headD_mem_or k b with hhead | hhead
    · exact hb (mem_append_left _ (heq.trans hhead ▸ hy))
    · exact hdisj y hy _ (mem_cons_of_mem _ hhead) heq
  · rw [hp y (hk y (mem_of_mem_tail hy)), if_neg]
    rw [hnext]
    exact ne_headD_of_mem_tail hknodup hy b

/-- The head of a list from which a node is taken out. -/
theorem Linked.headD_unlink [DecidableEq α] (h : Linked next prev a (l ++ x :: k) b)
    (ha : a ∉ l) : (l ++ k).headD b = if prev x = a then next x else (l ++ x :: k).headD b := by
  obtain ⟨hprev, hnext⟩ := h.mid
  cases l with
  | nil => exact hnext.symm.trans (if_pos hprev).symm
  | cons y l =>
    rw [if_neg]
    · rfl
    · rw [hprev]
      intro heq
      exact ha (heq ▸ getLastD_mem (cons_ne_nil y l) a)

/-- A node is the head exactly if nothing comes before it. -/
theorem Linked.headD_eq_iff (h : Linked next prev a (l ++ x :: k) b)
    (hnodup : (l ++ x :: k).Nodup) (ha : a ∉ l) : (l ++ x :: k).headD b = x ↔ prev x = a := by
  rw [h.mid.1]
  cases l with
  | nil => exact iff_of_true rfl rfl
  | cons y l =>
    refine iff_of_false (fun heq => ?_) fun heq => ?_
    · have heq : y = x := heq
      rw [cons_append, nodup_cons, heq] at hnodup
      exact hnodup.1 (by simp)
    · exact ha (heq ▸ getLastD_mem (cons_ne_nil y l) a)

/-- A cell is put in front. -/
theorem Linked.push (h : Linked next prev a l b) (hx : prev' x = a)
    (hxn : next' x = l.headD b) (hfirst : ∀ y, l.head? = some y → prev' y = x)
    (hn : ∀ y ∈ l, next' y = next y) (hp : ∀ y ∈ l.tail, prev' y = prev y) :
    Linked next' prev' a (x :: l) b :=
  ⟨hx, hxn, h.set_first hfirst hn hp⟩

end Reconverse.Lib.DList
