import Mathlib

/-!
# Handles to objects whose places are used again

`live p` is the object at place `p`, if there is one; an object is known by a label that tells it
from the others, such as a number that counts up (`Distinct`). A reference is a place together with
the label of the object it was made for. References are `Faithful` if each one finds its object or
none, and its object is nowhere else. A reference stays faithful when its object goes away, until
another object is put in the same place.
-/

namespace Reconverse.Lib

open Function (update update_of_ne update_self)
open List

/-! ## Picking from a list -/

section Pick

variable {α β : Type*} {xs : List α} {i : Nat} {x : α}

/-- The element at a position and the others. -/
theorem perm_cons_eraseIdx (h : xs[i]? = some x) : xs.Perm (x :: xs.eraseIdx i) := by
  obtain ⟨hi, rfl⟩ := List.getElem?_eq_some_iff.mp h
  exact (List.getElem_cons_eraseIdx_perm hi).symm

theorem countP_eq_add_eraseIdx (h : xs[i]? = some x) (p : α → Bool) :
    xs.countP p = (xs.eraseIdx i).countP p + if p x then 1 else 0 := by
  rw [(perm_cons_eraseIdx h).countP_eq, countP_cons]

/-- Two different elements count twice. -/
theorem two_le_countP {p : α → Bool} {x y : α} (hx : x ∈ xs) (hy : y ∈ xs) (hne : x ≠ y)
    (hpx : p x = true) (hpy : p y = true) : 2 ≤ xs.countP p := by
  obtain ⟨i, hi⟩ := mem_iff_getElem?.mp hx
  have hy := (mem_cons.mp ((perm_cons_eraseIdx hi).mem_iff.mp hy)).resolve_left hne.symm
  have hpos : 0 < (xs.eraseIdx i).countP p := countP_pos_iff.mpr ⟨y, hy, hpy⟩
  rw [countP_eq_add_eraseIdx hi, hpx]
  show 2 ≤ _ + 1
  omega

end Pick

/-- What a table holds after one entry was set. -/
theorem update_eq_some {ι α : Type*} [DecidableEq ι] {f : ι → Option α} {p q : ι} {o : Option α}
    {v : α} : update f p o q = some v ↔ (q = p ∧ o = some v) ∨ (q ≠ p ∧ f q = some v) := by
  rcases eq_or_ne q p with rfl | hne
  · rw [update_self]
    exact ⟨fun h => .inl ⟨rfl, h⟩, fun h => h.elim And.right fun h => absurd rfl h.1⟩
  · rw [update_of_ne hne]
    exact ⟨fun h => .inr ⟨hne, h⟩, fun h => h.elim (fun h => absurd h.1 hne) And.right⟩

/-- Names that are all different stay so if a new one comes last. -/
theorem nodup_map_concat {α β : Type*} {f : α → β} {xs : List α} {x : α}
    (h : (xs.map f).Nodup) (hx : ∀ y ∈ xs, f y ≠ f x) : ((xs ++ [x]).map f).Nodup := by
  rw [map_append]
  refine nodup_append.mpr ⟨h, pairwise_singleton .., fun b hb b' hb' => ?_⟩
  obtain ⟨y, hy, rfl⟩ := mem_map.mp hb
  rw [mem_singleton.mp hb']
  exact hx y hy

/-! ## Numbered objects -/

/-- The objects have different numbers below `bound`. -/
structure Distinct {ι : Type*} (live : ι → Option Nat) (bound : Nat) : Prop where
  lt : ∀ {p k}, live p = some k → k < bound
  inj : ∀ {p q k}, live p = some k → live q = some k → p = q

namespace Distinct

variable {ι : Type*} {live : ι → Option Nat} {bound bound' : Nat}

theorem mono (h : Distinct live bound) (hle : bound ≤ bound') : Distinct live bound' :=
  ⟨fun hp => Nat.lt_of_lt_of_le (h.lt hp) hle, h.inj⟩

variable [DecidableEq ι] {p : ι}

theorem erase (h : Distinct live bound) : Distinct (update live p none) bound := by
  constructor
  · intro q k hq
    obtain ⟨-, hnone⟩ | ⟨-, hq⟩ := update_eq_some.mp hq
    · cases hnone
    · exact h.lt hq
  · intro q q' k hq hq'
    obtain ⟨-, hnone⟩ | ⟨-, hq⟩ := update_eq_some.mp hq
    · cases hnone
    · obtain ⟨-, hnone⟩ | ⟨-, hq'⟩ := update_eq_some.mp hq'
      · cases hnone
      · exact h.inj hq hq'

/-- An object with a number that no other has. -/
theorem insert (h : Distinct live bound) {k : Nat} (hk : k < bound) (hnew : ∀ q, live q ≠ some k) :
    Distinct (update live p (some k)) bound := by
  constructor
  · intro q k' hq
    obtain ⟨-, heq⟩ | ⟨-, hq⟩ := update_eq_some.mp hq
    · exact Option.some.inj heq ▸ hk
    · exact h.lt hq
  · intro q q' k' hq hq'
    obtain ⟨hp, heq⟩ | ⟨-, hlive⟩ := update_eq_some.mp hq <;>
      obtain ⟨hp', heq'⟩ | ⟨-, hlive'⟩ := update_eq_some.mp hq'
    · exact hp.trans hp'.symm
    · exact absurd (heq ▸ hlive') (hnew q')
    · exact absurd (heq' ▸ hlive) (hnew q)
    · exact h.inj hlive hlive'

/-- An object with the next number. -/
theorem insert_next (h : Distinct live bound) : Distinct (update live p (some bound)) (bound + 1) :=
  (h.mono (Nat.le_succ bound)).insert (Nat.lt_succ_self bound)
    fun _ hq => Nat.lt_irrefl _ (h.lt hq)

end Distinct

/-! ## References -/

variable {ι κ : Type*} {live : ι → Option κ} {refs refs' : List (ι × κ)} {p q : ι} {g : κ}

/-- Each reference finds its object or none, and its object is nowhere else. -/
def Faithful (live : ι → Option κ) (refs : List (ι × κ)) : Prop :=
  ∀ r ∈ refs, ∀ p g, live p = some g → (g = r.2 ↔ p = r.1)

namespace Faithful

theorem mono (h : Faithful live refs) (hsub : refs' ⊆ refs) : Faithful live refs' :=
  fun r hr => h r (hsub hr)

/-- What is found is what the reference was made for. -/
theorem label (h : Faithful live refs) (hr : (p, g) ∈ refs) {g' : κ} (hp : live p = some g') :
    g' = g :=
  (h _ hr p g' hp).mpr rfl

/-- References of two lists. -/
theorem append (h : Faithful live refs) (h' : Faithful live refs') :
    Faithful live (refs ++ refs') := by
  intro r hr
  rcases mem_append.mp hr with hr | hr
  · exact h r hr
  · exact h' r hr

/-- A new reference to an object that is in one place only. -/
theorem single (hp : live p = some g) (hinj : ∀ q, live q = some g → q = p) :
    Faithful live [(p, g)] := by
  intro r hr q g' hq
  obtain rfl := mem_singleton.mp hr
  constructor
  · rintro rfl
    exact hinj q hq
  · rintro rfl
    exact Option.mem_unique hq hp

variable [DecidableEq ι]

theorem erase (h : Faithful live refs) (p : ι) : Faithful (update live p none) refs := by
  intro r hr q g hq
  rcases eq_or_ne q p with rfl | hne
  · rw [update_self] at hq
    cases hq
  · rw [update_of_ne hne] at hq
    exact h r hr q g hq

/-- A new object at a place that no reference names, under a label that no reference has. -/
theorem insert (h : Faithful live refs) (hno : ∀ r ∈ refs, r.1 ≠ p ∧ r.2 ≠ g) :
    Faithful (update live p (some g)) refs := by
  intro r hr q g' hq
  rcases eq_or_ne q p with rfl | hne
  · rw [update_self] at hq
    cases hq
    exact ⟨fun heq => absurd heq.symm (hno r hr).2, fun heq => absurd heq.symm (hno r hr).1⟩
  · rw [update_of_ne hne] at hq
    exact h r hr q g' hq

end Faithful

end Reconverse.Lib
