import Mathlib

/-!
# The last tag of a matching entry

An entry of a table of `msgmgr.cpp` has an array of tags of its own length, and the memory behind
the array holds what nobody stored there. `CmmGetLastTag` with `n` tags is to match the first `n`
tags of an entry, but it tells `CmmTagsMatch` that the entry has `n` tags as well, so it compares
a shorter entry with the memory behind. `get_last_tag_iff` says for which tables and tags its
result is right whatever lies there.

The linked list of the entries is a list; the messages play no part.
-/

namespace Reconverse.TagTable

def cmmWildCard : Int := -1

/-- `CmmEntryStruct`. From `ntags` on, `tags` is the memory behind the tags. -/
structure CmmEntry where
  ntags : Nat
  tags : Nat → Int

/-- `CmmPut`, for an entry allocated in front of `memory`. -/
def cmmPut (t : List CmmEntry) (tags : List Int) (memory : Nat → Int) : List CmmEntry :=
  t ++ [⟨tags.length, fun i => tags.getD i (memory i)⟩]

/-- The loop of `CmmTagsMatch`. -/
def tagsMatchLoop : Nat → (Nat → Int) → (Nat → Int) → Bool
  | 0, _, _ => true
  | ntags + 1, tags1, tags2 =>
    if tags1 0 = tags2 0 ∨ tags1 0 = cmmWildCard ∨ tags2 0 = cmmWildCard then
      tagsMatchLoop ntags (fun i => tags1 (i + 1)) (fun i => tags2 (i + 1))
    else false

def cmmTagsMatch (ntags1 : Nat) (tags1 : Nat → Int) (ntags2 : Nat) (tags2 : Nat → Int) : Bool :=
  if ntags1 ≠ ntags2 then false else tagsMatchLoop ntags1 tags1 tags2

/-- `ent->tags[ent->ntags-1]`. The word in front of `tags` is `ntags`. -/
def CmmEntry.last (e : CmmEntry) : Int := if e.ntags = 0 then e.ntags else e.tags (e.ntags - 1)

def cmmGetLastTag (n : Nat) (tags : Nat → Int) : List CmmEntry → Int
  | [] => -1
  | e :: t => if cmmTagsMatch n tags n e.tags then e.last else cmmGetLastTag n tags t

/-! ## What it is to return -/

/-- The first `n` tags match. -/
def Agree (n : Nat) (tags1 tags2 : Nat → Int) : Prop :=
  ∀ i < n, tags1 i = tags2 i ∨ tags1 i = cmmWildCard ∨ tags2 i = cmmWildCard

instance (n : Nat) (tags1 tags2 : Nat → Int) : Decidable (Agree n tags1 tags2) :=
  inferInstanceAs (Decidable (∀ i < n, _))

/-- The last tag of the first entry that has `n` tags or more and matches, or -1. -/
def lastTag (n : Nat) (tags : Nat → Int) (t : List CmmEntry) : Int :=
  ((t.find? fun e => n ≤ e.ntags ∧ Agree n tags e.tags).map CmmEntry.last).getD (-1)

/-- The stored tags of two entries are the same. -/
def CmmEntry.SameStored (e e' : CmmEntry) : Prop :=
  e.ntags = e'.ntags ∧ ∀ i < e.ntags, e.tags i = e'.tags i

section

variable (n : Nat) (tags : Nat → Int)

/-- The stored tags of `e` do not exclude a match. -/
def CmmEntry.May (e : CmmEntry) : Prop := Agree (min n e.ntags) tags e.tags

/-- `e` matches whatever lies behind its tags. -/
def CmmEntry.Must (e : CmmEntry) : Prop :=
  e.May n tags ∧ ∀ i < n, e.ntags ≤ i → tags i = cmmWildCard

/-- Up to the first entry that always matches, each one that may match has the tag to return. -/
def Right : List CmmEntry → Prop
  | [] => True
  | e :: t => (e.May n tags → e.last = lastTag n tags (e :: t)) ∧ (e.Must n tags ∨ Right t)

end

variable {n : Nat} {tags : Nat → Int} {e e' : CmmEntry} (t : List CmmEntry)

/-- The loop compares the first `n` tags. -/
theorem tags_match_loop_iff {tags1 tags2 : Nat → Int} :
    tagsMatchLoop n tags1 tags2 = true ↔ Agree n tags1 tags2 := by
  induction n generalizing tags1 tags2 with
  | zero => simp [tagsMatchLoop, Agree]
  | succ n ih =>
    rw [tagsMatchLoop, Bool.if_false_right, Bool.and_eq_true, decide_eq_true_eq, ih]
    simp only [Agree, Nat.forall_lt_succ_left]

theorem get_last_tag_cons : cmmGetLastTag n tags (e :: t) =
    if Agree n tags e.tags then e.last else cmmGetLastTag n tags t := by
  simp [cmmGetLastTag, cmmTagsMatch, tags_match_loop_iff]

namespace CmmEntry

theorem SameStored.last_eq (h : e.SameStored e') : e'.last = e.last := by
  unfold last
  rw [← h.1]
  split
  · rfl
  · exact (h.2 _ (by omega)).symm

/-- An entry that matches may match. -/
theorem SameStored.may (h : e.SameStored e') (hmatch : Agree n tags e'.tags) : e.May n tags := by
  intro i hi
  rw [h.2 i (by omega)]
  exact hmatch i (by omega)

/-- An entry that must match does. -/
theorem Must.matches (hmust : e.Must n tags) (h : e.SameStored e') : Agree n tags e'.tags := by
  intro i hi
  by_cases hlt : i < e.ntags
  · rw [← h.2 i hlt]
    exact hmust.1 i (by omega)
  · exact .inr (.inl (hmust.2 i hi (by omega)))

/-- The entry with other memory behind its tags. -/
def behind (e : CmmEntry) (memory : Nat → Int) : CmmEntry :=
  ⟨e.ntags, fun i => if i < e.ntags then e.tags i else memory i⟩

theorem behind_same (e : CmmEntry) (memory : Nat → Int) : e.SameStored (e.behind memory) :=
  ⟨rfl, fun _ hi => (if_pos hi).symm⟩

/-- The memory behind the tags can hold the tags to match. -/
theorem May.matches (hmay : e.May n tags) : Agree n tags (e.behind tags).tags := by
  intro i hi
  by_cases hlt : i < e.ntags
  · simpa [behind, hlt] using hmay i (by omega)
  · simp [behind, hlt]

/-- The memory behind the tags can hold a value that differs from all of them. -/
theorem not_match (hmust : ¬ e.Must n tags) : ∃ memory, ¬ Agree n tags (e.behind memory).tags := by
  refine ⟨fun i => if tags i = 0 then 1 else 0, fun hmatch => hmust ⟨?_, fun i hi hle => ?_⟩⟩
  · exact (e.behind_same _).may hmatch
  · have := hmatch i hi
    simp only [behind, Nat.not_lt.mpr hle, if_false] at this
    split at this <;> simp_all [cmmWildCard]

end CmmEntry

/-- An entry that has enough tags and matches always matches. -/
theorem last_tag_skip (h : ¬ e.Must n tags) : lastTag n tags (e :: t) = lastTag n tags t := by
  rw [lastTag, List.find?_cons_of_neg, lastTag]
  rw [decide_eq_true_eq]
  rintro ⟨hle, hmatch⟩
  exact h ⟨fun i hi => hmatch i (by omega), fun i hi hi' => absurd hi (by omega)⟩

/-- The result of `CmmGetLastTag` is the one that the stored tags determine, whatever lies behind
the tags of the entries, exactly for the tables and tags that are `Right`. -/
theorem get_last_tag_iff (n : Nat) (tags : Nat → Int) (t : List CmmEntry) :
    (∀ t', List.Forall₂ CmmEntry.SameStored t t' →
      cmmGetLastTag n tags t' = lastTag n tags t) ↔ Right n tags t := by
  induction t with
  | nil => simp [Right, cmmGetLastTag, lastTag]
  | cons e t ih =>
    constructor
    · intro h
      refine ⟨fun hmay => ?_, Classical.or_iff_not_imp_left.mpr fun hmust => ih.mp fun t' ht => ?_⟩
      · -- The entry is made to match.
        have hrest : List.Forall₂ CmmEntry.SameStored t t :=
          List.forall₂_same.mpr fun _ _ => ⟨rfl, fun _ _ => rfl⟩
        have := h _ (.cons (e.behind_same tags) hrest)
        rwa [get_last_tag_cons, if_pos hmay.matches, (e.behind_same tags).last_eq] at this
      · -- The entry is made not to match, which leaves the result to the rest.
        obtain ⟨memory, hmatch⟩ := CmmEntry.not_match hmust
        have := h _ (.cons (e.behind_same memory) ht)
        rwa [get_last_tag_cons, if_neg hmatch, last_tag_skip t hmust] at this
    · rintro ⟨hmay, hrest⟩ _ (_ | ⟨hsame, ht⟩)
      rw [get_last_tag_cons]
      split
      · next hmatch =>
        rw [hsame.last_eq]
        exact hmay (hsame.may hmatch)
      · next hmatch =>
        have hmust : ¬ e.Must n tags := fun hmust => hmatch (hmust.matches hsame)
        rw [last_tag_skip t hmust]
        exact ih.mpr (hrest.resolve_left hmust) _ ht

/-- In particular the result is right if no entry that is too short, before the first one that is to
match, has stored tags that all match. -/
theorem get_last_tag_of_no_short_match {t : List CmmEntry}
    (h : ∀ e ∈ t.takeWhile fun e => ¬(n ≤ e.ntags ∧ Agree n tags e.tags),
      e.ntags < n → ¬ e.May n tags) : cmmGetLastTag n tags t = lastTag n tags t := by
  induction t with
  | nil => rfl
  | cons e t ih =>
    rw [get_last_tag_cons]
    by_cases hfirst : n ≤ e.ntags ∧ Agree n tags e.tags
    · rw [if_pos hfirst.2, lastTag, List.find?_cons_of_pos (by simpa using hfirst)]
      rfl
    · have hskip : decide (¬(n ≤ e.ntags ∧ Agree n tags e.tags)) = true := decide_eq_true hfirst
      rw [List.takeWhile_cons, if_pos hskip, List.forall_mem_cons] at h
      have hno : ¬ Agree n tags e.tags := fun hmatch => by
        by_cases hle : n ≤ e.ntags
        · exact hfirst ⟨hle, hmatch⟩
        · exact h.1 (by omega) fun i hi => hmatch i (by omega)
      rw [if_neg hno, ih h.2, lastTag, lastTag, List.find?_cons_of_neg (by simpa using hfirst)]

/-- One entry with the tag 5 and a 7 behind it matches the tags 5, 7. -/
theorem short_entry_matches :
    cmmGetLastTag 2 ([5, 7].getD · 0) (cmmPut [] [5] fun _ => 7) = 5 ∧
    lastTag 2 ([5, 7].getD · 0) (cmmPut [] [5] fun _ => 7) = -1 := by
  decide

end Reconverse.TagTable
