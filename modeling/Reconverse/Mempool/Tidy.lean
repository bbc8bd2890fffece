import Reconverse.Mempool.Runs

/-!
# Blocks without used slots

The last `mempool_free` in a block finds one run of free slots, the whole block, and cuts it in the
way in which `fillblock` has cut it. The bytes behind the last slot, less than 64, make no
difference.
-/

namespace Reconverse.Mempool

open Lib.DList List

variable {mem mem' : Slots} {fl fl' : Freelists} {blk start : Int} {b : BlockDesc}
  {bs bs₁ bs₂ : List BlockDesc} {c : Cell} {pre post cells : List Cell} {left : Nat}

/-! ## The same cut -/

theorem turns_round (h : left < 2 ^ 30) : turns (left / 64 * 64) = turns left := by
  obtain ⟨-, hlt, hle⟩ := turns_spec h
  obtain ⟨-, hlt', hle'⟩ := turns_spec (show left / 64 * 64 < 2 ^ 30 by omega)
  rcases Nat.lt_trichotomy (turns (left / 64 * 64)) (turns left) with hless | heq | hmore
  · have := hle _ hless
    obtain ⟨k, hk⟩ := cut_off_dvd (turns (left / 64 * 64))
    omega
  · exact heq
  · have := hle' _ hmore
    omega

/-- What is left over below 64 bytes does not count. -/
theorem greedy_round (n : Nat) (loc : Int) (left : Nat) :
    greedy n loc (left / 64 * 64) = greedy n loc left := by
  induction n generalizing loc left with
  | zero => rfl
  | succ i ih =>
    obtain ⟨k, hk⟩ := cut_off_dvd i
    rw [greedy, greedy]
    by_cases hge : left ≥ cutOffPoints i
    · rw [if_pos hge, if_pos (by omega), ← ih _ (left - cutOffPoints i)]
      congr 2
      omega
    · rw [if_neg hge, if_neg (by omega), ih]

/-- The cells that `fillblock` has given to the block. -/
def BlockDesc.fresh (b : BlockDesc) : List Cell := freshCells b.base b.size (b.base != 0)

/-- The run that is cut anew when nothing is used is the whole block. -/
theorem Freed.eq_fresh {pool : Pool} (h : Freed pre c post cells) (hok : b.Ok pool)
    (hcells : b.cells = pre ++ c :: post) (hfree : ∀ d ∈ cells, d.free = true) : cells =
    b.fresh := by
  obtain ⟨pre₁, pre₂, post₁, post₂, rfl, rfl, -, hlast, hhead, rfl⟩ := h
  obtain rfl : pre₁ = [] := getLast?_eq_none_iff.mp <| Option.eq_none_iff_forall_ne_some.mpr
    fun d hd => by
      have := hfree d (by simp [mem_of_getLast? hd])
      rw [hlast d hd] at this
      cases this
  obtain rfl : post₂ = [] := head?_eq_none_iff.mp <| Option.eq_none_iff_forall_ne_some.mpr
    fun d hd => by
      have := hfree d (by simp [mem_of_head? hd])
      rw [hhead d hd] at this
      cases this
  have htiled := hok.inv.row.tiled
  have hfilled := hok.filled
  rw [hcells, nil_append, append_nil] at htiled hfilled
  rw [append_nil, htiled.head_eq (by simp), hfilled, freshRun,
    turns_round hok.small, greedy_round, BlockDesc.fresh, freshCells]
  rfl

/-! ## The same headers -/

/-- The links of a list are determined by the list. -/
theorem Linked.unique {α : Type} {next prev next' prev' : α → α} {x y z : α} {l : List α}
    (h : Linked next prev x l y) (h' : Linked next' prev' x l y) (hz : z ∈ l) :
    next' z = next z ∧ prev' z = prev z := by
  induction l generalizing x with
  | nil => cases hz
  | cons w l ih =>
    rcases mem_cons.mp hz with rfl | hz
    · exact ⟨h'.2.1.trans h.2.1.symm, h'.1.trans h.1.symm⟩
    · exact ih h.2.2 h'.2.2 hz

/-- A list with at most one cell of each power is in the freelists in one way only. -/
theorem FreeLists.single (h : FreeLists mem fl cells) (hpow : (cells.map Cell.power).Nodup)
    (hfree : ∀ d ∈ cells, d.free = true) {q : Nat} (hq : q < cutOffNum) :
    (∀ d ∈ cells, d.power = q → fl q = d.pos ∧ mem.next d.pos = 0 ∧ mem.prev d.pos = 0) ∧
      ((∀ d ∈ cells, d.power ≠ q) → fl q = 0) := by
  obtain ⟨l, hhead, hlinked, hperm⟩ := h q hq
  constructor
  · rintro d hd rfl
    rw [free_at_single hpow hd (hfree d hd), perm_singleton] at hperm
    subst hperm
    exact ⟨hhead, hlinked.2.1, hlinked.1⟩
  · intro hnone
    rw [free_at_eq_nil fun d hd _ => hnone d hd, perm_nil] at hperm
    subst hperm
    exact hhead

/-- Two blocks with the same free cells, one of each power, have the same headers and freelists. -/
theorem BlockInv.unique (h : BlockInv mem fl blk start cells)
    (h' : BlockInv mem' fl' blk start cells)
    (hpow : (cells.map Cell.power).Nodup) (hfree : ∀ d ∈ cells, d.free = true) :
    (∀ q < cutOffNum, fl' q = fl q) ∧ ∀ d ∈ cells, Agree mem mem' d.pos := by
  refine ⟨fun q hq => ?_, fun d hd => ?_⟩
  · obtain ⟨hsome, hnone⟩ := h.lists.single hpow hfree hq
    obtain ⟨hsome', hnone'⟩ := h'.lists.single hpow hfree hq
    by_cases hd : ∃ d ∈ cells, d.power = q
    · obtain ⟨d, hd, hdq⟩ := hd
      exact (hsome' d hd hdq).1.trans (hsome d hd hdq).1.symm
    · have hne : ∀ d ∈ cells, d.power ≠ q := fun d hmem hdq => hd ⟨d, hmem, hdq⟩
      exact (hnone' hne).trans (hnone hne).symm
  · have hcell := h.holds d hd
    have hcell' := h'.holds d hd
    have hlinks := Linked.unique h.linked h'.linked (mem_map_of_mem hd)
    have hq := h.row.powers d hd
    obtain ⟨-, hnext, hprev⟩ := (h.lists.single hpow hfree hq).1 d hd rfl
    obtain ⟨-, hnext', hprev'⟩ := (h'.lists.single hpow hfree hq).1 d hd rfl
    exact ⟨hcell'.blockPtr.trans hcell.blockPtr.symm, hcell'.size.trans hcell.size.symm,
      hcell'.power.trans hcell.power.symm, hcell'.status.trans hcell.status.symm, hlinks.2,
      hlinks.1, hprev'.trans hprev.symm, hnext'.trans hnext.symm⟩

/-! ## All blocks of a pool -/

/-- A block without used slots has the cells that `fillblock` has given to it. From every block but
the first a slot was handed out. -/
def BlockDesc.Tidy (b : BlockDesc) (s : State) : Prop :=
  (b.used = [] → b.cells = b.fresh) ∧ (b.base ≠ 0 → s.out b.base ≠ 0)

def State.Tidy (s : State) (bs : List BlockDesc) : Prop := ∀ b ∈ bs, b.Tidy s

theorem State.Tidy.mid {s : State} (hrest : s.Tidy (bs₁ ++ bs₂)) (hb : b.Tidy s) :
    s.Tidy (bs₁ ++ b :: bs₂) := by
  intro d hd
  rcases mem_cons.mp (perm_middle.mem_iff.mp hd) with rfl | hd
  · exact hb
  · exact hrest d hd

end Reconverse.Mempool
