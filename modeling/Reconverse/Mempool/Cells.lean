import Reconverse.Mempool.FreeLists

/-!
# Cells in a row

The cells of a block lie one behind the other (`Tiled`). `greedy` is the way in which `fillblock`
and `mempool_free` cut a range into cells of strictly decreasing powers, and `pieces` the way in
which `checkblock` cuts one cell.
-/

namespace Reconverse.Mempool

open List

variable {size : Nat} (i : Nat)

theorem exists_fuel {n fuel : Nat} (h : n < fuel) : ∃ k, fuel = k + 1 :=
  Nat.exists_eq_add_one.mpr (Nat.zero_lt_of_lt h)

/-! ## Cut-off points -/

theorem cut_off_pos : 0 < cutOffPoints i :=
  Nat.mul_pos (by omega) (Nat.pow_pos (by omega))

theorem cut_off_zero : cutOffPoints 0 = 64 := rfl

theorem cut_off_succ : cutOffPoints (i + 1) = 2 * cutOffPoints i := by
  rw [cutOffPoints, cutOffPoints]
  ring

/-- Every size is at least 64. -/
theorem cut_off_ge : 64 ≤ cutOffPoints i := by
  rw [cutOffPoints]
  have := Nat.one_le_two_pow (n := i)
  omega

theorem cut_off_dvd : 64 ∣ cutOffPoints i := Dvd.intro _ rfl

theorem cut_off_mono {i j : Nat} (h : i ≤ j) : cutOffPoints i ≤ cutOffPoints j :=
  Nat.mul_le_mul_left 64 (Nat.pow_le_pow_right (by omega) h)

/-- `which_pow2` finds the first cut-off point that is large enough. -/
theorem which_pow2_spec (h : size ≤ 2 ^ 30) :
    whichPow2 size ≤ cutOffNum ∧ size ≤ cutOffPoints (whichPow2 size) ∧
      ∀ j < whichPow2 size, cutOffPoints j < size := by
  obtain ⟨i, hi⟩ : ∃ i, (List.range (cutOffNum + 1)).find? (size ≤ cutOffPoints ·) = some i := by
    rw [← Option.isSome_iff_exists, find?_isSome]
    exact ⟨cutOffNum, by simp, decide_eq_true h⟩
  rw [whichPow2, hi]
  obtain ⟨hle, hmem, hleast⟩ := find?_range_eq_some.mp hi
  simp only [Option.getD_some]
  refine ⟨?_, by simpa using hle, fun j hj => by simpa using hleast j hj⟩
  have := mem_range.mp hmem
  omega

/-- A size fits the slot that is chosen for it. -/
theorem le_cut_off_which_pow2 (h : whichPow2 size ≤ cutOffNum) :
    size ≤ cutOffPoints (whichPow2 size) := by
  unfold whichPow2 at h ⊢
  cases hfind : (List.range (cutOffNum + 1)).find? (size ≤ cutOffPoints ·) with
  | none =>
    rw [hfind, Option.getD_none] at h
    omega
  | some i => simpa using find?_some hfind

/-- The powers that fit into a size below `2 ^ 30` are those below `turns`. -/
theorem turns_spec (h : size < 2 ^ 30) :
    turns size ≤ cutOffNum ∧ size < cutOffPoints (turns size) ∧
      ∀ j < turns size, cutOffPoints j ≤ size := by
  obtain ⟨hle, hfit, hleast⟩ := which_pow2_spec (le_of_lt h)
  rw [turns]
  split
  next hc => exact ⟨hle, hc.2, fun j hj => le_of_lt (hleast j hj)⟩
  next hc =>
    have heq : size = cutOffPoints (whichPow2 size) := by
      omega
    have hlt : whichPow2 size < cutOffNum := by
      refine lt_of_le_of_ne hle fun hmax => ?_
      rw [hmax, cutOffPoints, cutOffNum] at heq
      omega
    refine ⟨hlt, ?_, fun j hj => ?_⟩
    · rw [cut_off_succ]
      have := cut_off_pos (whichPow2 size)
      omega
    · rw [heq]
      exact cut_off_mono (Nat.le_of_lt_succ hj)

/-- A slot of `2 ^ 30` bytes or more has no freelist. -/
theorem lt_of_turns_le (h : turns size ≤ cutOffNum) : size < 2 ^ 30 := by
  have hle : whichPow2 size ≤ cutOffNum := by
    rw [turns] at h
    split at h <;> omega
  have hfit := le_cut_off_which_pow2 hle
  have hmono := cut_off_mono hle
  have hmax : cutOffPoints cutOffNum = 2 ^ 30 := rfl
  refine Decidable.byContradiction fun hge => ?_
  have hnot : ¬ (whichPow2 size ≤ cutOffNum ∧ size < cutOffPoints (whichPow2 size)) := by omega
  rw [turns, if_neg hnot] at h
  have hstep := cut_off_mono h
  rw [cut_off_succ] at hstep
  omega

/-! ## Tilings -/

/-- The cells lie one behind the other from `start` on. -/
def Tiled : Int → List Cell → Prop
  | _, [] => True
  | start, c :: cs => c.pos = start ∧ Tiled (start + c.size) cs

/-- The bytes of the cells together. -/
def total (cs : List Cell) : Nat := (cs.map Cell.size).sum

variable {start : Int} {c : Cell} {cs ds : List Cell} {left : Nat} {loc : Int} {n : Nat}

@[simp] theorem total_nil : total [] = 0 := rfl

@[simp] theorem total_cons : total (c :: cs) = c.size + total cs := by
  simp [total]

@[simp] theorem total_append : total (cs ++ ds) = total cs + total ds := by
  simp [total]

/-- Two tilings side by side. -/
theorem tiled_append : Tiled start (cs ++ ds) ↔ Tiled start cs ∧ Tiled (start + total cs) ds := by
  induction cs generalizing start with
  | nil => simp [Tiled]
  | cons c cs ih =>
    rw [cons_append, Tiled, Tiled, ih, total_cons, and_assoc, Nat.cast_add, add_assoc]

/-- Every cell lies within the range. -/
theorem Tiled.bounds (h : Tiled start cs) (hc : c ∈ cs) :
    start ≤ c.pos ∧ c.pos + c.size ≤ start + total cs := by
  induction cs generalizing start with
  | nil => cases hc
  | cons d cs ih =>
    obtain ⟨hpos, hcs⟩ := h
    rw [total_cons]
    rcases mem_cons.mp hc with rfl | hc
    · omega
    · have := ih hcs hc
      omega

theorem size_pos (c : Cell) : 64 ≤ c.size := cut_off_ge c.power

section

variable (h : Tiled start cs)

include h

/-- Different places in a row hold different cells. -/
theorem Tiled.pairwise : cs.Pairwise fun c d : Cell => c.pos + c.size ≤ d.pos := by
  induction cs generalizing start with
  | nil => exact .nil
  | cons c cs ih =>
    obtain ⟨hpos, hcs⟩ := h
    refine .cons (fun d hd => ?_) (ih hcs)
    rw [hpos]
    exact (hcs.bounds hd).1

/-- A place in a row is in one of its cells. -/
theorem Tiled.exists_cell {y : Int} (hge : start ≤ y) (hlt : y < start + total cs) :
    ∃ c ∈ cs, c.pos ≤ y ∧ y < c.pos + c.size := by
  induction cs generalizing start with
  | nil =>
    rw [total_nil] at hlt
    omega
  | cons c cs ih =>
    obtain ⟨hpos, hrest⟩ := h
    rw [total_cons] at hlt
    by_cases hin : y < start + c.size
    · exact ⟨c, mem_cons_self, by omega, by omega⟩
    · obtain ⟨d, hd, hdy⟩ := ih hrest (by omega) (by omega)
      exact ⟨d, mem_cons_of_mem _ hd, hdy⟩

/-- No two cells of a tiling have the same place. -/
theorem Tiled.nodup : (cs.map Cell.pos).Nodup := by
  rw [List.Nodup, pairwise_map]
  refine h.pairwise.imp fun {c d} hcd heq => ?_
  have := size_pos c
  omega

theorem Tiled.apart (hzero : ∀ c ∈ cs, c.pos ≠ 0) : Apart cs :=
  ⟨h.nodup, hzero⟩

/-- The first cell is at the start. -/
theorem Tiled.head_eq (hne : cs ≠ []) (d : Int) : (cs.map Cell.pos).headD d = start := by
  cases cs with
  | nil => exact absurd rfl hne
  | cons c cs => exact h.1

end

/-- There are at most as many cells as pieces of 64 bytes. -/
theorem length_le_total (cs : List Cell) : 64 * cs.length ≤ total cs := by
  induction cs with
  | nil => simp
  | cons c cs ih =>
    have := size_pos c
    rw [total_cons, length_cons]
    omega

/-- Cells fill a multiple of 64 bytes. -/
theorem dvd_total (cs : List Cell) : 64 ∣ total cs := by
  induction cs with
  | nil => simp
  | cons c cs ih =>
    exact Nat.dvd_add (cut_off_dvd c.power) ih

/-! ## Cutting a range -/

/-- The free cells cut from `left` bytes at `loc`, at most one of each power below `n`. -/
def greedy : (n : Nat) → (loc : Int) → (left : Nat) → List Cell
  | 0, _, _ => []
  | i + 1, loc, left =>
    if left ≥ cutOffPoints i then
      ⟨loc, i, true⟩ :: greedy i (loc + cutOffPoints i) (left - cutOffPoints i)
    else greedy i loc left

/-- The cells of `fillblock` lie side by side. -/
theorem greedy_tiled (n : Nat) (loc : Int) (left : Nat) : Tiled loc (greedy n loc left) := by
  induction n generalizing loc left with
  | zero => trivial
  | succ i ih =>
    rw [greedy]
    split
    · exact ⟨rfl, ih _ _⟩
    · exact ih _ _

/-- They are free and of allowed sizes. -/
theorem mem_greedy (h : c ∈ greedy n loc left) : c.power < n ∧ c.free = true := by
  induction n generalizing loc left with
  | zero => cases h
  | succ i ih =>
    rw [greedy] at h
    split at h
    · rcases mem_cons.mp h with rfl | h
      · exact ⟨Nat.lt_succ_self _, rfl⟩
      · exact ⟨Nat.lt_succ_of_lt (ih h).1, (ih h).2⟩
    · exact ⟨Nat.lt_succ_of_lt (ih h).1, (ih h).2⟩

/-- All but the last bytes of the range are used, up to a multiple of 64. -/
theorem total_greedy (loc : Int) (h : left < cutOffPoints n) :
    total (greedy n loc left) = left / 64 * 64 := by
  induction n generalizing loc left with
  | zero =>
    rw [cut_off_zero] at h
    rw [greedy, total_nil]
    omega
  | succ i ih =>
    rw [cut_off_succ] at h
    rw [greedy]
    split
    next hge =>
      obtain ⟨k, hk⟩ := cut_off_dvd i
      rw [total_cons, ih _ (by omega)]
      show cutOffPoints i + _ = _
      omega
    next hlt => exact ih _ (by omega)

/-- Their sizes decrease. -/
theorem greedy_sorted (n : Nat) (loc : Int) (left : Nat) :
    (greedy n loc left).Pairwise fun c d : Cell => d.power < c.power := by
  induction n generalizing loc left with
  | zero => exact .nil
  | succ i ih =>
    rw [greedy]
    split
    · exact .cons (fun d hd => (mem_greedy hd).1) (ih _ _)
    · exact ih _ _

/-- The pieces that `checkblock` puts behind the first one: one of each of `n` powers from `i`
on. -/
def pieces : (n i : Nat) → (loc : Int) → List Cell
  | 0, _, _ => []
  | n + 1, i, loc => ⟨loc, i, true⟩ :: pieces n (i + 1) (loc + cutOffPoints i)

/-- The pieces of a slot lie side by side. -/
theorem pieces_tiled (n i : Nat) (loc : Int) : Tiled loc (pieces n i loc) := by
  induction n generalizing i loc with
  | zero => trivial
  | succ n ih => exact ⟨rfl, ih _ _⟩

/-- They are free, and their sizes are below that of the slot. -/
theorem mem_pieces {n i : Nat} (h : c ∈ pieces n i loc) :
    i ≤ c.power ∧ c.power < i + n ∧ c.free = true := by
  induction n generalizing i loc with
  | zero => cases h
  | succ n ih =>
    rcases mem_cons.mp h with rfl | h
    · exact ⟨le_refl i, Nat.lt_add_of_pos_right (Nat.succ_pos n), rfl⟩
    · obtain ⟨hle, hlt, hfree⟩ := ih h
      exact ⟨by omega, by omega, hfree⟩

/-- There is a piece of every size below that of the slot. -/
theorem exists_piece {n i q : Nat} (loc : Int) (hle : i ≤ q) (hlt : q < i + n) :
    ∃ c ∈ pieces n i loc, c.power = q := by
  induction n generalizing i loc with
  | zero => omega
  | succ n ih =>
    rcases eq_or_lt_of_le hle with rfl | hlt'
    · exact ⟨_, mem_cons_self, rfl⟩
    · obtain ⟨c, hc, hpow⟩ := ih (loc + cutOffPoints i) hlt' (by omega)
      exact ⟨c, mem_cons_of_mem _ hc, hpow⟩

theorem pieces_powers_nodup (n i : Nat) (loc : Int) : ((pieces n i loc).map Cell.power).Nodup := by
  induction n generalizing i loc with
  | zero => exact .nil
  | succ n ih =>
    refine nodup_cons.mpr ⟨fun hmem => ?_, ih _ _⟩
    obtain ⟨c, hc, hpow⟩ := mem_map.mp hmem
    have := (mem_pieces hc).1
    have : c.power = i := hpow
    omega

/-- The pieces make up the slot that is cut, with one more of the smallest power. -/
theorem total_pieces (n i : Nat) (loc : Int) :
    cutOffPoints i + total (pieces n i loc) = cutOffPoints (i + n) := by
  induction n generalizing i loc with
  | zero => rfl
  | succ n ih =>
    have h := ih (i + 1) (loc + cutOffPoints i)
    rw [cut_off_succ] at h
    rw [pieces, total_cons, show i + (n + 1) = i + 1 + n by omega]
    show cutOffPoints i + (cutOffPoints i + _) = _
    omega

end Reconverse.Mempool
