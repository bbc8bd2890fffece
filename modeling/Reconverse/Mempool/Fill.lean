import Reconverse.Mempool.Block

/-!
# The slots of a new block

`fillblock` and the loop of `checkblock` write rows of headers, one behind the other
(`putChain`). Here it is shown that `fillblock` establishes the invariant of a block.
-/

namespace Reconverse.Mempool

open Function (update update_self)
open Lib.DList List

variable {mem mem' : Slots} {fl fl' : Freelists} {blk start x y : Int} {c : Cell}
  {cs pre post cells : List Cell} {expansion : Bool} {poolSize : Nat} {loc : Int}

/-! ## Headers for a row of new slots -/

/-- Write the headers of free slots behind `prev`, the last of which is followed by `last`. -/
def putChain (blk last : Int) : List Cell → (prev : Int) → Slots → Slots
  | [], prev, mem => mem.setGnext prev last
  | c :: cs, prev, mem =>
    putChain blk last cs c.pos ((mem.putFree c.pos blk c.power prev).setGnext prev c.pos)

/-- Nothing but the new headers and the `gnext` of `prev` is written. -/
theorem put_chain_agree (blk last prev : Int) (mem : Slots) (hy : y ∉ cs.map Cell.pos) :
    Agree (mem.setGnext prev ((cs.map Cell.pos).headD last)) (putChain blk last cs prev mem) y := by
  induction cs generalizing prev mem with
  | nil => exact .refl _ y
  | cons c cs ih =>
    rw [map_cons, mem_cons, not_or] at hy
    have hput : Agree (mem.setGnext prev c.pos)
        ((mem.putFree c.pos blk c.power prev).setGnext prev c.pos) y :=
      agree_put_free hy.1 blk c.power prev
    exact (hput.trans (agree_set_gnext hy.1 _)).trans (ih c.pos _ hy.2)

/-- The headers of a row of new cells are written and linked. -/
theorem put_chain_spec (blk last : Int) {prev : Int} (mem : Slots)
    (hnodup : (prev :: cs.map Cell.pos).Nodup) (hfree : ∀ c ∈ cs, c.free = true) :
    (putChain blk last cs prev mem).gnext prev = (cs.map Cell.pos).headD last ∧
    Linked (putChain blk last cs prev mem).gnext (putChain blk last cs prev mem).gprev prev
      (cs.map Cell.pos) last ∧
    ∀ c ∈ cs, Holds (putChain blk last cs prev mem) blk c ∧
      (putChain blk last cs prev mem).next c.pos = 0 ∧
      (putChain blk last cs prev mem).prev c.pos = 0 := by
  induction cs generalizing prev mem with
  | nil => exact ⟨update_self .., trivial, fun c hc => by cases hc⟩
  | cons c cs ih =>
    obtain ⟨hprev, hcs⟩ := nodup_cons.mp hnodup
    obtain ⟨hnext, hlinked, hholds⟩ := ih
      ((mem.putFree c.pos blk c.power prev).setGnext prev c.pos) hcs
      fun d hd => hfree d (mem_cons_of_mem _ hd)
    -- The header of `c` is written first and not touched again but for its `gnext`.
    have hat := put_chain_agree blk last c.pos
      ((mem.putFree c.pos blk c.power prev).setGnext prev c.pos)
      (nodup_cons.mp hcs).1
    refine ⟨?_, ⟨?_, hnext, hlinked⟩, fun d hd => ?_⟩
    · exact (put_chain_agree blk last prev mem hprev).gnext.trans (update_self ..)
    · exact hat.gprev.trans (update_self ..)
    · rcases mem_cons.mp hd with rfl | hd
      · refine ⟨⟨hat.size.trans (update_self ..), hat.power.trans
          (update_self ..), ?_, hat.blockPtr.trans (update_self ..)⟩,
          hat.next.trans (update_self ..), hat.prev.trans (update_self ..)⟩
        rw [hfree d mem_cons_self]
        exact hat.status.trans (update_self ..)
      · exact hholds d hd

/-! ## `fillblock` -/

/-- What `fillblock` leaves out at the start of a block. -/
def taken (expansion : Bool) : Nat := if expansion then sizeofBlockHeader else sizeofMempoolType

theorem taken_true : taken true = sizeofBlockHeader := rfl

theorem taken_false : taken false = sizeofMempoolType := rfl

/-- The cells of a new block. -/
@[irreducible] def freshCells (blk : Int) (poolSize : Nat) (expansion : Bool) : List Cell :=
  greedy (turns (poolSize - taken expansion)) (blk + taken expansion) (poolSize - taken expansion)

/-- The freelists of a new block. -/
@[irreducible] def freshLists (blk : Int) (poolSize : Nat) (expansion : Bool) : Freelists :=
  layOut (turns (poolSize - taken expansion)) (blk + taken expansion) (poolSize - taken expansion)
    fun _ => 0

/-- A size that was not laid out keeps its list. -/
theorem lay_out_other {n q left : Nat} (fl : Freelists)
    (h : ∀ c ∈ greedy n loc left, c.power ≠ q) : layOut n loc left fl q = fl q := by
  induction n generalizing loc left fl with
  | zero => rfl
  | succ i ih =>
    rw [greedy] at h
    rw [layOut]
    split
    next hge =>
      rw [if_pos hge] at h
      rw [ih _ fun c hc => h c (mem_cons_of_mem _ hc)]
      exact Function.update_of_ne (Ne.symm (h _ mem_cons_self)) ..
    next hlt =>
      rw [if_neg hlt] at h
      exact ih _ h

/-- Each new cell is the head of the list of its size. -/
theorem lay_out_greedy {n left : Nat} (fl : Freelists)
    (hc : c ∈ greedy n loc left) : layOut n loc left fl c.power = c.pos := by
  induction n generalizing loc left fl with
  | zero => cases hc
  | succ i ih =>
    rw [greedy] at hc
    rw [layOut]
    split
    next hge =>
      rw [if_pos hge] at hc
      rcases mem_cons.mp hc with rfl | hc
      · rw [lay_out_other _ fun d hd => ne_of_lt (mem_greedy hd).1]
        exact update_self ..
      · exact ih _ hc
    next hlt =>
      rw [if_neg hlt] at hc
      exact ih _ hc

/-- Below the top power, the second loop of `fillblock` writes the headers of the cells that the
first one found. -/
theorem init_slots_eq {power n left : Nat} (blk prev : Int) (mem : Slots)
    (hn : n ≤ power) (hfl : ∀ c ∈ greedy n loc left, fl c.power = c.pos ∧ c.pos ≠ 0)
    (hzero : ∀ i < n, (∀ c ∈ greedy n loc left, c.power ≠ i) → fl i = 0) :
    initSlots blk fl power n prev mem = putChain blk 0 (greedy n loc left) prev mem := by
  induction n generalizing loc left prev mem with
  | zero => rfl
  | succ i ih =>
    rw [greedy] at hfl hzero
    rw [initSlots, greedy]
    split at hfl
    next hge =>
      rw [if_pos hge] at hzero
      rw [if_pos hge]
      obtain ⟨hloc, hne⟩ := hfl _ mem_cons_self
      rw [hloc, if_pos hne]
      simp only [if_pos (show i ≠ power by omega)]
      refine ih _ _ (by omega) (fun c hc => hfl c (mem_cons_of_mem _ hc)) fun j hj hother => ?_
      refine hzero j (by omega) fun c hc => ?_
      rcases mem_cons.mp hc with rfl | hc
      · exact Nat.ne_of_gt hj
      · exact hother c hc
    next hlt =>
      rw [if_neg hlt] at hzero
      have h0 := hzero i (Nat.lt_succ_self i) fun c hc => Nat.ne_of_lt (mem_greedy hc).1
      rw [if_neg hlt, if_neg (not_not.mpr h0)]
      exact ih _ _ (by omega) hfl fun j hj => hzero j (by omega)

/-- Freelists of at most one slot each. -/
theorem FreeLists.of_single (hpow : (cs.map Cell.power).Nodup) (hfree : ∀ c ∈ cs, c.free = true)
    (hcell : ∀ c ∈ cs, fl c.power = c.pos ∧ mem.next c.pos = 0 ∧ mem.prev c.pos = 0)
    (hzero : ∀ q, (∀ c ∈ cs, c.power ≠ q) → fl q = 0) : FreeLists mem fl cs := by
  intro q _
  rcases Decidable.em (∃ c ∈ cs, c.power = q) with ⟨c, hc, rfl⟩ | hnone
  · obtain ⟨hhead, hnext, hprev⟩ := hcell c hc
    refine ⟨[c.pos], hhead, ⟨hprev, hnext, trivial⟩, ?_⟩
    rw [free_at_single hpow hc (hfree c hc)]
  · refine ⟨[], hzero q fun c hc hq => hnone ⟨c, hc, hq⟩, trivial, ?_⟩
    rw [free_at_eq_nil fun d hd _ hdpow => hnone ⟨d, hd, hdpow⟩]

theorem greedy_powers_nodup (n : Nat) (loc : Int) (left : Nat) :
    ((greedy n loc left).map Cell.power).Nodup := by
  rw [List.Nodup, pairwise_map]
  exact (greedy_sorted n loc left).imp fun h => Nat.ne_of_gt h

/-- The first header is written before the others, and nothing links to it. -/
theorem put_chain_first (blk : Int) (mem : Slots) (hrow : Row start (c :: cs))
    (hfree : ∀ d ∈ c :: cs, d.free = true) (hpow : ((c :: cs).map Cell.power).Nodup)
    (hfl : ∀ d ∈ c :: cs, fl d.power = d.pos)
    (hzero : ∀ q, (∀ d ∈ c :: cs, d.power ≠ q) → fl q = 0) :
    BlockInv (putChain blk 0 cs c.pos (mem.putFree c.pos blk c.power 0)) fl blk start
    (c :: cs) := by
  have hnodup : (c.pos :: cs.map Cell.pos).Nodup := hrow.tiled.nodup
  obtain ⟨hnext, hlinked, hcells⟩ := put_chain_spec blk 0 (mem.putFree c.pos blk c.power 0) hnodup
    fun d hd => hfree d (mem_cons_of_mem _ hd)
  have hat := put_chain_agree blk 0 c.pos (mem.putFree c.pos blk c.power 0)
    (nodup_cons.mp hnodup).1
  generalize putChain blk 0 cs c.pos (mem.putFree c.pos blk c.power 0) = mem' at *
  have hboth : ∀ d ∈ c :: cs, Holds mem' blk d ∧ mem'.next d.pos = 0 ∧ mem'.prev d.pos = 0 := by
    intro d hd
    rcases mem_cons.mp hd with rfl | hd
    · refine ⟨⟨hat.size.trans (update_self ..), hat.power.trans (update_self ..),
        ?_, hat.blockPtr.trans (update_self ..)⟩, hat.next.trans (update_self ..),
        hat.prev.trans (update_self ..)⟩
      rw [hfree d mem_cons_self]
      exact hat.status.trans (update_self ..)
    · exact hcells d hd
  refine ⟨hrow, fun d hd => (hboth d hd).1, ⟨hat.gprev.trans (update_self ..), hnext,
    hlinked⟩, .of_single hpow hfree (fun d hd => ⟨hfl d hd, (hboth d hd).2⟩) hzero⟩

/-- `fillblock`, with its loops in terms of the new cells. -/
theorem fillblock_def (mem : Slots) (blk : Int) (poolSize : Nat) (expansion : Bool) :
    fillblock mem blk poolSize expansion =
      if poolSize < taken expansion then none
      else if turns (poolSize - taken expansion) > cutOffNum then none
      else if turns (poolSize - taken expansion) = 0 then none
      else some (freshLists blk poolSize expansion,
        initSlots blk (freshLists blk poolSize expansion)
        (turns (poolSize - taken expansion) - 1) (turns (poolSize - taken expansion)) 0 mem) := by
  rw [freshLists]
  rfl

/-- New cells are free and of sizes that were tried. -/
theorem mem_fresh_cells (h : c ∈ freshCells blk poolSize expansion) :
    c.power < turns (poolSize - taken expansion) ∧ c.free = true := by
  rw [freshCells] at h
  exact mem_greedy h

/-- The freelists of a new block hold its cells. -/
theorem fresh_lists_spec (blk : Int) (poolSize : Nat) (expansion : Bool) :
    (∀ c ∈ freshCells blk poolSize expansion, freshLists blk poolSize expansion c.power = c.pos) ∧
    ∀ q, (∀ c ∈ freshCells blk poolSize expansion, c.power ≠ q) →
      freshLists blk poolSize expansion q = 0 := by
  rw [freshCells, freshLists]
  exact ⟨fun c hc => lay_out_greedy _ hc, fun q hq => lay_out_other _ hq⟩

/-- `fillblock` makes a block of a range that has room for a slot. -/
theorem fillblock_spec (mem : Slots) (blk : Int) (expansion : Bool)
    (hfit : taken expansion + 64 ≤ poolSize) (hlt : poolSize - taken expansion < 2 ^ 30)
    (hzero : 0 < blk + taken expansion ∨ blk + poolSize ≤ 0) :
    ∃ mem', fillblock mem blk poolSize expansion =
        some (freshLists blk poolSize expansion, mem') ∧
      BlockInv mem' (freshLists blk poolSize expansion) blk (blk + taken expansion)
        (freshCells blk poolSize expansion) ∧
      ∀ y, y ∉ (freshCells blk poolSize expansion).map Cell.pos → Agree mem mem' y := by
  obtain ⟨hle, hbound, hpowers⟩ := turns_spec hlt
  obtain ⟨n, hn⟩ : ∃ n, turns (poolSize - taken expansion) = n + 1 := by
    refine Nat.exists_eq_succ_of_ne_zero fun h0 => ?_
    rw [h0, cut_off_zero] at hbound
    omega
  have hrow : Row (blk + taken expansion) (freshCells blk poolSize expansion) := by
    refine ⟨?_, ?_, fun c hc => lt_of_lt_of_le (mem_fresh_cells hc).1 hle⟩
    · rw [freshCells]
      exact greedy_tiled ..
    · rw [freshCells, total_greedy _ hbound]
      omega
  have hfree : ∀ c ∈ freshCells blk poolSize expansion, c.free = true := fun c hc =>
    (mem_fresh_cells hc).2
  have hpow : ((freshCells blk poolSize expansion).map Cell.power).Nodup := by
    rw [freshCells]
    exact greedy_powers_nodup ..
  obtain ⟨hfl, hnone⟩ := fresh_lists_spec blk poolSize expansion
  -- The first slot has the top power, and its header is written without a slot before it.
  have hcells : freshCells blk poolSize expansion = ⟨blk + taken expansion, n, true⟩ ::
      greedy n (blk + taken expansion + cutOffPoints n)
        (poolSize - taken expansion - cutOffPoints n) := by
    rw [freshCells, hn, greedy, if_pos (hpowers n (by omega))]
  rw [hcells] at hrow hfree hpow hfl hnone ⊢
  have hfirst : freshLists blk poolSize expansion n = blk + taken expansion :=
    hfl _ mem_cons_self
  have hslots : initSlots blk (freshLists blk poolSize expansion) n (n + 1) 0 mem =
      putChain blk 0 (greedy n (blk + taken expansion + cutOffPoints n)
        (poolSize - taken expansion - cutOffPoints n)) (blk + taken expansion)
        (mem.putFree (blk + taken expansion) blk n 0) := by
    rw [initSlots, hfirst, if_pos (hrow.ne_zero mem_cons_self)]
    simp only [ne_eq, not_true_eq_false, if_false]
    refine init_slots_eq blk _ _ (le_refl n) (fun c hc => ?_) fun i hi hother => ?_
    · exact ⟨hfl c (mem_cons_of_mem _ hc), hrow.ne_zero (mem_cons_of_mem _ hc)⟩
    · refine hnone i fun c hc => ?_
      rcases mem_cons.mp hc with rfl | hc
      · exact Nat.ne_of_gt hi
      · exact hother c hc
  refine ⟨initSlots blk (freshLists blk poolSize expansion) n (n + 1) 0 mem, ?_, ?_, fun y hy => ?_⟩
  · rw [fillblock_def, if_neg (by omega), if_neg (by omega), if_neg (by omega), hn,
      Nat.add_sub_cancel]
  · rw [hslots]
    exact put_chain_first blk mem hrow hfree hpow hfl hnone
  · rw [map_cons, mem_cons, not_or] at hy
    rw [hslots]
    exact ((agree_put_free hy.1 blk n 0).trans (agree_set_gnext hy.1 _)).trans
      (put_chain_agree blk 0 _ _ hy.2)

/-- New cells fill the block up to less than 64 bytes. -/
theorem total_fresh_cells {size : Nat} (base : Int) (expansion : Bool)
    (h : size - taken expansion < 2 ^ 30) :
    total (freshCells base size expansion) = (size - taken expansion) / 64 * 64 := by
  rw [freshCells]
  exact total_greedy _ (turns_spec h).2.1

/-- A new block has a cell for every power that fits. -/
theorem exists_fresh_cell {size power : Nat} (base : Int) (expansion : Bool)
    (h : size - taken expansion < 2 ^ 30) (hfits : taken expansion + cutOffPoints power ≤ size) :
    ∃ c ∈ freshCells base size expansion, power ≤ c.power := by
  obtain ⟨-, hbound, hpowers⟩ := turns_spec h
  have hlt : power < turns (size - taken expansion) := by
    refine Nat.lt_of_not_le fun hle => ?_
    have := cut_off_mono hle
    omega
  obtain ⟨n, hn⟩ := exists_fuel hlt
  rw [freshCells, hn, greedy, if_pos (hpowers n (by omega))]
  exact ⟨_, mem_cons_self, show power ≤ n by omega⟩

/-- A block that `fillblock` accepts has room for a slot, and is not too large for the freelists. -/
theorem fillblock_fits {r : Freelists × Slots} (h : fillblock mem blk poolSize expansion = some r) :
    taken expansion + 64 ≤ poolSize ∧ poolSize - taken expansion < 2 ^ 30 := by
  rw [fillblock_def] at h
  split at h
  · cases h
  · split at h
    · cases h
    · rename_i hle
      have hsmall := lt_of_turns_le (Nat.le_of_not_gt hle)
      split at h
      · cases h
      · rename_i hn
        have hpowers := (turns_spec hsmall).2.2 0 (pos_of_ne_zero hn)
        rw [cut_off_zero] at hpowers
        omega

end Reconverse.Mempool
