import Reconverse.Mempool.Fill

/-!
# Cutting a slot

`checkblock` looks for a slot for a request. If the freelist of the power is empty, it takes the
first slot of the next larger power that has one, and cuts it into two slots of the power and one
of every power between.
-/

namespace Reconverse.Mempool

open Function (update update_apply update_of_ne update_self)
open Lib.DList List Cell

variable {mem : Slots} {fl : Freelists} {blk start y : Int} {c : Cell} {pre post cells : List Cell}

/-! ## The loops -/

/-- Other sizes keep their lists. -/
theorem list_pieces_other {n j q : Nat} (loc : Int) (fl : Freelists) (h : q ≤ j ∨ j + n < q) :
    listPieces n (j + 1) loc fl q = fl q := by
  induction n generalizing j loc fl with
  | zero => rfl
  | succ n ih =>
    show listPieces n (j + 1 + 1) _ _ q = _
    rw [ih _ _ (by omega)]
    exact update_of_ne (by omega) ..

variable {loc : Int}

/-- Each piece is the head of the list of its size. -/
theorem list_pieces_mem {n j : Nat} (fl : Freelists)
    (hc : c ∈ pieces n (j + 1) (loc + cutOffPoints j)) :
    listPieces n (j + 1) loc fl c.power = c.pos := by
  induction n generalizing j loc fl with
  | zero => cases hc
  | succ n ih =>
    show listPieces n (j + 1 + 1) (loc + cutOffPoints j) _ c.power = _
    rcases mem_cons.mp hc with rfl | hc
    · rw [list_pieces_other _ _ (.inl (le_refl _))]
      exact update_self ..
    · exact ih _ hc

/-- Behind the first piece, the second loop of `checkblock` writes the headers of the pieces. -/
theorem cut_pieces_eq {power j : Nat} (blk last : Int) (n : Nat) (x : Int) (mem : Slots)
    (hj : power ≤ j) :
    (cutPieces blk power n (j + 1) x x mem).2 =
      (((pieces n (j + 1) (x + cutOffPoints j)).map Cell.pos).getLastD x,
        ((pieces n (j + 1) (x + cutOffPoints j)).map Cell.pos).getLastD x) ∧
    (cutPieces blk power n (j + 1) x x mem).1.setGnext
        (((pieces n (j + 1) (x + cutOffPoints j)).map Cell.pos).getLastD x) last =
      putChain blk last (pieces n (j + 1) (x + cutOffPoints j)) x mem := by
  induction n generalizing j x mem with
  | zero => exact ⟨rfl, rfl⟩
  | succ n ih =>
    have hne : j + 1 ≠ power := by omega
    rw [cutPieces]
    simp only [if_pos hne, Nat.add_sub_cancel]
    rw [pieces, map_cons, getLastD_cons]
    exact ih (x + cutOffPoints j) _ (Nat.le_succ_of_le hj)

/-- The second loop of `checkblock` writes the headers of all pieces but the first one. -/
theorem cut_pieces_first (blk last : Int) (n power : Nat) (loc : Int) (mem : Slots) :
    ∃ done, cutPieces blk power (n + 1) power (loc + cutOffPoints power) loc mem =
        (done, ((pieces (n + 1) power (loc + cutOffPoints power)).map Cell.pos).getLastD loc,
          ((pieces (n + 1) power (loc + cutOffPoints power)).map Cell.pos).getLastD loc) ∧
      done.setGnext (((pieces (n + 1) power (loc + cutOffPoints power)).map Cell.pos).getLastD loc)
          last =
        putChain blk last (pieces (n + 1) power (loc + cutOffPoints power)) loc mem := by
  obtain ⟨hends, hmem⟩ := cut_pieces_eq blk last n (loc + cutOffPoints power)
    ((mem.putFree (loc + cutOffPoints power) blk power loc).setGnext loc (loc + cutOffPoints power))
    (le_refl power)
  rw [pieces, map_cons, getLastD_cons, cutPieces]
  simp only [ne_eq, not_true_eq_false, if_false]
  exact ⟨_, Prod.ext rfl hends, hmem⟩

/-- The cells into which `checkblock` cuts a slot. -/
def splitCells (n power : Nat) (loc : Int) : List Cell :=
  ⟨loc, power, true⟩ :: pieces (n + 1) power (loc + cutOffPoints power)

/-- The memory after the loop of `checkblock` that writes the headers. -/
def splitMem (mem : Slots) (blk loc : Int) (n power : Nat) : Slots :=
  putChain blk (mem.gnext loc) (pieces (n + 1) power (loc + cutOffPoints power)) loc
    { mem with
      size := update mem.size loc (cutOffPoints power)
      power := update mem.power loc power
      next := update mem.next loc (loc + cutOffPoints power) }

variable {n power : Nat} {r : Freelists × Slots}

/-- What `splitslot` writes to the headers. -/
theorem split_slot_slots (mem : Slots) (blk : Int) (hloc : fl (power + n + 1) = loc) :
    (splitSlot mem blk fl power (power + n + 1)).2 =
      { splitMem mem blk loc n power with
        gprev :=
          if mem.gnext loc ≠ 0 then
            update (splitMem mem blk loc n power).gprev (mem.gnext loc)
              (((splitCells n power loc).map pos).getLastD 0)
          else (splitMem mem blk loc n power).gprev
        prev :=
          if mem.next loc ≠ 0 then
            update (update (splitMem mem blk loc n power).prev (loc + cutOffPoints power) loc)
              (mem.next loc) 0
          else update (splitMem mem blk loc n power).prev (loc + cutOffPoints power) loc } := by
  have hturns : power + n + 1 - power = n + 1 := by omega
  -- The slots left in the freelist are those behind the one that is cut.
  have hrest : listPieces n (power + 1) (loc + cutOffPoints power)
      (update (update fl (power + n + 1) (mem.next loc)) power loc) (power + n + 1) =
      mem.next loc := by
    rw [list_pieces_other _ _ (.inr (by omega)), update_of_ne (by omega), update_self]
  obtain ⟨done, hcut, hmem⟩ := cut_pieces_first blk (mem.gnext loc) n power loc
    { mem with
      size := update mem.size loc (cutOffPoints power)
      power := update mem.power loc power
      next := update mem.next loc (loc + cutOffPoints power) }
  simp only [splitSlot, hloc, hturns, Nat.add_sub_cancel, hrest, hcut]
  rw [splitMem, ← hmem]
  split <;> split <;> rfl

theorem split_cells_tiled (n power : Nat) (loc : Int) : Tiled loc (splitCells n power loc) :=
  ⟨rfl, pieces_tiled ..⟩

theorem total_split_cells (n power : Nat) (loc : Int) :
    total (splitCells n power loc) = cutOffPoints (power + n + 1) := by
  exact total_pieces (n + 1) power _

/-- The parts of a slot are free and smaller. -/
theorem mem_split_cells (h : c ∈ splitCells n power loc) :
    power ≤ c.power ∧ c.power ≤ power + n ∧ c.free = true := by
  rcases mem_cons.mp h with rfl | h
  · exact ⟨Nat.le_refl _, Nat.le_add_right _ _, rfl⟩
  · obtain ⟨hle, hlt, hfree⟩ := mem_pieces h
    exact ⟨hle, by omega, hfree⟩

/-- Other headers are as before. -/
theorem split_mem_agree (mem : Slots) (blk : Int)
    (hy : y ∉ (splitCells n power loc).map Cell.pos) : Agree mem
    (splitMem mem blk loc n power) y := by
  rw [splitCells, map_cons, mem_cons, not_or] at hy
  have hne : y ≠ loc := hy.1
  have hsmaller : Agree mem
      { mem with
        size := update mem.size loc (cutOffPoints power)
        power := update mem.power loc power
        next := update mem.next loc (loc + cutOffPoints power) } y :=
    ⟨rfl, update_of_ne hne .., update_of_ne hne .., rfl, rfl, rfl, rfl, update_of_ne hne ..⟩
  exact (hsmaller.trans (agree_set_gnext hne _)).trans (put_chain_agree _ _ _ _ hy.2)

/-- The parts are linked in the place of the slot. -/
theorem split_mem_spec (n power : Nat) (hc : Holds mem blk c) (hfree : c.free = true) :
    Linked (splitMem mem blk c.pos n power).gnext (splitMem mem blk c.pos n power).gprev
      (mem.gprev c.pos) ((splitCells n power c.pos).map Cell.pos) (mem.gnext c.pos) ∧
    (∀ d ∈ splitCells n power c.pos, Holds (splitMem mem blk c.pos n power) blk d) ∧
    ((splitMem mem blk c.pos n power).next c.pos = c.pos + cutOffPoints power ∧
      (splitMem mem blk c.pos n power).prev c.pos = mem.prev c.pos) ∧
    ∀ d ∈ pieces (n + 1) power (c.pos + cutOffPoints power),
      (splitMem mem blk c.pos n power).next d.pos = 0 ∧
      (splitMem mem blk c.pos n power).prev d.pos = 0 := by
  have hnodup : (c.pos :: (pieces (n + 1) power (c.pos + cutOffPoints power)).map pos).Nodup :=
    (split_cells_tiled n power c.pos).nodup
  obtain ⟨hnext, hlinked, hcells⟩ := put_chain_spec blk (mem.gnext c.pos)
    { mem with
      size := update mem.size c.pos (cutOffPoints power)
      power := update mem.power c.pos power
      next := update mem.next c.pos (c.pos + cutOffPoints power) } hnodup
    fun d hd => (mem_pieces hd).2.2
  have hat := put_chain_agree blk (mem.gnext c.pos) c.pos
    { mem with
      size := update mem.size c.pos (cutOffPoints power)
      power := update mem.power c.pos power
      next := update mem.next c.pos (c.pos + cutOffPoints power) } (nodup_cons.mp hnodup).1
  refine ⟨⟨hat.gprev, hnext, hlinked⟩, fun d hd => ?_, ⟨hat.next.trans (update_self ..),
    hat.prev⟩, fun d hd => (hcells d hd).2⟩
  rcases mem_cons.mp hd with rfl | hd
  · have hstatus := hc.status
    rw [hfree] at hstatus
    exact ⟨hat.size.trans (update_self ..), hat.power.trans (update_self ..),
      hat.status.trans hstatus, hat.blockPtr.trans hc.blockPtr⟩
  · exact (hcells d hd).1

/-- The links of the row after a split. -/
theorem split_slot_gprev (mem : Slots) (blk y : Int) (hloc : fl (power + n + 1) = loc) :
    (splitSlot mem blk fl power (power + n + 1)).2.gprev y =
      if mem.gnext loc ≠ 0 ∧ y = mem.gnext loc then
        ((splitCells n power loc).map Cell.pos).getLastD 0
      else (splitMem mem blk loc n power).gprev y := by
  rw [split_slot_slots mem blk hloc]
  by_cases h0 : mem.gnext loc = 0 <;> simp [h0, update_apply]

/-- The links of the free lists after a split. -/
theorem split_slot_prev (mem : Slots) (blk y : Int) (hloc : fl (power + n + 1) = loc) :
    (splitSlot mem blk fl power (power + n + 1)).2.prev y =
      if mem.next loc ≠ 0 ∧ y = mem.next loc then 0
      else if y = loc + cutOffPoints power then loc
      else (splitMem mem blk loc n power).prev y := by
  rw [split_slot_slots mem blk hloc]
  by_cases h0 : mem.next loc = 0 <;> simp [h0, update_apply]

/-- The heads of the free lists after a split. -/
theorem split_slot_fl (mem : Slots) (blk : Int) (fl : Freelists) (n power : Nat) :
    (splitSlot mem blk fl power (power + n + 1)).1 =
      listPieces n (power + 1) (fl (power + n + 1) + cutOffPoints power)
        (update (update fl (power + n + 1) (mem.next (fl (power + n + 1)))) power
          (fl (power + n + 1))) := by
  have hturns : power + n + 1 - power - 1 = n := by omega
  simp only [splitSlot, hturns]

/-- The cells after a cell was cut. -/
theorem split_row (h : Row start (pre ++ c :: post)) (hpow : c.power = power + n + 1) :
    Row start (pre ++ splitCells n power c.pos ++ post) := by
  have hc := h.powers c (by simp)
  rw [append_cons] at h
  have htiled := (tiled_append.mp (tiled_append.mp h.tiled).1).2.1
  refine h.replace ?_ ?_ fun d hd => ?_
  · rw [← htiled]
    exact split_cells_tiled n power c.pos
  · rw [total_split_cells, total_cons, size, hpow]
    rfl
  · have := (mem_split_cells hd).2.1
    omega

section Split

variable {n power : Nat} (h : BlockInv mem fl blk start (pre ++ c :: post)) (hfree : c.free = true)
  (hpow : c.power = power + n + 1) (hhead : fl (power + n + 1) = c.pos) {d : Cell}

include h hpow

theorem split_not_mem (hd : d ∈ pre ++ post) : d.pos ∉ (splitCells n power c.pos).map Cell.pos :=
  (split_row h.row hpow).apart.not_mem_mid hd

include hfree hhead

/-- The links of the global list after a cell was cut. -/
theorem split_linked : Linked (splitSlot mem blk fl power (power + n + 1)).2.gnext
    (splitSlot mem blk fl power (power + n + 1)).2.gprev 0
    ((pre ++ splitCells n power c.pos ++ post).map Cell.pos) 0 := by
  obtain ⟨hnew, -⟩ := split_mem_spec n power (h.holds c (by simp)) hfree
  have hnodup := (split_row h.row hpow).apart.nodup
  have hother : ∀ d ∈ pre ++ post, Agree mem (splitMem mem blk c.pos n power) d.pos := fun d hd =>
    split_mem_agree mem blk (split_not_mem h hpow hd)
  have hlinked := h.linked
  rw [append_cons] at hlinked
  rw [map_append, map_append] at hlinked hnodup ⊢
  obtain ⟨hprev, hnext⟩ := (show Linked _ _ _ (pre.map pos ++ c.pos :: post.map pos) _ by
    simpa using hlinked).mid
  -- Only the slot behind the pieces gets another `gprev`.
  have hgprev : ∀ y, y ∉ post.map pos →
      (splitSlot mem blk fl power (power + n + 1)).2.gprev y =
        (splitMem mem blk c.pos n power).gprev y := by
    intro y hy
    rw [split_slot_gprev mem blk y hhead, if_neg]
    rw [hnext]
    intro hcond
    rcases headD_mem_or (post.map pos) 0 with h0 | hmem
    · exact hcond.1 h0
    · exact hy (hcond.2 ▸ hmem)
  rw [nodup_append] at hnodup
  obtain ⟨hfront, hpostNodup, hdisj⟩ := hnodup
  refine hlinked.replace ?_ rfl (fun y hy => ?_) (fun y hy => ?_) (fun y hy => ?_) (fun y hy => ?_)
    fun y hy => ?_
  · rw [← hprev, ← hnext]
    refine hnew.congr (fun y _ => ?_) fun y hy => hgprev y fun hpost => ?_
    · rw [split_slot_slots mem blk hhead]
    · exact hdisj y (mem_append_right _ hy) y hpost rfl
  · have hy' : mem.gnext c.pos = y := by rw [hnext, headD_eq_head?_getD, hy, Option.getD_some]
    obtain ⟨d, hd, rfl⟩ := mem_map.mp (mem_of_head? hy)
    have hne := h.row.ne_zero (mem_append_right _ (mem_cons_of_mem _ hd))
    rw [split_slot_gprev mem blk _ hhead, hy', if_pos ⟨hne, rfl⟩, splitCells, map_cons,
      getLastD_cons, getLastD_cons]
  · obtain ⟨d, hd, rfl⟩ := mem_map.mp hy
    rw [split_slot_slots mem blk hhead]
    exact (hother d (mem_append_left _ hd)).gnext
  · rw [hgprev y fun hpost => hdisj y (mem_append_left _ hy) y hpost rfl]
    obtain ⟨d, hd, rfl⟩ := mem_map.mp hy
    exact (hother d (mem_append_left _ hd)).gprev
  · obtain ⟨d, hd, rfl⟩ := mem_map.mp hy
    rw [split_slot_slots mem blk hhead]
    exact (hother d (mem_append_right _ hd)).gnext
  · obtain ⟨d, hd, hpos⟩ := mem_map.mp (mem_of_mem_tail hy)
    rw [split_slot_gprev mem blk y hhead, if_neg, ← hpos]
    · exact (hother d (mem_append_right _ hd)).gprev
    · rw [hnext]
      exact fun hcond => ne_headD_of_mem_tail hpostNodup hy 0 hcond.2

theorem split_slot_prev_piece (hd : d ∈ pieces (n + 1) power (c.pos + cutOffPoints power)) :
    (splitSlot mem blk fl power (power + n + 1)).2.prev d.pos =
      if d.pos = c.pos + cutOffPoints power then c.pos else 0 := by
  have hmem : c ∈ pre ++ c :: post := by simp
  obtain ⟨-, -, -, hpieces⟩ := split_mem_spec n power (h.holds c hmem) hfree
  rw [split_slot_prev mem blk _ hhead, (hpieces d hd).2, if_neg]
  rintro ⟨hne, hpos⟩
  -- The slot behind in the freelist is one of the old cells.
  rcases (h.lists.neighbours hmem hfree (h.row.powers c hmem)).1 with h0 | ⟨e, he, -, hepos⟩
  · exact hne h0
  · have hin : e.pos ∈ (pieces (n + 1) power (c.pos + cutOffPoints power)).map pos := by
      rw [hepos, ← hpos]
      exact mem_map_of_mem hd
    rcases mem_cons.mp (perm_middle.mem_iff.mp he) with rfl | he
    · exact (nodup_cons.mp (split_cells_tiled n power e.pos).nodup).1 hin
    · exact split_not_mem h hpow he (mem_cons_of_mem _ hin)

/-- The freelists after a cell was cut, if the lists of its pieces were empty. -/
theorem split_lists (hnone : ∀ q, power ≤ q → q ≤ power + n → fl q = 0) :
    FreeLists (splitSlot mem blk fl power (power + n + 1)).2
      (splitSlot mem blk fl power (power + n + 1)).1
      (splitCells n power c.pos ++ (pre ++ post)) := by
  have hmem : c ∈ pre ++ c :: post := by simp
  have hperm : (pre ++ c :: post).Perm (c :: (pre ++ post)) := perm_middle
  have hlt := h.row.powers c hmem
  obtain ⟨-, -, ⟨hcnext, hcprev⟩, hpieces⟩ := split_mem_spec n power (h.holds c hmem) hfree
  have hother : ∀ d ∈ pre ++ post, Agree mem (splitMem mem blk c.pos n power) d.pos := fun d hd =>
    split_mem_agree mem blk (split_not_mem h hpow hd)
  have hsecond : ∀ d ∈ pre ++ post, d.pos ≠ c.pos + cutOffPoints power := fun d hd heq =>
    split_not_mem h hpow hd (heq ▸ mem_cons_of_mem _ mem_cons_self)
  have hfl := split_slot_fl mem blk fl n power
  rw [hhead] at hfl
  -- The list of the cell that is cut loses its head, and the other lists of old cells stay.
  have hpop : FreeLists (splitSlot mem blk fl power (power + n + 1)).2
      (update fl (power + n + 1) (mem.next c.pos)) (pre ++ post) := by
    refine (h.lists.perm hperm).pop (h.apart.perm hperm) hfree (h.holds c hmem).power hlt
      (by rw [hpow]; exact hhead) (fun d hd => ?_) (fun d hd => ?_) fun q _ => ?_
    · rw [split_slot_slots mem blk hhead]
      exact (hother d hd).next
    · have hne := h.row.ne_zero (hperm.mem_iff.mpr (mem_cons_of_mem _ hd))
      rw [split_slot_prev mem blk _ hhead, if_neg (hsecond d hd), (hother d hd).prev]
      by_cases heq : d.pos = mem.next c.pos
      · rw [if_pos heq, if_pos ⟨heq ▸ hne, heq⟩]
      · rw [if_neg heq, if_neg fun hcond => heq hcond.2]
    · rw [hpow]
      exact update_apply ..
  intro q hq
  rw [free_at_append]
  rcases Decidable.em (power ≤ q ∧ q ≤ power + n) with ⟨hle, hge⟩ | hout
  · -- There were no free slots of this power.
    have hnil : freeAt q (pre ++ post) = [] := by
      refine free_at_eq_nil fun d hd hdfree => ?_
      exact (h.lists.eq_zero_iff h.apart hq).mp (hnone q hle hge) d
        (hperm.mem_iff.mpr (mem_cons_of_mem _ hd)) hdfree
    rw [hnil, append_nil]
    rcases eq_or_lt_of_le hle with rfl | hlt'
    · -- The two slots of the power that was asked for.
      refine ⟨[c.pos, c.pos + cutOffPoints power], ?_, ⟨?_, ?_, ?_, ?_, trivial⟩, ?_⟩
      · rw [hfl, list_pieces_other _ _ (.inl (le_refl power))]
        exact update_self ..
      · have hsize := cut_off_pos power
        have hprev := h.lists.prev_head (hpow ▸ hlt) (by rw [hhead]; exact h.row.ne_zero hmem)
        rw [split_slot_prev mem blk _ hhead, if_neg (show c.pos ≠ _ by omega), hcprev, ← hhead,
          hprev, ite_self]
      · rw [split_slot_slots mem blk hhead]
        exact hcnext
      · rw [split_slot_prev_piece h hfree hpow hhead
          (d := ⟨c.pos + cutOffPoints power, power, true⟩) mem_cons_self, if_pos rfl]
      · rw [split_slot_slots mem blk hhead]
        exact (hpieces _ mem_cons_self).1
      · have hsingle := free_at_single
          (pieces_powers_nodup (n + 1) power (c.pos + cutOffPoints power)) mem_cons_self rfl
        rw [splitCells, free_at_cons_self (c := ⟨c.pos, power, true⟩) rfl, hsingle]
    · obtain ⟨d, hd, rfl⟩ := exists_piece (c.pos + cutOffPoints power + cutOffPoints power) hlt'
        (show q < power + 1 + n by omega)
      have hd' : d ∈ pieces (n + 1) power (c.pos + cutOffPoints power) := mem_cons_of_mem _ hd
      refine ⟨[d.pos], ?_, ⟨?_, ?_, trivial⟩, ?_⟩
      · rw [hfl]
        exact list_pieces_mem _ hd
      · have hfirst := (pieces_tiled (n + 1) power (c.pos + cutOffPoints power)).nodup
        rw [split_slot_prev_piece h hfree hpow hhead hd', if_neg]
        intro heq
        have hin : d.pos ∈ (pieces n (power + 1) _).map pos := mem_map_of_mem hd
        rw [heq] at hin
        exact (nodup_cons.mp hfirst).1 hin
      · rw [split_slot_slots mem blk hhead]
        exact (hpieces d hd').1
      · have hsingle := free_at_single
          (pieces_powers_nodup (n + 1) power (c.pos + cutOffPoints power)) hd' (mem_pieces hd).2.2
        rw [splitCells, free_at_cons_of_ne (c := ⟨c.pos, power, true⟩) (ne_of_lt hlt'), hsingle]
  · have hnil : freeAt q (splitCells n power c.pos) = [] := by
      refine free_at_eq_nil fun d hd _ hdpow => ?_
      obtain ⟨hle, hge, -⟩ := mem_split_cells hd
      omega
    obtain ⟨l, hl, hlinked, hlperm⟩ := hpop q hq
    refine ⟨l, ?_, hlinked, ?_⟩
    · rw [hfl, list_pieces_other _ _ (by omega), update_of_ne (by omega)]
      exact hl
    · rw [hnil]
      exact hlperm

/-- Nothing outside the block is written. -/
theorem split_frame : Frame start (total (pre ++ c :: post)) mem
    (splitSlot mem blk fl power (power + n + 1)).2 := by
  intro y hy
  have hmem : c ∈ pre ++ c :: post := by simp
  have hout : ∀ d ∈ pre ++ c :: post, y ≠ d.pos := fun d hd => by
    have := h.row.pos_inside hd
    omega
  have hnew : ∀ d ∈ splitCells n power c.pos, y ≠ d.pos := fun d hd => by
    have := (split_row h.row hpow).pos_inside (mem_append_left _ (mem_append_right _ hd))
    have htotal : total (pre ++ splitCells n power c.pos ++ post) = total (pre ++ c :: post) := by
      simp only [total_append, total_cons, total_split_cells, size, hpow]
      omega
    omega
  have hagree := split_mem_agree mem blk (y := y) fun hy => by
    obtain ⟨d, hd, hpos⟩ := mem_map.mp hy
    exact hnew d hd hpos.symm
  have hslots := split_slot_slots mem blk hhead
  refine hagree.trans ⟨by rw [hslots], by rw [hslots], by rw [hslots], by rw [hslots], ?_,
    by rw [hslots], ?_, by rw [hslots]⟩
  · rw [split_slot_gprev mem blk y hhead, if_neg]
    rintro ⟨hne, hpos⟩
    have hlinked := h.linked
    rw [map_append, map_cons] at hlinked
    rw [hlinked.mid.2] at hne hpos
    rcases headD_mem_or (post.map pos) 0 with h0 | hin
    · exact hne h0
    · obtain ⟨d, hd, hdpos⟩ := mem_map.mp hin
      exact hout d (mem_append_right _ (mem_cons_of_mem _ hd)) (hpos.trans hdpos.symm)
  · rw [split_slot_prev mem blk y hhead, if_neg, if_neg]
    · exact hnew ⟨_, power, true⟩ (mem_cons_of_mem _ mem_cons_self)
    · rintro ⟨hne, hpos⟩
      rcases (h.lists.neighbours hmem hfree (h.row.powers c hmem)).1 with h0 | ⟨d, hd, -, hdpos⟩
      · exact hne h0
      · exact hout d hd (hpos.trans hdpos.symm)

/-- The loop body of `checkblock` cuts a free cell. -/
theorem split_slot_inv (hnone : ∀ q, power ≤ q → q ≤ power + n → fl q = 0) :
    BlockInv (splitSlot mem blk fl power (power + n + 1)).2
      (splitSlot mem blk fl power (power + n + 1)).1 blk start
      (pre ++ splitCells n power c.pos ++ post) := by
  obtain ⟨-, hcells, -⟩ := split_mem_spec n power (h.holds c (by simp)) hfree
  have hslots := split_slot_slots mem blk hhead
  refine ⟨split_row h.row hpow, fun d hd => ?_, split_linked h hfree hpow hhead, ?_⟩
  · -- The headers hold what they held before the last links were set.
    suffices hdone : Holds (splitMem mem blk c.pos n power) blk d from
      hdone.congr (by rw [hslots]) (by rw [hslots]) (by rw [hslots]) (by rw [hslots])
    simp only [mem_append] at hd
    rcases Decidable.em (d ∈ splitCells n power c.pos) with hin | hin
    · exact hcells d hin
    · have hold : d ∈ pre ++ post := by
        rw [mem_append]
        tauto
      have hagree := split_mem_agree mem blk (split_not_mem h hpow hold)
      exact (h.holds d (perm_middle.mem_iff.mpr (mem_cons_of_mem _ hold))).congr hagree.size
        hagree.power hagree.status hagree.blockPtr
  · refine (split_lists h hfree hpow hhead hnone).perm ?_
    rw [append_assoc]
    exact perm_append_comm_assoc ..

end Split

/-! ## `checkblock` -/

/-- The three ways in which `checkblock` can end. -/
theorem checkblock_cases (mem : Slots) (blk : Int) (fl : Freelists) (power : Nat) :
    (checkblock mem blk fl power = none ∧ ∀ q, power ≤ q → q < cutOffNum → fl q = 0) ∨
    (checkblock mem blk fl power = some (fl, mem) ∧ fl power ≠ 0) ∨
    ∃ n, checkblock mem blk fl power = some (splitSlot mem blk fl power (power + n + 1)) ∧
      power + n + 1 < cutOffNum ∧ fl (power + n + 1) ≠ 0 ∧
      ∀ q, power ≤ q → q ≤ power + n → fl q = 0 := by
  rw [checkblock]
  by_cases hzero : fl power = 0
  · rw [if_neg (not_not.mpr hzero)]
    cases hfind : (List.range' (power + 1) (cutOffNum - (power + 1))).find? (fl · ≠ 0) with
    | none =>
      refine .inl ⟨rfl, fun q hle hlt => ?_⟩
      rcases eq_or_lt_of_le hle with rfl | hgt
      · exact hzero
      · simpa using find?_eq_none.mp hfind q (mem_range'_1.mpr ⟨hgt, by omega⟩)
    | some powiter =>
      obtain ⟨hne, hmem, hleast⟩ := find?_range'_eq_some.mp hfind
      obtain ⟨hge, hlt⟩ := mem_range'_1.mp hmem
      obtain ⟨n, rfl⟩ := Nat.exists_eq_add_of_le hge
      have hsum : power + 1 + n = power + n + 1 := by omega
      refine .inr (.inr ⟨n, by rw [hsum], by omega, by simpa [hsum] using hne, ?_⟩)
      intro q hle hq
      rcases eq_or_lt_of_le hle with rfl | hgt
      · exact hzero
      · simpa using hleast q hgt (by omega)
  · exact .inr (.inl ⟨if_pos hzero, hzero⟩)

/-- `checkblock` fails only if every free cell is too small. -/
theorem checkblock_none {power : Nat} (h : BlockInv mem fl blk start cells)
    (hnone : checkblock mem blk fl power = none) (hc : c ∈ cells) (hfree : c.free = true) :
    c.power < power := by
  rcases checkblock_cases mem blk fl power with ⟨-, hzero⟩ | ⟨hsome, -⟩ | ⟨n, hsome, -⟩
  · refine Nat.lt_of_not_le fun hle => ?_
    have hlt := h.row.powers c hc
    exact (h.lists.eq_zero_iff h.apart hlt).mp (hzero c.power hle hlt) c hc hfree rfl
  all_goals
    rw [hnone] at hsome
    cases hsome

/-- After `checkblock`, the first slot in the list of the power is free. No used cell changes. -/
theorem checkblock_spec {power : Nat} (h : BlockInv mem fl blk start cells)
    (hpower : power < cutOffNum) (hr : checkblock mem blk fl power = some r) :
    ∃ pre c post, c.free = true ∧ c.power = power ∧ r.1 power = c.pos ∧
      BlockInv r.2 r.1 blk start (pre ++ c :: post) ∧ Frame start (total cells) mem r.2 ∧
      total (pre ++ c :: post) = total cells ∧
      (pre ++ c :: post).filter (fun d => !d.free) = cells.filter fun d => !d.free := by
  rcases checkblock_cases mem blk fl power with ⟨hnone, -⟩ | ⟨hsame, hne⟩ |
    ⟨n, hsplit, hlt, hne, hnone⟩
  · rw [hnone] at hr
    cases hr
  · obtain rfl := Option.mem_unique hsame hr
    obtain ⟨c, hc, hfree, hpow, hpos, -⟩ := h.lists.head hpower hne
    obtain ⟨pre, post, rfl⟩ := append_of_mem hc
    exact ⟨pre, c, post, hfree, hpow, hpos.symm, h, fun y _ => .refl mem y, rfl, rfl⟩
  · obtain rfl := Option.mem_unique hsplit hr
    obtain ⟨c, hc, hfree, hpow, hpos, -⟩ := h.lists.head hlt hne
    obtain ⟨pre, post, rfl⟩ := append_of_mem hc
    refine ⟨pre, ⟨c.pos, power, true⟩, pieces (n + 1) power (c.pos + cutOffPoints power) ++ post,
      rfl, rfl, ?_, ?_, split_frame h hfree hpow hpos.symm, ?_, ?_⟩
    · rw [split_slot_fl, list_pieces_other _ _ (.inl (le_refl power)), hpos]
      exact update_self ..
    · have hinv := split_slot_inv h hfree hpow hpos.symm hnone
      rwa [append_assoc] at hinv
    · have htotal := total_split_cells n power c.pos
      rw [splitCells, total_cons] at htotal
      simp only [total_append, total_cons]
      rw [show c.size = cutOffPoints (power + n + 1) by rw [size, hpow]]
      omega
    · have hused : (pieces (n + 1) power (c.pos + cutOffPoints power)).filter (fun d => !d.free) =
        [] :=
        filter_eq_nil_iff.mpr fun d hd => by simp [(mem_pieces hd).2.2]
      simp [hused, hfree]

/-- `checkblock` takes the head of the list of the least power that is large enough. -/
theorem checkblock_least {power : Nat} (h : BlockInv mem fl blk start cells)
    (hpower : power < cutOffNum) (hr : checkblock mem blk fl power = some r) :
    ∃ c ∈ cells, c.free = true ∧ power ≤ c.power ∧
      (∀ d ∈ cells, d.free = true → power ≤ d.power → c.power ≤ d.power) ∧ fl c.power = c.pos ∧
      r = if c.power = power then (fl, mem) else splitSlot mem blk fl power c.power := by
  rcases checkblock_cases mem blk fl power with ⟨hnone, -⟩ | ⟨hsame, hne⟩ |
    ⟨n, hsplit, hlt, hne, hnone⟩
  · cases hnone.symm.trans hr
  · obtain rfl := Option.mem_unique hsame hr
    obtain ⟨c, hc, hfree, rfl, hpos, -⟩ := h.lists.head hpower hne
    exact ⟨c, hc, hfree, le_refl _, fun _ _ _ hle => hle, hpos.symm, (if_pos rfl).symm⟩
  · obtain rfl := Option.mem_unique hsplit hr
    obtain ⟨c, hc, hfree, hpow, hpos, -⟩ := h.lists.head hlt hne
    refine ⟨c, hc, hfree, by omega, fun d hd hdfree hle => ?_, hpow ▸ hpos.symm, ?_⟩
    · refine Nat.le_of_not_lt fun hless => ?_
      have hzero := hnone d.power hle (by omega)
      exact (h.lists.eq_zero_iff h.apart (h.row.powers d hd)).mp hzero d hd hdfree rfl
    · rw [if_neg (by omega), hpow]

end Reconverse.Mempool
