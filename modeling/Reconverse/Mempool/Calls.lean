import Reconverse.Mempool.Pool

/-!
# The calls of the pool

What `mempool_init`, the parts of `mempool_malloc`, and `mempool_free` do to the blocks of a pool
that keeps the invariant.
-/

namespace Reconverse.Mempool

open Function (update update_apply update_of_ne update_self)
open Lib.DList List

variable {s s' : Pool} {b : BlockDesc} {bs bs₁ bs₂ : List BlockDesc} {l : Range}
  {ls ls₁ ls₂ : List Range} {c : Cell} {pre post : List Cell} {power : Nat} {new : Range}

/-! ## `mempool_init` -/

/-- The block of a new pool. -/
def firstBlock (poolSize : Nat) : BlockDesc := ⟨⟨0, poolSize⟩, freshCells 0 poolSize false⟩

/-- `mempool_init` makes a pool of one block. -/
theorem init_inv {old : Pool} {poolSize limit : Nat}
    (h : mempoolInit old poolSize limit = some s) : PoolInv s [firstBlock poolSize] [] := by
  simp only [mempoolInit, bind, Option.bind_eq_some_iff] at h
  obtain ⟨r, hr, h⟩ := h
  obtain ⟨hfits, hsmall⟩ := fillblock_fits hr
  obtain ⟨mem', hfill, hinv, -⟩ := fillblock_spec old.slots 0 false hfits hsmall (by
    rw [taken_false, sizeofMempoolType]
    omega)
  rw [hfill, Option.some.injEq] at hr
  subst hr
  cases h
  refine ⟨⟨_, [], rfl, rfl⟩, ⟨?_, ?_, trivial⟩, rfl, fun b hb => ?_, rfl, trivial, nofun,
    pairwise_singleton .., ?_⟩
  · exact update_self (0 : Int) (0 : Int) old.blocks.blockPrev
  · exact update_self (0 : Int) (0 : Int) old.blocks.blockNext
  · rw [mem_singleton.mp hb]
    refine ⟨?_, ?_, hfits, hsmall, ?_⟩
    · show BlockInv mem' (update old.blocks.freelists 0 (freshLists 0 poolSize false) 0) _ _ _
      exact hinv
    · exact update_self (0 : Int) poolSize old.blocks.size
    · exact total_fresh_cells 0 false hsmall
  · simp [ranges, firstBlock]

/-! ## `mempool_malloc` -/

/-- A new block that is large enough can meet the request. -/
theorem PoolInv.grow (h : PoolInv s bs ls) (hnew : ∀ r ∈ ranges bs ls, r.Apart new)
    (hfits : cutOffPoints power + sizeofBlockHeader ≤ new.size)
    (hsmall : new.size < sizeofBlockHeader + 2 ^ 30) :
    ∃ s' r, addBlock s new.base new.size = some s' ∧
      checkblock s'.slots new.base (s'.blocks.freelists new.base) power = some r ∧
      PoolInv s' (bs ++ [newBlock new]) ls ∧ s'.blocks.used = update s.blocks.used new.base 0 ∧
      ∀ y, y < new.base ∨ new.base + new.size ≤ y → Agree s.slots s'.slots y := by
  have hge := cut_off_ge power
  obtain ⟨s', hadd, hinv, hused, hagree⟩ := h.add_block hnew (by omega) hsmall
  have hblock := (hinv.ok (newBlock new) (by simp)).inv
  -- The first slot of the new block is large enough.
  have hcheck : checkblock s'.slots new.base (s'.blocks.freelists new.base) power ≠ none := by
    intro hnone
    obtain ⟨c, hc, hle⟩ := exists_fresh_cell new.base true
      (by rw [taken_true]; omega)
      (show taken true + cutOffPoints power ≤ new.size by rw [taken_true]; omega)
    have := checkblock_none hblock hnone hc (mem_fresh_cells hc).2
    omega
  obtain ⟨r, hr⟩ := Option.ne_none_iff_exists'.mp hcheck
  exact ⟨s', r, hadd, hr, hinv, hused, hagree⟩

theorem ranges_mid_large (bs : List BlockDesc) (ls₁ ls₂ : List Range) (l : Range) :
    (ranges bs (ls₁ ++ l :: ls₂)).Perm (l :: ranges bs (ls₁ ++ ls₂)) := by
  rw [ranges, ranges, ← append_assoc, ← append_assoc]
  exact perm_middle

/-- Large blocks have different addresses, none of them null. -/
theorem PoolInv.large_bases (h : PoolInv s bs ls) :
    (ls.map Range.base).Nodup ∧ ∀ x ∈ ls.map Range.base, x ≠ 0 := by
  have hnodup := h.bases_nodup
  rw [ranges, map_append, nodup_append] at hnodup
  refine ⟨hnodup.2.1, fun x hx h0 => ?_⟩
  obtain ⟨b, rest, rfl, hbase⟩ := h.first
  exact hnodup.2.2 b.base (by simp) x hx (hbase.trans h0.symm)

/-- `mempool_large_malloc` adds a large block. -/
theorem PoolInv.large_malloc (h : PoolInv s bs ls) (hnew : ∀ r ∈ ranges bs ls, r.Apart new)
    (hfits : sizeofLargeBlockHeader + sizeofUsedHeader ≤ new.size) :
    PoolInv (mempoolLargeMalloc s (some (new.base, new.size))).pool bs (new :: ls) := by
  have hbases : ∀ r ∈ ranges bs ls, r.base ≠ new.base := fun r hr heq => by
    have hapart := hnew r hr
    have := h.range_size_pos hr
    rw [sizeofLargeBlockHeader] at hfits
    rw [Range.Apart] at hapart
    omega
  have hlarge : ∀ x ∈ ls.map Range.base, x ≠ new.base := fun x hx => by
    obtain ⟨l, hl, rfl⟩ := mem_map.mp hx
    exact hbases l (mem_append_right _ hl)
  obtain ⟨hnodup, hzero⟩ := h.large_bases
  -- Only the header of the new slot is written.
  have hmem : ∀ r ∈ ranges bs ls, ∀ y, r.base ≤ y → y < r.base + r.size →
      Agree s.slots (mempoolLargeMalloc s (some (new.base, new.size))).pool.slots y := by
    intro r hr y hge hlt
    have hapart := hnew r hr
    have hne : y ≠ new.base + sizeofLargeBlockHeader := by
      rw [Range.Apart] at hapart
      rw [sizeofUsedHeader] at hfits
      omega
    exact ⟨update_of_ne hne .., update_of_ne hne .., rfl, update_of_ne hne .., rfl, rfl, rfl, rfl⟩
  refine ⟨h.first, h.chain, h.tail, fun b hb => ?_, rfl, ?_, fun l hl => ?_, ?_, ?_⟩
  · exact (h.ok b hb).frame (hmem _ (mem_append_left _ (mem_map_of_mem hb))) rfl rfl
  · refine h.largeChain.push (update_self ..) ?_ (fun y hy => ?_) (fun y hy => ?_)
      fun y hy => ?_
    · exact (update_self ..).trans h.largeHead
    · have hy' : s.largeBlocks = y := by
        rw [h.largeHead, headD_eq_head?_getD, hy, Option.getD_some]
      have hne := mem_of_head? hy
      refine (update_of_ne (hlarge y hne) ..).trans ?_
      rw [hy', if_pos (hzero y hne)]
      exact update_self ..
    · exact update_of_ne (hlarge y hy) ..
    · refine (update_of_ne (hlarge y (mem_of_mem_tail hy)) ..).trans ?_
      split
      · refine update_of_ne ?_ ..
        rw [h.largeHead]
        exact ne_headD_of_mem_tail hnodup hy 0
      · rfl
  · rcases mem_cons.mp hl with rfl | hl
    · exact ⟨update_self .., update_self .., update_self .., hfits⟩
    · have hin : l ∈ ranges bs ls := mem_append_right _ hl
      exact (h.largeOk l hl).frame (hmem l hin) (update_of_ne (hbases l hin) ..)
  · refine (apart_perm (ranges_mid_large bs [] ls new)).mpr ?_
    exact pairwise_cons.mpr ⟨fun r hr => (hnew r hr).symm, h.apart⟩
  · have hsum := ((ranges_mid_large bs [] ls new).map Range.size).sum_nat
    rw [map_cons, sum_cons, nil_append, nil_append, ← h.size] at hsum
    exact (Nat.add_comm ..).trans hsum.symm

/-! ## `mempool_free` -/

/-- `mempool_free` of a slot joins it with its free neighbours. -/
theorem PoolInv.free_slot (h : PoolInv s (bs₁ ++ b :: bs₂) ls) (hcells : b.cells = pre ++ c :: post)
    (hused : c.free = false) :
    ∃ s' cells, mempoolFree s (c.pos + sizeofUsedHeader) = some (s', none) ∧
      PoolInv s' (bs₁ ++ { b with cells := cells } :: bs₂) ls ∧ Freed pre c post cells ∧
      s'.blocks.used =
        update s.blocks.used b.base (s.blocks.used b.base - BitVec.ofNat 64 c.size) ∧
      ∀ y, (∀ d ∈ b.cells, d.free = true ∨ d = c → y < d.pos ∨ d.pos + d.size ≤ y) →
        s'.slots.next y = s.slots.next y := by
  have hb := h.ok b (by simp)
  have hinv := hb.inv
  rw [hcells] at hinv
  have hlt : total (pre ++ c :: post) < 2 ^ 30 := by
    have := hb.filled
    have := hb.small
    rw [← hcells]
    omega
  have hfuel := h.fuel_cells (b := b) (by simp)
  rw [hcells] at hfuel
  obtain ⟨fl', mem', cells, hfreed, hfree, hinv', hframe, hnext⟩ :=
    free_slot_spec hinv hused hlt hfuel
  have hstatus := (hinv.holds c (by simp)).status
  rw [hused] at hstatus
  refine ⟨_, cells, by rw [mempoolFree, Int.add_sub_cancel, hstatus, hfree]; rfl, ?_, hfreed, rfl,
    fun y hy => hnext y (hcells ▸ hy)⟩
  refine h.set_block ?_ ?_ ?_ (fun x hx => ?_) ⟨rfl, rfl, rfl⟩ ⟨rfl, rfl, rfl, rfl⟩
  · show BlockInv mem' (update s.blocks.freelists b.base fl' b.base) _ _ _
    rw [update_self]
    exact hinv'
  · rw [hfreed.total_eq hlt, hcells]
  · rw [hcells]
    exact hframe
  · exact update_of_ne hx ..

/-- `mempool_free` of a large block gives it back. -/
theorem PoolInv.free_large (h : PoolInv s bs (ls₁ ++ l :: ls₂)) :
    ∃ s', mempoolFree s (l.base + sizeofLargeBlockHeader + sizeofUsedHeader) =
    some (s', some l.base) ∧
      PoolInv s' bs (ls₁ ++ ls₂) ∧ s'.blocks = s.blocks := by
  have hl := h.largeOk l (by simp)
  have hcall : mempoolFree s (l.base + sizeofLargeBlockHeader + sizeofUsedHeader) =
      some (freeLarge s (l.base + sizeofLargeBlockHeader), some l.base) := by
    rw [mempoolFree, Int.add_sub_cancel, hl.status, if_pos rfl, hl.blockPtr]
  obtain ⟨hnodup, hzero⟩ := h.large_bases
  have hchain := h.largeChain
  have hhead := h.largeHead
  rw [map_append, map_cons] at hnodup hzero hchain hhead
  have hsub : ∀ y ∈ ls₁.map Range.base ++ ls₂.map Range.base, y ≠ 0 := fun y hy =>
    hzero y (perm_middle.mem_iff.mpr (mem_cons_of_mem _ hy))
  have hnot : (0 : Int) ∉ ls₁.map Range.base ++ l.base :: ls₂.map Range.base := fun h0 =>
    hzero 0 h0 rfl
  have hfirst : s.largeBlocks = l.base ↔ s.large.blockPrev l.base = 0 := by
    rw [hhead]
    exact hchain.headD_eq_iff hnodup fun h0 => hnot (mem_append_left _ h0)
  refine ⟨_, hcall, ⟨h.first, h.chain, h.tail, fun b hb => ?_, ?_, ?_, fun l' hl' => ?_, ?_, ?_⟩,
    rfl⟩
  · exact (h.ok b hb).frame (fun y _ _ => .refl _ y) rfl rfl
  · rw [map_append, hchain.headD_unlink fun h0 => hnot (mem_append_left _ h0), ← hhead]
    simp only [freeLarge, hl.blockPtr, hfirst]
  · rw [map_append]
    refine hchain.unlink_of_nodup hnodup hnot hnot (fun y hy => ?_) fun y hy => ?_
    · simp only [freeLarge, hl.blockPtr]
      split
      next heq => rw [hfirst.mp heq, if_neg (hsub y hy)]
      next => exact update_apply ..
    · simp only [freeLarge, hl.blockPtr]
      split
      · exact update_apply ..
      next heq => rw [not_not.mp heq, if_neg (hsub y hy)]
  · have hold := h.largeOk l' (perm_middle.mem_iff.mpr (mem_cons_of_mem _ hl'))
    exact hold.frame (fun y _ _ => .refl _ y) rfl
  · exact (pairwise_cons.mp ((apart_perm (ranges_mid_large bs ls₁ ls₂ l)).mp h.apart)).2
  · show s.size - s.large.size (s.slots.blockPtr (l.base + sizeofLargeBlockHeader)) = _
    rw [hl.blockPtr, hl.size, h.size, ((ranges_mid_large bs ls₁ ls₂ l).map Range.size).sum_nat,
      map_cons, sum_cons, Nat.add_sub_cancel_left]

end Reconverse.Mempool
