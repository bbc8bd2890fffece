import Reconverse.Mempool.Tidy

/-!
# Every call keeps the invariant

One lemma for each thing that a call can do to the state: a write of the program, a block that is
obtained or given back, a slot or a large block that is handed out or freed. They also keep `Tidy`.
-/

namespace Reconverse.Mempool

open Function (update update_of_ne update_self)
open Lib Lib.DList List State BlockDesc

variable {s : State} {b : BlockDesc} {bs bs₁ bs₂ : List BlockDesc} {l : Range}
  {ls ls₁ ls₂ : List Range} {c : Cell} {size : Nat} {pool : Pool} {removed : Option (List Int)}
  {gone kept : List BlockDesc} {new : Range} {r : Freelists × Slots} {power : Nat} {ptr : Int}

/-! ## Writes of the program -/

theorem touches_eq_false {y : Int} {k n : Nat} (h : ∀ i < n, ¬ s.Writable (y + (k + i : Nat))) :
    s.touches y k n = false := by
  simpa [touches] using h

section

variable (h : s.Inv bs ls) {k : Nat}

include h

/-- The program may not write into owned memory that is in no allocation. -/
theorem State.Inv.not_writable {r : Range} (hr : r ∈ ranges bs ls) {z : Int}
    (hz : r.Contains z) (hlive : ∀ a ∈ s.live, ¬ a.Contains z) : ¬ s.Writable z := by
  rintro (⟨a, ha, haz⟩ | hout)
  · exact hlive a ha haz
  · exact hout r (h.owned.mem_iff.mpr hr) hz

/-- The header of a slot is not written, and of a used slot only the bytes behind the header. -/
theorem State.Inv.header_kept (hb : b ∈ bs) (hc : c ∈ b.cells)
    (hk : k < sizeofUsedHeader ∨ c.free = true ∧ k < 64) : ¬ s.Writable (c.pos + (k : Nat)) := by
  have hin := (h.pool.ok b hb).inside hc
  have hpos := size_pos c
  have hk64 : k < 64 := by
    rcases hk with hk | hk
    · rw [sizeofUsedHeader] at hk
      omega
    · exact hk.2
  refine h.not_writable (mem_append_left _ (mem_map_of_mem hb)) ?_ fun a ha haz => ?_
  · rw [start] at hin
    exact ⟨by omega, by omega⟩
  · rw [Range.Contains] at haz
    rcases h.pool.fits_cases (h.fits a ha) with ⟨b', hb', c', hc', hused, hbase, hsize⟩ |
      ⟨l, hl, hbase, hsize⟩
    · by_cases heq : c = c'
      · subst heq
        rcases hk with hk | hk
        · omega
        · rw [hused] at hk
          exact Bool.false_ne_true hk.1
      · have hapart := h.pool.slots_apart hb hc hb' hc' heq
        simp only [Range.Apart, Cell.range] at hapart
        omega
    · have hapart := h.pool.slot_large_apart hb hc hl
      simp only [Range.Apart, Cell.range] at hapart
      omega

/-- The header of a large block is not written. -/
theorem State.Inv.large_header_kept (hl : l ∈ ls)
    (hk : k < sizeofLargeBlockHeader + sizeofUsedHeader) : ¬ s.Writable (l.base + (k : Nat)) := by
  have hfits := (h.pool.largeOk l hl).fits
  refine h.not_writable (mem_append_right _ hl) ⟨by omega, by omega⟩ fun a ha haz => ?_
  rw [Range.Contains] at haz
  rcases h.pool.fits_cases (h.fits a ha) with ⟨b, hb, c, hc, -, hbase, hsize⟩ |
    ⟨l', hl', hbase, hsize⟩
  · have hapart := h.pool.slot_large_apart hb hc hl
    simp only [Range.Apart, Cell.range] at hapart
    omega
  · by_cases heq : l.base = l'.base
    · omega
    · have hapart := h.pool.apart_of_ne (mem_append_right _ hl) (mem_append_right _ hl') heq
      simp only [Range.Apart] at hapart
      omega

/-- A write of the program keeps the invariant. -/
theorem State.Inv.write (junk : Slots) :
    State.Inv { s with pool := { s.pool with slots := s.scribble junk } } bs ls := by
  have hkept : ∀ b ∈ bs, ∀ c ∈ b.cells, ∀ k n, k + n ≤ sizeofUsedHeader →
      s.touches c.pos k n = false := fun b hb c hc k n hkn =>
    touches_eq_false fun i hi => h.header_kept hb hc (.inl (by omega))
  have hlarge : ∀ l ∈ ls, ∀ k n, k + n ≤ sizeofUsedHeader →
      s.touches (l.base + sizeofLargeBlockHeader) k n = false := fun l hl k n hkn =>
    touches_eq_false fun i hi => by
      rw [Int.add_assoc]
      exact h.large_header_kept hl (by omega)
  rw [sizeofUsedHeader] at hkept hlarge
  refine ⟨?_, h.owned, h.live, h.fits, h.counters⟩
  refine ⟨h.pool.first, h.pool.chain, h.pool.tail, fun b hb => ?_, h.pool.largeHead,
    h.pool.largeChain, fun l hl => ?_, h.pool.apart, h.pool.size⟩
  · refine (h.pool.ok b hb).congr (fun c hc => ?_) (fun c hc hfree => ⟨?_, ?_⟩) rfl rfl
    · have hk := hkept b hb c hc
      refine ⟨?_, ?_, ?_, ?_, ?_, ?_⟩ <;> simp [scribble, hk]
    · have hnext : s.touches c.pos 48 8 = false :=
        touches_eq_false fun i hi => h.header_kept hb hc (.inr ⟨hfree, by omega⟩)
      simp [scribble, hnext]
    · simp [scribble, hkept b hb c hc]
  · have hl' := h.pool.largeOk l hl
    exact ⟨by simpa [scribble, hlarge l hl] using hl'.status,
      by simpa [scribble, hlarge l hl] using hl'.blockPtr, hl'.size, hl'.fits⟩

/-! ## Handing out -/

theorem State.Inv.owned_apart : s.owned.Pairwise Range.Apart :=
  (apart_perm h.owned).mpr h.pool.apart

end

/-- The pointer to a slot is in the block of the slot. -/
theorem BlockDesc.Ok.contains_ptr (h : b.Ok pool) (hc : c ∈ b.cells) :
    b.toRange.Contains (c.pos + sizeofUsedHeader) := by
  have hin := h.inside hc
  have hpos := size_pos c
  rw [start] at hin
  rw [sizeofUsedHeader]
  exact ⟨by omega, by omega⟩

/-- Memory of a block is held by the block. -/
theorem State.Inv.holder_block (h : s.Inv bs ls) (hb : b ∈ bs) {p : Int}
    (hp : b.toRange.Contains p) : holder s.owned p = b.base :=
  holder_eq h.owned_apart
    (h.owned.mem_iff.mpr (mem_append_left _ (mem_map_of_mem hb))) hp

/-- One more slot is used, so one more address is live. -/
theorem live_ptrs_cons {bs' : List BlockDesc} (h : (usedCells bs').Perm (c :: usedCells bs))
    (ls : List Range) :
    (livePtrs bs' ls).Perm ((c.pos + (sizeofUsedHeader : Int)) :: livePtrs bs ls) :=
  (h.map _).append_right _

theorem used_mid {pre post : List Cell} (hc : c.free = false) :
    (BlockDesc.used { b with cells := pre ++ c :: post }).Perm
      (c :: (pre ++ post).filter fun d => !d.free) := by
  have hmid : (pre ++ c :: post).Perm (c :: (pre ++ post)) := perm_middle
  refine (hmid.filter _).trans ?_
  rw [filter_cons_of_pos (by simp [hc])]

theorem used_cells_cons (bs₁ bs₂ : List BlockDesc) {b' : BlockDesc}
    (h : b'.used.Perm (c :: b.used)) :
    (usedCells (bs₁ ++ b' :: bs₂)).Perm (c :: usedCells (bs₁ ++ b :: bs₂)) :=
  (used_cells_mid bs₁ bs₂ b').trans
    ((h.append_right _).trans ((used_cells_mid bs₁ bs₂ b).symm.cons c))

theorem ranges_cells (cells : List Cell) :
    ranges (bs₁ ++ { b with cells := cells } :: bs₂) ls = ranges (bs₁ ++ b :: bs₂) ls := by
  simp [ranges]

/-- The sums of a block that neither hands out a slot nor takes one back. -/
theorem State.Counted.frame {s' : State} (h : s.Counted b)
    (hused : s'.pool.blocks.used b.base = s.pool.blocks.used b.base)
    (hgiven : s'.given b.base = s.given b.base) (hout : s'.out b.base = s.out b.base)
    (hback : s'.back b.base = s.back b.base) : s'.Counted b := by
  rw [Counted, hused, hgiven, hout, hback]
  exact h

theorem total_perm {cs ds : List Cell} (h : cs.Perm ds) : total cs = total ds :=
  (h.map Cell.size).sum_nat

/-- Sizes grow faster than their indices. -/
theorem two_mul_le_cut_off (i : Nat) : 2 * i ≤ cutOffPoints i := by
  have := Nat.lt_two_pow_self (n := i)
  rw [cutOffPoints]
  omega

/-- A slot of a block is handed out. -/
theorem State.Inv.take (h : s.Inv (bs₁ ++ b :: bs₂) ls)
    (hpower : powerOf size < cutOffNum) (hr : checkblock s.pool.slots b.base
      (s.pool.blocks.freelists b.base) (powerOf size) = some r) :
    ∃ s' bs', s' = State.handOut
      { s with pool := (takeSlot (s.pool.setBlock b.base r.1 r.2) b.base (powerOf size)).1 } size
      (takeSlot (s.pool.setBlock b.base r.1 r.2) b.base (powerOf size)).2 ∧ s'.Inv bs' ls ∧
      (s.Tidy (bs₁ ++ bs₂) → s'.Tidy bs') := by
  obtain ⟨pre, c, post, hfree, hpow, hpool, hptr, hused⟩ := h.pool.take hpower hr
  -- One more cell is used.
  have hmore : (used { b with cells := pre ++ c :: post }).Perm (c :: b.used) := by
    refine (used_mid hfree).trans ?_
    rw [hused]
    rfl
  have hcells := used_cells_cons bs₁ bs₂ hmore
  have hholder : holder s.owned (c.pos + sizeofUsedHeader) = b.base :=
    h.holder_block (by simp)
      ((hpool.ok { b with cells := pre ++ c :: post } (by simp)).contains_ptr (by simp))
  obtain ⟨s', hs'⟩ : ∃ s', s' = State.handOut
    { s with pool := (takeSlot (s.pool.setBlock b.base r.1 r.2) b.base (powerOf size)).1 } size
    (takeSlot (s.pool.setBlock b.base r.1 r.2) b.base (powerOf size)).2 := ⟨_, rfl⟩
  have hgiven : s'.given = update s.given b.base (s.given b.base + powerOf size) := by
    rw [hs', hptr, handOut, hholder]
  have hout : s'.out = update s.out b.base (s.out b.base + cutOffPoints (powerOf size)) := by
    rw [hs', hptr, handOut, hholder]
  have hback : s'.back = s.back := by rw [hs', handOut]
  have hcounter : s'.pool.blocks.used =
      update s.pool.blocks.used b.base
      (s.pool.blocks.used b.base + BitVec.ofNat 64 (powerOf size)) := by
    rw [hs']
    rfl
  have hpool' : PoolInv s'.pool (bs₁ ++ { b with cells := pre ++ c :: post } :: bs₂) ls := by
    rw [hs']
    exact hpool
  refine ⟨s', _, hs', ⟨hpool', ?_, ?_, fun a ha => ?_, fun d hd => ?_⟩, fun htidy => ?_⟩
  · rw [ranges_cells, hs']
    exact h.owned
  · rw [hs', hptr]
    exact (h.live.cons _).trans (live_ptrs_cons hcells ls).symm
  · rw [hs'] at ha
    rcases mem_cons.mp ha with rfl | ha
    · exact .inl ⟨c, hcells.mem_iff.mpr mem_cons_self, hptr, hpow⟩
    · refine (h.fits a ha).imp_left ?_
      rintro ⟨d, hd, hfits⟩
      exact ⟨d, hcells.mem_iff.mpr (mem_cons_of_mem _ hd), hfits⟩
  · rcases mem_cons.mp (perm_middle.mem_iff.mp hd) with rfl | hd
    · obtain ⟨hold, hsum, hpowers⟩ := h.counters b (by simp)
      have htotal := total_perm hmore
      rw [total_cons, Cell.size, hpow] at htotal
      have := two_mul_le_cut_off (powerOf size)
      rw [Counted, hgiven, hout, hback, hcounter, htotal, update_self, update_self, update_self]
      refine ⟨?_, by dsimp only; omega, by omega⟩
      rw [BitVec.ofNat_add, add_sub_right_comm, ← hold]
    · have hne := h.pool.base_ne (mem_append_left _ (mem_map_of_mem hd))
      refine (h.counters d (perm_middle.mem_iff.mpr (mem_cons_of_mem _ hd))).frame ?_ ?_ ?_ ?_
      · rw [hcounter, update_of_ne hne]
      · rw [hgiven, update_of_ne hne]
      · rw [hout, update_of_ne hne]
      · rw [hback]
  · refine State.Tidy.mid (fun d hd => ⟨(htidy d hd).1, ?_⟩) ⟨fun hnone => ?_, fun _ => ?_⟩
    · rw [hout, update_of_ne (h.pool.base_ne (mem_append_left _ (mem_map_of_mem hd)))]
      exact (htidy d hd).2
    · have hin : c ∈ used { b with cells := pre ++ c :: post } :=
        mem_filter.mpr ⟨by simp, by simp [hfree]⟩
      rw [hnone] at hin
      cases hin
    · have := cut_off_pos (i := powerOf size)
      rw [hout, update_self]
      omega

/-! ## Obtaining and giving back blocks -/

theorem State.exchange_nil (s : State) : s.exchange [] none = s := by
  simp [exchange]

theorem new_block_used (new : Range) : (newBlock new).used = [] := by
  refine filter_eq_nil_iff.mpr fun c hc => ?_
  simp [(mem_fresh_cells hc).2]

/-- A block for slots is obtained. -/
theorem State.Inv.add_block (h : s.Inv bs ls) (hpool : PoolInv pool (bs ++ [newBlock new]) ls)
    (hused : pool.blocks.used = update s.pool.blocks.used new.base 0) :
    State.Inv { s.exchange [] (some (new.base, new.size)) with pool := pool }
      (bs ++ [newBlock new]) ls := by
  have hcells : usedCells (bs ++ [newBlock new]) = usedCells bs := by
    rw [usedCells, flatMap_append, flatMap_singleton, new_block_used, append_nil]
    rfl
  refine ⟨hpool, ?_, ?_, fun a ha => ?_, fun d hd => ?_⟩
  · show (new :: s.owned.filter _).Perm _
    rw [filter_eq_self.mpr (by simp)]
    have hmid := ranges_mid bs [] (newBlock new) ls
    rw [append_nil] at hmid
    exact (h.owned.cons new).trans hmid.symm
  · rw [livePtrs, hcells]
    exact h.live
  · rw [Range.Fits, hcells]
    exact h.fits a ha
  · rcases mem_append.mp hd with hd | hd
    · have hne : d.base ≠ new.base :=
        hpool.base_ne (mem_append_left _ (mem_map_of_mem (by simpa using hd)))
      refine (h.counters d hd).frame ?_ (update_of_ne hne ..) (update_of_ne hne ..)
        (update_of_ne hne ..)
      exact (congrFun hused d.base).trans (update_of_ne hne ..)
    · obtain rfl := mem_singleton.mp hd
      show pool.blocks.used new.base = BitVec.ofNat 64 (update s.given new.base 0 new.base) -
          BitVec.ofNat 64 (update s.back new.base 0 new.base) ∧
        update s.out new.base 0 new.base = update s.back new.base 0 new.base + total _ ∧
        2 * update s.given new.base 0 new.base ≤ update s.out new.base 0 new.base
      rw [hused, new_block_used]
      simp only [update_self]
      decide

/-- The memory that is still owned after blocks were given back. -/
theorem State.Inv.owned_drop (h : s.Inv bs ls) (hperm : bs.Perm (gone ++ kept)) :
    (s.owned.filter fun r => r.base ∉ gone.map (·.base)).Perm (ranges kept ls) := by
  have hranges : (ranges bs ls).Perm (gone.map toRange ++ ranges kept ls) := by
    rw [ranges, ranges, ← append_assoc, ← map_append]
    exact (hperm.map _).append_right _
  have hnodup := (hranges.map Range.base).nodup_iff.mp h.pool.bases_nodup
  rw [map_append, nodup_append, map_map] at hnodup
  refine ((h.owned.trans hranges).filter _).trans ?_
  rw [filter_append, filter_eq_nil_iff.mpr, filter_eq_self.mpr, nil_append]
  · intro r hr
    refine decide_eq_true fun hmem => ?_
    exact hnodup.2.2 _ hmem _ (mem_map_of_mem hr) rfl
  · intro r hr
    obtain ⟨d, hd, rfl⟩ := mem_map.mp hr
    simpa using ⟨d, hd, rfl⟩

/-- Blocks without used slots are given back. -/
theorem State.Inv.drop_blocks (h : s.Inv bs ls)
    (hpool : PoolInv pool kept ls) (hperm : bs.Perm (gone ++ kept))
    (hunused : ∀ d ∈ gone, d.used = []) (hused : pool.blocks.used = s.pool.blocks.used) :
    State.Inv { s.exchange (gone.map (·.base)) none with pool := pool } kept ls := by
  have hcells : (usedCells bs).Perm (usedCells kept) := by
    have hgone : usedCells gone = [] := flatMap_eq_nil_iff.mpr hunused
    have hsplit := hperm.flatMap_right used
    rw [flatMap_append] at hsplit
    rw [usedCells] at hgone
    rwa [hgone] at hsplit
  refine ⟨hpool, h.owned_drop hperm, ?_, fun a ha => ?_, fun d hd => ?_⟩
  · exact h.live.trans ((hcells.map _).append_right _)
  · refine (h.fits a ha).imp_left ?_
    rintro ⟨c, hc, hfits⟩
    exact ⟨c, hcells.mem_iff.mp hc, hfits⟩
  · exact (h.counters d (hperm.mem_iff.mpr (mem_append_right _ hd))).frame
      (congrFun hused _) rfl rfl rfl

/-- The pointer to a large block is in the large block. -/
theorem large_contains_ptr (hpower : cutOffNum ≤ powerOf size)
    (hfits : size + sizeofLargeBlockHeader + sizeofUsedHeader ≤ l.size) :
    l.Contains (l.base + sizeofLargeBlockHeader + sizeofUsedHeader) := by
  have hpos : size ≠ 0 := by
    rintro rfl
    exact absurd hpower (by decide)
  exact ⟨by omega, by omega⟩

/-- A large block is obtained and handed out. -/
theorem State.Inv.large (h : s.Inv bs ls) (hnew : ∀ q ∈ s.owned, q.Apart new)
    (hfits : size + sizeofLargeBlockHeader + sizeofUsedHeader ≤ new.size)
    (hpower : cutOffNum ≤ powerOf size) :
    ∃ s', s' = State.handOut
      { s.exchange [] (some (new.base, new.size)) with
        pool := (mempoolLargeMalloc s.pool (some (new.base, new.size))).pool } size
      (new.base + sizeofLargeBlockHeader + sizeofUsedHeader) ∧ s'.Inv bs (new :: ls) ∧
      (s.Tidy bs → s'.Tidy bs) := by
  have hpool := h.pool.large_malloc (fun r hr => hnew r (h.owned.mem_iff.mpr hr))
    (show _ ≤ new.size by omega)
  have howned : (s.exchange [] (some (new.base, new.size))).owned = new :: s.owned := by
    simp [exchange]
  have hperm : (new :: s.owned).Perm (ranges bs (new :: ls)) :=
    (h.owned.cons new).trans (ranges_mid_large bs [] ls new).symm
  have hholder : holder (new :: s.owned)
      (new.base + sizeofLargeBlockHeader + sizeofUsedHeader) = new.base :=
    holder_eq ((apart_perm hperm).mpr hpool.apart) mem_cons_self
      (large_contains_ptr hpower hfits)
  have hne : ∀ b ∈ bs, b.base ≠ new.base := fun b hb heq => by
    have hnodup := hpool.bases_nodup
    rw [bases_ranges, nodup_append] at hnodup
    exact hnodup.2.2 _ (mem_map_of_mem hb) _ (mem_map_of_mem mem_cons_self) heq
  have hkept : ∀ b ∈ bs, ∀ (f : Int → Nat) (n : Nat), update (update f new.base 0)
      (holder (s.exchange [] (some (new.base, new.size))).owned
        (new.base + sizeofLargeBlockHeader + sizeofUsedHeader)) n b.base = f b.base :=
    fun b hb f n => by
      rw [howned, hholder, update_of_ne (hne b hb), update_of_ne (hne b hb)]
  refine ⟨_, rfl, ⟨hpool, ?_, ?_, fun a ha => ?_, fun b hb => ?_⟩, fun htidy b hb => ?_⟩
  · show (s.exchange [] (some (new.base, new.size))).owned.Perm _
    rw [howned]
    exact hperm
  · exact (h.live.cons _).trans perm_middle.symm
  · rcases mem_cons.mp ha with rfl | ha
    · exact .inr ⟨new, mem_cons_self, rfl, hfits, hpower⟩
    · refine (h.fits a ha).imp_right ?_
      rintro ⟨l, hl, hlarge⟩
      exact ⟨l, mem_cons_of_mem _ hl, hlarge⟩
  · exact (h.counters b hb).frame rfl (hkept b hb ..) (hkept b hb ..) (update_of_ne (hne b hb) ..)
  · refine ⟨(htidy b hb).1, fun hbase => ?_⟩
    exact (hkept b hb ..).trans_ne ((htidy b hb).2 hbase)

/-! ## Freeing -/

/-- What the ghost state forgets when a live allocation is freed. -/
theorem State.take_back_eq (hptr : ptr ∈ s.live.map Range.base) :
    ∃ a l₁ l₂, s.live = l₁ ++ a :: l₂ ∧ a.base = ptr ∧ s.takeBack ptr =
      { s with
        live := l₁ ++ l₂
        back := update s.back (holder s.owned ptr)
          (s.back (holder s.owned ptr) + cutOffPoints (powerOf a.size)) } := by
  obtain ⟨a₀, ha₀, hbase₀⟩ := mem_map.mp hptr
  obtain ⟨a, l₁, l₂, hbefore, ha, hlive, herase⟩ :=
    exists_of_eraseP (p := fun a => decide (a.base = ptr)) ha₀ (decide_eq_true hbase₀)
  have hfind : (s.live.find? fun a => decide (a.base = ptr)) = some a := by
    rw [hlive, find?_append, find?_eq_none.mpr hbefore, find?_cons, ha]
    rfl
  refine ⟨a, l₁, l₂, hlive, of_decide_eq_true ha, ?_⟩
  rw [takeBack, hfind, herase]
  rfl

section

variable (h : s.Inv bs ls)

include h

variable {l₁ l₂ : List Range} {a : Range}

/-- The allocations that stay keep their memory if one more is freed. -/
theorem State.Inv.fits_rest {a x : Range}
    (hlive : s.live = l₁ ++ a :: l₂) (hx : x ∈ l₁ ++ l₂) : x.Fits bs ls ∧ x.base ≠ a.base := by
  have hmem : x ∈ s.live := by
    rw [hlive]
    exact perm_middle.mem_iff.mpr (mem_cons_of_mem _ hx)
  have hnodup := h.live_nodup
  have hmid : (l₁ ++ a :: l₂).Perm (a :: (l₁ ++ l₂)) := perm_middle
  rw [hlive, (hmid.map Range.base).nodup_iff, map_cons, nodup_cons] at hnodup
  exact ⟨h.fits x hmem, fun heq => hnodup.1 (heq ▸ mem_map_of_mem hx)⟩

/-- The addresses that stay live. -/
theorem State.Inv.live_rest {rest : List Int}
    (hlive : s.live = l₁ ++ a :: l₂) (hptrs : (livePtrs bs ls).Perm (a.base :: rest)) :
    ((l₁ ++ l₂).map Range.base).Perm rest := by
  have hmid : (l₁ ++ a :: l₂).Perm (a :: (l₁ ++ l₂)) := perm_middle
  have hperm := (hmid.map Range.base).symm.trans ((hlive ▸ h.live).trans hptrs)
  exact (perm_cons _).mp hperm

/-- A slot that is live can be freed. -/
theorem State.Inv.free_slot (hlive : s.live = l₁ ++ a :: l₂) (hc : c ∈ usedCells bs)
    (hbase : a.base = c.pos + sizeofUsedHeader) (hpow : c.power = powerOf a.size) :
    ∃ pool' bs', mempoolFree s.pool a.base = some (pool', none) ∧
      State.Inv
        { s with
          pool := pool'
          live := l₁ ++ l₂
          back := update s.back (holder s.owned a.base)
            (s.back (holder s.owned a.base) + cutOffPoints (powerOf a.size)) } bs' ls ∧
      (s.Tidy bs → s.Tidy bs') := by
  obtain ⟨b, hb, hcb, hfree⟩ := mem_used_cells.mp hc
  obtain ⟨bs₁, bs₂, rfl⟩ := append_of_mem hb
  obtain ⟨pre, post, hsplit⟩ := append_of_mem hcb
  obtain ⟨pool', cells, hcall, hpool, hfreed, hused, -⟩ := h.pool.free_slot hsplit hfree
  have hholder : holder s.owned a.base = b.base :=
    hbase ▸ h.holder_block hb ((h.pool.ok b hb).contains_ptr hcb)
  -- One cell less is used.
  have hless : b.used.Perm (c :: used { b with cells := cells }) := by
    have hmid : b.used.Perm (c :: (pre ++ post).filter fun d => !d.free) := by
      rw [used, hsplit]
      exact used_mid (b := b) hfree
    rw [← hfreed.used] at hmid
    exact hmid
  have hcells := used_cells_cons bs₁ bs₂ hless
  refine ⟨pool', _, hbase ▸ hcall, ⟨hpool, ?_, ?_, fun x hx => ?_, fun d hd => ?_⟩,
    fun htidy => ?_⟩
  · rw [ranges_cells]
    exact h.owned
  · exact h.live_rest hlive (hbase ▸ live_ptrs_cons hcells ls)
  · obtain ⟨hfits, hne⟩ := h.fits_rest hlive hx
    refine hfits.imp_left ?_
    rintro ⟨d, hd, hd', hpow'⟩
    refine ⟨d, ((mem_cons.mp (hcells.mem_iff.mp hd)).resolve_left ?_), hd', hpow'⟩
    rintro rfl
    exact hne (hd'.trans hbase.symm)
  · rw [hholder]
    rcases mem_cons.mp (perm_middle.mem_iff.mp hd) with rfl | hd
    · obtain ⟨hold, hsum, hpowers⟩ := h.counters b (by simp)
      rw [total_perm hless, total_cons, Cell.size, hpow] at hsum
      show pool'.blocks.used b.base = BitVec.ofNat 64 (s.given b.base) -
          BitVec.ofNat 64 (update s.back b.base _ b.base) ∧
        s.out b.base = update s.back b.base _ b.base + total _ ∧ 2 * s.given b.base ≤ s.out b.base
      rw [hused, update_self, update_self, BitVec.ofNat_add, sub_add_eq_sub_sub, ← hold, ← hpow]
      exact ⟨rfl, by rw [hsum, hpow]; omega, hpowers⟩
    · have hne := h.pool.base_ne (mem_append_left _ (mem_map_of_mem hd))
      refine (h.counters d (perm_middle.mem_iff.mpr (mem_cons_of_mem _ hd))).frame ?_ rfl rfl
        (update_of_ne hne ..)
      rw [hused]
      exact update_of_ne hne ..
  · refine State.Tidy.mid (fun d hd => htidy d (perm_middle.mem_iff.mpr (mem_cons_of_mem _ hd)))
      ⟨fun hnone => ?_, (htidy b (by simp)).2⟩
    have hfresh : cells = b.fresh := hfreed.eq_fresh (h.pool.ok b hb) hsplit fun d hd => by
      simpa using filter_eq_nil_iff.mp hnone d hd
    exact hfresh

/-- A large block that is live can be freed. -/
theorem State.Inv.free_large (hl : l ∈ ls) (hlive : s.live = l₁ ++ a :: l₂)
    (hbase : a.base = l.base + sizeofLargeBlockHeader + sizeofUsedHeader)
    (hsize : a.size + sizeofLargeBlockHeader + sizeofUsedHeader ≤ l.size)
    (hpower : cutOffNum ≤ powerOf a.size) :
    ∃ pool' ls', mempoolFree s.pool a.base = some (pool', some l.base) ∧
      State.Inv
        { s with
          pool := pool'
          live := l₁ ++ l₂
          owned := s.owned.filter fun r => r.base ∉ [l.base]
          back := update s.back (holder s.owned a.base)
            (s.back (holder s.owned a.base) + cutOffPoints (powerOf a.size)) } bs ls' := by
  obtain ⟨ls₁, ls₂, rfl⟩ := append_of_mem hl
  obtain ⟨pool', hcall, hpool, hblocks⟩ := h.pool.free_large
  have hmid := ranges_mid_large bs ls₁ ls₂ l
  have hnodup := (hmid.map Range.base).nodup_iff.mp h.pool.bases_nodup
  rw [map_cons, nodup_cons] at hnodup
  have hholder : holder s.owned a.base = l.base := by
    rw [hbase]
    exact holder_eq h.owned_apart (h.owned.mem_iff.mpr (mem_append_right _ hl))
      (large_contains_ptr hpower hsize)
  refine ⟨pool', ls₁ ++ ls₂, hbase ▸ hcall, ⟨hpool, ?_, ?_, fun x hx => ?_, fun b hb => ?_⟩⟩
  · refine ((h.owned.trans hmid).filter _).trans ?_
    rw [filter_cons_of_neg (by simp), filter_eq_self.mpr]
    intro r hr
    refine decide_eq_true fun heq => hnodup.1 ?_
    rw [← mem_singleton.mp heq]
    exact mem_map_of_mem hr
  · refine h.live_rest hlive ?_
    rw [hbase, livePtrs, livePtrs, map_append, map_append, ← append_assoc, ← append_assoc]
    exact perm_middle
  · obtain ⟨hfits, hne⟩ := h.fits_rest hlive hx
    refine hfits.imp_right ?_
    rintro ⟨l', hl', hbase', hsize'⟩
    refine ⟨l', (mem_cons.mp (perm_middle.mem_iff.mp hl')).resolve_left ?_, hbase', hsize'⟩
    rintro rfl
    exact hne (hbase'.trans hbase.symm)
  · have hne : b.base ≠ l.base := fun heq => hnodup.1 (heq ▸ mem_map_of_mem
      (mem_append_left _ (mem_map_of_mem hb)))
    rw [hholder]
    exact (h.counters b hb).frame (by rw [hblocks]) rfl rfl (update_of_ne hne ..)

/-- `mempool_free` of a live allocation returns and keeps the invariant. -/
theorem State.Inv.free (hptr : ptr ∈ s.live.map Range.base) :
    ∃ s' bs' ls', s.call (.free ptr) = some (s', none) ∧ s'.Inv bs' ls' ∧
      (s.Tidy bs → s'.Tidy bs') := by
  obtain ⟨a, l₁, l₂, hlive, rfl, hback⟩ := take_back_eq hptr
  have ha : a ∈ s.live := by
    rw [hlive]
    exact mem_append_right _ mem_cons_self
  rcases h.fits a ha with ⟨c, hc, hbase, hpow⟩ | ⟨l, hl, hbase, hsize, hpower⟩
  · obtain ⟨pool', bs', hcall, hinv⟩ := h.free_slot hlive hc hbase hpow
    refine ⟨_, bs', ls, ?_, hinv⟩
    simp only [call, hcall, hback, bind, Option.bind_some, Option.toList_none, exchange_nil]
    rfl
  · obtain ⟨pool', ls', hcall, hinv⟩ := h.free_large hl hlive hbase hsize hpower
    refine ⟨_, bs, ls', ?_, hinv, id⟩
    simp only [call, hcall, hback]
    rfl

end

/-! ## `mempool_malloc` -/

/-- A request below the large threshold is met in a block that can meet it. If there is none, it
fails or expands the pool. -/
theorem PoolInv.malloc_cases (h : PoolInv pool bs ls) (hpower : powerOf size < cutOffNum) :
    ((∀ d ∈ bs, checkblock pool.slots d.base (pool.blocks.freelists d.base) (powerOf size) = none) ∧
      ∀ expand newblock, mempoolMalloc pool size expand newblock =
        if expand then expandAndTake pool (powerOf size) newblock
        else some ⟨pool, none, none, none⟩) ∨
    ∃ bs₁ d bs₂ r, bs = bs₁ ++ d :: bs₂ ∧
      checkblock pool.slots d.base (pool.blocks.freelists d.base) (powerOf size) = some r ∧
      ∀ expand newblock, mempoolMalloc pool size expand newblock =
        some ⟨(takeSlot (pool.setBlock d.base r.1 r.2) d.base (powerOf size)).1,
          some (takeSlot (pool.setBlock d.base r.1 r.2) d.base (powerOf size)).2, none, none⟩ := by
  have hlt : ¬ whichPow2 (size + sizeofUsedHeader) ≥ cutOffNum := Nat.not_le.mpr hpower
  obtain ⟨b, rest, rfl, hbase⟩ := h.first
  have hne := h.behind_ne_zero hbase
  rcases find_block_from (powerOf size) h.chain hne (Nat.lt_of_succ_lt h.fuel_blocks) with
    ⟨hfind, hall⟩ | ⟨bs₁, d, bs₂, r, heq, hfind, hcheck⟩
  · refine .inl ⟨hall, fun expand newblock => ?_⟩
    rw [hbase, powerOf] at hfind
    simp only [mempoolMalloc, if_neg hlt, hfind]
    rfl
  · refine .inr ⟨bs₁, d, bs₂, r, heq, hcheck, fun expand newblock => ?_⟩
    rw [hbase, powerOf] at hfind
    simp only [mempoolMalloc, if_neg hlt, hfind]
    rfl

/-- `removeblocks` is not called. -/
theorem Removes.none : Removes pool bs [] none := by
  refine ⟨rfl, forall_mem_nil _, ?_⟩
  intro hnone
  cases hnone

/-- The call of `removeblocks`. -/
theorem PoolInv.trim (h : PoolInv pool bs ls) :
    ∃ pool' removed gone kept, Mempool.trim pool = some (pool', removed) ∧
      Removes pool bs gone removed ∧ PoolInv pool' kept ls ∧ bs.Perm (gone ++ kept) ∧
      pool'.blocks.used = pool.blocks.used ∧ pool'.slots = pool.slots := by
  rw [Mempool.trim]
  split
  · obtain ⟨pool', kept, gone, hcall, hpool, hperm, hremoves, hslots, hused, -⟩ := h.remove
    exact ⟨pool', _, gone, kept, by rw [hcall]; rfl, hremoves, hpool, hperm, hused, hslots⟩
  · exact ⟨pool, none, [], bs, rfl, .none, h, .refl _, rfl, rfl⟩

/-- An event is allowed if less memory is owned. -/
theorem Allowed.mono {owned owned' live : List Range} {e : Event} (h : Allowed owned live e)
    (hsub : ∀ r ∈ owned', r ∈ owned) : Allowed owned' live e := by
  cases e with
  | malloc size expand newblock => exact fun r hr =>
      ⟨fun q hq => (h r hr).1 q (hsub q hq), (h r hr).2⟩
  | free ptr => exact h
  | write junk => exact h

/-- A request is served, whatever `newblockfn` returns: `removeblocks` gives back the blocks `gone`,
and if these have no used slot the invariant and `Tidy` are kept. -/
def State.Served (s : State) (bs : List BlockDesc) (size : Nat) (expand : Bool)
    (serve : Option (Int × Nat) → Option Outcome) : Prop :=
  ∃ removed gone kept, bs.Perm (gone ++ kept) ∧ Removes s.pool bs gone removed ∧
    (∀ newblock o, serve newblock = some o → o.removed = removed) ∧
    ∀ newblock : Option Range, Allowed (s.owned.filter fun r => r.base ∉ gone.map (·.base)) s.live
        (.malloc size expand newblock) →
      ∃ o, serve (newblock.map fun r => (r.base, r.size)) = some o ∧
        ((∀ d ∈ gone, d.used = []) →
          ∃ bs' ls', (s.finish size o).Inv bs' ls' ∧ (s.Tidy bs → (s.finish size o).Tidy bs'))

/-- A request is served without a call of `removeblocks`. -/
theorem State.Served.quiet {expand : Bool} {serve : Option (Int × Nat) → Option Outcome}
    (hquiet : ∀ newblock o, serve newblock = some o → o.removed = none)
    (h : ∀ newblock, Allowed s.owned s.live (.malloc size expand newblock) →
      ∃ o, serve (newblock.map fun r => (r.base, r.size)) = some o ∧
        ∃ bs' ls', (s.finish size o).Inv bs' ls' ∧ (s.Tidy bs → (s.finish size o).Tidy bs')) :
    s.Served bs size expand serve := by
  refine ⟨none, [], bs, .refl _, .none, hquiet, fun newblock hallowed => ?_⟩
  rw [filter_eq_self.mpr (by simp)] at hallowed
  obtain ⟨o, hserve, hinv⟩ := h newblock hallowed
  exact ⟨o, hserve, fun _ => hinv⟩

/-- The outcome of the expansion has what `removeblocks` gave back. -/
theorem expand_removed {pool' : Pool}
    {newblock : Option (Int × Nat)} {o : Outcome}
    (htrim : Mempool.trim pool = some (pool', removed))
    (ho : expandAndTake pool power newblock = some o) : o.removed = removed := by
  simp only [expandAndTake, htrim, bind, Option.bind_some] at ho
  cases newblock with
  | none => rw [← Option.some.inj ho]
  | some new =>
    simp only [Option.bind_eq_some_iff] at ho
    obtain ⟨_, -, _, -, ho⟩ := ho
    rw [← Option.some.inj ho]

/-- The expansion by a block that can meet the request. -/
theorem expand_eq {pool' pool'' : Pool} (htrim : Mempool.trim pool = some (pool', removed))
    (hadd : addBlock pool' new.base new.size = some pool'')
    (hcheck : checkblock pool''.slots new.base (pool''.blocks.freelists new.base) power = some r) :
    expandAndTake pool power (some (new.base, new.size)) =
      some ⟨(takeSlot (pool''.setBlock new.base r.1 r.2) new.base power).1,
        some (takeSlot (pool''.setBlock new.base r.1 r.2) new.base power).2,
        some (new.base, new.size), removed⟩ := by
  simp only [expandAndTake, htrim, bind, Option.bind_some, hadd, hcheck]
  rfl

/-- Blocks are given back and one is obtained, from which the slot is handed out. -/
theorem State.finish_obtained {pool' : Pool} :
    s.finish size ⟨pool, some ptr, some (new.base, new.size), removed⟩ =
    State.handOut { State.exchange { s.exchange (removed.getD []) none with pool := pool' } []
      (some (new.base, new.size)) with pool := pool } size ptr := by
  simp [finish, exchange]

/-- The expansion of the pool returns. -/
theorem State.Inv.expand (h : s.Inv bs ls) (hpower : powerOf size < cutOffNum) :
    s.Served bs size true (expandAndTake s.pool (powerOf size)) := by
  obtain ⟨pool', removed, gone, kept, htrim, hremoves, hpool, hperm, hused, -⟩ := h.pool.trim
  refine ⟨removed, gone, kept, hperm, hremoves, fun newblock o ho => ?_,
    fun newblock hallowed => ?_⟩
  · exact (expand_removed htrim ho)
  -- The state after `removeblocks`.
  have htrimmed : (∀ d ∈ gone, d.used = []) →
      State.Inv { s.exchange (removed.getD []) none with pool := pool' } kept ls := by
    intro hunused
    rw [hremoves.bases]
    exact h.drop_blocks hpool hperm hunused hused
  have htidy : s.Tidy bs → s.Tidy kept := fun htidy d hd =>
    htidy d (hperm.mem_iff.mpr (mem_append_right _ hd))
  cases newblock with
  | none =>
    refine ⟨⟨pool', none, none, removed⟩, ?_, fun hunused => ⟨kept, ls, htrimmed hunused, htidy⟩⟩
    simp only [expandAndTake, htrim]
    rfl
  | some new =>
    obtain ⟨hnew, hfits, hsmall⟩ := hallowed new rfl
    rw [requested, if_pos hpower] at hfits
    have hfresh : ∀ r ∈ ranges kept ls, r.Apart new := fun r hr =>
      hnew r ((h.owned_drop hperm).mem_iff.mpr hr)
    obtain ⟨pool'', r, hadd, hcheck, hgrown, hused', -⟩ := hpool.grow hfresh hfits (hsmall hpower)
    refine ⟨_, expand_eq htrim hadd hcheck, fun hunused => ?_⟩
    have hobtained := (htrimmed hunused).add_block hgrown hused'
    obtain ⟨_, bs', rfl, hinv, htidy'⟩ := hobtained.take hpower hcheck
    rw [finish_obtained]
    refine ⟨bs', ls, hinv, fun h => htidy' fun d hd => ?_⟩
    rw [append_nil] at hd
    have hne : d.base ≠ new.base :=
      hgrown.base_ne (mem_append_left _ (mem_map_of_mem (by simpa using hd)))
    exact ⟨(htidy h d hd).1, fun hbase => (update_of_ne hne ..).trans_ne ((htidy h d hd).2 hbase)⟩

/-- A call that returns null changes nothing. -/
theorem State.Inv.unserved (h : s.Inv bs ls) :
    (s.finish size ⟨s.pool, none, none, none⟩).Inv bs ls := by
  show State.Inv { s.exchange [] none with pool := s.pool } bs ls
  rw [exchange_nil]
  exact h

/-- A request for a large block. -/
theorem State.Inv.malloc_large (h : s.Inv bs ls) (hpower : ¬ powerOf size < cutOffNum)
    {expand : Bool} {newblock : Option Range}
    (hallowed : Allowed s.owned s.live (.malloc size expand newblock)) :
    ∃ s' ls', s' = s.finish size (mempoolLargeMalloc s.pool
      (newblock.map fun r => (r.base, r.size))) ∧ s'.Inv bs ls' ∧ (s.Tidy bs → s'.Tidy bs) := by
  cases newblock with
  | none => exact ⟨_, ls, rfl, h.unserved, id⟩
  | some new =>
    obtain ⟨hnew, hfits, -⟩ := hallowed new rfl
    rw [requested, if_neg hpower] at hfits
    obtain ⟨s', hs', hinv⟩ := h.large hnew hfits (Nat.le_of_not_lt hpower)
    exact ⟨s', new :: ls, hs', hinv⟩

/-- Every call of `mempool_malloc` is served as it should be. -/
theorem State.Inv.malloc (h : s.Inv bs ls) (size : Nat) (expand : Bool) :
    s.Served bs size expand (mempoolMalloc s.pool size expand) := by
  by_cases hpower : powerOf size < cutOffNum
  · rcases h.pool.malloc_cases hpower with ⟨-, hcall⟩ | ⟨bs₁, b, bs₂, r, rfl, hcheck, hcall⟩
    · rw [funext (hcall expand)]
      cases expand with
      | true => exact h.expand hpower
      | false =>
        refine .quiet (fun newblock o ho => ?_) fun newblock _ => ⟨_, rfl, bs, ls, h.unserved, id⟩
        exact congrArg Outcome.removed (Option.some.inj ho).symm
    · refine .quiet (fun newblock o ho => ?_) fun newblock _ => ⟨_, hcall .., ?_⟩
      · rw [hcall] at ho
        exact congrArg Outcome.removed (Option.some.inj ho).symm
      obtain ⟨_, bs', rfl, hinv, htidy⟩ := h.take hpower hcheck
      rw [finish, Option.getD_none, exchange_nil]
      refine ⟨bs', ls, hinv, fun h => htidy fun d hd => h d ?_⟩
      exact perm_middle.mem_iff.mpr (mem_cons_of_mem _ hd)
  · have hcall : ∀ newblock, mempoolMalloc s.pool size expand newblock =
        some (mempoolLargeMalloc s.pool newblock) := fun newblock => by
      rw [powerOf] at hpower
      simp only [mempoolMalloc, if_pos (Nat.le_of_not_lt hpower)]
      rfl
    refine .quiet (fun newblock o ho => ?_) fun newblock hallowed => ?_
    · rw [hcall] at ho
      rw [← Option.some.inj ho]
      cases newblock <;> rfl
    · obtain ⟨s', ls', rfl, hinv⟩ := h.malloc_large hpower hallowed
      exact ⟨_, hcall _, bs, ls', hinv⟩

end Reconverse.Mempool
