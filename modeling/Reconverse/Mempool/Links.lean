import Reconverse.Mempool.Safety

/-!
# The first word of an allocation

The user's memory of a slot starts where a free slot has its `next` link. The calls of the pool
write that word only in free slots, in the slot that is freed and in new blocks, so that the first
word of a live allocation is left alone by all calls but its own `mempool_free`.
-/

namespace Reconverse.Mempool

open Function (update)
open Lib List

variable {s : State} {p pool' : Pool} {mem : Slots} {fl : Freelists} {b : BlockDesc} {c d : Cell}
  {bs bs₁ bs₂ : List BlockDesc} {ls : List Range} {a : Range} {power size : Nat} {blk start y : Int}
  {cells : List Cell}

/-! ## What writes `next` links -/

/-- `checkblock` writes `next` links in free cells only. -/
theorem checkblock_next {r : Freelists × Slots} (h : BlockInv mem fl blk start cells)
    (hr : checkblock mem blk fl power = some r)
    (hy : ∀ d ∈ cells, d.free = true → y < d.pos ∨ d.pos + d.size ≤ y) :
    r.2.next y = mem.next y := by
  rcases checkblock_cases mem blk fl power with ⟨hnone, -⟩ | ⟨hsame, -⟩ | ⟨n, hsplit, hlt, hne, -⟩
  · rw [hnone] at hr
    cases hr
  · obtain rfl := Option.mem_unique hsame hr
    rfl
  · obtain rfl := Option.mem_unique hsplit hr
    obtain ⟨c, hc, hfree, hpow, hpos, -⟩ := h.lists.head hlt hne
    -- The pieces are in the cell that is cut.
    have hout : y ∉ (splitCells n power c.pos).map Cell.pos := by
      intro hin
      obtain ⟨e, he, rfl⟩ := mem_map.mp hin
      have hbounds := (split_cells_tiled n power c.pos).bounds he
      have hsize := size_pos e
      have hcell := hy c hc hfree
      rw [total_split_cells, ← hpow] at hbounds
      rw [Cell.size] at hcell
      omega
    rw [split_slot_slots mem blk hpos.symm]
    exact (split_mem_agree mem blk hout).next

/-- The end of `mempool_malloc` writes no `next` link. -/
theorem take_slot_next (p : Pool) (blk : Int) (power : Nat) :
    (takeSlot p blk power).1.slots.next = p.slots.next := by
  rw [take_slot_slots]

variable {newblock : Option Range} {o : Outcome} {expand : Bool} {ptr : Int}

/-- The expansion of `mempool_malloc` writes `next` links in the new block only. -/
theorem PoolInv.expand_next (h : PoolInv p bs ls)
    (ho : expandAndTake p power (newblock.map fun r => (r.base, r.size)) = some o)
    (hnew : ∀ r, newblock = some r → (∀ d ∈ bs, d.base ∉ o.removed.getD [] → d.toRange.Apart r) ∧
      (∀ l ∈ ls, l.Apart r) ∧ cutOffPoints power + sizeofBlockHeader ≤ r.size ∧
      r.size < sizeofBlockHeader + 2 ^ 30 ∧
      (y < r.base ∨ r.base + r.size ≤ y)) : o.pool.slots.next y = p.slots.next y := by
  obtain ⟨pool', removed, gone, kept, htrim, hremoves, hpool, hperm, -, hslots⟩ := h.trim
  have hgone := expand_removed htrim ho
  simp only [expandAndTake, htrim, bind, Option.bind_some] at ho
  rw [← hslots]
  cases newblock with
  | none =>
    cases ho
    rfl
  | some new =>
    obtain ⟨hblocks, hlarge, hfits, hsmall, hout⟩ := hnew new rfl
    have hfresh : ∀ r ∈ ranges kept ls, r.Apart new := by
      intro r hr
      rcases mem_append.mp hr with hr | hr
      · obtain ⟨d, hd, rfl⟩ := mem_map.mp hr
        refine hblocks d (hperm.mem_iff.mpr (mem_append_right _ hd)) ?_
        rw [hgone, hremoves.bases]
        -- A block that stays has another base than one that is given back.
        intro hin
        have hnodup := h.bases_nodup
        rw [bases_ranges, nodup_append] at hnodup
        have hsplit := (hperm.map fun b : BlockDesc => b.base).nodup_iff.mp hnodup.1
        rw [map_append, nodup_append] at hsplit
        exact hsplit.2.2 _ hin _ (mem_map_of_mem hd) rfl
      · exact hlarge r hr
    obtain ⟨pool'', r, hadd, hcheck, hgrown, -, hagree⟩ := hpool.grow hfresh hfits hsmall
    simp only [Option.map_some, hadd, Option.bind_some, hcheck] at ho
    cases ho
    rw [take_slot_next]
    have hblock := hgrown.ok (newBlock new) (by simp)
    refine (checkblock_next hblock.inv hcheck fun d hd _ => ?_).trans (hagree y hout).next
    have hin := hblock.inside hd
    rw [BlockDesc.start] at hin
    have hrange : (newBlock new).toRange = new := rfl
    rw [hrange] at hin
    omega

/-- `mempool_malloc` writes `next` links in free cells and in the new block only. -/
theorem PoolInv.malloc_next (h : PoolInv p bs ls)
    (ho : mempoolMalloc p size expand (newblock.map fun r => (r.base, r.size)) = some o)
    (hy : ∀ b ∈ bs, ∀ d ∈ b.cells, d.free = true → y < d.pos ∨ d.pos + d.size ≤ y)
    (hnew : powerOf size < cutOffNum → ∀ r, newblock = some r →
      (∀ d ∈ bs, d.base ∉ o.removed.getD [] → d.toRange.Apart r) ∧ (∀ l ∈ ls, l.Apart r) ∧
      cutOffPoints (powerOf size) + sizeofBlockHeader ≤ r.size ∧
      r.size < sizeofBlockHeader + 2 ^ 30 ∧
      (y < r.base ∨ r.base + r.size ≤ y)) : o.pool.slots.next y = p.slots.next y := by
  by_cases hpower : powerOf size < cutOffNum
  · rcases h.malloc_cases hpower with ⟨-, hcall⟩ | ⟨bs₁, d, bs₂, r, rfl, hcheck, hcall⟩
    · rw [hcall] at ho
      cases expand with
      | false =>
        cases ho
        rfl
      | true => exact h.expand_next ho (hnew hpower)
    · rw [hcall] at ho
      cases ho
      rw [take_slot_next]
      exact checkblock_next (h.ok d (by simp)).inv hcheck fun e he => hy d (by simp) e he
  · have hge := Nat.le_of_not_lt hpower
    rw [powerOf] at hge
    simp only [mempoolMalloc, if_pos hge] at ho
    cases ho
    cases newblock <;> rfl

/-! ## Live allocations -/

/-- The first word of an allocation, as a link. -/
def linkOf (mem : Slots) (ptr : Int) : Int := mem.next (ptr - sizeofUsedHeader)

/-- An allocation with a large block has a first word. -/
theorem large_size (hpower : cutOffNum ≤ powerOf size) : 8 ≤ size := by
  rcases Nat.lt_or_ge size 8 with hlt | hge
  · -- A request that small is met by the smallest slots.
    have hle : size + sizeofUsedHeader ≤ 2 ^ 30 := by
      rw [sizeofUsedHeader]
      omega
    obtain ⟨-, -, hsmaller⟩ := which_pow2_spec hle
    rw [powerOf, cutOffNum] at hpower
    have hfirst := hsmaller 0 (by omega)
    rw [cut_off_zero, sizeofUsedHeader] at hfirst
    omega
  · exact hge

namespace State.Inv

section

variable (h : s.Inv bs ls) (ha : a ∈ s.live)

include h ha

/-- The first word of an allocation and the slots: it is behind the header of its own slot, if it
has one, and apart from the others. -/
theorem word_cell (hb : b ∈ bs) (hd : d ∈ b.cells) :
    (a.base = d.pos + sizeofUsedHeader ∧ d.free = false) ∨ a.base + 8 ≤ d.pos ∨
      d.pos + d.size + sizeofUsedHeader ≤ a.base := by
  rcases h.fits a ha with ⟨c, hc, hbase, -⟩ | ⟨l, hl, hbase, hsize, hpower⟩
  · obtain ⟨b', hb', hcb, hused⟩ := mem_used_cells.mp hc
    rcases eq_or_ne d c with rfl | hne
    · exact .inl ⟨hbase, hused⟩
    · have hapart := h.pool.slots_apart hb hd hb' hcb hne
      have hpos := size_pos c
      simp only [Range.Apart, Cell.range] at hapart
      rw [sizeofUsedHeader] at hbase ⊢
      omega
  · have hapart := h.pool.slot_large_apart hb hd hl
    have hfirst := large_size hpower
    simp only [Range.Apart, Cell.range] at hapart
    rw [sizeofUsedHeader] at hbase hsize
    rw [sizeofUsedHeader]
    omega

/-- The first word of an allocation and the large blocks. -/
theorem word_large {l : Range} (hl : l ∈ ls) :
    a.base = l.base + sizeofLargeBlockHeader + sizeofUsedHeader ∨ a.base + 8 ≤ l.base ∨
      l.base + l.size + sizeofUsedHeader ≤ a.base := by
  rcases h.fits a ha with ⟨c, hc, hbase, -⟩ | ⟨l', hl', hbase, hsize, hpower⟩
  · obtain ⟨b, hb, hcb, -⟩ := mem_used_cells.mp hc
    have hapart := h.pool.slot_large_apart hb hcb hl
    have hpos := size_pos c
    simp only [Range.Apart, Cell.range] at hapart
    rw [sizeofUsedHeader] at hbase ⊢
    omega
  · by_cases heq : l.base = l'.base
    · rw [heq]
      exact .inl hbase
    · have hapart := h.pool.apart_of_ne (mem_append_right _ hl) (mem_append_right _ hl') heq
      have hfirst := large_size hpower
      simp only [Range.Apart] at hapart
      rw [sizeofUsedHeader] at hbase hsize
      rw [sizeofUsedHeader]
      omega

/-- The first word of an allocation overlaps neither the first word of another nor its memory. -/
theorem words_apart {a' : Range} (ha' : a' ∈ s.live)
    (hne : a.base ≠ a'.base) : a.base + 8 ≤ a'.base ∨ a'.base + max 8 a'.size ≤ a.base := by
  rcases h.pool.fits_cases (h.fits a' ha') with ⟨b, hb, c, hc, -, hbase, hsize⟩ |
    ⟨l, hl, hbase, hsize⟩
  · rcases h.word_cell ha hb hc with ⟨hown, -⟩ | hout
    · exact absurd (hown.trans hbase.symm) hne
    · rw [sizeofUsedHeader] at hbase hout hsize
      omega
  · rcases h.word_large ha hl with hown | hout
    · exact absurd (hown.trans hbase.symm) hne
    · rw [sizeofUsedHeader] at hout
      omega

/-- The first word of an allocation is in memory of the pool, and not at its start. -/
theorem word_inside : ∃ r ∈ ranges bs ls, r.base < a.base ∧ a.base + 8 ≤ r.base + r.size := by
  rcases h.fits a ha with ⟨c, hc, hbase, -⟩ | ⟨l, hl, hbase, hsize, hpower⟩
  · obtain ⟨b, hb, hcb, -⟩ := mem_used_cells.mp hc
    have hin := (h.pool.ok b hb).inside hcb
    have hpos := size_pos c
    refine ⟨b.toRange, mem_append_left _ (mem_map_of_mem hb), ?_⟩
    rw [BlockDesc.start] at hin
    rw [sizeofUsedHeader] at hbase
    omega
  · have hfirst := large_size hpower
    refine ⟨l, mem_append_right _ hl, ?_⟩
    rw [sizeofUsedHeader] at hbase hsize
    omega

/-- No allocation is at offset 0, which is null. -/
theorem live_ne_zero : a.base ≠ 0 := by
  obtain ⟨r, hr, hlt, hle⟩ := h.word_inside ha
  obtain ⟨b, rest, rfl, hbase⟩ := h.pool.first
  rcases eq_or_ne r b.toRange with rfl | hne
  · omega
  · have hapart := h.pool.apart.forall hr
      (mem_append_left _ (mem_map_of_mem mem_cons_self)) hne
    rw [Range.Apart] at hapart
    omega

/-- The `next` link at the first word of an allocation is not in a free cell, and in no other cell
than its own. -/
theorem link_outside (hb : b ∈ bs) (hd : d ∈ b.cells)
    (hother : d.free = true ∨ a.base ≠ d.pos + sizeofUsedHeader) :
    a.base - sizeofUsedHeader < d.pos ∨ d.pos + d.size ≤ a.base - sizeofUsedHeader := by
  rcases h.word_cell ha hb hd with ⟨hown, hused⟩ | hout
  · rcases hother with hfree | hother
    · rw [hused] at hfree
      cases hfree
    · exact absurd hown hother
  · omega

end

end State.Inv

/-- `mempool_free` leaves the first words of the other live allocations alone. -/
theorem State.Inv.free_links (h : s.Inv bs ls) {freed : Option Int}
    (hptr : ptr ∈ s.live.map Range.base) (hfree : mempoolFree s.pool ptr = some (pool', freed))
    (ha : a ∈ s.live) (hne : a.base ≠ ptr) : linkOf pool'.slots a.base =
    linkOf s.pool.slots a.base := by
  obtain ⟨x, hx, rfl⟩ := mem_map.mp hptr
  rcases h.fits x hx with ⟨c, hc, hbase, -⟩ | ⟨l, hl, hbase, -⟩
  · obtain ⟨b, hb, hcb, hused⟩ := mem_used_cells.mp hc
    obtain ⟨bs₁, bs₂, rfl⟩ := append_of_mem hb
    obtain ⟨pre, post, hsplit⟩ := append_of_mem hcb
    obtain ⟨pool'', cells, hcall, -, -, -, hnext⟩ := h.pool.free_slot hsplit hused
    rw [hbase, hcall] at hfree
    cases hfree
    refine hnext _ fun d hd hkind => h.link_outside ha hb hd ?_
    rcases hkind with hdfree | rfl
    · exact .inl hdfree
    · exact .inr (hbase ▸ hne)
  · have hlarge := h.pool.largeOk l hl
    rw [hbase, mempoolFree, Int.add_sub_cancel, hlarge.status] at hfree
    cases hfree
    rfl

/-- `mempool_malloc` leaves the first words of live allocations alone, unless `removeblocks` gives
back a block that has some. -/
theorem State.Inv.malloc_links (h : s.Inv bs ls)
    (ho : mempoolMalloc s.pool size expand (newblock.map fun r => (r.base, r.size)) = some o)
    (hallowed : Allowed (s.owned.filter fun r => r.base ∉ o.removed.getD []) s.live
      (.malloc size expand newblock))
    (hunused : ∀ base ∈ o.removed.getD [], ∃ b ∈ bs, b.base = base ∧ b.used = [])
    (ha : a ∈ s.live) : linkOf o.pool.slots a.base = linkOf s.pool.slots a.base := by
  have hnodup := h.pool.bases_nodup
  rw [bases_ranges, nodup_append] at hnodup
  -- What `removeblocks` leaves is apart from the new block.
  have hkept (r : Range) (hr : r ∈ ranges bs ls) (hstays : r.base ∉ o.removed.getD []) :
      r ∈ s.owned.filter fun r => r.base ∉ o.removed.getD [] :=
    mem_filter.mpr ⟨h.owned.mem_iff.mpr hr, decide_eq_true hstays⟩
  have hlarge (l : Range) (hl : l ∈ ls) : l.base ∉ o.removed.getD [] := by
    intro hin
    obtain ⟨b, hb, hbase, -⟩ := hunused _ hin
    exact hnodup.2.2 _ (mem_map_of_mem hb) _ (mem_map_of_mem hl) hbase
  refine h.pool.malloc_next ho (fun b hb d hd hfree => h.link_outside ha hb hd (.inl hfree))
    fun hpower r hr => ?_
  obtain ⟨hapart, hfits, hsmall⟩ := hallowed r hr
  rw [requested, if_pos hpower] at hfits
  refine ⟨fun d hd hstays => hapart _ (hkept _ ?_ hstays), fun l hl => ?_, hfits, hsmall hpower, ?_⟩
  · exact mem_append_left _ (mem_map_of_mem hd)
  · exact hapart l (hkept l (mem_append_right _ hl) (hlarge l hl))
  · rcases h.pool.fits_cases (h.fits a ha) with ⟨b, hb, c, hc, hused, hbase, -⟩ |
      ⟨l, hl, hbase, hsize⟩
    · have hstays : b.base ∉ o.removed.getD [] := by
        intro hin
        obtain ⟨b', hb', hbase', hnone⟩ := hunused _ hin
        obtain rfl := inj_on_of_nodup_map hnodup.1 hb' hb hbase'
        have hmem : c ∈ b'.used := mem_filter.mpr ⟨hc, by rw [hused]; rfl⟩
        rw [hnone] at hmem
        cases hmem
      have hout := hapart _ (hkept b.toRange (mem_append_left _ (mem_map_of_mem hb)) hstays)
      have hin := (h.pool.ok b hb).inside hc
      have hpos := size_pos c
      rw [BlockDesc.start] at hin
      simp only [Range.Apart] at hout
      omega
    · have hout := hapart l (hkept l (mem_append_right _ hl) (hlarge l hl))
      rw [sizeofUsedHeader] at hbase hsize
      rw [sizeofUsedHeader]
      simp only [Range.Apart] at hout
      omega

/-! ## Calls -/

theorem State.exchange_live (s : State) (removed : List Int) (obtained : Option (Int × Nat)) :
    (s.exchange removed obtained).live = s.live := by
  cases obtained with
  | none => rfl
  | some new => rfl

/-- `mempool_free` of a live allocation. -/
theorem State.Inv.free_spec (h : s.Inv bs ls) (hptr : ptr ∈ s.live.map Range.base) :
    ∃ s' bs' ls', s.call (.free ptr) = some (s', none) ∧ s'.Inv bs' ls' ∧
      (∀ z, z ∈ s'.live.map Range.base ↔ z ∈ s.live.map Range.base ∧ z ≠ ptr) ∧
      ∀ z ∈ s.live.map Range.base, z ≠ ptr → linkOf s'.pool.slots z = linkOf s.pool.slots z := by
  obtain ⟨s', bs', ls', hcall, hinv, -⟩ := h.free hptr
  refine ⟨s', bs', ls', hcall, hinv, fun z => ?_, fun z hz hne => ?_⟩
  · obtain ⟨a, l₁, l₂, hlive, rfl, hback⟩ := State.take_back_eq hptr
    simp only [State.call, bind, Option.bind_eq_some_iff] at hcall
    obtain ⟨⟨pool', freed⟩, -, hcall⟩ := hcall
    cases hcall
    have hlive' : State.live { (s.takeBack a.base).exchange freed.toList none with pool := pool' } =
        l₁ ++ l₂ := by
      rw [State.exchange_live, hback]
    have hnodup := h.live_nodup
    have hmid : (l₁ ++ a :: l₂).Perm (a :: (l₁ ++ l₂)) := perm_middle
    rw [hlive, (hmid.map Range.base).nodup_iff, map_cons, nodup_cons] at hnodup
    rw [hlive', hlive, (hmid.map Range.base).mem_iff, map_cons, mem_cons]
    constructor
    · intro hz
      exact ⟨.inr hz, ne_of_mem_of_not_mem hz hnodup.1⟩
    · rintro ⟨rfl | hz, hne⟩
      · exact absurd rfl hne
      · exact hz
  · obtain ⟨a, ha, rfl⟩ := mem_map.mp hz
    simp only [State.call, bind, Option.bind_eq_some_iff] at hcall
    obtain ⟨⟨pool', freed⟩, hfree, hcall⟩ := hcall
    cases hcall
    exact h.free_links hptr hfree ha hne

/-- `mempool_malloc`, from a sound state if it calls `removeblocks`. -/
theorem State.Inv.malloc_spec (h : s.Inv bs ls)
    (ho : mempoolMalloc s.pool size expand (newblock.map fun r => (r.base, r.size)) = some o)
    (hallowed : Allowed (s.owned.filter fun r => r.base ∉ o.removed.getD []) s.live
      (.malloc size expand newblock)) (hsound : o.removed ≠ none → s.Sound) :
    ∃ bs' ls', (s.finish size o).Inv bs' ls' ∧
      (s.finish size o).live = o.ptr.toList.map (Range.mk · size) ++ s.live ∧
      ∀ z ∈ s.live.map Range.base,
        linkOf (s.finish size o).pool.slots z = linkOf s.pool.slots z := by
  have hcall : s.call (.malloc size expand newblock) = some (s.finish size o, o.removed) := by
    simp only [State.call, ho, bind, Option.bind_some]
    rfl
  obtain ⟨hunused, bs', ls', hinv, -⟩ := h.removed_unused hsound hallowed hcall
  refine ⟨bs', ls', hinv, ?_, fun z hz => ?_⟩
  · rw [State.finish]
    cases o.ptr with
    | none => exact s.exchange_live ..
    | some ptr => exact congrArg _ (s.exchange_live ..)
  · obtain ⟨a, ha, rfl⟩ := mem_map.mp hz
    have hpool : (s.finish size o).pool = o.pool := by
      rw [State.finish]
      cases o.ptr with
      | none => rfl
      | some ptr => rfl
    rw [hpool]
    refine h.malloc_links ho hallowed (fun base hbase => ?_) ha
    obtain ⟨b, hb, hbase', hnone, -⟩ := hunused base hbase
    exact ⟨b, hb, hbase', hnone⟩

end Reconverse.Mempool
