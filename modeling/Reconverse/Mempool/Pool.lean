import Reconverse.Mempool.Free

/-!
# The representation invariant of the pool

`PoolInv s bs ls` says that the pool `s` consists of the blocks `bs` and the large blocks `ls`: the
blocks are linked in order, every block keeps its own invariant, no two ranges of memory overlap,
and the size of the pool is the sum of all sizes.
-/

namespace Reconverse.Mempool

open Function (update update_of_ne update_self)
open Lib.DList List

/-! ## Blocks -/

/-- A range of memory. -/
structure Range where
  base : Int
  size : Nat
  deriving DecidableEq, Repr

/-- Two ranges do not overlap. -/
def Range.Apart (r r' : Range) : Prop := r.base + r.size ≤ r'.base ∨ r'.base + r'.size ≤ r.base

instance (r r' : Range) : Decidable (r.Apart r') := inferInstanceAs (Decidable (_ ∨ _))

theorem Range.Apart.symm {r r' : Range} (h : r.Apart r') : r'.Apart r := Or.symm h

instance : Std.Symm Range.Apart := ⟨fun _ _ h => h.symm⟩

/-- A block of the pool: its range and its cells. The block of the pool itself is at offset 0. -/
structure BlockDesc extends Range where
  cells : List Cell

/-- The size of the header of a block. -/
def BlockDesc.header (b : BlockDesc) : Nat := taken (b.base != 0)

/-- The place of the first slot. -/
def BlockDesc.start (b : BlockDesc) : Int := b.base + b.header

/-- The pool has this block. -/
structure BlockDesc.Ok (s : Pool) (b : BlockDesc) : Prop where
  inv : BlockInv s.slots (s.blocks.freelists b.base) b.base b.start b.cells
  size : s.blocks.size b.base = b.size
  fits : b.header + 64 ≤ b.size
  small : b.size - b.header < 2 ^ 30
  filled : total b.cells = (b.size - b.header) / 64 * 64

/-- The pool has this large block, with the header of its slot behind its own. -/
structure Range.LargeOk (s : Pool) (l : Range) : Prop where
  status : s.slots.status (l.base + sizeofLargeBlockHeader) = -1
  blockPtr : s.slots.blockPtr (l.base + sizeofLargeBlockHeader) = l.base
  size : s.large.size l.base = l.size
  fits : sizeofLargeBlockHeader + sizeofUsedHeader ≤ l.size

/-- The ranges of all blocks. -/
def ranges (bs : List BlockDesc) (ls : List Range) : List Range := bs.map BlockDesc.toRange ++ ls

/-- The pool consists of the blocks `bs` and the large blocks `ls`. -/
structure PoolInv (s : Pool) (bs : List BlockDesc) (ls : List Range) : Prop where
  first : ∃ b rest, bs = b :: rest ∧ b.base = 0
  chain : Linked s.blocks.blockNext s.blocks.blockPrev 0 (bs.map (·.base)) 0
  tail : s.blockTail = (bs.map (·.base)).getLastD 0
  ok : ∀ b ∈ bs, b.Ok s
  largeHead : s.largeBlocks = (ls.map Range.base).headD 0
  largeChain : Linked s.large.blockNext s.large.blockPrev 0 (ls.map Range.base) 0
  largeOk : ∀ l ∈ ls, l.LargeOk s
  apart : (ranges bs ls).Pairwise Range.Apart
  size : s.size = ((ranges bs ls).map Range.size).sum

variable {s s' : Pool} {b : BlockDesc} {bs bs₁ bs₂ : List BlockDesc} {l : Range} {ls : List Range}
  {c : Cell} {power : Nat} {r : Range} {new : Range}

/-- The row of cells ends within the block. -/
theorem BlockDesc.Ok.header_le (h : b.Ok s) : b.start + total b.cells ≤ b.base + b.size := by
  have hfits := h.fits
  have htotal := h.filled
  rw [BlockDesc.start]
  omega

/-- Every cell lies within the block. -/
theorem BlockDesc.Ok.inside (h : b.Ok s) (hc : c ∈ b.cells) :
    b.start ≤ c.pos ∧ c.pos + c.size ≤ b.base + b.size := by
  have := h.inv.row.tiled.bounds hc
  have := h.header_le
  omega

/-- A block depends only on the headers of its cells. -/
theorem BlockDesc.Ok.congr (h : b.Ok s) (hsame : ∀ c ∈ b.cells, SameAt s.slots s'.slots c.pos)
    (hlinks : ∀ c ∈ b.cells, c.free = true →
      s'.slots.next c.pos = s.slots.next c.pos ∧ s'.slots.prev c.pos = s.slots.prev c.pos)
    (hfl : s'.blocks.freelists b.base = s.blocks.freelists b.base)
    (hsize : s'.blocks.size b.base = s.blocks.size b.base) : b.Ok s' where
  inv := by
    rw [hfl]
    exact h.inv.congr hsame hlinks
  size := hsize.trans h.size
  fits := h.fits
  small := h.small
  filled := h.filled

/-- A block depends only on its own memory. -/
theorem BlockDesc.Ok.frame (h : b.Ok s)
    (hmem : ∀ y, b.base ≤ y → y < b.base + b.size → Agree s.slots s'.slots y)
    (hfl : s'.blocks.freelists b.base = s.blocks.freelists b.base)
    (hsize : s'.blocks.size b.base = s.blocks.size b.base) : b.Ok s' := by
  have hagree : ∀ c ∈ b.cells, Agree s.slots s'.slots c.pos := fun c hc => by
    have hin := h.inside hc
    have := size_pos c
    rw [BlockDesc.start] at hin
    exact hmem c.pos (by omega) (by omega)
  exact h.congr (fun c hc => (hagree c hc).same)
    (fun c hc _ => ⟨(hagree c hc).next, (hagree c hc).prev⟩) hfl hsize

/-- A large block whose memory was not written. -/
theorem Range.LargeOk.frame (h : l.LargeOk s)
    (hmem : ∀ y, l.base ≤ y → y < l.base + l.size → Agree s.slots s'.slots y)
    (hsize : s'.large.size l.base = s.large.size l.base) : l.LargeOk s' := by
  have hfits := h.fits
  rw [sizeofUsedHeader] at hfits
  have hagree := hmem (l.base + sizeofLargeBlockHeader) (by omega) (by omega)
  exact ⟨hagree.status.trans h.status, hagree.blockPtr.trans h.blockPtr, hsize.trans h.size, h.fits⟩

/-! ## Facts about the ranges -/

theorem bases_ranges (bs : List BlockDesc) (ls : List Range) :
    (ranges bs ls).map Range.base = bs.map (·.base) ++ ls.map Range.base := by
  simp [ranges]

section

variable (h : PoolInv s bs ls)

include h

theorem PoolInv.range_size_pos (hr : r ∈ ranges bs ls) : 64 ≤ r.size := by
  rcases mem_append.mp hr with hr | hr
  · obtain ⟨b, hb, rfl⟩ := mem_map.mp hr
    have := (h.ok b hb).fits
    omega
  · have := (h.largeOk r hr).fits
    rw [sizeofLargeBlockHeader, sizeofUsedHeader] at this
    omega

/-- Different ranges have different bases. -/
theorem PoolInv.bases_nodup : ((ranges bs ls).map Range.base).Nodup := by
  rw [List.Nodup, pairwise_map]
  refine h.apart.imp_of_mem fun {r r'} hr hr' hapart heq => ?_
  have := h.range_size_pos hr
  have := h.range_size_pos hr'
  rw [Range.Apart] at hapart
  omega

theorem PoolInv.size_le (hr : r ∈ ranges bs ls) : r.size ≤ s.size := by
  rw [h.size]
  exact single_le_sum (by simp) _ (mem_map_of_mem hr)

/-- There is fuel for a walk along the cells of a block. -/
theorem PoolInv.fuel_cells (hb : b ∈ bs) : b.cells.length < s.fuel := by
  have hsize := h.size_le (mem_append_left _ (mem_map_of_mem hb))
  have hlen := length_le_total b.cells
  have hle := (h.ok b hb).header_le
  rw [BlockDesc.start] at hle
  rw [Pool.fuel]
  omega

end

theorem length_le_sum (h : ∀ b ∈ bs, 64 ≤ b.size) : 64 * bs.length ≤ (bs.map (·.size)).sum := by
  induction bs with
  | nil => simp
  | cons b bs ih =>
    rw [forall_mem_cons] at h
    rw [map_cons, sum_cons, length_cons]
    have := ih h.2
    omega

/-- There is fuel for a walk along the blocks. -/
theorem PoolInv.fuel_blocks (h : PoolInv s bs ls) : bs.length < s.fuel := by
  have hbs := length_le_sum fun b hb =>
    h.range_size_pos (mem_append_left _ (mem_map_of_mem hb))
  have hsize := h.size
  simp only [ranges, map_append, map_map, sum_append, Function.comp_def] at hsize
  rw [Pool.fuel]
  omega

/-! ## Changing one block -/

theorem ranges_mid (bs₁ bs₂ : List BlockDesc) (b : BlockDesc) (ls : List Range) :
    (ranges (bs₁ ++ b :: bs₂) ls).Perm (b.toRange :: ranges (bs₁ ++ bs₂) ls) := by
  simp only [ranges, map_append, map_cons, append_assoc, cons_append]
  exact perm_middle

theorem apart_perm {rs rs' : List Range} (h : rs.Perm rs') :
    rs.Pairwise Range.Apart ↔ rs'.Pairwise Range.Apart :=
  h.pairwise_iff fun {_ _} hxy => Range.Apart.symm hxy

section

variable (h : PoolInv s (bs₁ ++ b :: bs₂) ls)

include h

/-- Two blocks of a pool do not overlap. -/
theorem PoolInv.apart_block (hr : r ∈ ranges (bs₁ ++ bs₂) ls) : r.Apart b.toRange := by
  have hpair := (apart_perm (ranges_mid bs₁ bs₂ b ls)).mp h.apart
  exact ((pairwise_cons.mp hpair).1 r hr).symm

/-- Two blocks have different addresses. -/
theorem PoolInv.base_ne (hr : r ∈ ranges (bs₁ ++ bs₂) ls) : r.base ≠ b.base := by
  have hapart := h.apart_block hr
  have hb := (h.ok b (by simp)).fits
  have hsize : 64 ≤ r.size := h.range_size_pos (by
    simp only [ranges, map_append, map_cons, mem_append, mem_cons] at hr ⊢
    tauto)
  rw [Range.Apart] at hapart
  omega

/-- The cells of one block are changed. -/
theorem PoolInv.set_block {cells : List Cell}
    (hinv : BlockInv s'.slots (s'.blocks.freelists b.base) b.base b.start cells)
    (htotal : total cells = total b.cells) (hframe : Frame b.start (total b.cells) s.slots s'.slots)
    (hfl : ∀ x, x ≠ b.base → s'.blocks.freelists x = s.blocks.freelists x)
    (hblocks : s'.blocks.size = s.blocks.size ∧ s'.blocks.blockNext = s.blocks.blockNext ∧
      s'.blocks.blockPrev = s.blocks.blockPrev)
    (hpool : s'.blockTail = s.blockTail ∧ s'.largeBlocks = s.largeBlocks ∧ s'.large = s.large ∧
      s'.size = s.size) : PoolInv s' (bs₁ ++ { b with cells := cells } :: bs₂) ls := by
  obtain ⟨hsize, hnext, hprev⟩ := hblocks
  obtain ⟨htail, hlargeHead, hlarge, htotalSize⟩ := hpool
  have hb := h.ok b (by simp)
  have hmap : (bs₁ ++ { b with cells := cells } :: bs₂).map (·.base) =
      (bs₁ ++ b :: bs₂).map (·.base) := by simp
  have hranges : ranges (bs₁ ++ { b with cells := cells } :: bs₂) ls =
      ranges (bs₁ ++ b :: bs₂) ls := by
    simp [ranges]
  -- Memory outside the block is the same.
  have hmem : ∀ r ∈ ranges (bs₁ ++ bs₂) ls, ∀ y, r.base ≤ y → y < r.base + r.size →
      Agree s.slots s'.slots y := by
    intro r hr y hge hlt
    have hapart := h.apart_block hr
    have hle := hb.header_le
    refine hframe y ?_
    rw [Range.Apart] at hapart
    rw [BlockDesc.start] at hle ⊢
    omega
  refine ⟨?_, ?_, ?_, fun d hd => ?_, ?_, ?_, fun l hl => ?_, ?_, ?_⟩
  · obtain ⟨d, rest, heq, hbase⟩ := h.first
    cases bs₁ with
    | nil =>
      obtain ⟨rfl, rfl⟩ := List.cons.inj heq
      exact ⟨_, _, rfl, hbase⟩
    | cons e bs₁ =>
      obtain ⟨rfl, -⟩ := List.cons.inj heq
      exact ⟨_, _, rfl, hbase⟩
  · rw [hmap, hnext, hprev]
    exact h.chain
  · rw [hmap, htail]
    exact h.tail
  · rcases mem_cons.mp (perm_middle.mem_iff.mp hd) with rfl | hd
    · exact ⟨hinv, by rw [hsize]; exact hb.size, hb.fits, hb.small, htotal.trans hb.filled⟩
    · have hin : d.toRange ∈ ranges (bs₁ ++ bs₂) ls :=
        mem_append_left _ (mem_map_of_mem hd)
      refine (h.ok d (perm_middle.mem_iff.mpr (mem_cons_of_mem _ hd))).frame
        (hmem _ hin) (hfl _ (h.base_ne hin)) (by rw [hsize])
  · rw [hlargeHead]
    exact h.largeHead
  · rw [hlarge]
    exact h.largeChain
  · exact (h.largeOk l hl).frame (hmem l (mem_append_right _ hl)) (by rw [hlarge])
  · rw [hranges]
    exact h.apart
  · rw [hranges, htotalSize]
    exact h.size

end

/-! ## The search for a block -/

/-- The search of `mempool_malloc`, from a block of the chain on. -/
theorem find_block_from {fuel : Nat} {a : Int} (power : Nat)
    (hchain : Linked s.blocks.blockNext s.blocks.blockPrev a ((b :: bs).map (·.base)) 0)
    (hne : ∀ d ∈ bs, d.base ≠ 0) (hfuel : bs.length < fuel) :
    (findBlock s power fuel b.base = some none ∧
      ∀ d ∈ b :: bs, checkblock s.slots d.base (s.blocks.freelists d.base) power = none) ∨
    ∃ bs₁ d bs₂ r, b :: bs = bs₁ ++ d :: bs₂ ∧
      findBlock s power fuel b.base = some (some (d.base, r.1, r.2)) ∧
      checkblock s.slots d.base (s.blocks.freelists d.base) power = some r := by
  induction bs generalizing b fuel a with
  | nil =>
    obtain ⟨fuel, rfl⟩ := exists_fuel hfuel
    have hnext : s.blocks.blockNext b.base = 0 := hchain.2.1
    rw [findBlock]
    cases hcheck : checkblock s.slots b.base (s.blocks.freelists b.base) power with
    | none =>
      refine .inl ⟨by simp only [hnext, if_true], fun d hd => ?_⟩
      rw [mem_singleton.mp hd]
      exact hcheck
    | some r => exact .inr ⟨[], b, [], r, rfl, rfl, hcheck⟩
  | cons d bs ih =>
    obtain ⟨fuel, rfl⟩ := exists_fuel hfuel
    have hnext : s.blocks.blockNext b.base = d.base := hchain.2.1
    rw [findBlock]
    cases hcheck : checkblock s.slots b.base (s.blocks.freelists b.base) power with
    | none =>
      simp only [hnext, if_neg (hne d mem_cons_self)]
      rcases ih hchain.2.2 (fun e he => hne e (mem_cons_of_mem _ he))
        (Nat.lt_of_succ_lt_succ hfuel) with ⟨hfind, hall⟩ | ⟨bs₁, e, bs₂, r, heq, hfind, he⟩
      · exact .inl ⟨hfind, forall_mem_cons.mpr ⟨hcheck, hall⟩⟩
      · exact .inr ⟨b :: bs₁, e, bs₂, r, congrArg _ heq, hfind, he⟩
    | some r => exact .inr ⟨[], b, d :: bs, r, rfl, rfl, hcheck⟩

/-- A slot of a block is handed out: a free cell of the power becomes used. -/
theorem PoolInv.take (h : PoolInv s (bs₁ ++ b :: bs₂) ls) (hpower : power < cutOffNum)
    {r : Freelists × Slots}
    (hr : checkblock s.slots b.base (s.blocks.freelists b.base) power = some r) :
    ∃ pre c post, c.free = false ∧ c.power = power ∧
      PoolInv (takeSlot (s.setBlock b.base r.1 r.2) b.base power).1
        (bs₁ ++ { b with cells := pre ++ c :: post } :: bs₂) ls ∧
      (takeSlot (s.setBlock b.base r.1 r.2) b.base power).2 = c.pos + sizeofUsedHeader ∧
      (pre ++ post).filter (fun d => !d.free) = b.cells.filter fun d => !d.free := by
  have hb := h.ok b (by simp)
  obtain ⟨pre, c, post, hfree, rfl, hhead, hinv, hframe, htotal, hused⟩ :=
    checkblock_spec hb.inv hpower hr
  have hfl : (s.setBlock b.base r.1 r.2).blocks.freelists b.base = r.1 := update_self ..
  rw [← hfl] at hinv hhead
  obtain ⟨htaken, hframe'⟩ :=
    take_slot_inv (show BlockInv (s.setBlock b.base r.1 r.2).slots _ _ _ _ from hinv) hfree hhead
  refine ⟨pre, ⟨c.pos, c.power, false⟩, post, rfl, rfl, ?_, ?_, ?_⟩
  · refine h.set_block htaken ?_ (fun y hy => ?_) (fun x hx => ?_) ⟨rfl, rfl, rfl⟩
      ⟨rfl, rfl, rfl, rfl⟩
    · rw [← htotal]
      simp [Cell.size]
    · rw [htotal] at hframe'
      exact (hframe y hy).trans (hframe' y hy)
    · exact (update_of_ne hx ..).trans (update_of_ne hx ..)
  · show (s.setBlock b.base r.1 r.2).blocks.freelists b.base c.power + _ = _
    rw [hhead]
  · rw [← hused]
    simp [hfree]

/-! ## A new block -/

/-- The block that `mempool_malloc` makes of the range `new`. -/
def newBlock (new : Range) : BlockDesc := ⟨new, freshCells new.base new.size true⟩

/-- A new range does not reach over offset 0. -/
theorem PoolInv.fresh_ne_zero (h : PoolInv s bs ls)
    (hnew : ∀ r ∈ ranges bs ls, r.Apart new) : 0 < new.base ∨ new.base + new.size ≤ 0 := by
  obtain ⟨b, rest, rfl, hbase⟩ := h.first
  have hapart := hnew b.toRange mem_cons_self
  have := (h.ok b mem_cons_self).fits
  rw [Range.Apart] at hapart
  omega

/-- A new block is linked behind the last one. -/
theorem add_block_chain {new : Int} (hchain : Linked s.blocks.blockNext s.blocks.blockPrev 0
      (bs.map (·.base)) 0) (hnodup : (bs.map (·.base)).Nodup)
    (htail : s.blockTail = (bs.map (·.base)).getLastD 0) (hnew : new ∉ bs.map (·.base)) :
    Linked (update (update s.blocks.blockNext s.blockTail new) new 0)
      (update s.blocks.blockPrev new s.blockTail) 0 (bs.map (·.base) ++ [new]) 0 := by
  have hold : ∀ x ∈ bs.map (·.base), x ≠ new := fun x hx heq => hnew (heq ▸ hx)
  refine linked_append.mpr ⟨hchain.set_last (fun x hx => ?_) (fun x hx => ?_) fun x hx => ?_,
    ⟨?_, update_self .., trivial⟩⟩
  · have hx' : x = s.blockTail := by rw [htail, getLastD_eq_getLast?, hx, Option.getD_some]
    rw [update_of_ne (hold x (mem_of_getLast? hx)), hx', update_self]
    rfl
  · rw [update_of_ne (hold x (dropLast_subset _ hx)), update_of_ne]
    rw [htail]
    exact ne_getLastD_of_mem_dropLast hnodup hx 0
  · exact update_of_ne (hold x hx) ..
  · rw [update_self, htail]

/-- The pool expands by a block. -/
theorem PoolInv.add_block (h : PoolInv s bs ls)
    (hnew : ∀ r ∈ ranges bs ls, r.Apart new) (hfits : sizeofBlockHeader + 64 ≤ new.size)
    (hsmall : new.size < sizeofBlockHeader + 2 ^ 30) :
    ∃ s', addBlock s new.base new.size = some s' ∧ PoolInv s' (bs ++ [newBlock new]) ls ∧
      s'.blocks.used = update s.blocks.used new.base 0 ∧
      ∀ y, y < new.base ∨ new.base + new.size ≤ y → Agree s.slots s'.slots y := by
  have hzero := h.fresh_ne_zero hnew
  have hheader : (newBlock new).header = taken true := by
    have hne : (newBlock new).base ≠ 0 := by
      show new.base ≠ 0
      omega
    rw [BlockDesc.header, bne_iff_ne.mpr hne]
  have hsmall : new.size - taken true < 2 ^ 30 := by rw [taken_true]; omega
  obtain ⟨mem', hfill, hinv, hagree⟩ := fillblock_spec s.slots new.base true hfits hsmall (by omega)
  have htotal : total (freshCells new.base new.size true) ≤ new.size - taken true := by
    rw [total_fresh_cells _ _ hsmall]
    exact Nat.div_mul_le_self ..
  have hbases : ∀ r ∈ ranges bs ls, r.base ≠ new.base := fun r hr heq => by
    have hapart := hnew r hr
    have := h.range_size_pos hr
    rw [Range.Apart] at hapart
    omega
  -- Memory that was in use before is the same.
  have hmem : ∀ r ∈ ranges bs ls, ∀ y, r.base ≤ y → y < r.base + r.size → Agree s.slots mem' y := by
    intro r hr y hge hlt
    refine hagree y fun hy => ?_
    obtain ⟨c, hc, rfl⟩ := mem_map.mp hy
    have hin := hinv.row.pos_inside hc
    have hapart := hnew r hr
    rw [Range.Apart] at hapart
    omega
  have hblock : ∀ d ∈ bs, d.toRange ∈ ranges bs ls := fun d hd =>
    mem_append_left _ (mem_map_of_mem hd)
  have hnodup := h.bases_nodup
  rw [ranges, map_append, map_map] at hnodup
  obtain ⟨b, rest, hfirst, hbase⟩ := h.first
  have hadd : addBlock s new.base new.size = some
      { s with
        size := s.size + new.size
        blockTail := new.base
        blocks := Blocks.put
          { s.blocks with blockNext := update s.blocks.blockNext s.blockTail new.base }
          new.base new.size s.blockTail (freshLists new.base new.size true)
        slots := mem' } := by
    simp only [addBlock, hfill, bind, Option.bind_some]
    rfl
  refine ⟨_, hadd, ?_, rfl, fun y hy => hagree y fun hin => ?_⟩
  rotate_left
  · obtain ⟨c, hc, rfl⟩ := mem_map.mp hin
    have hinside := hinv.row.pos_inside hc
    omega
  refine ⟨⟨b, rest ++ [newBlock new], by rw [hfirst]; rfl, hbase⟩, ?_, ?_, fun d hd => ?_,
    h.largeHead, h.largeChain, fun l hl => ?_, ?_, ?_⟩
  · rw [map_append]
    refine add_block_chain h.chain (nodup_append.mp hnodup).1 h.tail ?_
    intro hmem
    obtain ⟨d, hd, hpos⟩ := mem_map.mp hmem
    exact hbases d.toRange (hblock d hd) hpos
  · rw [map_append]
    exact (getLastD_concat ..).symm
  · rcases mem_append.mp hd with hd | hd
    · have hne := hbases d.toRange (hblock d hd)
      exact (h.ok d hd).frame (hmem _ (hblock d hd)) (update_of_ne hne ..)
        (update_of_ne hne ..)
    · rw [mem_singleton.mp hd]
      refine ⟨?_, update_self .., by rw [hheader]; exact hfits, by rw [hheader]; exact hsmall, ?_⟩
      · rw [BlockDesc.start, hheader]
        show BlockInv mem' (update s.blocks.freelists new.base (freshLists new.base new.size true)
          new.base) _ _ _
        rw [update_self]
        exact hinv
      · rw [hheader]
        exact total_fresh_cells new.base true hsmall
  · exact (h.largeOk l hl).frame (hmem l (mem_append_right _ hl)) rfl
  · refine (apart_perm (ranges_mid bs [] (newBlock new) ls)).mpr ?_
    rw [append_nil]
    exact pairwise_cons.mpr ⟨fun r hr => (hnew r hr).symm, h.apart⟩
  · rw [((ranges_mid bs [] (newBlock new) ls).map Range.size).sum_nat, map_cons, sum_cons,
      append_nil, ← h.size, Nat.add_comm]
    rfl

end Reconverse.Mempool
