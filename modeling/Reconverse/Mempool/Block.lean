import Reconverse.Mempool.Cells

/-!
# The representation invariant of a block

`BlockInv` says that the headers in memory and the freelists of a block describe a row of cells.
The end of `mempool_malloc` keeps it and makes one cell used. The functions that cut cells,
`fillblock`, `checkblock` and `mempool_free`, have their own modules.
-/

namespace Reconverse.Mempool

open Function (update update_apply update_of_ne update_self)
open Lib.DList List

/-! ## Memory at one place -/

/-- Two memories hold the same slot header at a place. -/
structure Agree (mem mem' : Slots) (y : Int) : Prop where
  blockPtr : mem'.blockPtr y = mem.blockPtr y
  size : mem'.size y = mem.size y
  power : mem'.power y = mem.power y
  status : mem'.status y = mem.status y
  gprev : mem'.gprev y = mem.gprev y
  gnext : mem'.gnext y = mem.gnext y
  prev : mem'.prev y = mem.prev y
  next : mem'.next y = mem.next y

variable {mem mem' mem'' : Slots} {fl fl' : Freelists} {blk start x y : Int} {c : Cell}
  {cs pre post cells : List Cell} {d : Cell} {p : Nat}

theorem Agree.refl (mem : Slots) (y : Int) : Agree mem mem y :=
  ⟨rfl, rfl, rfl, rfl, rfl, rfl, rfl, rfl⟩

theorem Agree.trans (h : Agree mem mem' y) (h' : Agree mem' mem'' y) : Agree mem mem'' y :=
  ⟨h'.blockPtr.trans h.blockPtr, h'.size.trans h.size, h'.power.trans h.power,
    h'.status.trans h.status, h'.gprev.trans h.gprev, h'.gnext.trans h.gnext,
    h'.prev.trans h.prev, h'.next.trans h.next⟩

theorem agree_set_gprev (h : y ≠ x) (v : Int) : Agree mem (mem.setGprev x v) y :=
  ⟨rfl, rfl, rfl, rfl, update_of_ne h .., rfl, rfl, rfl⟩

theorem agree_set_gnext (h : y ≠ x) (v : Int) : Agree mem (mem.setGnext x v) y :=
  ⟨rfl, rfl, rfl, rfl, rfl, update_of_ne h .., rfl, rfl⟩

/-- Other slots are not written. -/
theorem agree_put_free (h : y ≠ x) (blk : Int) (i : Nat) (g : Int) :
    Agree mem (mem.putFree x blk i g) y :=
  ⟨update_of_ne h .., update_of_ne h .., update_of_ne h ..,
    update_of_ne h .., update_of_ne h .., rfl, update_of_ne h ..,
    update_of_ne h ..⟩

/-- Two memories agree at a place but for the links of the freelists. -/
structure SameAt (mem mem' : Slots) (y : Int) : Prop where
  blockPtr : mem'.blockPtr y = mem.blockPtr y
  size : mem'.size y = mem.size y
  power : mem'.power y = mem.power y
  status : mem'.status y = mem.status y
  gprev : mem'.gprev y = mem.gprev y
  gnext : mem'.gnext y = mem.gnext y

theorem SameAt.trans (h : SameAt mem mem' y) (h' : SameAt mem' mem'' y) : SameAt mem mem'' y :=
  ⟨h'.blockPtr.trans h.blockPtr, h'.size.trans h.size, h'.power.trans h.power,
    h'.status.trans h.status, h'.gprev.trans h.gprev, h'.gnext.trans h.gnext⟩

theorem SameButLinks.at (h : SameButLinks mem mem') (y : Int) : SameAt mem mem' y :=
  ⟨by rw [h.blockPtr], by rw [h.size], by rw [h.power], by rw [h.status], by rw [h.gprev],
    by rw [h.gnext]⟩

theorem SameAt.agree (h : SameAt mem mem' y)
    (hlinks : mem'.next y = mem.next y ∧ mem'.prev y = mem.prev y) : Agree mem mem' y :=
  ⟨h.blockPtr, h.size, h.power, h.status, h.gprev, h.gnext, hlinks.2, hlinks.1⟩

theorem Agree.same (h : Agree mem mem' y) : SameAt mem mem' y :=
  ⟨h.blockPtr, h.size, h.power, h.status, h.gprev, h.gnext⟩

/-- Nothing is written outside the `n` bytes from `start` on. -/
def Frame (start : Int) (n : Nat) (mem mem' : Slots) : Prop :=
  ∀ y, y < start ∨ start + n ≤ y → Agree mem mem' y

/-! ## The invariant -/

/-- The header of a cell. -/
structure Holds (mem : Slots) (blk : Int) (c : Cell) : Prop where
  size : mem.size c.pos = c.size
  power : mem.power c.pos = c.power
  status : mem.status c.pos = if c.free then 1 else 0
  blockPtr : mem.blockPtr c.pos = blk

/-- The cells lie in a row that does not reach over offset 0. -/
structure Row (start : Int) (cells : List Cell) : Prop where
  tiled : Tiled start cells
  zero_out : 0 < start ∨ start + total cells ≤ 0
  powers : ∀ c ∈ cells, c.power < cutOffNum

/-- The slots of the block at `blk`, from `start` on, are the given cells. -/
structure BlockInv (mem : Slots) (fl : Freelists) (blk start : Int) (cells : List Cell) :
    Prop where
  row : Row start cells
  holds : ∀ c ∈ cells, Holds mem blk c
  linked : Linked mem.gnext mem.gprev 0 (cells.map Cell.pos) 0
  lists : FreeLists mem fl cells

/-- The place of a cell of a row is inside the row. -/
theorem Row.pos_inside (h : Row start cells) (hc : c ∈ cells) :
    start ≤ c.pos ∧ c.pos < start + total cells := by
  have := h.tiled.bounds hc
  have := size_pos c
  omega

/-- No cell of a row is at the null address. -/
theorem Row.ne_zero (h : Row start cells) (hc : c ∈ cells) : c.pos ≠ 0 := by
  have := h.pos_inside hc
  have := h.zero_out
  omega

theorem Row.apart (h : Row start cells) : Apart cells := h.tiled.apart fun _ hc => h.ne_zero hc

/-- Part of a row is cut in another way. -/
theorem Row.replace {mid mid' : List Cell} (h : Row start (pre ++ mid ++ post))
    (htiled : Tiled (start + total pre) mid') (htotal : total mid' = total mid)
    (hpow : ∀ c ∈ mid', c.power < cutOffNum) : Row start (pre ++ mid' ++ post) where
  tiled := by
    have hrow := h.tiled
    rw [tiled_append, tiled_append, total_append] at hrow ⊢
    rw [htotal]
    exact ⟨⟨hrow.1.1, htiled⟩, hrow.2⟩
  zero_out := by
    have hzero := h.zero_out
    simp only [total_append, htotal] at hzero ⊢
    exact hzero
  powers := by
    intro c hc
    have hold := h.powers c
    simp only [mem_append] at hc hold
    rcases hc with (hc | hc) | hc
    · exact hold (.inl (.inl hc))
    · exact hpow c hc
    · exact hold (.inr hc)

theorem BlockInv.apart (h : BlockInv mem fl blk start cells) : Apart cells := h.row.apart

/-- A cell whose header was not written. -/
theorem Holds.congr (h : Holds mem blk c) (hs : mem'.size c.pos = mem.size c.pos)
    (hp : mem'.power c.pos = mem.power c.pos) (ht : mem'.status c.pos = mem.status c.pos)
    (hb : mem'.blockPtr c.pos = mem.blockPtr c.pos) : Holds mem' blk c :=
  ⟨hs.trans h.size, hp.trans h.power, ht.trans h.status, hb.trans h.blockPtr⟩

theorem Holds.same (h : Holds mem blk c) (hsame : SameAt mem mem' c.pos) : Holds mem' blk c :=
  h.congr hsame.size hsame.power hsame.status hsame.blockPtr

/-- The invariant depends only on the headers of the cells, and on the links of the free ones. -/
theorem BlockInv.congr (h : BlockInv mem fl blk start cells)
    (hsame : ∀ c ∈ cells, SameAt mem mem' c.pos) (hlinks : ∀ c ∈ cells, c.free = true →
      mem'.next c.pos = mem.next c.pos ∧ mem'.prev c.pos = mem.prev c.pos) :
    BlockInv mem' fl blk start cells where
  row := h.row
  holds := fun c hc => (h.holds c hc).same (hsame c hc)
  linked := h.linked.congr
    (fun x hx => by
      obtain ⟨c, hc, rfl⟩ := mem_map.mp hx
      exact (hsame c hc).gnext)
    (fun x hx => by
      obtain ⟨c, hc, rfl⟩ := mem_map.mp hx
      exact (hsame c hc).gprev)
  lists := h.lists.congr (fun c hc hfree => (hlinks c hc hfree).1)
    (fun c hc hfree => (hlinks c hc hfree).2) fun _ _ => rfl

/-- The head of a freelist is a free cell of its power, and the first in the list. -/
theorem FreeLists.head (h : FreeLists mem fl cells) (hp : p < cutOffNum) (hne : fl p ≠ 0) :
    ∃ c ∈ cells, c.free = true ∧ c.power = p ∧ c.pos = fl p ∧ mem.prev c.pos = 0 := by
  obtain ⟨l, hhead, hlinked, hl⟩ := h p hp
  cases l with
  | nil => exact absurd hhead hne
  | cons x l =>
    obtain ⟨c, hc, hfree, hpow, hpos⟩ := mem_free_at.mp (hl.mem_iff.mp mem_cons_self)
    exact ⟨c, hc, hfree, hpow, hpos.trans hhead.symm, hpos ▸ hlinked.1⟩

/-- The freelist of a power is empty exactly if there is no free cell of that power. -/
theorem FreeLists.eq_zero_iff (h : FreeLists mem fl cells) (ha : Apart cells)
    (hp : p < cutOffNum) : fl p = 0 ↔ ∀ c ∈ cells, c.free = true → c.power ≠ p := by
  constructor
  · intro hzero c hc hfree hpow
    obtain ⟨l, hhead, -, hl⟩ := h p hp
    have hmem := hl.mem_iff.mpr (mem_free_at.mpr ⟨c, hc, hfree, hpow, rfl⟩)
    cases l with
    | nil => cases hmem
    | cons x l =>
      obtain ⟨d, hd, -, -, hpos⟩ := mem_free_at.mp (hl.mem_iff.mp mem_cons_self)
      exact ha.ne_zero d hd (hpos.trans (hhead.symm.trans hzero))
  · intro hnone
    refine Decidable.byContradiction fun hne => ?_
    obtain ⟨c, hc, hfree, hpow, -⟩ := h.head hp hne
    exact hnone c hc hfree hpow

/-- The links of a free cell lead to free cells of the same power. -/
theorem FreeLists.neighbours (h : FreeLists mem fl cells) (hc : c ∈ cells) (hfree : c.free = true)
    (hp : c.power < cutOffNum) :
    (mem.next c.pos = 0 ∨ ∃ d ∈ cells, d.free = true ∧ d.pos = mem.next c.pos) ∧
    (mem.prev c.pos = 0 ∨ ∃ d ∈ cells, d.free = true ∧ d.pos = mem.prev c.pos) := by
  obtain ⟨l, -, hlinked, hl⟩ := h c.power hp
  obtain ⟨l₁, l₂, rfl⟩ := append_of_mem
    (hl.mem_iff.mpr (mem_free_at.mpr ⟨c, hc, hfree, rfl, rfl⟩))
  obtain ⟨hprev, hnext⟩ := hlinked.mid
  have hcell : ∀ z ∈ l₁ ++ c.pos :: l₂, ∃ d ∈ cells, d.free = true ∧ d.pos = z := by
    intro z hz
    obtain ⟨d, hd, hdfree, -, hpos⟩ := mem_free_at.mp (hl.mem_iff.mp hz)
    exact ⟨d, hd, hdfree, hpos⟩
  rw [hprev, hnext]
  constructor
  · rcases headD_mem_or l₂ 0 with h0 | hmem
    · exact .inl h0
    · exact .inr (hcell _ (mem_append_right _ (mem_cons_of_mem _ hmem)))
  · rcases getLastD_mem_or l₁ 0 with h0 | hmem
    · exact .inl h0
    · exact .inr (hcell _ (mem_append_left _ hmem))

/-! ## Handing out a slot -/

/-- A cell changes its state but not its place and power. -/
theorem Row.set_mid {c' : Cell} (h : Row start (pre ++ c :: post)) (hpos : c'.pos = c.pos)
    (hpow : c'.power = c.power) : Row start (pre ++ c' :: post) := by
  have hsize : c'.size = c.size := by rw [Cell.size, Cell.size, hpow]
  rw [append_cons] at h ⊢
  refine h.replace ?_ (by simp [hsize]) (by simpa [hpow] using h.powers c (by simp))
  have htiled := h.tiled
  rw [tiled_append, tiled_append] at htiled
  exact ⟨hpos.trans htiled.1.2.1, trivial⟩

/-- The cells around others are at other places. -/
theorem Apart.not_mem_mid {mid : List Cell} (h : Apart (pre ++ mid ++ post))
    (hd : d ∈ pre ++ post) : d.pos ∉ mid.map Cell.pos := by
  have hperm : (pre ++ mid ++ post).Perm (mid ++ (pre ++ post)) := by
    rw [append_assoc]
    exact perm_append_comm_assoc pre mid post
  have hnodup := (h.perm hperm).nodup
  rw [map_append, nodup_append] at hnodup
  exact fun hmem => hnodup.2.2 _ hmem _ (mem_map_of_mem hd) rfl

theorem Apart.ne_mid (h : Apart (pre ++ c :: post)) (hd : d ∈ pre ++ post) : d.pos ≠ c.pos := by
  rw [append_cons] at h
  simpa using h.not_mem_mid hd

/-- What taking a slot writes to the headers. -/
theorem take_slot_slots (s : Pool) (blk : Int) (p : Nat) : (takeSlot s blk p).1.slots =
    { s.slots with
      status := update s.slots.status (s.blocks.freelists blk p) 0
      blockPtr := update s.slots.blockPtr (s.blocks.freelists blk p) blk
      prev :=
        if s.slots.next (s.blocks.freelists blk p) ≠ 0 then
          update s.slots.prev (s.slots.next (s.blocks.freelists blk p)) 0
        else s.slots.prev } := by
  simp only [takeSlot, Slots.setStatus, Slots.setPrev]
  split <;> rfl

/-- What it writes to the free lists. -/
theorem take_slot_fl (s : Pool) (blk : Int) (p : Nat) :
    (takeSlot s blk p).1.blocks.freelists blk =
      update (s.blocks.freelists blk) p (s.slots.next (s.blocks.freelists blk p)) :=
  update_self ..

/-- The end of `mempool_malloc`: the first free cell of the power becomes used. -/
theorem take_slot_inv {s : Pool}
    (h : BlockInv s.slots (s.blocks.freelists blk) blk start (pre ++ c :: post))
    (hfree : c.free = true) (hhead : s.blocks.freelists blk c.power = c.pos) :
    BlockInv (takeSlot s blk c.power).1.slots ((takeSlot s blk c.power).1.blocks.freelists blk) blk
      start (pre ++ ⟨c.pos, c.power, false⟩ :: post) ∧
    Frame start (total (pre ++ c :: post)) s.slots (takeSlot s blk c.power).1.slots := by
  have hmem : c ∈ pre ++ c :: post := by simp
  have hpow := h.row.powers c hmem
  have hperm : (pre ++ c :: post).Perm (c :: (pre ++ post)) := perm_middle
  have hold : ∀ d ∈ pre ++ post, d ∈ pre ++ c :: post := fun d hd => hperm.mem_iff.mpr
    (mem_cons_of_mem _ hd)
  rw [take_slot_slots, take_slot_fl, hhead]
  refine ⟨⟨h.row.set_mid rfl rfl, fun d hd => ?_, ?_, ?_⟩, ?_⟩
  · rcases mem_cons.mp (perm_middle.mem_iff.mp hd) with rfl | hd
    · exact ⟨(h.holds c hmem).size, (h.holds c hmem).power, update_self .., update_self ..⟩
    · have hne := h.apart.ne_mid hd
      exact (h.holds d (hold d hd)).congr rfl rfl (update_of_ne hne ..)
        (update_of_ne hne ..)
  · have hmap : (pre ++ ⟨c.pos, c.power, false⟩ :: post).map Cell.pos =
        (pre ++ c :: post).map Cell.pos := by simp
    rw [hmap]
    exact h.linked
  · refine FreeLists.perm ?_ perm_middle.symm
    refine (h.lists.perm hperm).pop (h.apart.perm hperm) hfree (h.holds c hmem).power hpow hhead
      (fun d _ => rfl) (fun d hd => ?_) fun q _ => update_apply ..
    split
    · exact update_apply ..
    next hn => rw [not_not.mp hn, if_neg (h.row.ne_zero (hold d hd))]
  · intro y hy
    have hout : ∀ d ∈ pre ++ c :: post, y ≠ d.pos := fun d hd => by
      have := h.row.pos_inside hd
      omega
    have hne := hout c hmem
    refine ⟨update_of_ne hne .., rfl, rfl, update_of_ne hne .., rfl, rfl, ?_, rfl⟩
    split
    next hn =>
      refine update_of_ne ?_ ..
      rcases (h.lists.neighbours hmem hfree hpow).1 with h0 | ⟨d, hd, -, hpos⟩
      · exact absurd h0 hn
      · rw [← hpos]
        exact hout d hd
    next => rfl

end Reconverse.Mempool
