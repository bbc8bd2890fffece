import Reconverse.Lib.DList
import Reconverse.Mempool.Model

/-!
# The freelists of a block

A block is described by its cells: the offset, the power and the state of each slot. `FreeLists`
says that the freelists of a block hold exactly the free cells, each in the list of its power and
linked in both directions. The two list operations of the pool, `unlink` and `pushFree`, remove
and add one cell.
-/

namespace Reconverse.Mempool

open Function (update update_apply)
open Lib.DList List Slots

/-- A slot of a block: its offset, its power and whether it is free. -/
structure Cell where
  pos : Int
  power : Nat
  free : Bool
  deriving DecidableEq, Repr

/-- The size of a slot. -/
def Cell.size (c : Cell) : Nat := cutOffPoints c.power

/-- The offsets of the free cells of one power. -/
def freeAt (p : Nat) (cs : List Cell) : List Int :=
  (cs.filter fun c => c.free && c.power == p).map Cell.pos

/-- The freelists hold exactly the free cells, each in the list of its power. -/
def FreeLists (mem : Slots) (fl : Freelists) (cs : List Cell) : Prop :=
  ∀ p < cutOffNum, ∃ l, fl p = l.headD 0 ∧ Linked mem.next mem.prev 0 l 0 ∧ l.Perm (freeAt p cs)

/-- No two cells are at the same place, and none is where a null link points. -/
structure Apart (cs : List Cell) : Prop where
  nodup : (cs.map Cell.pos).Nodup
  ne_zero : ∀ c ∈ cs, c.pos ≠ 0

/-- Two memories that differ at most in the links of the freelists. -/
structure SameButLinks (mem mem' : Slots) : Prop where
  blockPtr : mem'.blockPtr = mem.blockPtr
  size : mem'.size = mem.size
  power : mem'.power = mem.power
  status : mem'.status = mem.status
  gprev : mem'.gprev = mem.gprev
  gnext : mem'.gnext = mem.gnext

variable {mem mem' mem'' : Slots} {fl fl' : Freelists} {c : Cell} {cs cs' : List Cell} {p : Nat}
  {x y : Int} {q : Nat}

theorem SameButLinks.trans (h : SameButLinks mem mem') (h' : SameButLinks mem' mem'') :
    SameButLinks mem mem'' :=
  ⟨h'.blockPtr.trans h.blockPtr, h'.size.trans h.size, h'.power.trans h.power,
    h'.status.trans h.status, h'.gprev.trans h.gprev, h'.gnext.trans h.gnext⟩

/-! ## Membership -/

theorem mem_free_at {x : Int} :
    x ∈ freeAt p cs ↔ ∃ c ∈ cs, c.free = true ∧ c.power = p ∧ c.pos = x := by
  simp [freeAt, and_assoc]

theorem free_at_perm (h : cs.Perm cs') : (freeAt p cs).Perm (freeAt p cs') :=
  (h.filter _).map _

theorem free_at_cons_self (hfree : c.free = true) :
    freeAt c.power (c :: cs) = c.pos :: freeAt c.power cs := by
  simp [freeAt, hfree]

theorem free_at_cons_of_ne (hne : c.power ≠ p) : freeAt p (c :: cs) = freeAt p cs := by
  simp [freeAt, hne]

theorem free_at_cons_used (hused : c.free = false) : freeAt p (c :: cs) = freeAt p cs := by
  simp [freeAt, hused]

theorem free_at_append : freeAt p (cs ++ cs') = freeAt p cs ++ freeAt p cs' := by
  simp [freeAt]

theorem free_at_eq_nil (h : ∀ c ∈ cs, c.free = true → c.power ≠ p) : freeAt p cs = [] := by
  simpa [freeAt] using h

/-- A power that only one cell has. -/
theorem free_at_single (hpow : (cs.map Cell.power).Nodup) (hc : c ∈ cs) (hfree : c.free = true) :
    freeAt c.power cs = [c.pos] := by
  obtain ⟨cs₁, cs₂, rfl⟩ := append_of_mem hc
  have hperm : (cs₁ ++ c :: cs₂).Perm (c :: (cs₁ ++ cs₂)) := perm_middle
  have hothers := (nodup_cons.mp ((hperm.map Cell.power).nodup_iff.mp hpow)).1
  have hnil : freeAt c.power (cs₁ ++ cs₂) = [] := free_at_eq_nil fun d hd _ hdpow =>
    hothers (hdpow ▸ mem_map_of_mem hd)
  have hfreeAt := free_at_perm hperm (p := c.power)
  rw [free_at_cons_self hfree, hnil] at hfreeAt
  exact perm_singleton.mp hfreeAt

theorem Apart.perm (h : Apart cs) (hperm : cs.Perm cs') : Apart cs' :=
  ⟨(hperm.map _).nodup_iff.mp h.nodup, fun c hc => h.ne_zero c (hperm.mem_iff.mpr hc)⟩

theorem Apart.tail (h : Apart (c :: cs)) : Apart cs :=
  ⟨(nodup_cons.mp h.nodup).2, fun d hd => h.ne_zero d (mem_cons_of_mem _ hd)⟩

theorem Apart.right (h : Apart (cs ++ cs')) : Apart cs' := by
  have hnodup := h.nodup
  rw [map_append] at hnodup
  exact ⟨(nodup_append.mp hnodup).2.1, fun d hd => h.ne_zero d (mem_append_right _ hd)⟩

/-- A cell is determined by its place. -/
theorem Apart.eq_of_pos {d : Cell} (h : Apart cs) (hc : c ∈ cs) (hd : d ∈ cs)
    (hpos : c.pos = d.pos) : c = d :=
  inj_on_of_nodup_map h.nodup hc hd hpos

theorem Apart.free_at_nodup (h : Apart cs) : (freeAt p cs).Nodup :=
  (filter_sublist.map Cell.pos).nodup h.nodup

theorem Apart.zero_not_mem (h : Apart cs) : (0 : Int) ∉ freeAt p cs := by
  intro hmem
  obtain ⟨c, hc, -, -, hpos⟩ := mem_free_at.mp hmem
  exact h.ne_zero c hc hpos

/-- The freelists of different powers have no slot in common. -/
theorem Apart.power_eq {x : Int} (h : Apart cs) (hp : x ∈ freeAt p cs)
    (hq : x ∈ freeAt q cs) : p = q := by
  obtain ⟨c, hc, -, rfl, hpos⟩ := mem_free_at.mp hp
  obtain ⟨d, hd, -, rfl, hpos'⟩ := mem_free_at.mp hq
  rw [h.eq_of_pos hc hd (hpos.trans hpos'.symm)]

/-- The lists do not depend on the order in which the cells are listed. -/
theorem FreeLists.perm (h : FreeLists mem fl cs) (hperm : cs.Perm cs') : FreeLists mem fl cs' := by
  intro p hp
  obtain ⟨l, hhead, hlinked, hl⟩ := h p hp
  exact ⟨l, hhead, hlinked, hl.trans (free_at_perm hperm)⟩

/-- Only the links of the free cells matter. -/
theorem FreeLists.congr (h : FreeLists mem fl cs)
    (hn : ∀ c ∈ cs, c.free = true → mem'.next c.pos = mem.next c.pos)
    (hp : ∀ c ∈ cs, c.free = true → mem'.prev c.pos = mem.prev c.pos)
    (hfl : ∀ p < cutOffNum, fl' p = fl p) : FreeLists mem' fl' cs := by
  intro p hlt
  obtain ⟨l, hhead, hlinked, hl⟩ := h p hlt
  refine ⟨l, (hfl p hlt).trans hhead, hlinked.congr (fun x hx => ?_) (fun x hx => ?_), hl⟩
  · obtain ⟨c, hc, hfree, -, rfl⟩ := mem_free_at.mp (hl.mem_iff.mp hx)
    exact hn c hc hfree
  · obtain ⟨c, hc, hfree, -, rfl⟩ := mem_free_at.mp (hl.mem_iff.mp hx)
    exact hp c hc hfree

theorem FreeLists.used_cons (hused : c.free = false) :
    FreeLists mem fl (c :: cs) ↔ FreeLists mem fl cs := by
  simp only [FreeLists, free_at_cons_used hused]

/-! ## Taking a cell out -/

/-- The links to the next slot after an unlinking. -/
theorem unlink_next (hy : y ≠ 0) : (unlink fl mem x).2.next y =
    if y = mem.prev x then mem.next x else mem.next y := by
  simp only [unlink, setNext, setPrev]
  split <;> split <;> simp_all [update_apply]

/-- The links to the slot before. -/
theorem unlink_prev (hy : y ≠ 0) : (unlink fl mem x).2.prev y =
    if y = mem.next x then mem.prev x else mem.prev y := by
  simp only [unlink, setNext, setPrev]
  split <;> split <;> simp_all [update_apply]

/-- Only the neighbours are written. -/
theorem unlink_other (fl : Freelists) (hp : mem.prev x ≠ 0 → y ≠ mem.prev x)
    (hn : mem.next x ≠ 0 → y ≠ mem.next x) :
    (unlink fl mem x).2.next y = mem.next y ∧ (unlink fl mem x).2.prev y = mem.prev y := by
  simp only [unlink, setNext, setPrev]
  split <;> split <;> simp_all

theorem unlink_same (fl : Freelists) (mem : Slots) (x : Int) :
    SameButLinks mem (unlink fl mem x).2 := by
  simp only [unlink, setNext, setPrev]
  split <;> split <;> exact ⟨rfl, rfl, rfl, rfl, rfl, rfl⟩

/-- The heads of the lists. -/
theorem unlink_fl {x : Int} : (unlink fl mem x).1 q =
    if mem.prev x = 0 ∧ q = mem.power x then mem.next x else fl q := by
  simp only [unlink]
  split <;> simp_all [update_apply]

/-- A free cell is taken out of its list. -/
theorem FreeLists.unlink (h : FreeLists mem fl (c :: cs)) (ha : Apart (c :: cs))
    (hfree : c.free = true) (hpow : mem.power c.pos = c.power) (hlt : c.power < cutOffNum) :
    FreeLists (unlink fl mem c.pos).2 (unlink fl mem c.pos).1 cs := by
  obtain ⟨k, hkhead, hklinked, hk⟩ := h c.power hlt
  -- The neighbours of the cell in the list of its power.
  obtain ⟨k₁, k₂, rfl⟩ := append_of_mem
    (hk.mem_iff.mpr (mem_free_at.mpr ⟨c, mem_cons_self, hfree, rfl, rfl⟩))
  obtain ⟨hprev, hnext⟩ := hklinked.mid
  have hknodup := hk.nodup_iff.mpr ha.free_at_nodup
  have hkzero : ∀ y ∈ k₁ ++ c.pos :: k₂, y ≠ 0 := fun y hy h0 =>
    ha.zero_not_mem (hk.mem_iff.mp (h0 ▸ hy))
  intro q hq
  rcases Decidable.em (q = c.power) with rfl | hne
  · have hsub : ∀ y ∈ k₁ ++ k₂, y ≠ 0 := fun y hy => hkzero y (by
      rcases mem_append.mp hy with hy | hy <;> simp [hy])
    refine ⟨k₁ ++ k₂, ?_, hklinked.unlink_of_nodup hknodup (fun h0 => hkzero 0 h0 rfl)
      (fun h0 => hkzero 0 h0 rfl) (fun y hy => unlink_next (hsub y hy))
      (fun y hy => unlink_prev (hsub y hy)), ?_⟩
    · rw [hklinked.headD_unlink fun h0 => hkzero 0 (mem_append_left _ h0) rfl, unlink_fl, hpow,
        ← hkhead]
      simp only [and_true]
    · rw [free_at_cons_self hfree] at hk
      exact (perm_cons _).mp (perm_middle.symm.trans hk)
  · obtain ⟨l, hhead, hlinked, hl⟩ := h q hq
    rw [free_at_cons_of_ne (Ne.symm hne)] at hl
    -- The neighbours are in another list.
    have hother : ∀ y ∈ l, y ∉ k₁ ++ c.pos :: k₂ := fun y hy hyk => by
      have hyl := hl.mem_iff.mp hy
      rw [← free_at_cons_of_ne (Ne.symm hne)] at hyl
      exact hne (ha.power_eq hyl (hk.mem_iff.mp hyk))
    have hnz : ∀ y ∈ l, y ≠ 0 := fun y hy h0 => ha.tail.zero_not_mem (hl.mem_iff.mp (h0 ▸ hy))
    refine ⟨l, ?_, hlinked.congr (fun y hy => ?_) (fun y hy => ?_), hl⟩
    · rw [unlink_fl, if_neg (by rw [hpow]; exact fun h => hne h.2), hhead]
    · rw [unlink_next (hnz y hy), if_neg]
      rw [hprev]
      intro heq
      rcases getLastD_mem_or k₁ 0 with hlast | hlast
      · exact hnz y hy (heq.trans hlast)
      · exact hother y hy (heq ▸ mem_append_left _ hlast)
    · rw [unlink_prev (hnz y hy), if_neg]
      rw [hnext]
      intro heq
      rcases headD_mem_or k₂ 0 with hhead | hhead
      · exact hnz y hy (heq.trans hhead)
      · exact hother y hy (heq ▸ mem_append_right _ (mem_cons_of_mem _ hhead))

/-- No slot comes before the head of a freelist. -/
theorem FreeLists.prev_head (h : FreeLists mem fl cs) (hlt : p < cutOffNum) (hne : fl p ≠ 0) :
    mem.prev (fl p) = 0 := by
  obtain ⟨l, hl, hlinked, -⟩ := h p hlt
  cases l with
  | nil => exact absurd hl hne
  | cons x l =>
    rw [hl]
    exact hlinked.1

/-- The head of a freelist is taken out. -/
theorem FreeLists.pop (h : FreeLists mem fl (c :: cs)) (ha : Apart (c :: cs))
    (hfree : c.free = true)
    (hpow : mem.power c.pos = c.power) (hlt : c.power < cutOffNum) (hhead : fl c.power = c.pos)
    (hn : ∀ d ∈ cs, mem'.next d.pos = mem.next d.pos)
    (hp : ∀ d ∈ cs, mem'.prev d.pos = if d.pos = mem.next c.pos then 0 else mem.prev d.pos)
    (hfl : ∀ q < cutOffNum, fl' q = if q = c.power then mem.next c.pos else fl q) :
    FreeLists mem' fl' cs := by
  have hzero : ∀ d ∈ cs, d.pos ≠ 0 := fun d hd => ha.ne_zero d (mem_cons_of_mem _ hd)
  have hprev : mem.prev c.pos = 0 := by
    rw [← hhead]
    exact h.prev_head hlt (by rw [hhead]; exact ha.ne_zero c mem_cons_self)
  -- The list operation is that of `unlink` on the head of a list.
  refine (h.unlink ha hfree hpow hlt).congr (fun d hd _ => ?_) (fun d hd _ => ?_) fun q hq => ?_
  · rw [hn d hd, unlink_next (hzero d hd), hprev, if_neg (hzero d hd)]
  · rw [hp d hd, unlink_prev (hzero d hd), hprev]
  · rw [hfl q hq, unlink_fl, hprev, hpow]
    simp only [true_and]

/-! ## Putting a cell in -/

/-- The links to the next slot after a push. -/
theorem push_next (loc blk gprev y : Int) (i : Nat) : (pushFree fl mem loc blk i gprev).2.next y =
    if y = loc then fl i else mem.next y := by
  simp only [pushFree, putFree, setGnext, setNext, setPrev]
  split <;> simp [update_apply] <;> split <;> rfl

/-- The links to the slot before. -/
theorem push_prev {y : Int} (loc blk gprev : Int) (i : Nat) (hy : y ≠ 0) :
    (pushFree fl mem loc blk i gprev).2.prev y =
      if y = fl i then loc else if y = loc then 0 else mem.prev y := by
  simp only [pushFree, putFree, setGnext, setNext, setPrev]
  split <;> simp_all [update_apply]

/-- A free cell is put into its list. -/
theorem FreeLists.push {loc : Int} {i : Nat} (h : FreeLists mem fl cs) (blk gprev : Int)
    (ha : Apart (⟨loc, i, true⟩ :: cs)) (hi : i < cutOffNum) :
    FreeLists (pushFree fl mem loc blk i gprev).2 (pushFree fl mem loc blk i gprev).1
      (⟨loc, i, true⟩ :: cs) := by
  have hloc : loc ≠ 0 := ha.ne_zero ⟨loc, i, true⟩ mem_cons_self
  have hnew : ∀ q y, y ∈ freeAt q cs → y ≠ loc := by
    intro q y hy heq
    obtain ⟨d, hd, -, -, hpos⟩ := mem_free_at.mp hy
    have hmem : d.pos ∈ cs.map Cell.pos := mem_map_of_mem hd
    rw [hpos, heq] at hmem
    exact (nodup_cons.mp ha.nodup).1 hmem
  obtain ⟨k, hkhead, hklinked, hk⟩ := h i hi
  intro q hq
  obtain ⟨l, hhead, hlinked, hl⟩ := h q hq
  have hnz : ∀ y ∈ l, y ≠ 0 := fun y hy h0 => ha.tail.zero_not_mem (hl.mem_iff.mp (h0 ▸ hy))
  have hne : ∀ y ∈ l, y ≠ loc := fun y hy => hnew q y (hl.mem_iff.mp hy)
  have hn : ∀ y ∈ l, (pushFree fl mem loc blk i gprev).2.next y = mem.next y := fun y hy => by
    rw [push_next, if_neg (hne y hy)]
  rcases Decidable.em (q = i) with rfl | hqi
  · have hflloc : fl q ≠ loc := by
      rw [hhead]
      rcases headD_mem_or l 0 with h0 | hmem
      · exact fun heq => hloc (heq.symm.trans h0)
      · exact hne _ hmem
    have hlnodup := hl.nodup_iff.mpr ha.tail.free_at_nodup
    refine ⟨loc :: l, ?_, hlinked.push ?_ ?_ (fun y hy => ?_) hn (fun y hy => ?_), ?_⟩
    · exact Function.update_self ..
    · rw [push_prev _ _ _ _ hloc, if_neg (Ne.symm hflloc), if_pos rfl]
    · rw [push_next, if_pos rfl, hhead]
    · rw [push_prev _ _ _ _ (hnz y (mem_of_head? hy)), if_pos]
      rw [hhead, headD_eq_head?_getD, hy]
      rfl
    · rw [push_prev _ _ _ _ (hnz y (mem_of_mem_tail hy)), if_neg,
        if_neg (hne y (mem_of_mem_tail hy))]
      rw [hhead]
      exact ne_headD_of_mem_tail hlnodup hy 0
    · rw [free_at_cons_self (c := ⟨loc, q, true⟩) rfl]
      exact hl.cons _
  · refine ⟨l, ?_, hlinked.congr hn (fun y hy => ?_), ?_⟩
    · exact (Function.update_of_ne hqi ..).trans hhead
    · rw [push_prev _ _ _ _ (hnz y hy), if_neg, if_neg (hne y hy)]
      -- The head that is changed is in another list.
      rw [hkhead]
      intro heq
      rcases headD_mem_or k 0 with h0 | hmem
      · exact hnz y hy (heq.trans h0)
      · exact hqi (ha.tail.power_eq (hl.mem_iff.mp hy) (hk.mem_iff.mp (heq ▸ hmem)))
    · rw [free_at_cons_of_ne (Ne.symm hqi)]
      exact hl

end Reconverse.Mempool
