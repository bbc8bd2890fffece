import Reconverse.Lib.Runs
import Reconverse.Mempool.Remove

/-!
# Runs of the pool

A program calls `mempool_malloc` and `mempool_free` in any order and writes into the memory it was
given. `State` has the pool and, as ghost state, the allocations that are live, the blocks that
`newblockfn` has given, and three sums for every block. `State.Inv` is kept by every call that does
not remove a block, and by every call that removes only blocks without live allocations.
-/

namespace Reconverse.Mempool

open Function (update)
open Lib Lib.DList List

variable {s s' : State} {e : Event}

/-! ## States and events -/

/-- A place is in a range. -/
def Range.Contains (r : Range) (p : Int) : Prop := r.base ≤ p ∧ p < r.base + r.size

instance (r : Range) (p : Int) : Decidable (r.Contains p) := inferInstanceAs (Decidable (_ ∧ _))

/-- A pool in use. -/
structure State where
  pool : Pool
  /-- The allocations that were handed out and not freed: the pointers and the requested sizes. -/
  live : List Range
  /-- The blocks that were obtained and not given back. -/
  owned : List Range
  /-- For every block, the sum of the powers of the slots handed out from it. -/
  given : Int → Nat
  /-- For every block, the sum of the sizes of the slots handed out from it. -/
  out : Int → Nat
  /-- For every block, the sum of the sizes of the slots freed into it. -/
  back : Int → Nat

/-- A call of the program, or a write into its memory. `newblock` is what `newblockfn` returns if
it is called. -/
inductive Event where
  | malloc (size : Nat) (expand : Bool) (newblock : Option Range)
  | free (ptr : Int)
  | write (junk : Slots)

/-- The power of the slot for a request. -/
def powerOf (size : Nat) : Nat := whichPow2 (size + sizeofUsedHeader)

/-- What `mempool_malloc` asks `newblockfn` for. -/
def requested (size : Nat) : Nat :=
  if powerOf size < cutOffNum then cutOffPoints (powerOf size) + sizeofBlockHeader
  else size + sizeofLargeBlockHeader + sizeofUsedHeader

/-- The base of the block that holds a place. -/
def holder (owned : List Range) (p : Int) : Int :=
  ((owned.find? fun r => r.Contains p).map Range.base).getD 0

/-- The ghost state after the blocks `removed` were given back and a block was obtained. -/
def State.exchange (s : State) (removed : List Int) (obtained : Option (Int × Nat)) : State :=
  let owned := s.owned.filter fun r => r.base ∉ removed
  match obtained with
  | none => { s with owned := owned }
  | some (base, size) =>
    { s with
      owned := ⟨base, size⟩ :: owned
      given := update s.given base 0
      out := update s.out base 0
      back := update s.back base 0 }

/-- The ghost state after an allocation. -/
def State.handOut (s : State) (size : Nat) (ptr : Int) : State :=
  let blk := holder s.owned ptr
  { s with
    live := ⟨ptr, size⟩ :: s.live
    given := update s.given blk (s.given blk + powerOf size)
    out := update s.out blk (s.out blk + cutOffPoints (powerOf size)) }

/-- The state after a call of `mempool_malloc`. -/
def State.finish (s : State) (size : Nat) (o : Outcome) : State :=
  let s := { s.exchange (o.removed.getD []) o.obtained with pool := o.pool }
  match o.ptr with
  | none => s
  | some ptr => s.handOut size ptr

/-- The ghost state after an allocation was freed. -/
def State.takeBack (s : State) (ptr : Int) : State :=
  let blk := holder s.owned ptr
  let size := ((s.live.find? fun a => a.base = ptr).map Range.size).getD 0
  { s with
    live := s.live.eraseP fun a => a.base = ptr
    back := update s.back blk (s.back blk + cutOffPoints (powerOf size)) }

/-- A byte that the program may write: one of a live allocation, or of memory that the pool does
not own. -/
def State.Writable (s : State) (z : Int) : Prop :=
  (∃ a ∈ s.live, a.Contains z) ∨ ∀ r ∈ s.owned, ¬ r.Contains z

instance (s : State) (z : Int) : Decidable (s.Writable z) := inferInstanceAs (Decidable (_ ∨ _))

/-- One of `n` bytes at offset `k` of the header at `y` may be written. -/
def State.touches (s : State) (y : Int) (k n : Nat) : Bool :=
  (List.range n).any fun i => s.Writable (y + (k + i : Nat))

/-- The headers after the program wrote into its memory. A header that lies in memory of the
program has arbitrary fields, and the `next` of a used slot is the start of the user's memory. -/
def State.scribble (s : State) (junk : Slots) : Slots where
  blockPtr y := if s.touches y 0 8 then junk.blockPtr y else s.pool.slots.blockPtr y
  size y := if s.touches y 8 8 then junk.size y else s.pool.slots.size y
  power y := if s.touches y 16 4 then junk.power y else s.pool.slots.power y
  status y := if s.touches y 20 4 then junk.status y else s.pool.slots.status y
  gprev y := if s.touches y 24 8 then junk.gprev y else s.pool.slots.gprev y
  gnext y := if s.touches y 32 8 then junk.gnext y else s.pool.slots.gnext y
  prev y := if s.touches y 40 8 then junk.prev y else s.pool.slots.prev y
  next y := if s.touches y 48 8 then junk.next y else s.pool.slots.next y

/-- The state after an event, and the blocks that `removeblocks` gave back if it was called. There
is none if the program aborts. -/
def State.call (s : State) : Event → Option (State × Option (List Int))
  | .malloc size expand newblock => do
    let o ← mempoolMalloc s.pool size expand (newblock.map fun r => (r.base, r.size))
    pure (s.finish size o, o.removed)
  | .free ptr => do
    let (pool, freed) ← mempoolFree s.pool ptr
    pure ({ (s.takeBack ptr).exchange freed.toList none with pool := pool }, none)
  | .write junk => some ({ s with pool := { s.pool with slots := s.scribble junk } }, none)

/-- What the program and `newblockfn` promise: a new block is apart from all memory that is owned,
has the size that was asked for and, if it is for slots, less than `2 ^ 30` bytes behind its header;
only live allocations are freed. -/
def Allowed (owned live : List Range) : Event → Prop
  | .malloc size _ newblock => ∀ r, newblock = some r → (∀ q ∈ owned, q.Apart r) ∧
      requested size ≤ r.size ∧ (powerOf size < cutOffNum → r.size < sizeofBlockHeader + 2 ^ 30)
  | .free ptr => ptr ∈ live.map Range.base
  | .write _ => True

instance (owned live : List Range) : (e : Event) → Decidable (Allowed owned live e)
  | .malloc _ _ none => isTrue nofun
  | .malloc size expand (some r) =>
    decidable_of_iff ((∀ q ∈ owned, q.Apart r) ∧ requested size ≤ r.size ∧
      (powerOf size < cutOffNum → r.size < sizeofBlockHeader + 2 ^ 30)) (by simp [Allowed])
  | .free ptr => inferInstanceAs (Decidable (ptr ∈ live.map Range.base))
  | .write _ => isTrue trivial

/-- A step in which `removeblocks` is not called. -/
def QuietStep (s : State) (e : Event) (s' : State) : Prop :=
  Allowed s.owned s.live e ∧ s.call e = some (s', none)

/-- A step in which `removeblocks` may be called. A new block may lie in memory that was just
given back. -/
def CallStep (s : State) (e : Event) (s' : State) : Prop :=
  ∃ removed, s.call e = some (s', removed) ∧
    Allowed (s.owned.filter fun r => r.base ∉ removed.getD []) s.live e

/-- A step whose state before it meets the condition if `removeblocks` is called. -/
def GuardedStep (P : State → Prop) (s : State) (e : Event) (s' : State) : Prop :=
  ∃ removed, s.call e = some (s', removed) ∧
    Allowed (s.owned.filter fun r => r.base ∉ removed.getD []) s.live e ∧ (removed ≠ none → P s)

/-- The guarded step, computed. -/
def State.next (P : State → Prop) [DecidablePred P] (s : State) (e : Event) : Option State := do
  let (s', removed) ← s.call e
  if Allowed (s.owned.filter fun r => r.base ∉ removed.getD []) s.live e ∧ (removed ≠ none → P s)
  then pure s' else none

/-- The check that a run can be evaluated with. -/
theorem guarded_step_of_next {P : State → Prop} [DecidablePred P] (h : s.next P e = some s') :
    GuardedStep P s e s' := by
  simp only [State.next, bind, Option.bind_eq_some_iff] at h
  obtain ⟨⟨s₁, removed⟩, hcall, h⟩ := h
  split at h
  · rename_i hallowed
    cases h
    exact ⟨removed, hcall, hallowed⟩
  · cases h

theorem call_step_of_next (h : s.next (fun _ => True) e = some s') : CallStep s e s' := by
  obtain ⟨removed, hcall, hallowed, -⟩ := guarded_step_of_next h
  exact ⟨removed, hcall, hallowed⟩

theorem quiet_step_of_next (h : s.next (fun _ => False) e = some s') : QuietStep s e s' := by
  obtain ⟨removed, hcall, hallowed, hquiet⟩ := guarded_step_of_next h
  obtain rfl : removed = none := Decidable.byContradiction hquiet
  rw [filter_eq_self.mpr (by simp)] at hallowed
  exact ⟨hallowed, hcall⟩

/-- A pool that was just initialised. -/
def State.initial (pool : Pool) : State where
  pool := pool
  live := []
  owned := [⟨0, pool.size⟩]
  given := fun _ => 0
  out := fun _ => 0
  back := fun _ => 0

/-! ## The invariant -/

/-- The used cells of a block. -/
def BlockDesc.used (b : BlockDesc) : List Cell := b.cells.filter fun c => !c.free

def usedCells (bs : List BlockDesc) : List Cell := bs.flatMap BlockDesc.used

/-- The pointers to the used slots and the large blocks. -/
def livePtrs (bs : List BlockDesc) (ls : List Range) : List Int :=
  (usedCells bs).map (fun c => c.pos + (sizeofUsedHeader : Int)) ++
    ls.map fun l => l.base + (sizeofLargeBlockHeader : Int) + (sizeofUsedHeader : Int)

/-- An allocation has a used slot of the right power, or a large block, for itself. -/
def Range.Fits (a : Range) (bs : List BlockDesc) (ls : List Range) : Prop :=
  (∃ c ∈ usedCells bs, a.base = c.pos + sizeofUsedHeader ∧ c.power = powerOf a.size) ∨
    ∃ l ∈ ls, a.base = l.base + sizeofLargeBlockHeader + sizeofUsedHeader ∧
      a.size + sizeofLargeBlockHeader + sizeofUsedHeader ≤ l.size ∧ cutOffNum ≤ powerOf a.size

/-- The sums of a block make up its counter. The slots handed out from it are those freed into it
and the used ones. -/
def State.Counted (s : State) (b : BlockDesc) : Prop :=
  s.pool.blocks.used b.base = BitVec.ofNat 64 (s.given b.base) - BitVec.ofNat 64 (s.back b.base) ∧
    s.out b.base = s.back b.base + total b.used ∧ 2 * s.given b.base ≤ s.out b.base

/-- The state consists of the blocks `bs` and the large blocks `ls`. -/
structure State.Inv (s : State) (bs : List BlockDesc) (ls : List Range) : Prop where
  pool : PoolInv s.pool bs ls
  owned : s.owned.Perm (ranges bs ls)
  live : (s.live.map Range.base).Perm (livePtrs bs ls)
  fits : ∀ a ∈ s.live, a.Fits bs ls
  counters : ∀ b ∈ bs, s.Counted b

variable {s s' : State} {b : BlockDesc} {bs bs' bs₁ bs₂ : List BlockDesc} {l : Range}
  {ls ls' ls₁ ls₂ : List Range} {c : Cell} {size : Nat}

theorem used_cells_mid (bs₁ bs₂ : List BlockDesc) (b : BlockDesc) :
    (usedCells (bs₁ ++ b :: bs₂)).Perm (b.used ++ usedCells (bs₁ ++ bs₂)) := by
  simp only [usedCells, flatMap_append, flatMap_cons]
  exact perm_append_comm_assoc ..

theorem mem_used_cells : c ∈ usedCells bs ↔ ∃ b ∈ bs, c ∈ b.cells ∧ c.free = false := by
  simp [usedCells, BlockDesc.used]

variable {p : Pool}

/-- Two ranges of a pool are apart unless they are the same. -/
theorem PoolInv.apart_of_ne (h : PoolInv p bs ls) {r r' : Range} (hr : r ∈ ranges bs ls)
    (hr' : r' ∈ ranges bs ls) (hne : r.base ≠ r'.base) : r.Apart r' := by
  exact h.apart.forall hr hr' fun heq => hne (congrArg _ heq)

/-- The slot of a cell. -/
def Cell.range (c : Cell) : Range := ⟨c.pos, c.size⟩

/-- Two slots are apart. -/
theorem PoolInv.slots_apart {b' : BlockDesc} {c' : Cell} (h : PoolInv p bs ls) (hb : b ∈ bs)
    (hc : c ∈ b.cells) (hb' : b' ∈ bs) (hc' : c' ∈ b'.cells) (hne : c ≠ c') :
    c.range.Apart c'.range := by
  by_cases hbase : b.base = b'.base
  · have hnodup := h.bases_nodup
    rw [bases_ranges, nodup_append] at hnodup
    obtain rfl := inj_on_of_nodup_map hnodup.1 hb hb' hbase
    have hpair : b.cells.Pairwise fun x y : Cell => x.range.Apart y.range :=
      (h.ok b hb).inv.row.tiled.pairwise.imp fun hxy => .inl hxy
    exact hpair.forall hc hc' hne
  · have hapart := h.apart_of_ne (mem_append_left _ (mem_map_of_mem hb))
      (mem_append_left _ (mem_map_of_mem hb')) hbase
    have hin := (h.ok b hb).inside hc
    have hin' := (h.ok b' hb').inside hc'
    rw [BlockDesc.start] at hin hin'
    simp only [Range.Apart, Cell.range] at hapart ⊢
    omega

/-- A slot and a large block are apart. -/
theorem PoolInv.slot_large_apart (h : PoolInv p bs ls) (hb : b ∈ bs) (hc : c ∈ b.cells)
    (hl : l ∈ ls) : c.range.Apart l := by
  have hnodup := h.bases_nodup
  rw [bases_ranges, nodup_append] at hnodup
  have hne := hnodup.2.2 b.base (mem_map_of_mem hb) l.base (mem_map_of_mem hl)
  have hapart := h.apart_of_ne (mem_append_left _ (mem_map_of_mem hb))
    (mem_append_right _ hl) hne
  have hin := (h.ok b hb).inside hc
  rw [BlockDesc.start] at hin
  simp only [Range.Apart, Cell.range] at hapart ⊢
  omega

/-- The memory that an allocation has for itself: a used slot or a large block. -/
theorem PoolInv.fits_cases (h : PoolInv p bs ls) {a : Range} (ha : a.Fits bs ls) :
    (∃ b ∈ bs, ∃ c ∈ b.cells, c.free = false ∧ a.base = c.pos + sizeofUsedHeader ∧
        a.size + sizeofUsedHeader ≤ c.size) ∨
      ∃ l ∈ ls, a.base = l.base + sizeofLargeBlockHeader + sizeofUsedHeader ∧
        a.size + sizeofLargeBlockHeader + sizeofUsedHeader ≤ l.size := by
  refine ha.imp ?_ fun ⟨l, hl, hbase, hsize, _⟩ => ⟨l, hl, hbase, hsize⟩
  rintro ⟨c, hc, hbase, hpow⟩
  obtain ⟨b, hb, hcb, hused⟩ := mem_used_cells.mp hc
  have hlt := (h.ok b hb).inv.row.powers c hcb
  rw [hpow] at hlt
  refine ⟨b, hb, c, hcb, hused, hbase, ?_⟩
  rw [Cell.size, hpow]
  exact le_cut_off_which_pow2 (Nat.le_of_lt hlt)

/-- No slot is used twice. -/
theorem PoolInv.used_nodup (h : PoolInv p bs ls) : ((usedCells bs).map Cell.pos).Nodup := by
  rw [usedCells, map_flatMap, nodup_flatMap]
  refine ⟨fun b hb => ?_, ?_⟩
  · exact (filter_sublist.map Cell.pos).nodup (h.ok b hb).inv.apart.nodup
  · have hapart := h.apart
    rw [ranges, pairwise_append, pairwise_map] at hapart
    refine hapart.1.imp_of_mem fun {b b'} hb hb' hbb x hx hx' => ?_
    obtain ⟨c, hc, rfl⟩ := mem_map.mp hx
    obtain ⟨c', hc', hpos⟩ := mem_map.mp hx'
    have hin := (h.ok b hb).inside (mem_of_mem_filter hc)
    have hin' := (h.ok b' hb').inside (mem_of_mem_filter hc')
    have := size_pos c
    have := size_pos c'
    rw [BlockDesc.start] at hin hin'
    rw [Range.Apart] at hbb
    omega

/-- No two pointers are the same. -/
theorem PoolInv.live_ptrs_nodup (h : PoolInv p bs ls) : (livePtrs bs ls).Nodup := by
  rw [livePtrs, nodup_append]
  refine ⟨?_, ?_, ?_⟩
  · have hnodup := h.used_nodup
    rw [List.Nodup, pairwise_map] at hnodup ⊢
    exact hnodup.imp fun hne heq => hne (by omega)
  · have hnodup := h.large_bases.1
    rw [List.Nodup, pairwise_map] at hnodup ⊢
    exact hnodup.imp fun hne heq => hne (by omega)
  · intro x hx y hy
    obtain ⟨c, hc, rfl⟩ := mem_map.mp hx
    obtain ⟨l, hl, rfl⟩ := mem_map.mp hy
    obtain ⟨b, hb, hcb, -⟩ := mem_used_cells.mp hc
    have hapart := h.slot_large_apart hb hcb hl
    have hfits := (h.largeOk l hl).fits
    simp only [Range.Apart, Cell.range] at hapart
    simp only [sizeofUsedHeader, sizeofLargeBlockHeader] at hfits ⊢
    omega

theorem State.Inv.live_nodup (h : s.Inv bs ls) : (s.live.map Range.base).Nodup :=
  h.live.nodup_iff.mpr h.pool.live_ptrs_nodup

/-- The live allocations do not overlap. -/
theorem State.Inv.live_apart (h : s.Inv bs ls) : s.live.Pairwise Range.Apart := by
  have hnodup := h.live_nodup
  rw [List.Nodup, pairwise_map] at hnodup
  refine hnodup.imp_of_mem fun {a a'} ha ha' hne => ?_
  rcases h.pool.fits_cases (h.fits a ha) with ⟨b, hb, c, hc, -, hbase, hsize⟩ |
    ⟨l, hl, hbase, hsize⟩
    <;> rcases h.pool.fits_cases (h.fits a' ha') with
      ⟨b', hb', c', hc', -, hbase', hsize'⟩ | ⟨l', hl', hbase', hsize'⟩
  · have hapart := h.pool.slots_apart hb hc hb' hc' fun heq => hne (by rw [hbase, hbase', heq])
    simp only [Range.Apart, Cell.range] at hapart ⊢
    omega
  · have hapart := h.pool.slot_large_apart hb hc hl'
    simp only [Range.Apart, Cell.range] at hapart ⊢
    omega
  · have hapart := h.pool.slot_large_apart hb' hc' hl
    simp only [Range.Apart, Cell.range] at hapart ⊢
    omega
  · have hapart := h.pool.apart_of_ne (mem_append_right _ hl) (mem_append_right _ hl')
      (show l.base ≠ l'.base by omega)
    simp only [Range.Apart] at hapart ⊢
    omega

/-- The block of a place is determined. -/
theorem holder_eq {owned : List Range} {r : Range} {p : Int} (hapart : owned.Pairwise Range.Apart)
    (hr : r ∈ owned) (hp : r.Contains p) : holder owned p = r.base := by
  have hfind : (owned.find? fun r => r.Contains p).isSome :=
    find?_isSome.mpr ⟨r, hr, decide_eq_true hp⟩
  obtain ⟨r', hr'⟩ := Option.isSome_iff_exists.mp hfind
  have hp' : r'.Contains p := by simpa using find?_some hr'
  rw [holder, hr', Option.map_some, Option.getD_some]
  refine Decidable.byContradiction fun hne => ?_
  have hboth := hapart.forall (mem_of_find?_eq_some hr') hr fun heq => hne (congrArg _ heq)
  simp only [Range.Apart, Range.Contains] at hboth hp hp'
  omega

end Reconverse.Mempool
